import Kerneloid.UnnamedFS.Types

/-! # Stripping HTML tags

`browser_parse_html` of `browser.c`. Reads of the string and stores to the output are checked:
`Fault` says which of the two went out of bounds first. `p` is the part of the string from
`html + i` on, and the byte behind its last one is the terminator.

A turn of the loop puts out the character it is at, or line breaks for a tag: `emissions` are what
the characters put out one after the other. The loop checks for room once in a turn, for one byte
and the terminator; a paragraph tag puts out two. So no store of the loop fails, but the terminator
can stand one behind the end (`html_stripped`). -/

namespace Kerneloid.Browser.Html

open UnnamedFS.Types

/-! ### The code -/

/-- An access out of bounds. -/
inductive Fault
  | read
  | write
  deriving DecidableEq

def charIs (p : CStr) (k : ℕ) (c : UInt8) : Except Fault Bool :=
  if k ≤ p.length then .ok (p.getD k 0 = c) else .error .read

/-- `a && b`, and `a || b`: the second one is looked at only if it matters. -/
def both (a b : Except Fault Bool) : Except Fault Bool := do if ← a then b else return false

@[inherit_doc both]
def either (a b : Except Fault Bool) : Except Fault Bool := do if ← a then return true else b

/-- `output[out_idx++] = c`, with `out_idx` the number of bytes put out. -/
def emit (maxLen : ℕ) (c : UInt8) (out : List UInt8) : Except Fault (List UInt8) :=
  if out.length < maxLen then .ok (out ++ [c]) else .error .write

/-- The branches for special tags, at a `<`. -/
def special (maxLen : ℕ) (p : CStr) (out : List UInt8) : Except Fault (List UInt8) := do
  let br ← both (charIs p 1 98) (charIs p 2 114)
  let out ← if br then emit maxLen 10 out else pure out
  let par ← both (charIs p 1 112) (either (charIs p 2 62) (charIs p 2 32))
  let out ← if par then emit maxLen 10 out >>= emit maxLen 10 else pure out
  if ← charIs p 1 47 then
    let out ← if ← charIs p 2 112 then emit maxLen 10 out >>= emit maxLen 10 else pure out
    let div ← both (charIs p 2 100) (both (charIs p 3 105) (charIs p 4 118))
    if div then emit maxLen 10 out else pure out
  else pure out

def stripLoop (maxLen : ℕ) : CStr → Bool → List UInt8 → Except Fault (List UInt8)
  | [], _, out => .ok out
  | c :: rest, inTag, out =>
    if out.length < maxLen - 1 then
      if c = 60 then do
        let out ← special maxLen (c :: rest) out
        stripLoop maxLen rest true out
      else if c = 62 then stripLoop maxLen rest false out
      else if !inTag then do
        let out ← emit maxLen c out
        stripLoop maxLen rest inTag out
      else stripLoop maxLen rest inTag out
    else .ok out

/-- `browser_parse_html` with a buffer of `max_len` bytes, of which there is at least one. The
result is what is put out, with the terminator. -/
def browserParseHtml (html : CStr) (maxLen : ℕ) : Except Fault (List UInt8) := do
  let out ← stripLoop maxLen html false []
  emit maxLen 0 out

/-! ### What the characters put out -/

/-- The line breaks for a tag, from what follows its `<`. -/
def breaks (rest : CStr) : ℕ :=
  if cstr "br" <+: rest then 1
  else if cstr "p>" <+: rest ∨ cstr "p " <+: rest ∨ cstr "/p" <+: rest then 2
  else if cstr "/div" <+: rest then 1
  else 0

/-- **What each character puts out.** -/
def emissions : Bool → CStr → List (List UInt8)
  | _, [] => []
  | inTag, c :: rest =>
    if c = 60 then List.replicate (breaks rest) 10 :: emissions true rest
    else if c = 62 then [] :: emissions false rest
    else if !inTag then [c] :: emissions inTag rest
    else [] :: emissions inTag rest

/-- What is put out in a buffer of `max_len` bytes that has `out` already. -/
def fill (maxLen : ℕ) : List UInt8 → List (List UInt8) → List UInt8
  | out, [] => out
  | out, e :: es => if out.length < maxLen - 1 then fill maxLen (out ++ e) es else out

variable {maxLen : ℕ} {p rest : CStr} {out : List UInt8}

theorem emit_room {c : UInt8} (h : out.length < maxLen) : emit maxLen c out = .ok (out ++ [c]) :=
  if_pos h

@[simp] theorem both_true (b : Except Fault Bool) : both (.ok true) b = b := rfl
@[simp] theorem both_false (b : Except Fault Bool) : both (.ok false) b = .ok false := rfl
@[simp] theorem either_true (b : Except Fault Bool) : either (.ok true) b = .ok true := rfl
@[simp] theorem either_false (b : Except Fault Bool) : either (.ok false) b = b := rfl

@[simp] theorem charIs_succ (x : UInt8) (p : CStr) (k : ℕ) (c : UInt8) :
    charIs (x :: p) (k + 1) c = charIs p k c := by
  simp [charIs]

@[simp] theorem charIs_zero (x : UInt8) (p : CStr) (c : UInt8) :
    charIs (x :: p) 0 c = .ok (decide (x = c)) := by
  simp [charIs]

@[simp] theorem charIs_nil (c : UInt8) : charIs [] 0 c = .ok (decide (0 = c)) := rfl

@[simp] theorem ok_bind {α β : Type} (a : α) (f : α → Except Fault β) : (.ok a >>= f) = f a := rfl
@[simp] theorem pure_ok {α : Type} (a : α) : (pure a : Except Fault α) = .ok a := rfl

/-- The branches read up to the first character that does not fit, and put out the line breaks. -/
theorem special_eq (h : out.length + 1 < maxLen) :
    special maxLen (60 :: rest) out = .ok (out ++ List.replicate (breaks rest) 10) := by
  have hone : emit maxLen 10 out = .ok (out ++ [10]) := emit_room (by omega)
  have htwo : emit maxLen 10 (out ++ [10]) = .ok (out ++ [10] ++ [10]) :=
    emit_room (by simpa using h)
  unfold special breaks cstr
  rcases rest with _ | ⟨a, r⟩
  · simp
  by_cases hb : a = 98
  · subst hb
    rcases r with _ | ⟨b, r⟩
    · simp
    · by_cases hr : b = 114
      · simp [hr, hone]
      · simp [hr, Ne.symm hr]
  by_cases hp : a = 112
  · subst hp
    rcases r with _ | ⟨b, r⟩
    · simp
    · by_cases hgt : b = 62
      · simp [hgt, hone, htwo]
      · by_cases hsp : b = 32
        · simp [hsp, hone, htwo]
        · simp [hgt, hsp, Ne.symm hgt, Ne.symm hsp]
  by_cases hs : a = 47
  · subst hs
    rcases r with _ | ⟨b, r⟩
    · simp
    · by_cases hp' : b = 112
      · simp [hp', hone, htwo]
      · by_cases hd : b = 100
        · subst hd
          rcases r with _ | ⟨i, r⟩
          · simp
          · by_cases hi : i = 105
            · rcases r with _ | ⟨v, r⟩
              · simp [hi]
              · by_cases hv : v = 118
                · simp [hi, hv, hone]
                · simp [hi, hv, Ne.symm hv]
            · simp [hi, Ne.symm hi]
        · simp [hp', hd, Ne.symm hp', Ne.symm hd]
  · simp [hb, hp, hs, Ne.symm hb, Ne.symm hp, Ne.symm hs]

/-- **The loop puts out what fits**, and none of its accesses is out of bounds. -/
theorem stripLoop_eq (html : CStr) (inTag : Bool) (out : List UInt8) :
    stripLoop maxLen html inTag out = .ok (fill maxLen out (emissions inTag html)) := by
  induction html generalizing inTag out with
  | nil => rfl
  | cons c rest ih =>
    unfold stripLoop emissions
    by_cases hroom : out.length < maxLen - 1
    · rw [if_pos hroom]
      split_ifs with htag hend htext
      · rw [htag, special_eq (by omega), ok_bind, ih, fill, if_pos hroom]
      · rw [ih, fill, if_pos hroom, List.append_nil]
      · rw [emit_room (by omega), ok_bind, ih, fill, if_pos hroom]
      · rw [ih, fill, if_pos hroom, List.append_nil]
    · rw [if_neg hroom]
      split_ifs <;> rw [fill, if_neg hroom]

/-! ### The end of the buffer -/

theorem breaks_le (rest : CStr) : breaks rest ≤ 2 := by
  unfold breaks
  split_ifs <;> omega

theorem emissions_le (inTag : Bool) (html : CStr) : ∀ e ∈ emissions inTag html, e.length ≤ 2 := by
  induction html generalizing inTag with
  | nil => simp [emissions]
  | cons c rest ih =>
    have hbreaks := breaks_le rest
    unfold emissions
    split_ifs <;> refine List.forall_mem_cons.mpr ⟨?_, ih _⟩ <;> simp [hbreaks]

/-- **The terminator has room**: when all but two bytes of the buffer are used, the next character
puts out one byte at most. -/
def Clear (maxLen used : ℕ) (es : List (List UInt8)) : Prop :=
  ∀ k < es.length, used + (es.take k).flatten.length + 2 = maxLen → (es.getD k []).length ≠ 2

instance (maxLen used : ℕ) (es : List (List UInt8)) : Decidable (Clear maxLen used es) :=
  inferInstanceAs (Decidable (∀ k < _, _ → _))

theorem clear_cons (used : ℕ) (e : List UInt8) (es : List (List UInt8)) :
    Clear maxLen used (e :: es) ↔
      (used + 2 = maxLen → e.length ≠ 2) ∧ Clear maxLen (used + e.length) es := by
  unfold Clear
  rw [List.length_cons, Nat.forall_lt_succ_left]
  refine and_congr (by simp) (forall₂_congr fun k _ => ?_)
  simp [add_assoc]

/-- The buffer is filled up to its last byte at most, and up to the last but one exactly if the
terminator has room. -/
theorem length_fill (es : List (List UInt8)) (hes : ∀ e ∈ es, e.length ≤ 2)
    (hout : out.length < maxLen) :
    (fill maxLen out es).length ≤ maxLen ∧
      ((fill maxLen out es).length < maxLen ↔ Clear maxLen out.length es) := by
  induction es generalizing out with
  | nil => exact ⟨hout.le, by simp [fill, Clear, hout]⟩
  | cons e es ih =>
    obtain ⟨he, hes'⟩ := List.forall_mem_cons.mp hes
    rw [clear_cons, fill]
    split_ifs with hroom
    · by_cases hfull : (out ++ e).length < maxLen
      · obtain ⟨hle, hiff⟩ := ih hes' hfull
        rw [List.length_append] at hfull hiff
        exact ⟨hle, hiff.trans ⟨fun h => ⟨by omega, h⟩, fun h => h.2⟩⟩
      · -- two bytes went into the last two
        have hstop : fill maxLen (out ++ e) es = out ++ e := by
          cases es with
          | nil => rfl
          | cons e' es => rw [fill, if_neg (by omega)]
        rw [hstop]
        rw [List.length_append] at hfull ⊢
        exact ⟨by omega, ⟨fun h => absurd h hfull, fun h => absurd (h.1 (by omega)) (by omega)⟩⟩
    · refine ⟨hout.le, fun _ => ⟨by omega, ?_⟩, fun _ => hout⟩
      intro k _ hk
      omega

/-- **Stripping HTML.** For every string and every buffer of at least one byte: no byte behind the
terminator of the string is read, and all stores are in the buffer, the terminator included, exactly
if no paragraph tag is met when all but two bytes of the buffer are used. -/
theorem html_stripped (html : CStr) (maxLen : ℕ) (h : 1 ≤ maxLen) :
    browserParseHtml html maxLen ≠ .error .read ∧
      ((∃ out, browserParseHtml html maxLen = .ok (out ++ [0]) ∧ (out ++ [0]).length ≤ maxLen) ↔
        Clear maxLen 0 (emissions false html)) := by
  have hloop : browserParseHtml html maxLen =
      emit maxLen 0 (fill maxLen [] (emissions false html)) := by
    unfold browserParseHtml
    rw [stripLoop_eq, ok_bind]
  have hroom : ([] : List UInt8).length < maxLen := h
  obtain ⟨-, hiff⟩ := length_fill (emissions false html) (emissions_le false html) hroom
  rw [List.length_nil] at hiff
  rw [hloop, ← hiff]
  unfold emit
  split_ifs with hfit
  · refine ⟨by simp, fun _ => hfit, fun _ => ⟨_, rfl, ?_⟩⟩
    rw [List.length_append]
    exact hfit
  · exact ⟨by simp, fun ⟨_, he, _⟩ => absurd he (by simp), fun hlt => absurd hlt hfit⟩

theorem html_stripped_paragraph :
    Clear 5 0 (emissions false (cstr "a<p>b</p>")) ∧
      ∃ out, browserParseHtml (cstr "a<p>b</p>") 5 = .ok (out ++ [0]) ∧ (out ++ [0]).length ≤ 5 :=
  have hclear : Clear 5 0 (emissions false (cstr "a<p>b</p>")) := by decide +kernel
  ⟨hclear, (html_stripped (cstr "a<p>b</p>") 5 (by decide)).2.mpr hclear⟩

/-- **The terminator is stored behind the buffer.** -/
theorem terminator_outside :
    browserParseHtml (cstr "a<p>") 3 = .error .write ∧
      browserParseHtml (cstr "a</p>") 3 = .error .write ∧
      browserParseHtml (cstr "a<br>") 3 = .ok [97, 10, 0] := by
  decide +kernel

end Kerneloid.Browser.Html
