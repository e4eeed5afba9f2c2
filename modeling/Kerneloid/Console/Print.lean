import Kerneloid.Lib.Arrays
import Kerneloid.UnnamedFS.Types

/-! # The text console

The console of `io.c`: 25 rows of 80 cells, a cursor, and the position the hardware cursor was last
set to. Stores to the screen are checked against its 2000 cells, so that a function that returns has
stored inside the screen only.

`io_print` has a fast path for printable characters that are not in the last column. With the cursor
on the screen such a character neither wraps nor scrolls, so the fast path does what
`io_putchar_nocursor` does (`printStep_eq`). The two differ in when they set the hardware cursor,
which nothing reads (`nocursor_update`). -/

namespace Kerneloid.Console.Print

open Lib.Arrays UnnamedFS.Types

/-! ### The code -/

/-- The statics of `io.c`, and the hardware cursor. -/
structure Screen where
  vgaBuffer : ℕ → UInt16
  cursorX : ℕ
  cursorY : ℕ
  color : UInt8
  hwCursor : UInt16

def makeVgaentry (c color : UInt8) : UInt16 := c.toUInt16 ||| (color.toUInt16 <<< 8)

/-- `scroll`. The rows move up by one, and the last one is blanked. -/
def scroll (t : Screen) : Screen :=
  if 25 ≤ t.cursorY then
    { t with
      vgaBuffer := fun i =>
        if i < 1920 then t.vgaBuffer (i + 80)
        else if i < 2000 then makeVgaentry 32 t.color
        else t.vgaBuffer i
      cursorY := 24 }
  else t

def putCharAt (t : Screen) (c : UInt8) (x y : ℕ) : Option Screen :=
  (writeAt 2000 t.vgaBuffer (y * 80 + x : ℕ) (makeVgaentry c t.color)).map fun b =>
    { t with vgaBuffer := b }

def updateHwCursor (t : Screen) : Screen :=
  { t with hwCursor := UInt16.ofNat (t.cursorY * 80 + t.cursorX) }

/-- `if (cursor_x >= VGA_WIDTH) { cursor_x = 0; cursor_y++; }`. -/
def wrap (t : Screen) : Screen :=
  if 80 ≤ t.cursorX then { t with cursorX := 0, cursorY := t.cursorY + 1 } else t

/-- The branches of `io_putchar_nocursor`, before it scrolls. -/
def place (t : Screen) (c : UInt8) : Option Screen :=
  if c = 10 then some { t with cursorX := 0, cursorY := t.cursorY + 1 }
  else if c = 13 then some { t with cursorX := 0 }
  -- `(cursor_x + 8) & ~7`
  else if c = 9 then some (wrap { t with cursorX := (t.cursorX + 8) / 8 * 8 })
  else if c = 8 then
    if 0 < t.cursorX then
      putCharAt { t with cursorX := t.cursorX - 1 } 32 (t.cursorX - 1) t.cursorY
    else if 0 < t.cursorY then
      putCharAt { t with cursorX := 79, cursorY := t.cursorY - 1 } 32 79 (t.cursorY - 1)
    else some t
  else (putCharAt t c t.cursorX t.cursorY).map fun t => wrap { t with cursorX := t.cursorX + 1 }

def ioPutcharNocursor (t : Screen) (c : UInt8) : Option Screen := (place t c).map scroll

def ioPutchar (t : Screen) (c : UInt8) : Option Screen :=
  (ioPutcharNocursor t c).map updateHwCursor

/-- One turn of the loop of `io_print`. -/
def printStep (t : Screen) (c : UInt8) : Option Screen :=
  if 32 ≤ c ∧ c < 127 ∧ t.cursorX < 79 then
    (putCharAt t c t.cursorX t.cursorY).map fun t => { t with cursorX := t.cursorX + 1 }
  else ioPutcharNocursor t c

def ioPrint (t : Screen) (s : CStr) : Option Screen :=
  (s.foldlM printStep t).map updateHwCursor

/-! ### The cursor stays on the screen -/

/-- **The cursor is on the screen.** -/
structure OnScreen (t : Screen) : Prop where
  x : t.cursorX < 80
  y : t.cursorY < 25

variable {t : Screen} {x y : ℕ}

theorem putCharAt_inside (t : Screen) (c : UInt8) (hx : x < 80) (hy : y < 25) :
    putCharAt t c x y = some { t with
      vgaBuffer := Function.update t.vgaBuffer (y * 80 + x) (makeVgaentry c t.color) } := by
  unfold putCharAt
  rw [writeAt_natCast (by omega)]
  rfl

theorem wrap_bounds (hx : t.cursorX ≤ 80) (hy : t.cursorY < 25) :
    (wrap t).cursorX < 80 ∧ (wrap t).cursorY ≤ 25 := by
  unfold wrap
  split_ifs with h
  · exact ⟨by norm_num, hy⟩
  · exact ⟨by omega, hy.le⟩

theorem scroll_onScreen (hx : t.cursorX < 80) (hy : t.cursorY ≤ 25) : OnScreen (scroll t) := by
  unfold scroll
  split_ifs with h
  · exact ⟨hx, by norm_num⟩
  · exact ⟨hx, by omega⟩

theorem place_bounds (ht : OnScreen t) (c : UInt8) :
    ∃ t', place t c = some t' ∧ t'.cursorX < 80 ∧ t'.cursorY ≤ 25 := by
  have hx := ht.x
  have hy := ht.y
  unfold place
  split_ifs with hn hr ht hb hx0 hy0
  · exact ⟨_, rfl, by norm_num, hy⟩
  · exact ⟨_, rfl, by norm_num, hy.le⟩
  · refine ⟨_, rfl, wrap_bounds ?_ hy⟩
    -- the next tab stop is at most the margin
    show (t.cursorX + 8) / 8 * 8 ≤ 80
    omega
  · exact ⟨_, putCharAt_inside _ _ (by omega) hy, by dsimp only; omega, hy.le⟩
  · exact ⟨_, putCharAt_inside _ _ (by omega) (by omega), by norm_num, by dsimp only; omega⟩
  · exact ⟨t, rfl, hx, hy.le⟩
  · rw [putCharAt_inside t c hx hy]
    exact ⟨_, rfl, wrap_bounds (by dsimp only; omega) hy⟩

theorem nocursor_onScreen (ht : OnScreen t) (c : UInt8) :
    ∃ t', ioPutcharNocursor t c = some t' ∧ OnScreen t' := by
  obtain ⟨t', hplace, hx, hy⟩ := place_bounds ht c
  unfold ioPutcharNocursor
  rw [hplace]
  exact ⟨scroll t', rfl, scroll_onScreen hx hy⟩

/-! ### The fast path -/

/-- **The fast path is exact**: a printable character before the last column neither wraps nor
scrolls. -/
theorem printStep_eq (ht : OnScreen t) (c : UInt8) : printStep t c = ioPutcharNocursor t c := by
  unfold printStep
  split_ifs with h
  · obtain ⟨hlow, hhigh, hx⟩ := h
    have hne : ∀ d : UInt8, d < 32 → c ≠ d := fun d hd e => absurd hlow (by rw [e]; simpa using hd)
    unfold ioPutcharNocursor place
    rw [if_neg (hne 10 (by decide)), if_neg (hne 13 (by decide)), if_neg (hne 9 (by decide)),
      if_neg (hne 8 (by decide)), putCharAt_inside t c ht.x ht.y]
    simp only [Option.map_some]
    have hwrap : ¬ 80 ≤ t.cursorX + 1 := by omega
    have hscroll : ¬ 25 ≤ t.cursorY := by
      have := ht.y
      omega
    simp only [wrap, scroll, hwrap, hscroll, if_false]
  · rfl

/-! ### The hardware cursor -/

/-- The hardware cursor set to `h`. -/
def withHw (h : UInt16) (t : Screen) : Screen := { t with hwCursor := h }

theorem putCharAt_withHw (h : UInt16) (t : Screen) (c : UInt8) (x y : ℕ) :
    putCharAt (withHw h t) c x y = (putCharAt t c x y).map (withHw h) := by
  unfold putCharAt
  rw [Option.map_map]
  rfl

theorem wrap_withHw (h : UInt16) (t : Screen) : wrap (withHw h t) = withHw h (wrap t) := by
  by_cases hx : 80 ≤ t.cursorX <;> simp [wrap, withHw, hx]

theorem scroll_withHw (h : UInt16) (t : Screen) : scroll (withHw h t) = withHw h (scroll t) := by
  by_cases hy : 25 ≤ t.cursorY <;> simp [scroll, withHw, hy]

theorem place_withHw (h : UInt16) (t : Screen) (c : UInt8) :
    place (withHw h t) c = (place t c).map (withHw h) := by
  have hx : (withHw h t).cursorX = t.cursorX := rfl
  have hy : (withHw h t).cursorY = t.cursorY := rfl
  unfold place
  rw [hx, hy]
  split_ifs
  · rfl
  · rfl
  · exact congrArg some (wrap_withHw h { t with cursorX := (t.cursorX + 8) / 8 * 8 })
  · exact putCharAt_withHw h { t with cursorX := t.cursorX - 1 } 32 _ _
  · exact putCharAt_withHw h { t with cursorX := 79, cursorY := t.cursorY - 1 } 32 _ _
  · rfl
  · rw [putCharAt_withHw, Option.map_map, Option.map_map]
    exact congrArg (fun f => (putCharAt t c t.cursorX t.cursorY).map f)
      (funext fun u => wrap_withHw h { u with cursorX := u.cursorX + 1 })

theorem nocursor_withHw (h : UInt16) (t : Screen) (c : UInt8) :
    ioPutcharNocursor (withHw h t) c = (ioPutcharNocursor t c).map (withHw h) := by
  unfold ioPutcharNocursor
  rw [place_withHw, Option.map_map, Option.map_map]
  exact congrArg (fun f => (place t c).map f) (funext (scroll_withHw h))

theorem putchar_fold (s : CStr) (t : Screen) :
    (s.foldlM ioPutchar t).map updateHwCursor =
      (s.foldlM ioPutcharNocursor t).map updateHwCursor := by
  induction s generalizing t with
  | nil => rfl
  | cons c s ih =>
    rw [List.foldlM_cons, List.foldlM_cons]
    cases hc : ioPutcharNocursor t c with
    | none =>
      have hput : ioPutchar t c = none := by rw [ioPutchar, hc]; rfl
      rw [hput]
      rfl
    | some u =>
      have hput : ioPutchar t c = some (updateHwCursor u) := by rw [ioPutchar, hc]; rfl
      rw [hput]
      refine (ih (updateHwCursor u)).trans ?_
      show (s.foldlM ioPutcharNocursor (withHw _ u)).map updateHwCursor = _
      rw [foldlM_map (nocursor_withHw _), Option.map_map]
      rfl

/-! ### Strings -/

/-- The loop of `io_print` returns with the cursor on the screen, and does what the characters do
one by one. -/
theorem print_fold (s : CStr) (ht : OnScreen t) :
    ∃ u, s.foldlM printStep t = some u ∧ s.foldlM ioPutcharNocursor t = some u ∧ OnScreen u := by
  induction s generalizing t with
  | nil => exact ⟨t, rfl, rfl, ht⟩
  | cons c s ih =>
    obtain ⟨t', hc, ht'⟩ := nocursor_onScreen ht c
    obtain ⟨u, hprint, hput, hu⟩ := ih ht'
    refine ⟨u, ?_, ?_, hu⟩
    · rw [List.foldlM_cons, printStep_eq ht, hc]
      exact hprint
    · rw [List.foldlM_cons, hc]
      exact hput

theorem putchar_onScreen (s : CStr) (ht : OnScreen t) :
    ∃ u, s.foldlM ioPutchar t = some u ∧ OnScreen u ∧ (s ≠ [] → updateHwCursor u = u) := by
  induction s generalizing t with
  | nil => exact ⟨t, rfl, ht, fun h => absurd rfl h⟩
  | cons c s ih =>
    obtain ⟨t', hc, ht'⟩ := nocursor_onScreen ht c
    obtain ⟨u, hput, hu, hhw⟩ := ih (t := updateHwCursor t') ⟨ht'.x, ht'.y⟩
    have hstep : (c :: s).foldlM ioPutchar t = s.foldlM ioPutchar (updateHwCursor t') := by
      rw [List.foldlM_cons, ioPutchar, hc]
      rfl
    refine ⟨u, hstep.trans hput, hu, fun _ => ?_⟩
    cases s with
    | nil =>
      obtain rfl := Option.some.inj hput
      rfl
    | cons d s => exact hhw (List.cons_ne_nil d s)

/-- **The fast path of `io_print`.** For every console with the cursor on the screen and every
string, `io_print` returns, with the screen and the cursor that `io_putchar` of each character in
turn gives; the hardware cursor is the same too unless the string is empty. All stores are on the
screen, and after every character, of the one or the other, the cursor is. -/
theorem print_exact (t : Screen) (s : CStr) (hx : t.cursorX < 80) (hy : t.cursorY < 25) :
    (∃ u v, ioPrint t s = some u ∧ s.foldlM ioPutchar t = some v ∧
        u.vgaBuffer = v.vgaBuffer ∧ u.cursorX = v.cursorX ∧ u.cursorY = v.cursorY ∧
        (s ≠ [] → u = v)) ∧
      ∀ p, p <+: s → ∃ u v, p.foldlM printStep t = some u ∧ p.foldlM ioPutchar t = some v ∧
        OnScreen u ∧ OnScreen v := by
  have ht : OnScreen t := ⟨hx, hy⟩
  refine ⟨?_, fun p _ => ?_⟩
  · obtain ⟨u, hprint, hput, -⟩ := print_fold s ht
    obtain ⟨v, hv, -, hhw⟩ := putchar_onScreen s ht
    have hsame : updateHwCursor v = updateHwCursor u := by
      have hfold := putchar_fold s t
      rw [hv, hput] at hfold
      exact Option.some.inj hfold
    have hbuffer := congrArg Screen.vgaBuffer hsame
    have hcx := congrArg Screen.cursorX hsame
    have hcy := congrArg Screen.cursorY hsame
    refine ⟨updateHwCursor u, v, by rw [ioPrint, hprint]; rfl, hv, hbuffer.symm, hcx.symm, hcy.symm,
      fun hne => ?_⟩
    rw [← hsame]
    exact hhw hne
  · obtain ⟨u, hprint, -, hu⟩ := print_fold p ht
    obtain ⟨v, hv, hvs, -⟩ := putchar_onScreen p ht
    exact ⟨u, v, hprint, hv, hu, hvs⟩

/-- A screen with the cursor near its lower right corner. -/
def corner : Screen := ⟨fun _ => 0x0720, 77, 24, 7, 0⟩

/-- A string that wraps and scrolls, and a tab and a backspace across the margin. -/
theorem print_exact_corner :
    (ioPrint corner (cstr "abcd\t\x08")).map (fun t => (t.cursorX, t.cursorY, t.vgaBuffer 1919)) =
        some (7, 24, 0x0763) ∧
      ∃ u v, ioPrint corner (cstr "abcd\t\x08") = some u ∧
        (cstr "abcd\t\x08").foldlM ioPutchar corner = some v ∧ u.vgaBuffer = v.vgaBuffer :=
  ⟨by decide +kernel,
    let ⟨⟨u, v, hu, hv, hb, _⟩, _⟩ :=
      print_exact corner (cstr "abcd\t\x08") (by decide) (by decide)
    ⟨u, v, hu, hv, hb⟩⟩

end Kerneloid.Console.Print
