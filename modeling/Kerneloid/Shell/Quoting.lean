import Mathlib.Data.List.TakeWhile
import Kerneloid.Shell.Parse

/-! # Sections in quotes

A section of a command line is what stands between a quote and the next one of its kind. `pieces`
finds the sections and the runs of other characters by reading the line once; the line is balanced
if no section is left open.

`parse_command` does not see a quote that follows a word: it ends the word there and goes on behind
the quote as if there were none. If the section is a word itself, the parser is in step again behind
it. If it is empty, the closing quote is taken for an opening one, and the parser is out of step up
to the next quote of that kind. `Intact` follows this from piece to piece, and is exactly the
condition under which every section stands in one argument (`sections_kept`). -/

namespace Kerneloid.Shell.Quoting

open UnnamedFS.Types Parse

/-- A run of characters outside of quotes, or a section: its quote, whether this directly follows a
character of a word, where the text starts, and the text. -/
inductive Piece
  | word
  | quoted (quote : UInt8) (glued : Bool) (start : ℕ) (text : CStr)
  deriving DecidableEq

/-- Where the reader of the line is: outside of quotes, directly behind a word or not, or inside,
with the text so far. -/
inductive Mode
  | outside (glued : Bool)
  | inside (quote : UInt8) (glued : Bool) (start : ℕ) (text : CStr)

/-- The pieces from position `p` on, if all sections are closed. -/
def scan : Mode → ℕ → CStr → Option (List Piece)
  | .outside _, _, [] => some []
  | .outside g, p, c :: rest =>
    if c = 34 ∨ c = 39 then scan (.inside c g (p + 1) []) (p + 1) rest
    else if plain c = true ∧ g = false then (scan (.outside true) (p + 1) rest).map (.word :: ·)
    else scan (.outside (plain c)) (p + 1) rest
  | .inside .., _, [] => none
  | .inside q g start text, p, c :: rest =>
    if c = q then (scan (.outside false) (p + 1) rest).map (.quoted q g start text :: ·)
    else scan (.inside q g start (text ++ [c])) (p + 1) rest

/-- **The pieces of a line with balanced quotes.** -/
def pieces (line : CStr) : Option (List Piece) := scan (.outside false) 0 line

/-- The text that starts at `start` stands in the argument `x`, at its place. -/
def Within (x : ℕ × CStr) (start : ℕ) (text : CStr) : Prop :=
  ∃ u w, x.2 = u ++ (text ++ w) ∧ x.1 + u.length = start

/-- A section stands in one of the arguments `xs`. -/
def Kept (xs : List (ℕ × CStr)) : Piece → Prop
  | .word => True
  | .quoted _ _ start text => text = [] ∨ ∃ x ∈ xs, Within x start text

/-- A section whose opening quote the parser has eaten, with `n` arguments left: an empty one puts
it out of step, one that is a word is an argument, any other one is split. -/
def eaten (n : ℕ) (q : UInt8) (text : CStr) (next : ℕ → Option UInt8 → Prop) : Prop :=
  if n = 0 then text = [] ∧ next 0 none
  else if text = [] then next (n - 1) (some q)
  else (∀ c ∈ text, plain c = true) ∧ next (n - 1) none

/-- **The sections stay in one piece**, with `n` arguments left. The parser is in step, or it takes
what comes up to the next quote `q` for quoted. -/
def Intact : ℕ → Option UInt8 → List Piece → Prop
  | _, _, [] => True
  | n, none, .word :: ps => Intact (n - 1) none ps
  | n, none, .quoted q g _ text :: ps =>
    if g then eaten n q text fun n view => Intact n view ps
    else (n = 0 → text = []) ∧ Intact (n - 1) none ps
  | n, some q, .word :: ps => Intact n (some q) ps
  | n, some q, .quoted q' _ _ text :: ps =>
    if q' = q then eaten n q text fun n view => Intact n view ps
    else q ∉ text ∧ Intact n (some q) ps

variable {line rest t u : CStr} {c q : UInt8} {g : Bool} {ps : List Piece} {n p b s : ℕ}
  {x : ℕ × CStr} {xs : List (ℕ × CStr)}

/-! ### The reader -/

theorem not_quote_of_plain (h : plain c = true) : ¬ (c = 34 ∨ c = 39) := by
  rintro (rfl | rfl) <;> exact absurd h (by decide)

theorem not_plain_of_blank (h : blank c = true) : plain c = false := by
  simp [plain, h]

theorem scan_plain (h : plain c = true) :
    scan (.outside true) p (c :: rest) = scan (.outside true) (p + 1) rest := by
  rw [scan, if_neg (not_quote_of_plain h), if_neg (by simp), h]

theorem scan_blank (h : blank c = true) :
    scan (.outside g) p (c :: rest) = scan (.outside false) (p + 1) rest := by
  have hquote : ¬ (c = 34 ∨ c = 39) := by
    rintro (rfl | rfl) <;> exact absurd h (by decide)
  rw [scan, if_neg hquote, not_plain_of_blank h, if_neg (by simp)]

theorem scan_dropWhile_plain (line : CStr) (p : ℕ) :
    scan (.outside true) p line =
      scan (.outside true) (p + (line.takeWhile plain).length) (line.dropWhile plain) := by
  induction line generalizing p with
  | nil => rfl
  | cons c line ih =>
    by_cases hc : plain c = true
    · rw [scan_plain hc, List.dropWhile_cons_of_pos hc, List.takeWhile_cons_of_pos hc, ih,
        List.length_cons, add_assoc, add_comm 1]
    · rw [List.dropWhile_cons_of_neg hc, List.takeWhile_cons_of_neg hc]
      rfl

theorem scan_inside {text : CStr} (h : scan (.inside q g s text) p line = some ps) :
    ∃ t rest ps', line = t ++ q :: rest ∧ q ∉ t ∧
      scan (.outside false) (p + t.length + 1) rest = some ps' ∧
      ps = .quoted q g s (text ++ t) :: ps' := by
  induction line generalizing text p with
  | nil => exact absurd h (by simp [scan])
  | cons c line ih =>
    rw [scan] at h
    split_ifs at h with hc
    · obtain ⟨ps', hps', rfl⟩ := Option.map_eq_some_iff.mp h
      exact ⟨[], line, ps', by rw [hc]; rfl, nofun, hps', by rw [List.append_nil]⟩
    · obtain ⟨t, rest, ps', rfl, hq, hps', rfl⟩ := ih h
      refine ⟨c :: t, rest, ps', rfl, ?_, ?_, by simp⟩
      · simpa using ⟨Ne.symm hc, hq⟩
      · rwa [List.length_cons, add_comm t.length, ← add_assoc p 1]

/-- The piece does not start before `b`. -/
def Piece.From (b : ℕ) : Piece → Prop
  | .word => True
  | .quoted _ _ start _ => b ≤ start

theorem scan_from {m : Mode} (h : scan m p line = some ps) (hb : b ≤ p)
    (hm : ∀ q g s t, m = .inside q g s t → b ≤ s) : ∀ y ∈ ps, y.From b := by
  induction line generalizing m p ps with
  | nil =>
    cases m with
    | outside g =>
      obtain rfl := Option.some.inj h
      exact nofun
    | inside q g s t => exact absurd h (by simp [scan])
  | cons c line ih =>
    cases m with
    | outside g =>
      rw [scan] at h
      split_ifs at h
      · exact ih h (by omega) (by rintro _ _ _ _ ⟨⟩; omega)
      · obtain ⟨ps', hps', rfl⟩ := Option.map_eq_some_iff.mp h
        exact List.forall_mem_cons.mpr ⟨trivial, ih hps' (by omega) nofun⟩
      · exact ih h (by omega) nofun
    | inside q g s t =>
      have hs := hm q g s t rfl
      rw [scan] at h
      split_ifs at h
      · obtain ⟨ps', hps', rfl⟩ := Option.map_eq_some_iff.mp h
        exact List.forall_mem_cons.mpr ⟨hs, ih hps' (by omega) nofun⟩
      · exact ih h (by omega) (by rintro _ _ _ _ ⟨⟩; exact hs)

/-! ### The arguments -/

theorem spans_quote (hc : c = 34 ∨ c = 39) (n p : ℕ) (rest : CStr) :
    spans (n + 1) p (c :: rest) = (p + 1, rest.takeWhile (· ≠ c)) ::
      spans n (p + 1 + (rest.takeWhile (· ≠ c)).length + 1) (rest.dropWhile (· ≠ c)).tail := by
  have hblank : ¬ blank c = true := by rcases hc with rfl | rfl <;> decide
  rw [spans, List.dropWhile_cons_of_neg hblank, List.takeWhile_cons_of_neg hblank]
  exact if_pos hc

theorem spans_word (hc : plain c = true) (n p : ℕ) (rest : CStr) :
    spans (n + 1) p (c :: rest) = (p, (c :: rest).takeWhile plain) ::
      spans n (p + ((c :: rest).takeWhile plain).length + 1) ((c :: rest).dropWhile plain).tail := by
  have hblank : ¬ blank c = true := fun h => absurd hc (by simp [not_plain_of_blank h])
  rw [spans, List.dropWhile_cons_of_neg hblank, List.takeWhile_cons_of_neg hblank]
  exact if_neg (not_quote_of_plain hc)

theorem spans_blank (hc : blank c = true) (n p : ℕ) (rest : CStr) :
    spans n p (c :: rest) = spans n (p + 1) rest := by
  cases n with
  | zero => rfl
  | succ n =>
    unfold spans
    rw [List.dropWhile_cons_of_pos hc, List.takeWhile_cons_of_pos hc, List.length_cons,
      add_comm _ 1, ← add_assoc]

theorem spans_from : ∀ (n p : ℕ) (line : CStr), ∀ x ∈ spans n p line, p ≤ x.1
  | 0, _, _ => nofun
  | n + 1, p, line => by
    unfold spans
    split
    · exact nofun
    · split_ifs
      all_goals
        refine List.forall_mem_cons.mpr ⟨?_, fun x hx => ?_⟩
        · dsimp only
          omega
        · have := spans_from n _ _ x hx
          omega

theorem takeWhile_until (hq : q ∉ t) (rest : CStr) :
    (t ++ q :: rest).takeWhile (· ≠ q) = t ∧ (t ++ q :: rest).dropWhile (· ≠ q) = q :: rest := by
  have hpass : ∀ c ∈ t, decide (c ≠ q) = true := fun c hc => decide_eq_true fun e => hq (e ▸ hc)
  rw [List.takeWhile_append_of_pos hpass, List.dropWhile_append_of_pos hpass,
    List.takeWhile_cons_of_neg (by simp), List.dropWhile_cons_of_neg (by simp), List.append_nil]
  exact ⟨rfl, rfl⟩

/-! ### Sections and arguments -/

theorem Within.bounds (h : Within x s t) : x.1 ≤ s ∧ s + t.length ≤ x.1 + x.2.length := by
  obtain ⟨u, w, hx, rfl⟩ := h
  rw [hx, List.length_append, List.length_append]
  omega

theorem not_kept (ht : t ≠ []) (h : ∀ x ∈ xs, s + t.length ≤ x.1 + x.2.length → s < x.1) :
    ¬ Kept xs (.quoted q g s t) := by
  rintro (h0 | ⟨x, hx, hin⟩)
  · exact ht h0
  · have := h x hx hin.bounds.2
    have := hin.bounds.1
    omega

theorem kept_behind (hx : x.1 + x.2.length ≤ b) (hps : ∀ y ∈ ps, y.From b) :
    (∀ y ∈ ps, Kept (x :: xs) y) ↔ ∀ y ∈ ps, Kept xs y := by
  refine forall₂_congr fun y hy => ?_
  cases y with
  | word => exact Iff.rfl
  | quoted q g s t =>
    have hs : b ≤ s := hps _ hy
    refine or_congr_right' fun ht => ?_
    simp only [List.exists_mem_cons_iff]
    refine or_iff_right fun hin => ?_
    have := hin.bounds.2
    have := List.length_pos_iff.mpr ht
    omega

theorem intact_zero (ps : List Piece) : (∀ y ∈ ps, Kept [] y) ↔ Intact 0 none ps := by
  induction ps with
  | nil => simp [Intact]
  | cons y ps ih =>
    rw [List.forall_mem_cons, ih]
    cases y with
    | word => simp [Kept, Intact]
    | quoted q g s t => cases g <;> simp [Kept, Intact, eaten]

/-- The three ways in which the parser can stand to the reader on the line `line`: in step, behind
an opening quote that it has eaten, and inside of quotes that the reader does not see; then `u` is
what it has read of its argument. -/
structure Follows (line : CStr) : Prop where
  instep : ∀ n p ps, scan (.outside false) p line = some ps →
    ((∀ y ∈ ps, Kept (spans n p line) y) ↔ Intact n none ps)
  opened : ∀ n p q g t rest ps, q = 34 ∨ q = 39 → line = t ++ q :: rest → q ∉ t →
    scan (.outside false) (p + t.length + 1) rest = some ps →
    ((∀ y ∈ Piece.quoted q g p t :: ps, Kept (spans n p line) y) ↔
      eaten n q t fun n view => Intact n view ps)
  inverted : ∀ n p q g s u ps, q = 34 ∨ q = 39 → scan (.outside g) p line = some ps →
    s + u.length = p →
    ((∀ y ∈ ps, Kept ((s, u ++ line.takeWhile (· ≠ q)) ::
        spans n (p + (line.takeWhile (· ≠ q)).length + 1) (line.dropWhile (· ≠ q)).tail) y) ↔
      Intact n (some q) ps)

section Steps
variable (ih : ∀ l : CStr, l.length < line.length → Follows l)
include ih

theorem follows_instep (h : scan (.outside false) p line = some ps) :
    (∀ y ∈ ps, Kept (spans n p line) y) ↔ Intact n none ps := by
  cases line with
  | nil =>
    obtain rfl := Option.some.inj h
    simp [Intact]
  | cons c rest =>
    by_cases hblank : blank c = true
    · rw [scan_blank hblank] at h
      rw [spans_blank hblank]
      exact (ih rest (by simp)).instep n _ ps h
    by_cases hquote : c = 34 ∨ c = 39
    · -- the argument is the section
      rw [scan, if_pos hquote] at h
      obtain ⟨t, rest, ps, rfl, hq, hps, rfl⟩ := scan_inside h
      rw [List.nil_append]
      cases n with
      | zero => exact intact_zero _
      | succ n =>
        obtain ⟨htake, hdrop⟩ := takeWhile_until hq rest
        rw [spans_quote hquote, htake, hdrop, List.tail_cons, List.forall_mem_cons,
          kept_behind (x := (p + 1, t)) (b := p + 1 + t.length) le_rfl
            (scan_from hps (by omega) nofun),
          (ih rest (by simp; omega)).instep n _ ps hps]
        have hkept : Kept ((p + 1, t) :: spans n (p + 1 + t.length + 1) rest)
            (.quoted c false (p + 1) t) :=
          Or.inr ⟨_, List.mem_cons_self, [], [], by simp, rfl⟩
        simp [Intact, hkept]
    · -- the argument is a word, which ends at a blank or at a quote
      have hc : plain c = true := by simpa [plain, hblank] using hquote
      rw [scan, if_neg hquote, if_pos ⟨hc, rfl⟩] at h
      obtain ⟨ps, hps, rfl⟩ := Option.map_eq_some_iff.mp h
      rw [← scan_plain hc, scan_dropWhile_plain] at hps
      cases n with
      | zero => exact intact_zero _
      | succ n =>
        have hfrom := scan_from hps le_rfl nofun
        rw [spans_word hc, List.forall_mem_cons, kept_behind le_rfl hfrom]
        simp only [Kept, true_and]
        have hstop := List.head?_dropWhile_not plain (c :: rest)
        have hlen := (List.dropWhile_suffix plain (l := c :: rest)).length_le
        cases hdrop : (c :: rest).dropWhile plain with
        | nil =>
          rw [hdrop] at hps
          obtain rfl := Option.some.inj hps
          simp [Intact]
        | cons d rest' =>
          rw [hdrop] at hps hstop hlen
          have hd : plain d = false := by simpa using hstop
          by_cases hquote' : d = 34 ∨ d = 39
          · rw [scan, if_pos hquote'] at hps
            obtain ⟨t, rest, ps, rfl, hq, hps', rfl⟩ := scan_inside hps
            exact (ih _ (by simpa using hlen)).opened n _ d true t rest ps hquote' rfl hq hps'
          · have hdb : blank d = true := by
              by_contra hnot
              exact absurd hd (by simp [plain, hnot, not_or.mp hquote'])
            rw [scan_blank hdb] at hps
            exact (ih _ (by simpa using hlen)).instep n _ ps hps

theorem follows_opened (hquote : q = 34 ∨ q = 39) (hline : line = t ++ q :: rest) (hq : q ∉ t)
    (h : scan (.outside false) (p + t.length + 1) rest = some ps) :
    (∀ y ∈ Piece.quoted q g p t :: ps, Kept (spans n p line) y) ↔
      eaten n q t fun n view => Intact n view ps := by
  subst hline
  rw [List.forall_mem_cons]
  cases n with
  | zero =>
    rw [show spans 0 p (t ++ q :: rest) = [] from rfl, intact_zero]
    simp [Kept, eaten]
  | succ n =>
    rw [eaten, if_neg (by omega), Nat.add_sub_cancel]
    cases t with
    | nil =>
      -- the closing quote opens an argument
      have hinv := (ih rest (by simp)).inverted n _ q false _ [] ps hquote h rfl
      rw [if_pos rfl, ← hinv, List.nil_append, spans_quote hquote]
      simp [Kept]
    | cons c t =>
      rw [if_neg (by simp)]
      by_cases hplain : ∀ d ∈ c :: t, plain d = true
      · -- the section is a word, and the closing quote is eaten
        have hnot : ¬ plain q = true := fun hp => not_quote_of_plain hp hquote
        have htake : (c :: t ++ q :: rest).takeWhile plain = c :: t := by
          rw [List.takeWhile_append_of_pos hplain, List.takeWhile_cons_of_neg hnot, List.append_nil]
        have hdrop : (c :: t ++ q :: rest).dropWhile plain = q :: rest := by
          rw [List.dropWhile_append_of_pos hplain, List.dropWhile_cons_of_neg hnot]
        have hspans : spans (n + 1) p (c :: t ++ q :: rest) =
            (p, c :: t) :: spans n (p + (c :: t).length + 1) rest := by
          rw [List.cons_append, spans_word (hplain c List.mem_cons_self), ← List.cons_append, htake,
            hdrop, List.tail_cons]
        rw [hspans, kept_behind (x := (p, c :: t)) le_rfl (scan_from h (by simp) nofun),
          (ih rest (by simp; omega)).instep n _ ps h]
        have hkept : Kept ((p, c :: t) :: spans n (p + (c :: t).length + 1) rest)
            (.quoted q g p (c :: t)) :=
          Or.inr ⟨_, List.mem_cons_self, [], [], by simp, rfl⟩
        exact and_congr_left' ⟨fun _ => hplain, fun _ => hkept⟩
      · -- the section is split: its first character is in no argument, or the word ends inside
        have hsplit : ¬ Kept (spans (n + 1) p (c :: t ++ q :: rest)) (.quoted q g p (c :: t)) := by
          refine not_kept (by simp) fun x hx hle => ?_
          rw [List.cons_append] at hx
          by_cases hc : plain c = true
          · rw [spans_word hc, ← List.cons_append] at hx
            rcases List.mem_cons.mp hx with rfl | hx
            · refine absurd hle ?_
              have hshort : ((c :: t ++ q :: rest).takeWhile plain).length < (c :: t).length := by
                by_contra hge
                refine hplain fun d hd => ?_
                have hpre := List.takeWhile_prefix plain (l := c :: t ++ q :: rest)
                have hin : c :: t <+: (c :: t ++ q :: rest).takeWhile plain :=
                  List.prefix_of_prefix_length_le (List.prefix_append _ _) hpre (by omega)
                exact List.mem_takeWhile_imp (hin.subset hd)
              dsimp only
              omega
            · have := spans_from _ _ _ x hx
              omega
          · by_cases hb : blank c = true
            · rw [spans_blank hb] at hx
              exact spans_from _ _ _ x hx
            · have hcq : c = 34 ∨ c = 39 := by
                by_contra hnot
                exact hc (by simp [plain, hb, not_or.mp hnot])
              rw [spans_quote hcq] at hx
              rcases List.mem_cons.mp hx with rfl | hx
              · exact Nat.lt_succ_self p
              · have := spans_from _ _ _ x hx
                omega
        exact iff_of_false (fun h => hsplit h.1) fun h => hplain h.1

theorem follows_inverted (hquote : q = 34 ∨ q = 39) (h : scan (.outside g) p line = some ps)
    (hu : s + u.length = p) :
    (∀ y ∈ ps, Kept ((s, u ++ line.takeWhile (· ≠ q)) ::
        spans n (p + (line.takeWhile (· ≠ q)).length + 1) (line.dropWhile (· ≠ q)).tail) y) ↔
      Intact n (some q) ps := by
  cases line with
  | nil =>
    obtain rfl := Option.some.inj h
    simp [Intact]
  | cons c rest =>
    by_cases hcq : c = q
    · -- the argument of the parser ends here
      subst hcq
      rw [scan, if_pos hquote] at h
      have hfrom := scan_from h (Nat.le_succ p) (by rintro _ _ _ _ ⟨⟩; exact Nat.le_succ p)
      obtain ⟨t, rest, ps, rfl, hq, hps, rfl⟩ := scan_inside h
      rw [List.takeWhile_cons_of_neg (by simp), List.dropWhile_cons_of_neg (by simp),
        List.append_nil, kept_behind (by dsimp only; omega) hfrom, List.tail_cons, List.nil_append]
      simp only [Intact, if_true]
      exact (ih _ (by simp)).opened n (p + 1) c g t rest ps hquote rfl hq hps
    have hpass : decide (c ≠ q) = true := decide_eq_true hcq
    by_cases hother : c = 34 ∨ c = 39
    · rw [scan, if_pos hother] at h
      obtain ⟨t, rest, ps, rfl, hc, hps, rfl⟩ := scan_inside h
      rw [List.nil_append]
      simp only [Intact, if_neg hcq]
      by_cases hq : q ∈ t
      · -- the argument ends inside of the section
        refine iff_of_false (fun hall => ?_) fun hin => hin.1 hq
        obtain ⟨a, d, rfl, hqa⟩ := List.eq_append_cons_of_mem hq
        refine not_kept (List.ne_nil_of_mem hq) (fun x hx hle => ?_) (hall _ List.mem_cons_self)
        have hpre : q ∉ c :: a := by simpa using ⟨Ne.symm hcq, hqa⟩
        have hsplit : c :: (a ++ q :: d ++ c :: rest) = c :: a ++ q :: (d ++ c :: rest) := by simp
        rw [hsplit, (takeWhile_until hpre _).1, (takeWhile_until hpre _).2] at hx
        rw [List.length_append, List.length_cons] at hle
        rcases List.mem_cons.mp hx with rfl | hx
        · rw [List.length_append, List.length_cons] at hle
          dsimp only at hle
          omega
        · have hfrom := spans_from _ _ _ x hx
          rw [List.length_cons] at hfrom
          omega
      · have hpass' : ∀ d ∈ c :: (t ++ [c]), decide (d ≠ q) = true := fun d hd => by
          simp only [List.mem_cons, List.mem_append, List.not_mem_nil, or_false] at hd
          refine decide_eq_true fun e => ?_
          rcases hd with rfl | hd | rfl
          exacts [hcq e, hq (e ▸ hd), hcq e]
        have hsplit : c :: (t ++ c :: rest) = c :: (t ++ [c]) ++ rest := by simp
        have hlen : (c :: (t ++ [c])).length = t.length + 2 := by simp
        have hinv := (ih rest (by simp; omega)).inverted n _ q false s (u ++ c :: (t ++ [c])) ps
          hquote hps (by rw [List.length_append, hlen]; omega)
        rw [hsplit, List.takeWhile_append_of_pos hpass', List.dropWhile_append_of_pos hpass',
          List.length_append, hlen, ← List.append_assoc, List.forall_mem_cons, ← hinv,
          show p + (t.length + 2 + (rest.takeWhile (· ≠ q)).length) + 1 =
            p + 1 + t.length + 1 + (rest.takeWhile (· ≠ q)).length + 1 by omega]
        refine and_congr_left' ⟨fun _ => hq, fun _ => Or.inr ⟨_, List.mem_cons_self, u ++ [c],
          c :: rest.takeWhile (· ≠ q), by simp, by simp; omega⟩⟩
    · have hnext : ∃ g' ps', scan (.outside g') (p + 1) rest = some ps' ∧
          (ps = ps' ∨ ps = .word :: ps') := by
        rw [scan, if_neg hother] at h
        split_ifs at h
        · obtain ⟨ps', hps', rfl⟩ := Option.map_eq_some_iff.mp h
          exact ⟨_, ps', hps', Or.inr rfl⟩
        · exact ⟨_, ps, h, Or.inl rfl⟩
      obtain ⟨g', ps', hps', hps⟩ := hnext
      have hinv := (ih rest (by simp)).inverted n (p + 1) q g' s (u ++ [c]) ps' hquote hps'
        (by simp; omega)
      rw [List.append_assoc, List.singleton_append, add_assoc p 1, add_comm 1] at hinv
      rw [List.takeWhile_cons_of_pos (p := fun d => decide (d ≠ q)) hpass,
        List.dropWhile_cons_of_pos (p := fun d => decide (d ≠ q)) hpass, List.length_cons]
      rcases hps with rfl | rfl
      · exact hinv
      · rw [List.forall_mem_cons, hinv]
        simp [Kept, Intact]

end Steps

theorem follows (line : CStr) : Follows line := by
  induction h : line.length using Nat.strong_induction_on generalizing line with
  | _ n ih =>
    subst h
    have ih' : ∀ l : CStr, l.length < line.length → Follows l := fun l hl => ih _ hl l rfl
    exact ⟨fun _ _ _ => follows_instep ih', fun _ _ _ _ _ _ _ => follows_opened ih',
      fun _ _ _ _ _ _ _ => follows_inverted ih'⟩

/-- The text that starts at `start` stands in an argument of `parse_command`, at its place. -/
def InArgument (size : ℕ) (r : Args) (start : ℕ) (text : CStr) : Prop :=
  text = [] ∨ ∃ k < r.argc, ∃ a, r.argv k = some a ∧ Within (a, stringAt size r.mem a) start text

/-- **Sections in quotes.** For every line with balanced quotes, each section stands in one of the
arguments of `parse_command`, at its place, exactly if the pieces of the line are intact. -/
theorem sections_kept (line : CStr) (hline : 0 ∉ line) (ps : List Piece)
    (hps : pieces line = some ps) (argv : ℕ → Option ℕ) :
    ∃ r, parseCommand line argv = some r ∧
      ((∀ q g start text, .quoted q g start text ∈ ps →
        InArgument (line.length + 1) r start text) ↔ Intact (maxArgs - 1) none ps) := by
  obtain ⟨r, hr, hargc, hargs, -⟩ := parseCommand_refines hline argv
  refine ⟨r, hr, ?_⟩
  rw [← (follows line).instep _ 0 ps hps]
  have hin : ∀ start text, (∃ k < r.argc, ∃ a, r.argv k = some a ∧
      Within (a, stringAt (line.length + 1) r.mem a) start text) ↔
        ∃ x ∈ spans (maxArgs - 1) 0 line, Within x start text := fun start text => by
    rw [hargc]
    constructor
    · rintro ⟨k, hk, a, ha, hw⟩
      obtain ⟨hptr, hsize, htext⟩ := hargs k _ (List.getElem?_eq_getElem hk)
      rw [zero_add, ha, Option.some.injEq] at hptr
      subst hptr
      rw [htext.stringAt hsize] at hw
      exact ⟨_, List.getElem_mem hk, hw⟩
    · rintro ⟨x, hx, hw⟩
      obtain ⟨k, hk, rfl⟩ := List.getElem_of_mem hx
      obtain ⟨hptr, hsize, htext⟩ := hargs k _ (List.getElem?_eq_getElem hk)
      rw [zero_add] at hptr
      exact ⟨k, hk, _, hptr, by rwa [htext.stringAt hsize]⟩
  constructor
  · intro h y hy
    cases y with
    | word => trivial
    | quoted q g start text => exact (h q g start text hy).imp_right (hin start text).mp
  · exact fun h q g start text hy => Or.imp_right (hin start text).mpr (h _ hy)

/-- A section behind a blank, with the other quote in it, one behind a word, and an empty one. -/
def kinds : CStr := cstr "cp 'a \"b' x\"y\" z\"\""

theorem sections_kept_kinds :
    ∃ r, parseCommand kinds (fun _ => none) = some r ∧
      InArgument (kinds.length + 1) r 4 (cstr "a \"b") ∧
      InArgument (kinds.length + 1) r 12 (cstr "y") := by
  have hps : pieces kinds = some [.word, .quoted 39 false 4 (cstr "a \"b"), .word,
      .quoted 34 true 12 (cstr "y"), .word, .quoted 34 true 17 []] := by decide +kernel
  obtain ⟨r, hr, hiff⟩ := sections_kept kinds (by decide +kernel) _ hps fun _ => none
  have hplain : ∀ c ∈ cstr "y", plain c = true := by decide +kernel
  have hne : cstr "y" ≠ [] := by decide +kernel
  have hall := hiff.mpr (by simpa [Intact, eaten, maxArgs, hne] using hplain)
  exact ⟨r, hr, hall 39 false 4 _ (by simp), hall 34 true 12 _ (by simp)⟩

/-- **A section behind a word is split**: none of the arguments has `b c`. The sixteenth section of
a word is lost. -/
theorem section_split :
    pieces (cstr "a\"b c\"") = some [.word, .quoted 34 true 2 (cstr "b c")] ∧
      (parseCommand (cstr "a\"b c\"") fun _ => none).map (arguments 7) =
        some [some (cstr "a"), some (cstr "b"), some (cstr "c")] ∧
      (pieces ((List.replicate 15 (cstr "''")).flatten ++ cstr "'a'")).map List.getLast? =
        some (some (.quoted 39 false 31 (cstr "a"))) ∧
      (parseCommand ((List.replicate 15 (cstr "''")).flatten ++ cstr "'a'") fun _ => none).map
        (arguments 34) = some (List.replicate 15 (some [])) := by
  decide +kernel

end Kerneloid.Shell.Quoting
