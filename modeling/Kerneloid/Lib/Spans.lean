import Mathlib.Tactic
import Mathlib.Data.List.Sort

/-! # Spans in a row

Things of an arbitrary type that each cover the span from `start a` to `stop a`.
`Laid start stop hi lo l` says that the things of `l` cover spans that are not empty, one after the
other, between `lo` and `hi`; there may be gaps. It is defined along the list, so that a proof about
a loop through the list can follow the loop; `Laid.pairwise` and `Laid.mem` say the same without the
order of a loop. -/

namespace Kerneloid.Lib.Spans

variable {α : Type*} {start stop : α → ℕ}

/-- The spans of the list lie one after the other between `lo` and `hi`. -/
def Laid (start stop : α → ℕ) (hi : ℕ) : ℕ → List α → Prop
  | lo, [] => lo ≤ hi
  | lo, a :: l => lo ≤ start a ∧ start a < stop a ∧ Laid start stop hi (stop a) l

variable {hi lo : ℕ} {a : α} {l : List α}

theorem Laid.le (h : Laid start stop hi lo l) : lo ≤ hi := by
  induction l generalizing lo with
  | nil => exact h
  | cons a l ih =>
    obtain ⟨hlo, hne, hl⟩ := h
    have := ih hl
    omega

theorem Laid.mono (h : Laid start stop hi lo l) {lo' : ℕ} (hle : lo' ≤ lo) :
    Laid start stop hi lo' l := by
  cases l with
  | nil => exact hle.trans h
  | cons a l => exact ⟨hle.trans h.1, h.2⟩

theorem Laid.mem (h : Laid start stop hi lo l) :
    ∀ a ∈ l, lo ≤ start a ∧ start a < stop a ∧ stop a ≤ hi := by
  induction l generalizing lo with
  | nil => exact fun a ha => absurd ha List.not_mem_nil
  | cons b l ih =>
    obtain ⟨hlo, hne, hl⟩ := h
    intro a ha
    rcases List.mem_cons.mp ha with rfl | ha
    · exact ⟨hlo, hne, hl.le⟩
    · obtain ⟨h1, h2, h3⟩ := ih hl a ha
      exact ⟨by omega, h2, h3⟩

theorem Laid.pairwise (h : Laid start stop hi lo l) : l.Pairwise fun a b => stop a ≤ start b := by
  induction l generalizing lo with
  | nil => exact .nil
  | cons b l ih => exact .cons (fun a ha => (h.2.2.mem a ha).1) (ih h.2.2)

theorem Laid.apart (h : Laid start stop hi lo l) {b : α} (ha : a ∈ l) (hb : b ∈ l) :
    a = b ∨ stop a ≤ start b ∨ stop b ≤ start a := by
  induction l generalizing lo with
  | nil => exact absurd ha List.not_mem_nil
  | cons c l ih =>
    obtain ⟨-, -, hl⟩ := h
    rcases List.mem_cons.mp ha with rfl | hal
    · rcases List.mem_cons.mp hb with rfl | hbl
      · exact Or.inl rfl
      · exact Or.inr (Or.inl (hl.mem b hbl).1)
    · rcases List.mem_cons.mp hb with rfl | hbl
      · exact Or.inr (Or.inr (hl.mem a hal).1)
      · exact ih hl hal hbl

theorem Laid.append {mid : ℕ} {l' : List α} (h : Laid start stop mid lo l)
    (h' : Laid start stop hi mid l') : Laid start stop hi lo (l ++ l') := by
  induction l generalizing lo with
  | nil => exact h'.mono h
  | cons a l ih => exact ⟨h.1, h.2.1, ih h.2.2⟩

theorem Laid.length_le (h : Laid start stop hi lo l) : lo + l.length ≤ hi := by
  induction l generalizing lo with
  | nil => exact h
  | cons b l ih =>
    obtain ⟨hlo, hne, hl⟩ := h
    have := ih hl
    rw [List.length_cons]
    omega

theorem Laid.insert (h : Laid start stop hi lo l) (hlo : lo ≤ start a) (hne : start a < stop a)
    (hhi : stop a ≤ hi) (hfree : ∀ b ∈ l, stop b ≤ start a ∨ stop a ≤ start b) :
    Laid start stop hi lo (l.orderedInsert (fun a b => start a ≤ start b) a) := by
  induction l generalizing lo with
  | nil => exact ⟨hlo, hne, hhi⟩
  | cons b l ih =>
    obtain ⟨hlo', hne', hl⟩ := h
    have hb := hfree b List.mem_cons_self
    rw [List.orderedInsert_cons]
    split_ifs with hle
    · exact ⟨hlo, hne, by omega, hne', hl⟩
    · exact ⟨hlo', hne', ih hl (by omega) fun c hc => hfree c (List.mem_cons_of_mem b hc)⟩

end Kerneloid.Lib.Spans
