import Mathlib.Data.List.Destutter
import Mathlib.Data.List.DropRight
import Mathlib.Tactic

/-! # The recent elements of a sequence

A history of bounded length that does not take an element twice in a row: `recent n l` are the last
`n` elements of the sequence `l` with consecutive repetitions removed. It can be kept one element at
a time, without the sequence: `recent_snoc`. -/

namespace Kerneloid.Lib.Recent

variable {α : Type*} {n : ℕ} {l : List α} {a : α}

theorem rtake_rtake_succ (l : List α) (n : ℕ) : (l.rtake (n + 1)).rtake n = l.rtake n := by
  unfold List.rtake
  rw [List.drop_drop, List.length_drop]
  congr 1
  omega

theorem getLast?_rtake (hn : 0 < n) (l : List α) : (l.rtake n).getLast? = l.getLast? := by
  unfold List.rtake
  rw [List.getLast?_drop]
  split_ifs with h
  · have hnil : l = [] := List.length_eq_zero_iff.mp (by omega)
    rw [hnil, List.getLast?_nil]
  · rfl

variable [DecidableEq α]

/-- **The recent elements.** -/
def recent (n : ℕ) (l : List α) : List α := (l.destutter (· ≠ ·)).rtake n

/-- The history `h` with one element more. -/
def remember (n : ℕ) (h : List α) (a : α) : List α :=
  if h.getLast? = some a then h else (h ++ [a]).rtake n

theorem destutter'_snoc (l : List α) (a b : α) :
    (l ++ [b]).destutter' (· ≠ ·) a =
      if (l.destutter' (· ≠ ·) a).getLast? = some b then l.destutter' (· ≠ ·) a
      else l.destutter' (· ≠ ·) a ++ [b] := by
  induction l generalizing a with
  | nil => by_cases h : a = b <;> simp [List.destutter', h]
  | cons c l ih =>
    rw [List.cons_append]
    by_cases h : a ≠ c
    · have hne : l.destutter' (· ≠ ·) c ≠ [] := List.ne_nil_of_mem (l.mem_destutter' _ c)
      have hlast : (a :: l.destutter' (· ≠ ·) c).getLast? = (l.destutter' (· ≠ ·) c).getLast? := by
        obtain ⟨d, l', hl'⟩ := List.exists_cons_of_ne_nil hne
        rw [hl', List.getLast?_cons_cons]
      rw [List.destutter'_cons_pos _ h, List.destutter'_cons_pos _ h, ih, hlast]
      split_ifs
      · rfl
      · rfl
    · rw [List.destutter'_cons_neg _ h, List.destutter'_cons_neg _ h, ih]

theorem destutter_snoc (l : List α) (b : α) :
    (l ++ [b]).destutter (· ≠ ·) =
      if (l.destutter (· ≠ ·)).getLast? = some b then l.destutter (· ≠ ·)
      else l.destutter (· ≠ ·) ++ [b] := by
  cases l with
  | nil => simp
  | cons a l => exact destutter'_snoc l a b

theorem recent_snoc (hn : 0 < n) (l : List α) (a : α) :
    recent n (l ++ [a]) = remember n (recent n l) a := by
  unfold recent remember
  rw [destutter_snoc, getLast?_rtake hn]
  split_ifs with h
  · rfl
  · obtain ⟨m, rfl⟩ : ∃ m, n = m + 1 := ⟨n - 1, by omega⟩
    rw [List.rtake_concat_succ, List.rtake_concat_succ, rtake_rtake_succ]

theorem length_recent (n : ℕ) (l : List α) : (recent n l).length ≤ n := by
  unfold recent List.rtake
  rw [List.length_drop]
  omega

theorem mem_of_mem_recent (h : a ∈ recent n l) : a ∈ l :=
  (l.destutter_sublist (· ≠ ·)).subset (List.mem_of_mem_drop h)

end Kerneloid.Lib.Recent
