import Kerneloid.Lib.Arrays
import Mathlib.Data.List.DropRight

/-! # Slots for strings

An array of `slots` buffers of `size` characters each, one of them for the terminator: copies into a
slot are checked for both. A full array takes a new string by moving all others down by one slot. -/

namespace Kerneloid.Lib.Slots

open Arrays

variable {α : Type} {slots size n : ℕ} {t t' : ℕ → List α} {l : List (List α)} {a : List α}

/-- `strcpy(t[i], src)`. -/
def copyTo (slots size : ℕ) (t : ℕ → List α) (i : ℤ) (src : List α) : Option (ℕ → List α) :=
  if src.length < size then writeAt slots t i src else none

/-- `strcpy(t[i], t[i + 1])`. -/
def moveDown (slots size : ℕ) (t : ℕ → List α) (i : ℤ) : Option (ℕ → List α) := do
  copyTo slots size t i (← readAt slots t (i + 1))

/-- `for (i = 0; i < slots - 1; i++) strcpy(t[i], t[i + 1])`. -/
def shiftDown (slots size : ℕ) (t : ℕ → List α) : Option (ℕ → List α) :=
  (upFrom 0 (slots - 1 : ℕ)).foldlM (moveDown slots size) t

theorem copyTo_natCast (ha : a.length < size) (hn : n < slots) :
    copyTo slots size t n a = some (Function.update t n a) := by
  rw [copyTo, if_pos ha, writeAt_natCast hn]

theorem moveDown_natCast (hn : n + 1 < slots) (ht : (t (n + 1)).length < size) :
    moveDown slots size t n = some (Function.update t n (t (n + 1))) := by
  have hread : readAt slots t ((n + 1 : ℕ) : ℤ) = some (t (n + 1)) := readAt_natCast hn
  unfold moveDown
  rw [← Nat.cast_succ, hread]
  exact copyTo_natCast ht (by omega)

theorem shiftDown_eq (hshort : ∀ k < slots, (t k).length < size) :
    ∃ t', shiftDown slots size t = some t' ∧
      ∀ k, t' k = if k < slots - 1 then t (k + 1) else t k := by
  obtain ⟨t', ht', hmoved⟩ := upFrom_shift (f := moveDown slots size) (t := t)
    (Nat.zero_le (slots - 1)) fun n _ hn t' hnext => by
      rw [← hnext]
      exact moveDown_natCast (by omega) (by rw [hnext]; exact hshort _ (by omega))
  refine ⟨t', ht', fun k => ?_⟩
  rw [hmoved]
  simp

/-! ### One string more

`(l ++ [a]).rtake slots`: the new string is last, and the first one is dropped if there is no room.
-/

theorem length_rtake_snoc (l : List (List α)) (a : List α) (n : ℕ) :
    ((l ++ [a]).rtake n).length = min n (l.length + 1) := by
  rw [List.rtake, List.length_drop, List.length_append, List.length_singleton]
  omega

theorem stored_snoc (h : Stored Eq t 0 l) (hl : l.length < slots) :
    Stored Eq (Function.update t l.length a) 0 ((l ++ [a]).rtake slots) := by
  have hall : (l ++ [a]).length - slots = 0 := by
    rw [List.length_append, List.length_singleton]
    omega
  rw [List.rtake, hall, List.drop_zero]
  refine stored_append.mpr ⟨?_, stored_cons.mpr ⟨?_, stored_nil⟩⟩
  · exact h.congr fun k hk => Function.update_of_ne (by omega) _ _
  · rw [zero_add, Function.update_self]

theorem stored_shift (h : Stored Eq t 0 l) (hl : l.length = n + 1)
    (hmoved : ∀ k, t' k = if k < n then t (k + 1) else t k) :
    Stored Eq (Function.update t' n a) 0 ((l ++ [a]).rtake (n + 1)) := by
  have hone : (l ++ [a]).length - (n + 1) = 1 := by
    rw [List.length_append, List.length_singleton]
    omega
  rw [List.rtake, hone]
  intro k x hx
  rw [List.getElem?_drop] at hx
  rw [zero_add]
  by_cases hlast : k = n
  · subst hlast
    rw [add_comm, ← hl, List.getElem?_append_right le_rfl, Nat.sub_self] at hx
    rw [Function.update_self]
    exact Option.some.inj hx
  · have hk : k < n := by
      have hlen := (List.getElem?_eq_some_iff.mp hx).1
      rw [List.length_append, List.length_singleton] at hlen
      omega
    rw [List.getElem?_append_left (by omega)] at hx
    have hslot := h (1 + k) x hx
    rw [Function.update_of_ne hlast, hmoved, if_pos hk, ← hslot]
    congr 1
    omega

end Kerneloid.Lib.Slots
