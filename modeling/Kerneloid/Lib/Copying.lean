import Kerneloid.Lib.Bytes

/-! # Copying inside a memory

`copied m dst src n` is the memory in which the `n` bytes at `dst` are those that were at `src`
before. A copy can be done in two parts, if what the first one writes is not read by the second: the
lower part first if the destination is below the source (`copied_low`), the upper part first if it
is above (`copied_high`), and either way if the two do not overlap. So the loops that copy byte by
byte, in one direction or the other, and those that copy word by word are all the same. -/

namespace Kerneloid.Lib.Copying

open Bytes

/-- **A copy**, as if all bytes were read before the first one is written. -/
def copied (m : Mem) (dst src n : ℕ) : Mem := store m dst (fun k => m (src + k)) n

/-- The backward copy loop of the `n` bytes that end before `dst` and `src`. -/
def moveBack (m : Mem) (dst src : ℕ) : ℕ → Mem
  | 0 => m
  | n + 1 => moveBack (Function.update m (dst - 1) (m (src - 1))) (dst - 1) (src - 1) n

variable {m : Mem} {dst src n a b x : ℕ}

theorem copied_inside (m : Mem) (dst src : ℕ) {k : ℕ} (hk : k < n) :
    copied m dst src n (dst + k) = m (src + k) := by
  rw [copied, store_inside _ _ (by omega) (by omega), Nat.add_sub_cancel_left]

theorem copied_outside (m : Mem) (src : ℕ) (h : x < dst ∨ dst + n ≤ x) :
    copied m dst src n x = m x := store_outside m _ h

theorem eq_copied {m' : Mem} (hin : ∀ k < n, m' (dst + k) = m (src + k))
    (hout : ∀ x, x < dst ∨ dst + n ≤ x → m' x = m x) : m' = copied m dst src n := by
  funext x
  by_cases hx : dst ≤ x ∧ x < dst + n
  · obtain ⟨k, rfl⟩ := Nat.exists_eq_add_of_le hx.1
    rw [hin k (by omega), copied_inside m dst src (by omega)]
  · rw [hout x (by omega), copied_outside m src (by omega)]

theorem copied_self (m : Mem) (a n : ℕ) : copied m a a n = m :=
  (eq_copied (fun _ _ => rfl) fun _ _ => rfl).symm

theorem copied_zero (m : Mem) (dst src : ℕ) : copied m dst src 0 = m :=
  (eq_copied (fun k hk => absurd hk (by omega)) fun _ _ => rfl).symm

theorem copied_byte (m : Mem) (dst src : ℕ) :
    Function.update m dst (m src) = copied m dst src 1 := by
  refine eq_copied (fun k hk => ?_) fun x hx => Function.update_of_ne (by omega) _ _
  obtain rfl : k = 0 := by omega
  rw [add_zero, add_zero, Function.update_self]

theorem copied_word (m : Mem) (dst src : ℕ) : wr32 m dst (rd32 m src) = copied m dst src 4 := by
  refine eq_copied (fun k hk => ?_) fun x hx => wr32_outside m _ hx
  rw [wr32, store_inside _ _ (by omega) (by omega), Nat.add_sub_cancel_left, byteOf_rd32 m src hk]

theorem copied_low (h : dst ≤ src ∨ src + (a + b) ≤ dst) :
    copied (copied m dst src a) (dst + a) (src + a) b = copied m dst src (a + b) := by
  refine eq_copied (fun k hk => ?_) fun x hx => ?_
  · by_cases hka : k < a
    · rw [copied_outside _ _ (by omega), copied_inside m dst src hka]
    · obtain ⟨j, rfl⟩ := Nat.exists_eq_add_of_le (not_lt.mp hka)
      rw [← add_assoc, ← add_assoc, copied_inside _ _ _ (by omega), copied_outside _ _ (by omega)]
  · rw [copied_outside _ _ (by omega), copied_outside _ _ (by omega)]

theorem copied_high (h : src ≤ dst ∨ dst + (a + b) ≤ src) :
    copied (copied m (dst + a) (src + a) b) dst src a = copied m dst src (a + b) := by
  refine eq_copied (fun k hk => ?_) fun x hx => ?_
  · by_cases hka : k < a
    · rw [copied_inside _ _ _ hka, copied_outside _ _ (by omega)]
    · obtain ⟨j, rfl⟩ := Nat.exists_eq_add_of_le (not_lt.mp hka)
      rw [copied_outside _ _ (by omega), ← add_assoc, ← add_assoc, copied_inside _ _ _ (by omega)]
  · rw [copied_outside _ _ (by omega), copied_outside _ _ (by omega)]

theorem move_eq_copied (h : dst ≤ src ∨ src + n ≤ dst) : move m dst src n = copied m dst src n := by
  induction n generalizing m dst src with
  | zero => exact (copied_zero m dst src).symm
  | succ n ih =>
    rw [move, ih (by omega), copied_byte, copied_low (by omega), add_comm]

theorem moveBack_eq_copied (h : src ≤ dst ∨ dst + n ≤ src) :
    moveBack m (dst + n) (src + n) n = copied m dst src n := by
  induction n generalizing m with
  | zero => exact (copied_zero m dst src).symm
  | succ n ih =>
    show moveBack (Function.update m (dst + n) (m (src + n))) (dst + n) (src + n) n = _
    rw [ih (by omega), copied_byte, copied_high (by omega)]

end Kerneloid.Lib.Copying
