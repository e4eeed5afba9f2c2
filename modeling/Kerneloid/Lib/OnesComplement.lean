import Mathlib.Data.Nat.ModEq
import Mathlib.Tactic

/-! # One's-complement arithmetic

The numbers `0` to `m` with addition in which the carry out of the top is added at the bottom. It is
arithmetic modulo `m` in which zero has two representations, `0` and `m`. `Rep m s r` says that `r`
is the number for the sum `s`: it is congruent to it, and is `0` only if the sum is. Carrying around
does not change what a sum stands for, so it can be done after each addition or at the end, once or
several times.

The width is a parameter: for words of `w` bits `m` is `2 ^ w - 1`. -/

namespace Kerneloid.Lib.OnesComplement

variable {m s r r' : ℕ}

/-- The part of `s` above the top added to the part below. -/
def carry (m s : ℕ) : ℕ := s % (m + 1) + s / (m + 1)

/-- Addition with the carry around the end. -/
def add (m a b : ℕ) : ℕ := carry m (a + b)

/-- **The one's-complement sum.** -/
def sum (m : ℕ) (ws : List ℕ) : ℕ := ws.foldl (add m) 0

/-- **The number `r` is what `s` is in one's complement.** -/
structure Rep (m s r : ℕ) : Prop where
  le : r ≤ m
  zero : r = 0 ↔ s = 0
  mod : r ≡ s [MOD m]

theorem carry_modEq (m s : ℕ) : carry m s ≡ s [MOD m] := by
  have hm : m + 1 ≡ 1 [MOD m] := Nat.add_modEq_left
  have hq : (m + 1) * (s / (m + 1)) ≡ 1 * (s / (m + 1)) [MOD m] := hm.mul_right _
  calc carry m s = s % (m + 1) + 1 * (s / (m + 1)) := by rw [one_mul, carry]
    _ ≡ s % (m + 1) + (m + 1) * (s / (m + 1)) [MOD m] := hq.symm.add_left _
    _ = s := Nat.mod_add_div s (m + 1)

theorem carry_eq_zero : carry m s = 0 ↔ s = 0 := by
  have h := Nat.mod_add_div s (m + 1)
  constructor
  · intro h0
    obtain ⟨hr, hq⟩ : s % (m + 1) = 0 ∧ s / (m + 1) = 0 := Nat.add_eq_zero_iff.mp h0
    rw [hr, hq] at h
    exact h.symm
  · rintro rfl
    simp [carry]

theorem add_le {a b : ℕ} (ha : a ≤ m) (hb : b ≤ m) : add m a b ≤ m := by
  unfold add carry
  by_cases h : a + b ≤ m
  · rw [Nat.mod_eq_of_lt (by omega), Nat.div_eq_of_lt (by omega)]
    omega
  · have hq : (a + b) / (m + 1) = 1 := Nat.div_eq_of_lt_le (by omega) (by omega)
    have hmod := Nat.mod_add_div (a + b) (m + 1)
    rw [hq] at hmod ⊢
    omega

/-! ### Representations -/

theorem rep_self (h : s ≤ m) : Rep m s s := ⟨h, Iff.rfl, Nat.ModEq.rfl⟩

theorem Rep.unique (h : Rep m s r) (h' : Rep m s r') : r = r' := by
  have hmod : r ≡ r' [MOD m] := h.mod.trans h'.mod.symm
  have hzero : r = 0 ↔ r' = 0 := h.zero.trans h'.zero.symm
  rcases h.le.lt_or_eq with hlt | rfl
  · rcases h'.le.lt_or_eq with hlt' | rfl
    · exact hmod.eq_of_lt_of_lt hlt hlt'
    · -- `r'` is the other zero, so `r` is the first one
      have h0 : r = 0 := Nat.eq_zero_of_dvd_of_lt
        ((Nat.modEq_zero_iff_dvd).mp (hmod.trans (Nat.modEq_zero_iff_dvd.mpr dvd_rfl))) hlt
      rw [h0, hzero.mp h0]
  · rcases h'.le.lt_or_eq with hlt' | rfl
    · have h0 : r' = 0 := Nat.eq_zero_of_dvd_of_lt
        ((Nat.modEq_zero_iff_dvd).mp (hmod.symm.trans (Nat.modEq_zero_iff_dvd.mpr dvd_rfl))) hlt'
      rw [h0, hzero.mpr h0]
    · rfl

/-- **Carrying around does not change what a sum stands for.** -/
theorem rep_carry : Rep m (carry m s) r ↔ Rep m s r :=
  ⟨fun h => ⟨h.le, h.zero.trans carry_eq_zero, h.mod.trans (carry_modEq m s)⟩,
    fun h => ⟨h.le, h.zero.trans carry_eq_zero.symm, h.mod.trans (carry_modEq m s).symm⟩⟩

theorem Rep.add {a b : ℕ} (h : Rep m s a) (hb : b ≤ m) : Rep m (s + b) (add m a b) := by
  refine ⟨add_le h.le hb, ?_, (carry_modEq m _).trans (h.mod.add_right b)⟩
  have hz := h.zero
  unfold OnesComplement.add
  rw [carry_eq_zero]
  omega

theorem foldl_add_rep (ws : List ℕ) (hws : ∀ w ∈ ws, w ≤ m) (h : Rep m s r) :
    Rep m (s + ws.sum) (ws.foldl (add m) r) := by
  induction ws generalizing s r with
  | nil => exact h
  | cons w ws ih =>
    rw [List.sum_cons, ← add_assoc]
    exact ih (fun v hv => hws v (List.mem_cons_of_mem w hv)) (h.add (hws w List.mem_cons_self))

theorem sum_rep {ws : List ℕ} (hws : ∀ w ∈ ws, w ≤ m) : Rep m ws.sum (sum m ws) := by
  have h := foldl_add_rep ws hws (rep_self (Nat.zero_le m))
  rwa [zero_add] at h

/-- **A number and its complement add up to the other zero.** -/
theorem Rep.complement (hm : 0 < m) (h : Rep m s r) : Rep m (s + (m - r)) m := by
  have hle := h.le
  have hz := h.zero
  refine ⟨le_rfl, by omega, ?_⟩
  have hmod : r + (m - r) ≡ s + (m - r) [MOD m] := h.mod.add_right _
  rwa [Nat.add_sub_cancel' hle] at hmod

end Kerneloid.Lib.OnesComplement
