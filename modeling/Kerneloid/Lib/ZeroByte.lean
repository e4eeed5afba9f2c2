import Mathlib.Tactic

/-! # Finding a zero byte in a word

`(v - 0x01010101) & ~v & 0x80808080`, for words of any number of bytes: it is not zero exactly if
one of the bytes of `v` is zero (`zeroTest_eq_zero`). The lowest byte is looked at first. If it is
zero, the subtraction borrows and leaves all ones there. If it is not, nothing is borrowed from the
bytes above, and the highest bit is left in it for no value; so the test is that of the bytes above.
-/

namespace Kerneloid.Lib.ZeroByte

/-- The word of `n` bytes 1. -/
def ones : ℕ → ℕ
  | 0 => 0
  | n + 1 => 1 + 256 * ones n

/-- **The test** of a word of `n` bytes: subtraction and complement are those of `8 * n` bits. -/
def zeroTest (n v : ℕ) : ℕ :=
  (256 ^ n - ones n + v) % 256 ^ n &&& (256 ^ n - 1 - v) &&& 128 * ones n

variable {n v a b c : ℕ}

theorem ones_lt (n : ℕ) : ones n < 256 ^ n := by
  induction n with
  | zero => exact Nat.one_pos
  | succ n ih =>
    rw [ones, pow_succ]
    omega

theorem byte_passes : ∀ b < 256, b ≠ 0 → (b - 1) &&& (255 - b) &&& 128 = 0 := by decide +kernel

theorem and_byte (a b c : ℕ) :
    (a &&& b &&& c) % 256 = (a % 256 &&& b % 256 &&& c % 256) ∧
      (a &&& b &&& c) / 256 = (a / 256 &&& b / 256 &&& c / 256) := by
  have hmod : ∀ x y : ℕ, (x &&& y) % 256 = x % 256 &&& y % 256 := fun _ _ =>
    Nat.and_mod_two_pow (n := 8)
  have hdiv : ∀ x y : ℕ, (x &&& y) / 256 = x / 256 &&& y / 256 := fun _ _ =>
    Nat.and_div_two_pow (n := 8)
  exact ⟨by rw [hmod, hmod], by rw [hdiv, hdiv]⟩

theorem sub_ones (hb : b < 256) (w : ℕ) :
    let d := (256 ^ (n + 1) - ones (n + 1) + (b + 256 * w)) % 256 ^ (n + 1)
    (b = 0 → d % 256 = 255) ∧
      (b ≠ 0 → d % 256 = b - 1 ∧ d / 256 = (256 ^ n - ones n + w) % 256 ^ n) := by
  have hlt := ones_lt n
  dsimp only
  rw [ones, pow_succ, mul_comm (256 ^ n), Nat.mod_mul]
  generalize 256 ^ n = N at *
  refine ⟨fun h0 => by omega, fun h0 => ?_⟩
  have hquot : (256 * N - (1 + 256 * ones n) + (b + 256 * w)) / 256 = N - ones n + w := by omega
  rw [hquot]
  omega

theorem not_byte (hb : b < 256) {w : ℕ} (hw : w < 256 ^ n) :
    (256 ^ (n + 1) - 1 - (b + 256 * w)) % 256 = 255 - b ∧
      (256 ^ (n + 1) - 1 - (b + 256 * w)) / 256 = 256 ^ n - 1 - w := by
  rw [pow_succ]
  omega

theorem mask_byte (n : ℕ) :
    128 * ones (n + 1) % 256 = 128 ∧ 128 * ones (n + 1) / 256 = 128 * ones n := by
  rw [ones]
  omega

theorem zeroTest_succ (hb : b < 256) {w : ℕ} (hw : w < 256 ^ n) :
    zeroTest (n + 1) (b + 256 * w) = 0 ↔ b ≠ 0 ∧ zeroTest n w = 0 := by
  obtain ⟨hborrow, hkeep⟩ := sub_ones (n := n) hb w
  obtain ⟨hnot, hnot'⟩ := not_byte hb hw
  obtain ⟨hmask, hmask'⟩ := mask_byte n
  have hsplit : ∀ x : ℕ, x = 0 ↔ x % 256 = 0 ∧ x / 256 = 0 := fun x => by omega
  unfold zeroTest
  rw [hsplit, (and_byte _ _ _).1, (and_byte _ _ _).2, hnot, hnot', hmask, hmask']
  by_cases h0 : b = 0
  · rw [hborrow h0, h0]
    simp
  · obtain ⟨hlow, hhigh⟩ := hkeep h0
    rw [hlow, hhigh, byte_passes b hb h0]
    simp [h0]

/-- **The test finds a zero byte**, and nothing else. -/
theorem zeroTest_eq_zero (hv : v < 256 ^ n) :
    zeroTest n v = 0 ↔ ∀ k < n, v / 256 ^ k % 256 ≠ 0 := by
  induction n generalizing v with
  | zero => simp [zeroTest, ones]
  | succ n ih =>
    have hlow : v % 256 < 256 := Nat.mod_lt v (by norm_num)
    have hhigh : v / 256 < 256 ^ n := Nat.div_lt_of_lt_mul (by rwa [pow_succ, mul_comm] at hv)
    have hbytes : ∀ k, v / 256 ^ (k + 1) = v / 256 / 256 ^ k := fun k => by
      rw [pow_succ, mul_comm, Nat.div_div_eq_div_mul]
    have htest := zeroTest_succ hlow hhigh
    rw [Nat.mod_add_div] at htest
    rw [htest, ih hhigh, Nat.forall_lt_succ_left]
    simp only [pow_zero, Nat.div_one, hbytes]

end Kerneloid.Lib.ZeroByte
