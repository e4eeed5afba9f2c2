import Mathlib.Tactic

/-! # Byte memory

A memory is a function from addresses to bytes. `store` writes bytes taken from outside the memory,
`fill` writes one byte value, `move` copies inside the memory byte by byte from low to high
addresses (the order of a forward copy loop, so overlapping ranges behave as they do on the
machine). `rd32`/`wr32` are little-endian 32-bit words.

Each writer has one lemma for the addresses it writes (`_inside`) and one for all others
(`_outside`); copying between ranges that do not overlap reads the old memory (`move_inside`). -/

namespace Kerneloid.Lib.Bytes

variable {a c k n x : ℕ}

abbrev Mem := ℕ → UInt8

/-- `n` bytes of `src` written at `a`. -/
def store (m : Mem) (a : ℕ) (src : ℕ → UInt8) (n : ℕ) : Mem :=
  fun x => if a ≤ x ∧ x < a + n then src (x - a) else m x

theorem store_inside (m : Mem) (src : ℕ → UInt8) (h1 : a ≤ x) (h2 : x < a + n) :
    store m a src n x = src (x - a) := if_pos ⟨h1, h2⟩

theorem store_outside (m : Mem) (src : ℕ → UInt8) (h : x < a ∨ a + n ≤ x) :
    store m a src n x = m x := if_neg (by omega)

/-- `n` bytes of value `c` written at `a`. -/
def fill (m : Mem) (a : ℕ) (c : UInt8) (n : ℕ) : Mem := store m a (fun _ => c) n

/-- The forward copy loop of `n` bytes from `src` to `dst`. -/
def move (m : Mem) (dst src : ℕ) : ℕ → Mem
  | 0 => m
  | n + 1 => move (Function.update m dst (m src)) (dst + 1) (src + 1) n

theorem move_outside {dst src : ℕ} (m : Mem) (h : x < dst ∨ dst + n ≤ x) :
    move m dst src n x = m x := by
  induction n generalizing m dst src with
  | zero => rfl
  | succ n ih =>
    rw [move, ih _ (by omega), Function.update_of_ne (by omega)]

theorem store_shift (m : Mem) (o a : ℕ) (src : ℕ → UInt8) (n x : ℕ) :
    store m (o + a) src n (o + x) = store (fun y => m (o + y)) a src n x := by
  unfold store
  rw [Nat.add_sub_add_left]
  exact if_congr (by omega) rfl rfl

theorem move_shift (m : Mem) (o dst src n x : ℕ) :
    move m (o + dst) (o + src) n (o + x) = move (fun y => m (o + y)) dst src n x := by
  induction n generalizing m dst src with
  | zero => rfl
  | succ n ih =>
    rw [move, move, Nat.add_assoc, Nat.add_assoc, ih]
    congr 1
    funext y
    by_cases hy : y = dst
    · simp [hy]
    · simp [hy]

theorem move_inside {dst src : ℕ} (m : Mem) (hk : k < n)
    (hsep : src + n ≤ dst ∨ dst + n ≤ src) : move m dst src n (dst + k) = m (src + k) := by
  induction n generalizing m dst src k with
  | zero => omega
  | succ n ih =>
    rw [move]
    cases k with
    | zero =>
      rw [move_outside _ (by omega)]
      simp
    | succ k =>
      have h : move (Function.update m dst (m src)) (dst + 1) (src + 1) n (dst + 1 + k) =
          Function.update m dst (m src) (src + 1 + k) := ih _ (by omega) (by omega)
      rw [show dst + (k + 1) = dst + 1 + k by omega, h, Function.update_of_ne (by omega),
        show src + 1 + k = src + (k + 1) by omega]

/-! ### Little-endian words -/

def rd32 (m : Mem) (a : ℕ) : ℕ :=
  (m a).toNat + 256 * (m (a + 1)).toNat + 65536 * (m (a + 2)).toNat + 16777216 * (m (a + 3)).toNat

/-- Byte `k` of the word `v`. -/
def byteOf (v k : ℕ) : UInt8 := UInt8.ofNat (v / 256 ^ k)

/-- The low 32 bits of `v` written at `a`. -/
def wr32 (m : Mem) (a v : ℕ) : Mem := store m a (byteOf v) 4

theorem rd32_lt (m : Mem) (a : ℕ) : rd32 m a < 2 ^ 32 := by
  have h₀ := (m a).toNat_lt
  have h₁ := (m (a + 1)).toNat_lt
  have h₂ := (m (a + 2)).toNat_lt
  have h₃ := (m (a + 3)).toNat_lt
  unfold rd32
  omega

theorem rd32_congr {m m' : Mem} (h : ∀ x, a ≤ x → x < a + 4 → m' x = m x) :
    rd32 m' a = rd32 m a := by
  unfold rd32
  rw [h a (by omega) (by omega), h (a + 1) (by omega) (by omega), h (a + 2) (by omega) (by omega),
    h (a + 3) (by omega) (by omega)]

theorem rd32_wr32 (m : Mem) (a v : ℕ) : rd32 (wr32 m a v) a = v % 2 ^ 32 := by
  unfold rd32 wr32
  rw [store_inside _ _ (by omega) (by omega), store_inside _ _ (by omega) (by omega),
    store_inside _ _ (by omega) (by omega), store_inside _ _ (by omega) (by omega)]
  simp only [byteOf, UInt8.toNat_ofNat', Nat.sub_self, Nat.add_sub_cancel_left]
  omega

theorem rd32_byte (m : Mem) (a : ℕ) (hk : k < 4) :
    rd32 m a / 256 ^ k % 256 = (m (a + k)).toNat := by
  have h₀ := (m a).toNat_lt
  have h₁ := (m (a + 1)).toNat_lt
  have h₂ := (m (a + 2)).toNat_lt
  have h₃ := (m (a + 3)).toNat_lt
  unfold rd32
  interval_cases k <;> norm_num <;> omega

theorem byteOf_rd32 (m : Mem) (a : ℕ) (hk : k < 4) : byteOf (rd32 m a) k = m (a + k) := by
  refine UInt8.toNat_inj.mp ?_
  rw [byteOf, UInt8.toNat_ofNat']
  exact rd32_byte m a hk

theorem wr32_outside (m : Mem) (v : ℕ) (h : x < a ∨ a + 4 ≤ x) : wr32 m a v x = m x :=
  store_outside m _ h

theorem rd32_store_ne (m : Mem) (src : ℕ → UInt8) (h : c + 4 ≤ a ∨ a + n ≤ c) :
    rd32 (store m a src n) c = rd32 m c :=
  rd32_congr fun x h1 h2 => store_outside m src (by omega)

theorem rd32_update_ne (m : Mem) (v : UInt8) (h : a < c ∨ c + 4 ≤ a) :
    rd32 (Function.update m a v) c = rd32 m c :=
  rd32_congr fun x h1 h2 => Function.update_of_ne (by omega) _ _

theorem rd32_wr32_ne (m : Mem) (v : ℕ) (h : c + 4 ≤ a ∨ a + 4 ≤ c) :
    rd32 (wr32 m a v) c = rd32 m c := rd32_store_ne m _ h

/-! ### Addresses of 32 bits -/

/-- `n` bytes of `src` written from `a` on, where the address after the last one is 0. -/
def storeRound (m : Mem) (a : ℕ) (src : ℕ → UInt8) (n : ℕ) : Mem := fun x =>
  let i := (x + (2 ^ 32 - a)) % 2 ^ 32
  if x < 2 ^ 32 ∧ i < n then src i else m x

theorem storeRound_eq (m : Mem) (src : ℕ → UInt8) (h : a + n ≤ 2 ^ 32) :
    storeRound m a src n = store m a src n := by
  funext x
  unfold storeRound store
  dsimp only
  by_cases hx : a ≤ x ∧ x < a + n
  · have hi : (x + (2 ^ 32 - a)) % 2 ^ 32 = x - a := by omega
    rw [hi, if_pos hx, if_pos ⟨by omega, by omega⟩]
  · rw [if_neg hx, if_neg]
    intro hin
    omega

theorem and_mask {j : ℕ} (hj : j ≤ 32) (hx : x < 2 ^ 32) :
    x &&& (2 ^ 32 - 1 - (2 ^ j - 1)) = x / 2 ^ j * 2 ^ j := by
  have hmask : 2 ^ 32 - 1 - (2 ^ j - 1) = (2 ^ (32 - j) - 1) * 2 ^ j := by
    have hpos := Nat.two_pow_pos j
    rw [Nat.sub_mul, ← Nat.pow_add, Nat.sub_add_cancel hj]
    omega
  refine Nat.eq_of_testBit_eq fun i => ?_
  rw [hmask, Nat.testBit_and, Nat.testBit_mul_two_pow, Nat.testBit_mul_two_pow,
    Nat.testBit_two_pow_sub_one, Nat.testBit_div_two_pow]
  by_cases hi : j ≤ i
  · rw [Nat.sub_add_cancel hi]
    by_cases hi' : i < 32
    · simp [hi]
      omega
    · have hbit : x.testBit i = false :=
        Nat.testBit_lt_two_pow (hx.trans_le (Nat.pow_le_pow_right (by decide) (not_lt.mp hi')))
      simp [hbit]
  · simp [hi]

end Kerneloid.Lib.Bytes
