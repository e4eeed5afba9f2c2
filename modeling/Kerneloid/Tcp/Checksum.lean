import Kerneloid.Lib.OnesComplement

/-! # The internet checksum

`tcp_checksum` of `tcp.c`: the words of the packet, least significant byte first, are added in 32
bits, the carries are folded back, and the complement is the result. The sum of a packet of at most
65535 bytes does not overflow, and two turns fold it; so the result is the complement of the
one's-complement sum of the words. A packet that carries its own checksum then adds up to the zero
that is all ones, and its checksum is 0. -/

namespace Kerneloid.Tcp.Checksum

open Lib.OnesComplement

/-! ### The code -/

/-- `(uint16_t)ptr[0] | ((uint16_t)ptr[1] << 8)`. -/
def wordAt (lo hi : UInt8) : UInt16 := lo.toUInt16 ||| (hi.toUInt16 <<< 8)

/-- The loop over the words, and the odd byte. -/
def sumLoop : UInt32 → List UInt8 → UInt32
  | sum, lo :: hi :: rest => sumLoop (sum + (wordAt lo hi).toUInt32) rest
  | sum, [last] => sum + last.toUInt16.toUInt32
  | sum, [] => sum

/-- `while (sum >> 16) sum = (sum & 0xFFFF) + (sum >> 16)`, for at most `fuel` tests. -/
def foldLoop : ℕ → UInt32 → Option UInt32
  | 0, _ => none
  | fuel + 1, sum =>
    if sum >>> 16 = 0 then some sum else foldLoop fuel ((sum &&& (0xFFFF : UInt32)) + (sum >>> 16))

/-- `tcp_checksum`. The fuel is enough (`foldLoop_returns`). -/
def tcpChecksum (data : List UInt8) : Option UInt16 :=
  (foldLoop 3 (sumLoop 0 data)).map fun sum => (~~~sum).toUInt16

/-! ### The words of a packet -/

/-- The little-endian words, an odd last byte zero-extended. -/
def words : List UInt8 → List ℕ
  | lo :: hi :: rest => (lo.toNat + 256 * hi.toNat) :: words rest
  | [last] => [last.toNat]
  | [] => []

theorem words_le (data : List UInt8) : ∀ w ∈ words data, w ≤ 65535 := by
  fun_induction words data with
  | case1 lo hi rest ih =>
    intro w hw
    have hlo := lo.toNat_lt
    have hhi := hi.toNat_lt
    rcases List.mem_cons.mp hw with rfl | hw
    · omega
    · exact ih w hw
  | case2 last =>
    intro w hw
    have hlast := last.toNat_lt
    rw [List.mem_singleton.mp hw]
    omega
  | case3 => simp

theorem length_words (data : List UInt8) : (words data).length = (data.length + 1) / 2 := by
  fun_induction words data with
  | case1 lo hi rest ih =>
    rw [List.length_cons, ih, List.length_cons, List.length_cons]
    omega
  | case2 last => simp
  | case3 => rfl

theorem sum_words_lt {data : List UInt8} (h : data.length ≤ 65535) : (words data).sum < 2 ^ 32 := by
  have hsum := List.sum_le_card_nsmul (words data) 65535 (words_le data)
  rw [length_words, smul_eq_mul] at hsum
  omega

theorem toNat_wordAt (lo hi : UInt8) : (wordAt lo hi).toNat = lo.toNat + 256 * hi.toNat := by
  have hlo := lo.toNat_lt
  have hhi := hi.toNat_lt
  have hshift : (hi.toUInt16 <<< 8).toNat = hi.toNat <<< 8 := by
    rw [UInt16.toNat_shiftLeft, UInt8.toNat_toUInt16, Nat.shiftLeft_eq, Nat.shiftLeft_eq]
    show hi.toNat * 2 ^ 8 % 2 ^ 16 = hi.toNat * 2 ^ 8
    exact Nat.mod_eq_of_lt (by omega)
  have hor := Nat.shiftLeft_add_eq_or_of_lt (b := lo.toNat) (i := 8) (by omega) hi.toNat
  rw [wordAt, UInt16.toNat_or, UInt8.toNat_toUInt16, hshift, Nat.or_comm, ← hor, Nat.shiftLeft_eq]
  omega

theorem toNat_sumLoop (sum : UInt32) (data : List UInt8)
    (h : sum.toNat + (words data).sum < 2 ^ 32) :
    (sumLoop sum data).toNat = sum.toNat + (words data).sum := by
  fun_induction sumLoop sum data with
  | case1 sum lo hi rest ih =>
    rw [words, List.sum_cons] at h ⊢
    have hadd : (sum + (wordAt lo hi).toUInt32).toNat =
        sum.toNat + (lo.toNat + 256 * hi.toNat) := by
      rw [UInt32.toNat_add, UInt16.toNat_toUInt32, toNat_wordAt]
      exact Nat.mod_eq_of_lt (by omega)
    rw [ih (by omega), hadd]
    omega
  | case2 sum last =>
    rw [words, List.sum_singleton] at h ⊢
    rw [UInt32.toNat_add, UInt16.toNat_toUInt32, UInt8.toNat_toUInt16]
    exact Nat.mod_eq_of_lt (by omega)
  | case3 sum => rfl

/-! ### Folding the carries -/

theorem foldLoop_turn (fuel : ℕ) (sum : UInt32) :
    sum.toNat ≤ 65535 ∧ foldLoop (fuel + 1) sum = some sum ∨
      65535 < sum.toNat ∧ ∃ next : UInt32, next.toNat = carry 65535 sum.toNat ∧
        foldLoop (fuel + 1) sum = foldLoop fuel next := by
  have hlt := sum.toNat_lt
  have hhigh : (sum >>> 16).toNat = sum.toNat / 65536 := by
    rw [UInt32.toNat_shiftRight, Nat.shiftRight_eq_div_pow]
    rfl
  have hlow : (sum &&& 0xFFFF).toNat = sum.toNat % 65536 := by
    rw [UInt32.toNat_and]
    exact Nat.and_two_pow_sub_one_eq_mod sum.toNat 16
  by_cases h0 : sum >>> 16 = 0
  · refine Or.inl ⟨?_, if_pos h0⟩
    rw [h0] at hhigh
    have : (0 : UInt32).toNat = 0 := rfl
    omega
  · refine Or.inr ⟨?_, _, ?_, if_neg h0⟩
    · by_contra hle
      exact h0 (UInt32.toNat_inj.mp (by rw [hhigh]; exact Nat.div_eq_of_lt (by omega)))
    · rw [UInt32.toNat_add, hhigh, hlow]
      exact Nat.mod_eq_of_lt (by omega)

theorem foldLoop_returns (sum : UInt32) :
    ∃ r, foldLoop 3 sum = some r ∧ Rep 65535 sum.toNat r.toNat := by
  have hlt := sum.toNat_lt
  rcases foldLoop_turn 2 sum with ⟨hle, hend⟩ | ⟨hgt, s₁, hs₁, h₁⟩
  · exact ⟨sum, hend, rep_self hle⟩
  rcases foldLoop_turn 1 s₁ with ⟨hle, hend⟩ | ⟨hgt₁, s₂, hs₂, h₂⟩
  · exact ⟨s₁, h₁.trans hend, rep_carry.mp (hs₁ ▸ rep_self hle)⟩
  rcases foldLoop_turn 0 s₂ with ⟨hle, hend⟩ | ⟨hgt₂, -⟩
  · have hrep₁ : Rep 65535 s₁.toNat s₂.toNat := rep_carry.mp (hs₂ ▸ rep_self hle)
    exact ⟨s₂, (h₁.trans h₂).trans hend, rep_carry.mp (hs₁ ▸ hrep₁)⟩
  · -- the high half was at most 65535, so that the second carry was at most 1
    unfold carry at hs₁ hs₂
    omega

theorem tcpChecksum_eq {data : List UInt8} (h : data.length ≤ 65535) {r : ℕ}
    (hr : Rep 65535 (words data).sum r) : tcpChecksum data = some (~~~(UInt16.ofNat r)) := by
  have hsum : (sumLoop 0 data).toNat = (words data).sum := by
    rw [toNat_sumLoop 0 data (by simpa using sum_words_lt h)]
    exact Nat.zero_add _
  obtain ⟨f, hf, hrep⟩ := foldLoop_returns (sumLoop 0 data)
  rw [hsum] at hrep
  obtain rfl := hrep.unique hr
  have hle := hr.le
  unfold tcpChecksum
  rw [hf, Option.map_some]
  refine congrArg some (UInt16.toNat_inj.mp ?_)
  rw [UInt32.toNat_toUInt16, UInt32.toNat_not, UInt16.toNat_not, UInt16.toNat_ofNat']
  show (4294967296 - 1 - f.toNat) % 65536 = 65536 - 1 - f.toNat % 65536
  omega

/-! ### The field of the checksum -/

/-- `c` stored at offset `o`, the low byte first. -/
def storeField (data : List UInt8) (o : ℕ) (c : UInt16) : List UInt8 :=
  (data.set o c.toUInt8).set (o + 1) (c >>> 8).toUInt8

theorem length_storeField (data : List UInt8) (o : ℕ) (c : UInt16) :
    (storeField data o c).length = data.length := by
  rw [storeField, List.length_set, List.length_set]

theorem bytes_of_word (c : UInt16) : c.toUInt8.toNat + 256 * (c >>> 8).toUInt8.toNat = c.toNat := by
  have hlt := c.toNat_lt
  have hhigh : (c >>> 8).toNat = c.toNat / 256 := by
    rw [UInt16.toNat_shiftRight, Nat.shiftRight_eq_div_pow]
    rfl
  rw [UInt16.toNat_toUInt8, UInt16.toNat_toUInt8, hhigh]
  omega

theorem words_storeField (data : List UInt8) (k : ℕ) (c : UInt16) (h : 2 * k + 1 < data.length) :
    words (storeField data (2 * k) c) = (words data).set k c.toNat := by
  induction k generalizing data with
  | zero =>
    match data, h with
    | lo :: hi :: rest, _ =>
      show (c.toUInt8.toNat + 256 * (c >>> 8).toUInt8.toNat) :: words rest = c.toNat :: words rest
      rw [bytes_of_word]
  | succ k ih =>
    match data, h with
    | lo :: hi :: rest, h =>
      rw [List.length_cons, List.length_cons] at h
      show (lo.toNat + 256 * hi.toNat) :: words (storeField rest (2 * k) c) =
        (lo.toNat + 256 * hi.toNat) :: (words rest).set k c.toNat
      rw [ih rest (by omega)]

theorem sum_set_zero (ws : List ℕ) (k v : ℕ) (h : k < ws.length) :
    ((ws.set k 0).set k v).sum = (ws.set k 0).sum + v := by
  rw [List.set_set, List.sum_set, List.sum_set, if_pos h, if_pos h]
  omega

/-- **The checksum verifies itself.** For every packet of at most 65535 bytes, the checksum is the
complement of the one's-complement sum of its words; and if a field of 16 bits at an even offset is
zero, and then gets the checksum, the checksum of the packet is 0. -/
theorem checksum_verifies (data : List UInt8) (h : data.length ≤ 65535) :
    tcpChecksum data = some (~~~(UInt16.ofNat (sum 65535 (words data)))) ∧
      ∀ o, Even o → o + 1 < data.length →
        ∃ c, tcpChecksum (storeField data o 0) = some c ∧
          tcpChecksum (storeField (storeField data o 0) o c) = some 0 := by
  refine ⟨tcpChecksum_eq h (sum_rep (words_le data)), ?_⟩
  rintro o ⟨k, rfl⟩ ho
  rw [← two_mul] at ho ⊢
  have hz : (storeField data (2 * k) 0).length ≤ 65535 := by rwa [length_storeField]
  have hzero := sum_rep (words_le (storeField data (2 * k) 0))
  set r := sum 65535 (words (storeField data (2 * k) 0))
  have hr : (~~~(UInt16.ofNat r)).toNat = 65535 - r := by
    have hle := hzero.le
    rw [UInt16.toNat_not, UInt16.toNat_ofNat']
    show 65536 - 1 - r % 65536 = 65535 - r
    omega
  refine ⟨_, tcpChecksum_eq hz hzero, ?_⟩
  have hk : k < (words data).length := by
    rw [length_words]
    omega
  have hsum : (words (storeField (storeField data (2 * k) 0) (2 * k) (~~~(UInt16.ofNat r)))).sum =
      (words (storeField data (2 * k) 0)).sum + (65535 - r) := by
    rw [words_storeField _ k _ (by rwa [length_storeField]), words_storeField data k 0 ho, hr]
    exact sum_set_zero (words data) k (65535 - r) hk
  have hfull := hzero.complement (by omega)
  rw [← hsum] at hfull
  rw [tcpChecksum_eq (by rwa [length_storeField]) hfull]
  rfl

/-- An odd packet, with the checksum in its second word. -/
theorem checksum_verifies_odd :
    tcpChecksum [0xff, 0xff, 0x12, 0x34, 0x80] = some 0xcb6d ∧
      ∃ c, tcpChecksum (storeField [0xff, 0xff, 0x12, 0x34, 0x80] 2 0) = some c ∧
        tcpChecksum (storeField (storeField [0xff, 0xff, 0x12, 0x34, 0x80] 2 0) 2 c) = some 0 :=
  ⟨by decide +kernel,
    (checksum_verifies [0xff, 0xff, 0x12, 0x34, 0x80] (by decide)).2 2 (by decide) (by decide)⟩

end Kerneloid.Tcp.Checksum
