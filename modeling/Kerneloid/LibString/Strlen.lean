import Kerneloid.Lib.Bytes
import Kerneloid.Lib.ZeroByte

/-! # `lib_strlen`

The function of `lib_string.c` looks at single bytes up to an address that is a multiple of 4, and
then at whole words. The word that has the terminator is found by the test of `Lib.ZeroByte`; the
bytes behind the terminator take part in the test and do not matter. Both loops have `fuel`: more
than the length of the string is always enough. -/

namespace Kerneloid.LibString.Strlen

open Lib.Bytes Lib.ZeroByte

/-! ### The code -/

/-- `while (((uintptr_t)p & 3U) && *p) { p++; len++; }`. -/
def alignLoop (m : Mem) : ℕ → ℕ → ℕ → Option (ℕ × ℕ)
  | 0, _, _ => none
  | fuel + 1, p, len =>
    if p &&& 3 ≠ 0 ∧ m p ≠ 0 then alignLoop m fuel (p + 1) (len + 1) else some (p, len)

/-- `((v - 0x01010101U) & ~v & 0x80808080U) != 0`. -/
def hasZero (v : UInt32) : Bool := (v - 0x01010101) &&& ~~~v &&& 0x80808080 ≠ 0

def wordLoop (m : Mem) : ℕ → ℕ → ℕ → Option ℕ
  | 0, _, _ => none
  | fuel + 1, w, len =>
    let v := UInt32.ofNat (rd32 m w)
    if hasZero v then
      match (List.range 4).find? fun i => m (w + i) = 0 with
      | some i => some (len + i)
      | none => wordLoop m fuel (w + 4) (len + 4)
    else wordLoop m fuel (w + 4) (len + 4)

def libStrlen (fuel : ℕ) (m : Mem) (s : ℕ) : Option ℕ :=
  if s = 0 then some 0
  else do
    let (p, len) ← alignLoop m fuel s 0
    if m p = 0 then return len else wordLoop m fuel p len

/-! ### The words -/

variable {m : Mem} {s p w len fuel : ℕ}

theorem hasZero_rd32 (m : Mem) (w : ℕ) :
    hasZero (UInt32.ofNat (rd32 m w)) = true ↔ ∃ k < 4, m (w + k) = 0 := by
  have hlt := rd32_lt m w
  have htest : ((UInt32.ofNat (rd32 m w) - 0x01010101) &&& ~~~(UInt32.ofNat (rd32 m w)) &&&
      0x80808080).toNat = zeroTest 4 (rd32 m w) := by
    rw [UInt32.toNat_and, UInt32.toNat_and, UInt32.toNat_sub, UInt32.toNat_not,
      UInt32.toNat_ofNat', Nat.mod_eq_of_lt hlt]
    rfl
  have hbyte : ∀ k < 4, (rd32 m w / 256 ^ k % 256 ≠ 0 ↔ m (w + k) ≠ 0) := fun k hk => by
    rw [rd32_byte m w hk, not_iff_not, ← UInt8.toNat_inj]
    rfl
  rw [hasZero, decide_eq_true_iff, ne_eq, ← UInt32.toNat_inj, htest]
  show ¬ zeroTest 4 (rd32 m w) = 0 ↔ _
  rw [zeroTest_eq_zero hlt]
  simp only [not_forall, exists_prop]
  refine exists_congr fun k => and_congr_right fun hk => ?_
  rw [hbyte k hk, not_not]

/-! ### The loops -/

/-- A string of `len` characters at `p`. -/
structure IsString (m : Mem) (p len : ℕ) : Prop where
  chars : ∀ k < len, m (p + k) ≠ 0
  nul : m (p + len) = 0

theorem IsString.drop {j : ℕ} (h : IsString m p (j + len)) : IsString m (p + j) len := by
  refine ⟨fun k hk => ?_, ?_⟩
  · rw [add_assoc]
    exact h.chars (j + k) (by omega)
  · rw [add_assoc]
    exact h.nul

theorem alignLoop_returns (h : IsString m p len) (hfuel : len < fuel) (n : ℕ) :
    ∃ j left, j + left = len ∧ alignLoop m fuel p n = some (p + j, n + j) := by
  induction len generalizing fuel p n with
  | zero =>
    obtain ⟨fuel, rfl⟩ := Nat.exists_eq_add_of_lt hfuel
    have hstop : ¬ (p &&& 3 ≠ 0 ∧ m p ≠ 0) := fun hp => hp.2 h.nul
    refine ⟨0, 0, rfl, ?_⟩
    rw [alignLoop, if_neg hstop]
    rfl
  | succ len ih =>
    match fuel, hfuel with
    | fuel + 1, hfuel =>
      rw [alignLoop]
      split_ifs with hp
      · have hrest : IsString m (p + 1) len := IsString.drop (by rwa [add_comm])
        obtain ⟨j, left, hlen, hloop⟩ := ih hrest (Nat.lt_of_succ_lt_succ hfuel) (n + 1)
        refine ⟨j + 1, left, by omega, ?_⟩
        rw [hloop, add_assoc, add_comm 1 j, add_assoc, add_comm 1 j]
      · exact ⟨0, len + 1, by omega, rfl⟩

theorem wordLoop_returns (h : IsString m w len) (hfuel : len / 4 < fuel) (n : ℕ) :
    wordLoop m fuel w n = some (n + len) := by
  induction fuel generalizing w n len with
  | zero => omega
  | succ fuel ih =>
    unfold wordLoop
    dsimp only
    by_cases hlast : len < 4
    · have hzero := (hasZero_rd32 m w).mpr ⟨len, hlast, h.nul⟩
      have hfind : ((List.range 4).find? fun i => decide (m (w + i) = 0)) = some len := by
        rw [List.find?_range_eq_some]
        exact ⟨by simpa using h.nul, List.mem_range.mpr hlast, fun j hj => by
          simpa using h.chars j hj⟩
      rw [if_pos hzero, hfind]
    · obtain ⟨left, rfl⟩ := Nat.exists_eq_add_of_le (not_lt.mp hlast)
      have hzero : ¬ hasZero (UInt32.ofNat (rd32 m w)) = true := by
        rw [hasZero_rd32]
        rintro ⟨k, hk, h0⟩
        exact h.chars k (by omega) h0
      rw [if_neg hzero, ih h.drop (by omega), add_assoc]

/-- **The length of a string.** For every memory and every string in it, at any address but `NULL`,
`lib_strlen` returns its length, the index of the first NUL byte; the bytes behind it are arbitrary.
-/
theorem strlen_exact (m : Mem) (s len : ℕ) (hs : s ≠ 0) (h : IsString m s len) (fuel : ℕ)
    (hfuel : len < fuel) : libStrlen fuel m s = some len := by
  obtain ⟨j, left, rfl, hloop⟩ := alignLoop_returns h hfuel 0
  have hrest : IsString m (s + j) left := h.drop
  have hleft : m (s + j) = 0 ↔ left = 0 := by
    constructor
    · intro h0
      by_contra hne
      exact hrest.chars 0 (by omega) h0
    · rintro rfl
      exact hrest.nul
  unfold libStrlen
  rw [if_neg hs, hloop, zero_add]
  show (if m (s + j) = 0 then some j else wordLoop m fuel (s + j) j) = some (j + left)
  split_ifs with h0
  · rw [hleft.mp h0, add_zero]
  · exact wordLoop_returns hrest (by omega) j

/-- A string at an odd address that ends in the first byte of a word; a byte 1 follows, for which
the difference borrows. -/
def borrowing : Mem := fun x => if x = 12 then 0 else if x = 13 then 1 else 0x80

theorem strlen_exact_borrowing : libStrlen 8 borrowing 5 = some 7 :=
  strlen_exact borrowing 5 7 (by decide) ⟨by decide +kernel, by decide⟩ 8 (by decide)

end Kerneloid.LibString.Strlen
