import Kerneloid.Lib.Copying

/-! # `lib_memcpy` and `lib_memmove`

The functions of `lib_string.c` on a byte memory. Addresses are natural numbers: regions that are in
range do not pass the end of the address space, and a pointer behind the last byte is not followed.

`lib_memcpy` has three ways to copy, all from low to high addresses: four words in a turn and then
the words that are left, the bytes of the tail, and `rep movsb` for everything else. All of them are
right if the destination is below the source, whatever the distance is, since no byte is written
before it is read. So `lib_memmove` may use it there, and copies backwards in the other case. -/

namespace Kerneloid.LibString.Move

open Lib.Bytes Lib.Copying

/-! ### The code -/

/-- `dw_d[0] = dw_s[0]`. -/
def copyWord (m : Mem) (d s : ℕ) : Mem := wr32 m d (rd32 m s)

/-- The loop that is unrolled four times: the memory, the pointers and `nwords` behind it. -/
def unrolledLoop (m : Mem) (d s : ℕ) : ℕ → Mem × ℕ × ℕ × ℕ
  | nwords + 4 =>
    let m := copyWord m d s
    let m := copyWord m (d + 4) (s + 4)
    let m := copyWord m (d + 8) (s + 8)
    let m := copyWord m (d + 12) (s + 12)
    unrolledLoop m (d + 16) (s + 16) nwords
  | nwords => (m, d, s, nwords)

/-- `while (nwords--) *dw_d++ = *dw_s++`. -/
def wordLoop (m : Mem) (d s : ℕ) : ℕ → Mem × ℕ × ℕ
  | 0 => (m, d, s)
  | nwords + 1 => wordLoop (copyWord m d s) (d + 4) (s + 4) nwords

/-- `lib_memcpy`: the memory and what is returned. The byte loop and `rep movsb` are `move`. -/
def libMemcpy (m : Mem) (dest src n : ℕ) : Mem × ℕ :=
  if dest = 0 ∨ src = 0 ∨ n = 0 then (m, dest)
  else if (dest ||| src) &&& 3 = 0 ∧ 16 ≤ n then
    let nwords := n >>> 2
    let tail := n &&& 3
    match unrolledLoop m dest src nwords with
    | (m, d, s, nwords) =>
      match wordLoop m d s nwords with
      | (m, d, s) => (move m d s tail, dest)
  else (move m dest src n, dest)

def libMemmove (m : Mem) (dest src n : ℕ) : Mem × ℕ :=
  if dest = 0 ∨ src = 0 ∨ n = 0 then (m, dest)
  else if dest = src then (m, dest)
  else if dest < src then libMemcpy m dest src n
  else (moveBack m (dest + n) (src + n) n, dest)

/-! ### The loops copy -/

variable {m : Mem} {d s n nwords : ℕ}

theorem wordLoop_eq (h : d ≤ s ∨ s + 4 * nwords ≤ d) :
    wordLoop m d s nwords =
      (copied m d s (4 * nwords), d + 4 * nwords, s + 4 * nwords) := by
  induction nwords generalizing m d s with
  | zero =>
    rw [wordLoop, mul_zero, copied_zero]
    rfl
  | succ nwords ih =>
    have hlen : 4 * (nwords + 1) = 4 + 4 * nwords := by ring
    rw [wordLoop, ih (by omega), copyWord, copied_word, hlen, copied_low (by omega), add_assoc,
      add_assoc]

theorem turn_eq (h : d ≤ s ∨ s + 16 ≤ d) :
    copyWord (copyWord (copyWord (copyWord m d s) (d + 4) (s + 4)) (d + 8) (s + 8)) (d + 12)
      (s + 12) = copied m d s 16 := by
  unfold copyWord
  rw [copied_word, copied_word, copied_word, copied_word, copied_low (by omega),
    copied_low (by omega), copied_low (by omega)]

theorem unrolledLoop_eq (h : d ≤ s ∨ s + 4 * nwords ≤ d) :
    unrolledLoop m d s nwords =
      (copied m d s (16 * (nwords / 4)), d + 16 * (nwords / 4), s + 16 * (nwords / 4),
        nwords % 4) := by
  induction nwords using Nat.strong_induction_on generalizing m d s with
  | _ nwords ih =>
    by_cases hfour : 4 ≤ nwords
    · obtain ⟨left, rfl⟩ := Nat.exists_eq_add_of_le' hfour
      have hquot : 16 * ((left + 4) / 4) = 16 + 16 * (left / 4) := by omega
      have hturn := turn_eq (m := m) (d := d) (s := s) (by omega)
      have hrest : unrolledLoop (copied m d s 16) (d + 16) (s + 16) left = _ :=
        ih left (by omega) (by omega)
      rw [unrolledLoop, hturn, hrest, hquot, copied_low (by omega), Nat.add_mod_right, add_assoc,
        add_assoc]
    · have hquot : nwords / 4 = 0 := by omega
      rw [hquot, Nat.mod_eq_of_lt (by omega), mul_zero, copied_zero]
      obtain rfl | rfl | rfl | rfl : nwords = 0 ∨ nwords = 1 ∨ nwords = 2 ∨ nwords = 3 := by omega
      all_goals rfl

/-- **`lib_memcpy` copies downwards**, and between regions that do not overlap. -/
theorem libMemcpy_eq {dest src : ℕ} (hdest : dest ≠ 0) (hsrc : src ≠ 0)
    (h : dest ≤ src ∨ src + n ≤ dest) : libMemcpy m dest src n = (copied m dest src n, dest) := by
  unfold libMemcpy
  by_cases hn : n = 0
  · rw [if_pos (by simp [hn]), hn, copied_zero]
  rw [if_neg (by simp [hdest, hsrc, hn])]
  split_ifs with haligned
  · -- the words and the tail are one copy
    have hwords : n >>> 2 = n / 4 := Nat.shiftRight_eq_div_pow n 2
    have htail : n &&& 3 = n % 4 := Nat.and_two_pow_sub_one_eq_mod n 2
    have hall : 16 * (n / 4 / 4) + 4 * (n / 4 % 4) + n % 4 = n := by omega
    dsimp only
    rw [hwords, htail, unrolledLoop_eq (by omega)]
    dsimp only
    rw [wordLoop_eq (by omega)]
    dsimp only
    rw [copied_low (by omega), move_eq_copied (by omega), add_assoc, add_assoc,
      copied_low (by omega), hall]
  · rw [move_eq_copied h]

theorem libMemmove_eq {dest src : ℕ} (hdest : dest ≠ 0) (hsrc : src ≠ 0) :
    libMemmove m dest src n = (copied m dest src n, dest) := by
  unfold libMemmove
  by_cases hn : n = 0
  · rw [if_pos (by simp [hn]), hn, copied_zero]
  rw [if_neg (by simp [hdest, hsrc, hn])]
  split_ifs with hsame hbelow
  · rw [hsame, copied_self]
  · exact libMemcpy_eq hdest hsrc (Or.inl hbelow.le)
  · rw [moveBack_eq_copied (Or.inl (not_lt.mp hbelow))]

/-- **Overlapping moves.** For every memory and all regions that are not at `NULL`, however they
overlap and are aligned: the bytes at `dest` are those that were at `src`, all others are as before,
and `dest` is returned. -/
theorem memmove_exact (m : Mem) (dest src n : ℕ) (hdest : dest ≠ 0) (hsrc : src ≠ 0) :
    (∀ k < n, (libMemmove m dest src n).1 (dest + k) = m (src + k)) ∧
      (∀ x, x < dest ∨ dest + n ≤ x → (libMemmove m dest src n).1 x = m x) ∧
      (libMemmove m dest src n).2 = dest := by
  rw [libMemmove_eq hdest hsrc]
  exact ⟨fun k hk => copied_inside m dest src hk, fun x hx => copied_outside m src hx, rfl⟩

/-- Aligned regions that are four bytes apart, with words left over and a tail. -/
theorem memmove_exact_words :
    ((List.range 29).map fun x => (libMemmove UInt8.ofNat 4 8 23).1 x) =
        [0, 1, 2, 3] ++ (List.range 23).map (fun k => UInt8.ofNat (8 + k)) ++ [27, 28] ∧
      ∀ k < 23, (libMemmove UInt8.ofNat 4 8 23).1 (4 + k) = UInt8.ofNat (8 + k) :=
  ⟨by decide +kernel, (memmove_exact UInt8.ofNat 4 8 23 (by decide) (by decide)).1⟩

end Kerneloid.LibString.Move
