import Kerneloid.UnnamedFS.Content

/-! # The search for contiguous blocks

`bitmap_find_contiguous` with its own types: `size_t` is `UInt32`, and block numbers go through
`int`. The outer loop has `fuel`, and is not finished when that is used up. With at most 4096 blocks
nothing wraps around, and as many turns as there are blocks are enough: then the search is that of
`bitmapFindContiguous` (`findContiguous_eq`), and it stores the lowest run (`contiguous_exact`). -/

namespace Kerneloid.UnnamedFS.Contiguous

open Bitmap Ops Content

/-! ### The code -/

def testBlock (nb : UInt32) (bm : BlockBitmap) (b : ℤ) : Bool :=
  if b < 0 ∨ (nb.toNat : ℤ) ≤ b then true else bit bm b.toNat

/-- The inner loop: the `j` at which it breaks off. -/
def firstUsed (nb : UInt32) (bm : BlockBitmap) (n start : UInt32) : Option ℕ :=
  (List.range n.toNat).find? fun j => testBlock nb bm (toInt32 (start + UInt32.ofNat j).toNat)

/-- The outer loop: the block found, if it ends with one. -/
def searchLoop (nb : UInt32) (bm : BlockBitmap) (n : UInt32) : ℕ → UInt32 → Option (Option ℤ)
  | 0, _ => none
  | fuel + 1, start =>
    if start + n ≤ nb then
      match firstUsed nb bm n start with
      | none => some (some (toInt32 start.toNat))
      | some j => searchLoop nb bm n fuel (start + (UInt32.ofNat j + 1))
    else some none

/-- `bitmap_find_contiguous`: the value returned, and `*out_first` unless that is `NULL`. -/
def findContiguous (fuel : ℕ) (nb : UInt32) (bm : BlockBitmap) (n : UInt32)
    (outFirst : Option ℤ) : Option (ℤ × Option ℤ) :=
  if n = 0 then some (0, outFirst.map fun _ => 0)
  else if nb < n then some (-1, outFirst)
  else (searchLoop nb bm n fuel 2).map fun
    | some first => (0, outFirst.map fun _ => first)
    | none => (-1, outFirst)

/-! ### Nothing wraps around -/

variable {nb n start : UInt32} {bm : BlockBitmap} {fuel turns : ℕ}

theorem toNat_add_ofNat (hnb : nb.toNat ≤ 4096) (hs : start.toNat ≤ nb.toNat + 1) {j : ℕ}
    (hj : j ≤ nb.toNat) : (start + UInt32.ofNat j).toNat = start.toNat + j := by
  rw [UInt32.toNat_add, UInt32.toNat_ofNat']
  omega

theorem testBlock_eq (nb : UInt32) (bm : BlockBitmap) (b : ℕ) :
    testBlock nb bm b = bitmapTest nb.toNat bm b := by
  unfold testBlock bitmapTest
  refine ite_congr (propext ?_) (fun _ => rfl) fun _ => by rw [Int.toNat_natCast]
  omega

theorem firstUsed_eq (hnb : nb.toNat ≤ 4096) (hn : n.toNat ≤ nb.toNat)
    (hs : start.toNat ≤ nb.toNat + 1) :
    firstUsed nb bm n start =
      (List.range n.toNat).find? fun j => bitmapTest nb.toNat bm (start.toNat + j) := by
  unfold firstUsed
  refine List.find?_congr fun j hj => ?_
  rw [List.mem_range] at hj
  rw [toNat_add_ofNat hnb hs (by omega), toInt32_natCast (by omega), testBlock_eq]

theorem searchLoop_eq (hnb : nb.toNat ≤ 4096) (hn : n.toNat ≤ nb.toNat)
    (hs : start.toNat ≤ nb.toNat + 1) (hfuel : nb.toNat + 2 ≤ start.toNat + fuel)
    (hturns : nb.toNat + 2 ≤ start.toNat + turns) :
    searchLoop nb bm n fuel start =
      some ((findFrom nb.toNat bm n.toNat turns start.toNat).map fun s => (s : ℤ)) := by
  induction fuel generalizing start turns with
  | zero => omega
  | succ fuel ih =>
    obtain ⟨turns, rfl⟩ : ∃ k, turns = k + 1 := ⟨turns - 1, by omega⟩
    have hroom : start + n ≤ nb ↔ start.toNat + n.toNat ≤ nb.toNat := by
      rw [UInt32.le_iff_toNat_le, UInt32.toNat_add]
      omega
    unfold searchLoop findFrom
    simp only [firstUsed_eq hnb hn hs, hroom]
    split_ifs with hin
    · cases hused : (List.range n.toNat).find? fun j => bitmapTest nb.toNat bm (start.toNat + j) with
      | none =>
        dsimp only
        rw [toInt32_natCast (by omega)]
        rfl
      | some j =>
        -- the window is moved behind the block that is used, and is still in range
        have hj : j < n.toNat := List.mem_range.mp (List.mem_of_find?_eq_some hused)
        have hnext : start + (UInt32.ofNat j + 1) = start + UInt32.ofNat (j + 1) := by
          rw [UInt32.ofNat_add]
          rfl
        have hstart := toNat_add_ofNat hnb hs (by omega : j + 1 ≤ nb.toNat)
        dsimp only
        rw [hnext, ih (by omega) (by omega) (by omega : _ ≤ _ + turns), hstart]
    · rfl

theorem findContiguous_eq (hnb : nb.toNat ≤ 4096) (hfuel : nb.toNat ≤ fuel) (outFirst : Option ℤ) :
    findContiguous fuel nb bm n outFirst =
      some (match bitmapFindContiguous nb.toNat bm n.toNat with
        | some s => (0, outFirst.map fun _ => (s : ℤ))
        | none => (-1, outFirst)) := by
  have hzero : n = 0 ↔ n.toNat = 0 := UInt32.toNat_inj.symm
  have hlt : nb < n ↔ nb.toNat < n.toNat := UInt32.lt_iff_toNat_lt
  have htwo : (2 : UInt32).toNat = 2 := rfl
  unfold findContiguous bitmapFindContiguous
  simp only [hzero, hlt]
  split_ifs with h0 hbig
  · rfl
  · rfl
  · rw [searchLoop_eq hnb (by omega) (by omega) (by omega) (by omega : _ ≤ _ + nb.toNat), htwo]
    cases findFrom nb.toNat bm n.toNat nb.toNat 2 with
    | none => rfl
    | some s => rfl

/-- **Contiguous blocks.** For every bitmap of at most 4096 blocks and every `n` of at least 1,
`bitmap_find_contiguous` returns, with 0 exactly if `n` free blocks stand in a row from some block
of at least 2 on; then it stores the lowest such block, and otherwise nothing. -/
theorem contiguous_exact (nb : UInt32) (bm : BlockBitmap) (n : UInt32) (hnb : nb.toNat ≤ 4096)
    (hn : 1 ≤ n.toNat) (fuel : ℕ) (hfuel : nb.toNat ≤ fuel) (first : ℤ) :
    ∃ ret stored, findContiguous fuel nb bm n (some first) = some (ret, some stored) ∧
      (ret = 0 ↔ ∃ s, 2 ≤ s ∧ FreeRun nb.toNat bm n.toNat s) ∧
      (ret = 0 → ∃ s : ℕ, stored = s ∧ IsLeast {s | 2 ≤ s ∧ FreeRun nb.toNat bm n.toNat s} s) ∧
      (ret ≠ 0 → ret = -1 ∧ stored = first) := by
  rw [findContiguous_eq hnb hfuel]
  cases hfind : bitmapFindContiguous nb.toNat bm n.toNat with
  | none =>
    have hnone := bitmapFindContiguous_eq_none hn hfind
    refine ⟨-1, first, rfl, ?_, fun h => absurd h (by decide), fun _ => ⟨rfl, rfl⟩⟩
    exact iff_of_false (by decide) fun ⟨s, hs, hrun⟩ => hnone s hs hrun
  | some s =>
    obtain ⟨hs, hrun, hleast⟩ := bitmapFindContiguous_eq_some hn hfind
    refine ⟨0, s, rfl, iff_of_true rfl ⟨s, hs, hrun⟩, fun _ => ⟨s, rfl, ⟨hs, hrun⟩, ?_⟩,
      fun h => absurd rfl h⟩
    rintro t ⟨ht, htrun⟩
    by_contra hlt
    exact hleast t ht (not_le.mp hlt) htrun

/-- Blocks 0, 1 and 4 are used: three in a row stand at 5, at the end. -/
theorem contiguous_exact_end :
    ∃ ret stored, findContiguous 8 8 (fun _ => 0x13#8) 3 (some (-7)) = some (ret, some stored) ∧
      (ret = 0 ↔ ∃ s, 2 ≤ s ∧ FreeRun 8 (fun _ => 0x13#8) 3 s) ∧ ret = 0 ∧ stored = 5 := by
  obtain ⟨ret, stored, heq, hiff, -, -⟩ :=
    contiguous_exact 8 (fun _ => 0x13#8) 3 (by decide) (by decide) 8 (by decide) (-7)
  have hrun : findContiguous 8 8 (fun _ => 0x13#8) 3 (some (-7)) = some (0, some 5) := by
    decide +kernel
  obtain ⟨rfl, rfl⟩ : ret = 0 ∧ stored = 5 := by
    rw [hrun] at heq
    cases heq
    exact ⟨rfl, rfl⟩
  exact ⟨0, 5, hrun, hiff, rfl, rfl⟩

end Kerneloid.UnnamedFS.Contiguous
