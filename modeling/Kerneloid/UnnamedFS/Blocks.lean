import Kerneloid.UnnamedFS.Bitmap

/-! # Growing and shrinking a file

`ensure_blocks` first picks one of five branches from the inode, the bitmap and `free_blocks`
(`planBlocks`: no change, shrink, first allocation, extension in place, relocation; `none` is `-1`),
then carries it out (`BlockPlan.run`). No branch that fails has changed anything before. The branch
taken tells the extent the file has afterwards (`BlockPlan.first`, `BlockPlan.count`), and `Planned`
says what held when the branch was picked. `writePlan` is the allocation part of `unamedfs_write`:
a second call with the size cut to the free space if the first one fails. -/

namespace Kerneloid.UnnamedFS.Blocks

open Lib.Bytes Types Bitmap

/-- `need_blocks`: the blocks for `newSize` bytes. The sum is a `size_t` and can wrap. -/
def needBlocks (newSize : ℕ) : ℕ :=
  if newSize = 0 then 0 else (newSize + 4095) % 2 ^ 32 / 4096

/-- The branches of `ensure_blocks`. -/
inductive BlockPlan
  | keep
  | shrink (need : ℕ)
  | fresh (first need : ℕ)
  | extend (need : ℕ)
  | relocate (first need : ℕ)
  deriving DecidableEq

/-- The branch `ensure_blocks(ino, newSize)` takes. -/
def planBlocks (s : Fs) (ino : Inode) (newSize : ℕ) : Option BlockPlan :=
  let need := needBlocks newSize
  if need = ino.blocks then some .keep
  else if need < ino.blocks then some (.shrink need)
  else if s.sb.freeBlocks < need - ino.blocks then none
  else if ino.blocks = 0 then
    (bitmapFindContiguous s.bitmapBlocks s.blockBitmap need).map (.fresh · need)
  else if (List.range (need - ino.blocks)).all fun k =>
      !bitmapTest s.bitmapBlocks s.blockBitmap (ino.firstBlock + ino.blocks + k) then
    some (.extend need)
  else (bitmapFindContiguous s.bitmapBlocks s.blockBitmap need).map (.relocate · need)

def BlockPlan.first (p : BlockPlan) (ino : Inode) : ℕ :=
  match p with
  | .keep => ino.firstBlock
  | .shrink need => if need = 0 then 0 else ino.firstBlock
  | .fresh first _ => first
  | .extend _ => ino.firstBlock
  | .relocate first _ => first

def BlockPlan.count (p : BlockPlan) (ino : Inode) : ℕ :=
  match p with
  | .keep => ino.blocks
  | .shrink need => need
  | .fresh _ need => need
  | .extend need => need
  | .relocate _ need => need

/-- The bytes a relocation copies. -/
def copyLen (ino : Inode) : ℕ := min ino.size (ino.blocks * 4096)

theorem copyLen_le (ino : Inode) : copyLen ino ≤ ino.blocks * 4096 := by
  unfold copyLen
  exact min_le_right _ _

def BlockPlan.free (p : BlockPlan) (sb : Superblock) (ino : Inode) : ℕ :=
  match p with
  | .keep => sb.freeBlocks
  | .shrink need =>
    if sb.freeBlocks + (ino.blocks - need) ≤ sb.totalBlocks then
      sb.freeBlocks + (ino.blocks - need) else sb.freeBlocks
  | .fresh _ need => sb.freeBlocks - need
  | .extend need => sb.freeBlocks - (need - ino.blocks)
  | .relocate _ need => sb.freeBlocks + ino.blocks - need

def BlockPlan.bitmap (p : BlockPlan) (nb : ℕ) (bm : BlockBitmap) (ino : Inode) : BlockBitmap :=
  match p with
  | .keep => bm
  | .shrink need => bitmapMarkRange nb bm (ino.firstBlock + need) (ino.blocks - need) false
  | .fresh first need => bitmapMarkRange nb bm first need true
  | .extend need =>
    bitmapMarkRange nb bm (ino.firstBlock + ino.blocks) (need - ino.blocks) true
  | .relocate first need =>
    bitmapMarkRange nb (bitmapMarkRange nb bm ino.firstBlock ino.blocks false) first need true

/-- The data area after the branch: a relocation copies the old blocks before it frees them. -/
def BlockPlan.data (p : BlockPlan) (d : Mem) (ino : Inode) : Mem :=
  match p with
  | .relocate first _ => move d (first * 4096) (ino.firstBlock * 4096) (copyLen ino)
  | _ => d

/-- The branch carried out on inode `i`. -/
def BlockPlan.run (p : BlockPlan) (s : Fs) (i : ℕ) : Fs :=
  let ino := s.inodes i
  { s with
    sb := { s.sb with freeBlocks := p.free s.sb ino }
    inodes := Function.update s.inodes i
      { ino with firstBlock := p.first ino, blocks := p.count ino }
    data := p.data s.data ino
    blockBitmap := p.bitmap s.bitmapBlocks s.blockBitmap ino }

/-- `ensure_blocks`; `none` is `-1`. -/
def ensureBlocks (s : Fs) (i newSize : ℕ) : Option Fs :=
  (planBlocks s (s.inodes i) newSize).map fun p => p.run s i

/-- The allocation part of `unamedfs_write`: the branch taken and the number of bytes to copy. -/
def writePlan (s : Fs) (ino : Inode) (off count : ℕ) : Option (BlockPlan × ℕ) :=
  match planBlocks s ino ((off + count) % 2 ^ 32) with
  | some p => some (p, count)
  | none =>
    let maxBytes := (ino.blocks + s.sb.freeBlocks) * 4096 % 2 ^ 32
    if maxBytes ≤ off then none
    else
      let canWrite := min (maxBytes - off) count
      (planBlocks s ino ((off + canWrite) % 2 ^ 32)).map fun p => (p, canWrite)

theorem writePlan_ensureBlocks (s : Fs) (i off count : ℕ) :
    (writePlan s (s.inodes i) off count).map (fun pk => (pk.1.run s i, pk.2)) =
      match ensureBlocks s i ((off + count) % 2 ^ 32) with
      | some s' => some (s', count)
      | none =>
        let maxBytes := ((s.inodes i).blocks + s.sb.freeBlocks) * 4096 % 2 ^ 32
        if maxBytes ≤ off then none
        else
          let canWrite := min (maxBytes - off) count
          (ensureBlocks s i ((off + canWrite) % 2 ^ 32)).map fun s' => (s', canWrite) := by
  unfold writePlan ensureBlocks
  cases planBlocks s (s.inodes i) ((off + count) % 2 ^ 32) with
  | some p => rfl
  | none =>
    dsimp only [Option.map_none]
    split_ifs with hm
    · rfl
    · rw [Option.map_map, Option.map_map]
      rfl

/-! ### What each branch knows -/

/-- What held when the branch was picked, for `need` blocks. -/
inductive Planned (s : Fs) (ino : Inode) (need : ℕ) : BlockPlan → Prop
  | keep (h : need = ino.blocks) : Planned s ino need .keep
  | shrink (h : need < ino.blocks) : Planned s ino need (.shrink need)
  | fresh {first : ℕ} (h0 : ino.blocks = 0) (hn : 0 < need) (hf : need ≤ s.sb.freeBlocks)
      (h2 : 2 ≤ first) (hr : FreeRun s.bitmapBlocks s.blockBitmap need first) :
      Planned s ino need (.fresh first need)
  | extend (h0 : 0 < ino.blocks) (hn : ino.blocks < need)
      (hf : need - ino.blocks ≤ s.sb.freeBlocks)
      (hr : FreeRun s.bitmapBlocks s.blockBitmap (need - ino.blocks)
        (ino.firstBlock + ino.blocks)) :
      Planned s ino need (.extend need)
  | relocate {first : ℕ} (h0 : 0 < ino.blocks) (hn : ino.blocks < need)
      (hf : need - ino.blocks ≤ s.sb.freeBlocks)
      (h2 : 2 ≤ first) (hr : FreeRun s.bitmapBlocks s.blockBitmap need first) :
      Planned s ino need (.relocate first need)

theorem all_free_iff {nb : ℕ} {bm : BlockBitmap} {n s : ℕ} (hn : 0 < n) :
    ((List.range n).all fun k => !bitmapTest nb bm (s + k)) = true ↔ FreeRun nb bm n s := by
  simp only [List.all_eq_true, List.mem_range, Bool.not_eq_true', bitmapTest_eq_false]
  constructor
  · intro h
    refine ⟨?_, fun b h1 h2 => ?_⟩
    · have := (h (n - 1) (by omega)).1
      omega
    · have := (h (b - s) (by omega)).2
      rwa [show s + (b - s) = b by omega] at this
  · rintro ⟨h1, h2⟩ k hk
    exact ⟨by omega, h2 _ (by omega) (by omega)⟩

/-- **The branch picked by `ensure_blocks`, inverted.** -/
theorem planBlocks_planned {s : Fs} {ino : Inode} {newSize : ℕ} {p : BlockPlan}
    (h : planBlocks s ino newSize = some p) : Planned s ino (needBlocks newSize) p := by
  unfold planBlocks at h
  dsimp only at h
  split_ifs at h with h1 h2 h3 h4 h5
  · cases h; exact .keep h1
  · cases h; exact .shrink h2
  · obtain ⟨first, hf, rfl⟩ := Option.map_eq_some_iff.mp h
    obtain ⟨hf2, hr, -⟩ := bitmapFindContiguous_eq_some (by omega) hf
    exact .fresh h4 (by omega) (by omega) hf2 hr
  · cases h
    exact .extend (by omega) (by omega) (by omega) ((all_free_iff (by omega)).mp h5)
  · obtain ⟨first, hf, rfl⟩ := Option.map_eq_some_iff.mp h
    obtain ⟨hf2, hr, -⟩ := bitmapFindContiguous_eq_some (by omega) hf
    exact .relocate (by omega) (by omega) (by omega) hf2 hr

theorem Planned.count_eq {s : Fs} {ino : Inode} {need : ℕ} {p : BlockPlan}
    (h : Planned s ino need p) : p.count ino = need := by
  cases h with
  | keep h => exact h.symm
  | shrink h => rfl
  | fresh => rfl
  | extend => rfl
  | relocate => rfl

/-- **The allocation part of a write, inverted**: the first call of `ensure_blocks` went through, or
it failed and the second one went through, with the count cut to the free space. -/
theorem writePlan_cases {s : Fs} {ino : Inode} {off count k : ℕ} {p : BlockPlan}
    (h : writePlan s ino off count = some (p, k)) :
    (planBlocks s ino ((off + count) % 2 ^ 32) = some p ∧ k = count) ∨
      (planBlocks s ino ((off + count) % 2 ^ 32) = none ∧
        off < (ino.blocks + s.sb.freeBlocks) * 4096 % 2 ^ 32 ∧
        k = min ((ino.blocks + s.sb.freeBlocks) * 4096 % 2 ^ 32 - off) count ∧
        planBlocks s ino ((off + k) % 2 ^ 32) = some p) := by
  unfold writePlan at h
  cases hp : planBlocks s ino ((off + count) % 2 ^ 32) with
  | some q =>
    rw [hp] at h
    cases h
    exact Or.inl ⟨rfl, rfl⟩
  | none =>
    rw [hp] at h
    dsimp only at h
    split_ifs at h with hm
    obtain ⟨q, hq, he⟩ := Option.map_eq_some_iff.mp h
    cases he
    exact Or.inr ⟨rfl, not_le.mp hm, rfl, hq⟩

/-- The branch is one `ensure_blocks` picks for the end of the bytes actually copied, and no more
than asked for are copied. -/
theorem writePlan_some {s : Fs} {ino : Inode} {off count k : ℕ} {p : BlockPlan}
    (h : writePlan s ino off count = some (p, k)) :
    Planned s ino (needBlocks ((off + k) % 2 ^ 32)) p ∧ k ≤ count := by
  obtain ⟨hp, rfl⟩ | ⟨-, -, hk, hp⟩ := writePlan_cases h
  · exact ⟨planBlocks_planned hp, le_rfl⟩
  · refine ⟨planBlocks_planned hp, ?_⟩
    rw [hk]
    exact min_le_right _ _

theorem writePlan_pos {s : Fs} {ino : Inode} {off count k : ℕ} {p : BlockPlan} (hc : 0 < count)
    (h : writePlan s ino off count = some (p, k)) : 0 < k := by
  obtain ⟨-, rfl⟩ | ⟨-, hm, hk, -⟩ := writePlan_cases h
  · exact hc
  · omega

theorem needBlocks_eq {n : ℕ} (h : n + 4095 < 2 ^ 32) : needBlocks n = (n + 4095) / 4096 := by
  unfold needBlocks
  split_ifs with h0
  · omega
  · rw [Nat.mod_eq_of_lt h]

end Kerneloid.UnnamedFS.Blocks
