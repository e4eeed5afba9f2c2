import Kerneloid.UnnamedFS.Alloc

/-! # The write of the VFS

`unnamedfs_vop_write` has an allocator of its own. It does not use the bitmap: the blocks in use are
those of the extents of the inode table, marked in an array of 64 entries (blocks from 64 on never
count as used). As in `Blocks`, the branch is picked first (`vopPlan`) and carried out then
(`VopPlan.run`); `none` is `-1`. Differences from `ensure_blocks`: a file is never shrunk, an
extension in place is not compared with `total_blocks`, and the bitmap is not updated. -/

namespace Kerneloid.Vfs.Write

open Lib.Bytes UnnamedFS.Types UnnamedFS.Alloc UnnamedFS.Slots

variable {s : Fs} {n : ℕ} {p : VopPlan}

/-- `used[b]`: the block is reserved or in the extent of an inode in use. -/
def vopUsed (s : Fs) (b : ℕ) : Bool :=
  decide (b < 2) || (List.range s.sb.inodeCount).any fun i =>
    (s.inodes i).isLive && decide ((s.inodes i).firstBlock ≤ b) &&
      decide (b < (s.inodes i).firstBlock + (s.inodes i).blocks)

/-- The test on a block in the search loops. -/
def vopFree (s : Fs) (b : ℕ) : Bool := !(decide (b < 64) && vopUsed s b)

/-- `n` blocks from `first` on are free. -/
def vopFreeRun (s : Fs) (first n : ℕ) : Bool := (List.range n).all fun k => vopFree s (first + k)

/-- The search for `need` free blocks in a row. -/
def vopFind (s : Fs) (need : ℕ) : Option ℕ :=
  (List.range (s.sb.totalBlocks + 1)).find? fun f =>
    decide (2 ≤ f) && decide (f + need ≤ s.sb.totalBlocks) && vopFreeRun s f need

/-- The branches: `taken` is what is subtracted from `free_blocks`. -/
inductive VopPlan
  | keep
  | fresh (first need taken : ℕ)
  | extend (need taken : ℕ)
  | relocate (first need taken : ℕ)
  deriving DecidableEq

/-- The blocks for `n` bytes, computed on 32 bits. -/
def vopNeed (n : ℕ) : ℕ := (n + 4095) % 2 ^ 32 / 4096

/-- The branch taken for a write of `count` bytes at `off`, with the count after it. When no run is
found, the search is tried again for all the space there is. -/
def vopPlan (s : Fs) (n : Inode) (off count : ℕ) : Option (VopPlan × ℕ) :=
  let newEnd := (off + count) % 2 ^ 32
  let curCap := n.blocks * 4096 % 2 ^ 32
  let maxCan := (curCap + s.sb.freeBlocks * 4096) % 2 ^ 32
  let need := vopNeed newEnd
  if newEnd ≤ curCap then some (.keep, count)
  else if s.sb.freeBlocks < min need 256 - n.blocks then
    if maxCan ≤ off then none else some (.keep, maxCan - off)
  else if need ≤ n.blocks then some (.keep, count)
  else if n.blocks = 0 then
    match vopFind s need with
    | some f => some (.fresh f need need, count)
    | none =>
      if maxCan ≤ off then none
      else
        let need2 := vopNeed ((off + (maxCan - off)) % 2 ^ 32)
        if need2 = 0 then none
        -- `free_blocks` is reduced by the need of the first search
        else (vopFind s need2).map fun f => (.fresh f need2 need, maxCan - off)
  else if vopFreeRun s (n.firstBlock + n.blocks) (need - n.blocks) then
    some (.extend need (need - n.blocks), count)
  else
    match vopFind s need with
    | some f => some (.relocate f need (need - n.blocks), count)
    | none =>
      if maxCan ≤ off then none
      else
        let need2 := vopNeed ((off + (maxCan - off)) % 2 ^ 32)
        (vopFind s need2).map fun f => (.relocate f need2 (need2 - n.blocks), maxCan - off)

def VopPlan.first (p : VopPlan) (n : Inode) : ℕ :=
  match p with
  | .keep => n.firstBlock
  | .fresh first _ _ => first
  | .extend _ _ => n.firstBlock
  | .relocate first _ _ => first

def VopPlan.count (p : VopPlan) (n : Inode) : ℕ :=
  match p with
  | .keep => n.blocks
  | .fresh _ need _ => need
  | .extend need _ => need
  | .relocate _ need _ => need

def VopPlan.free (p : VopPlan) (free : ℕ) : ℕ :=
  match p with
  | .keep => free
  | .fresh _ _ taken => (free + (2 ^ 32 - taken)) % 2 ^ 32
  | .extend _ taken => (free + (2 ^ 32 - taken)) % 2 ^ 32
  | .relocate _ _ taken => (free + (2 ^ 32 - taken)) % 2 ^ 32

/-- The data area after the branch: a relocation copies `size` bytes. -/
def VopPlan.data (p : VopPlan) (d : Mem) (n : Inode) : Mem :=
  match p with
  | .relocate first _ _ => move d (first * 4096) (n.firstBlock * 4096) n.size
  | _ => d

/-- The branch carried out on inode `i`. -/
def VopPlan.run (p : VopPlan) (s : Fs) (i : ℕ) : Fs :=
  let n := s.inodes i
  { s with
    sb := { s.sb with freeBlocks := p.free s.sb.freeBlocks }
    inodes := Function.update s.inodes i { n with firstBlock := p.first n, blocks := p.count n }
    data := p.data s.data n }

/-- The count cut to the allocated blocks; `none` if the offset lies behind them. -/
def vopClamp (n : Inode) (off count : ℕ) : Option ℕ :=
  let cap := n.blocks * 4096 % 2 ^ 32
  if cap < (off + count) % 2 ^ 32 then if cap ≤ off then none else some (cap - off)
  else some count

/-- The copy of `k` bytes and the new size. -/
def vopStore (s : Fs) (i off : ℕ) (buf : ℕ → UInt8) (k : ℕ) : Fs :=
  let n := s.inodes i
  { s with
    data := store s.data (n.firstBlock * 4096 + off) buf k
    inodes := Function.update s.inodes i { n with size := max n.size ((off + k) % 2 ^ 32) } }

/-- `unnamedfs_vop_write` on inode `i`: the number of bytes copied, `none` for `-1`. The blocks
allocated stay with the file also when the copy is given up. -/
def vopWrite (s : Fs) (i off : ℕ) (buf : ℕ → UInt8) (count : ℕ) : Fs × Option ℕ :=
  if (s.inodes i).isDir then (s, none)
  else
    match vopPlan s (s.inodes i) off count with
    | none => (s, none)
    | some (p, count) =>
      let s := p.run s i
      match vopClamp (s.inodes i) off count with
      | none => (s, none)
      | some k => (vopStore s i off buf k, some k)

/-! ### What each branch knows -/

theorem vopUsed_iff {b : ℕ} : vopUsed s b = true ↔ b < 2 ∨ InLiveExtent s b := by
  unfold vopUsed InLiveExtent Fs.Live Covers
  simp only [Bool.or_eq_true, decide_eq_true_eq, List.any_eq_true, List.mem_range,
    Bool.and_eq_true]
  constructor
  · rintro (h | ⟨i, hi, ⟨hl, h1⟩, h2⟩)
    · exact Or.inl h
    · exact Or.inr ⟨i, ⟨hi, hl⟩, h1, h2⟩
  · rintro (h | ⟨i, ⟨hi, hl⟩, h1, h2⟩)
    · exact Or.inl h
    · exact Or.inr ⟨i, hi, ⟨hl, h1⟩, h2⟩

theorem vopFreeRun_unused {first b : ℕ} (h : vopFreeRun s first n = true) (h1 : first ≤ b)
    (h2 : b < first + n) (hb : b < 64) : vopUsed s b = false := by
  have hfree := List.all_eq_true.mp h (b - first) (List.mem_range.mpr (by omega))
  rw [show first + (b - first) = b by omega, vopFree] at hfree
  simpa [hb] using hfree

theorem vopFreeRun_mono {first m : ℕ} (hmn : m ≤ n) (h : vopFreeRun s first n = true) :
    vopFreeRun s first m = true :=
  List.all_eq_true.mpr fun k hk =>
    List.all_eq_true.mp h k (List.mem_range.mpr (lt_of_lt_of_le (List.mem_range.mp hk) hmn))

theorem vopFind_some {need f : ℕ} (h : vopFind s need = some f) :
    2 ≤ f ∧ f + need ≤ s.sb.totalBlocks ∧ vopFreeRun s f need = true := by
  have := (List.find?_range_eq_some.mp h).1
  simp only [Bool.and_eq_true, decide_eq_true_eq] at this
  exact ⟨this.1.1, this.1.2, this.2⟩

theorem vopFind_none_mono {m : ℕ} (hmn : m ≤ n) (h : vopFind s m = none) : vopFind s n = none := by
  refine List.find?_eq_none.mpr fun f hf hn => ?_
  have := List.find?_eq_none.mp h f hf
  simp only [Bool.and_eq_true, decide_eq_true_eq] at hn this
  exact this ⟨⟨hn.1.1, by omega⟩, vopFreeRun_mono hmn hn.2⟩

/-- What held when the branch was picked. -/
inductive VopPlanned (s : Fs) (n : Inode) : VopPlan → Prop
  | keep : VopPlanned s n .keep
  | fresh {first need : ℕ} (h0 : n.blocks = 0) (hf : need ≤ s.sb.freeBlocks) (h2 : 2 ≤ first)
      (ht : first + need ≤ s.sb.totalBlocks) (hr : vopFreeRun s first need = true) :
      VopPlanned s n (.fresh first need need)
  | extend {need : ℕ} (h0 : 0 < n.blocks) (hn : n.blocks < need)
      (hf : need - n.blocks ≤ s.sb.freeBlocks)
      (hr : vopFreeRun s (n.firstBlock + n.blocks) (need - n.blocks) = true) :
      VopPlanned s n (.extend need (need - n.blocks))
  | relocate {first need : ℕ} (hn : n.blocks < need) (hf : need - n.blocks ≤ s.sb.freeBlocks)
      (h2 : 2 ≤ first) (ht : first + need ≤ s.sb.totalBlocks)
      (hr : vopFreeRun s first need = true) :
      VopPlanned s n (.relocate first need (need - n.blocks))

/-- The count that goes with the branch: all of it if it fits, up to a wrap; otherwise no block was
added, and the count may have been cut to what all free blocks would hold. -/
def VopCount (s : Fs) (n : Inode) (off count : ℕ) (p : VopPlan) (k : ℕ) : Prop :=
  (k = count ∧ (off + count) % 2 ^ 32 ≤ p.count n * 4096) ∨
    (p = .keep ∧ n.blocks * 4096 < (off + count) % 2 ^ 32 ∧
      (k = count ∨ (k = (n.blocks + s.sb.freeBlocks) * 4096 - off ∧
        off < (n.blocks + s.sb.freeBlocks) * 4096)))

/-- **The branch picked, inverted**, on a device of fewer than 256 blocks. The search is tried again
only for at least as many blocks, so the second one never finds a run. -/
theorem vopPlan_cases {n : Inode} {off count k : ℕ} (hsmall : n.blocks + s.sb.freeBlocks < 256)
    (h : vopPlan s n off count = some (p, k)) : VopPlanned s n p ∧ VopCount s n off count p k := by
  unfold vopPlan at h
  dsimp only at h
  have hall : ∀ (q : VopPlan) (b : ℕ), q.count n = b → (off + count) % 2 ^ 32 ≤ b * 4096 →
      VopCount s n off count q count := fun q b hb hq => Or.inl ⟨rfl, by rw [hb]; exact hq⟩
  have hcap : n.blocks * 4096 % 2 ^ 32 = n.blocks * 4096 := by omega
  have hmax : (n.blocks * 4096 % 2 ^ 32 + s.sb.freeBlocks * 4096) % 2 ^ 32 =
      (n.blocks + s.sb.freeBlocks) * 4096 := by omega
  rw [hmax, hcap] at h
  by_cases h1 : (off + count) % 2 ^ 32 ≤ n.blocks * 4096
  · rw [if_pos h1] at h; cases h; exact ⟨.keep, hall _ _ rfl h1⟩
  rw [if_neg h1] at h
  generalize hneed : vopNeed ((off + count) % 2 ^ 32) = need at h
  by_cases h2 : s.sb.freeBlocks < min need 256 - n.blocks
  · rw [if_pos h2] at h
    split_ifs at h with hoff
    cases h
    exact ⟨.keep, Or.inr ⟨rfl, by omega, Or.inr ⟨rfl, by omega⟩⟩⟩
  rw [if_neg h2] at h
  by_cases h3 : need ≤ n.blocks
  · rw [if_pos h3] at h; cases h; exact ⟨.keep, Or.inr ⟨rfl, by omega, Or.inl rfl⟩⟩
  rw [if_neg h3] at h
  -- more blocks are needed than there are, so rounding up did not wrap
  have hfits : (off + count) % 2 ^ 32 ≤ need * 4096 := by
    unfold vopNeed at hneed
    omega
  -- the second search is for all the blocks there are, which is no less than `need`
  have hretry : vopFind s need = none → ¬ (n.blocks + s.sb.freeBlocks) * 4096 ≤ off →
      vopFind s (vopNeed ((off + ((n.blocks + s.sb.freeBlocks) * 4096 - off)) % 2 ^ 32)) = none := by
    intro hnone hoff
    refine vopFind_none_mono ?_ hnone
    unfold vopNeed
    omega
  by_cases h4 : n.blocks = 0
  · rw [if_pos h4] at h
    cases hf : vopFind s need with
    | some f =>
      rw [hf] at h
      cases h
      obtain ⟨hf2, ht, hr⟩ := vopFind_some hf
      exact ⟨.fresh h4 (by omega) hf2 ht hr, hall _ _ rfl hfits⟩
    | none =>
      rw [hf] at h
      dsimp only at h
      split_ifs at h with h5 h6
      rw [hretry hf h5] at h
      exact absurd h (by simp)
  rw [if_neg h4] at h
  by_cases h5 : vopFreeRun s (n.firstBlock + n.blocks) (need - n.blocks) = true
  · rw [if_pos h5] at h
    cases h
    exact ⟨.extend (by omega) (by omega) (by omega) h5, hall _ _ rfl hfits⟩
  rw [if_neg h5] at h
  cases hf : vopFind s need with
  | some f =>
    rw [hf] at h
    cases h
    obtain ⟨hf2, ht, hr⟩ := vopFind_some hf
    exact ⟨.relocate (by omega) (by omega) hf2 ht hr, hall _ _ rfl hfits⟩
  | none =>
    rw [hf] at h
    dsimp only at h
    split_ifs at h with h6
    rw [hretry hf h6] at h
    exact absurd h (by simp)

theorem VopPlanned.free {n : Inode} (hp : VopPlanned s n p) (hlt : s.sb.freeBlocks < 2 ^ 32) :
    p.free s.sb.freeBlocks + p.count n = s.sb.freeBlocks + n.blocks := by
  have hsub : ∀ taken ≤ s.sb.freeBlocks, (s.sb.freeBlocks + (2 ^ 32 - taken)) % 2 ^ 32 =
      s.sb.freeBlocks - taken := fun taken ht => by omega
  cases hp with
  | keep => rfl
  | fresh h0 hf h2 ht hr => simp only [VopPlan.free, VopPlan.count]; rw [hsub _ hf]; omega
  | extend h0 hn hf hr => simp only [VopPlan.free, VopPlan.count]; rw [hsub _ hf]; omega
  | relocate hn hf h2 ht hr => simp only [VopPlan.free, VopPlan.count]; rw [hsub _ hf]; omega

/-! ### What a write changes -/

theorem vopWrite_eq {i off count k : ℕ} (hfile : (s.inodes i).isDir = false)
    (hp : vopPlan s (s.inodes i) off count = some (p, k)) (buf : ℕ → UInt8) :
    vopWrite s i off buf count =
      match vopClamp ((p.run s i).inodes i) off k with
      | none => (p.run s i, none)
      | some k => (vopStore (p.run s i) i off buf k, some k) := by
  unfold vopWrite
  rw [if_neg (by simp [hfile]), hp]

theorem VopPlan.keep_run (s : Fs) (i : ℕ) : VopPlan.keep.run s i = s := by
  change { s with inodes := Function.update s.inodes i (s.inodes i) } = s
  rw [Function.update_eq_self]

/-- From `s` to `s'` the extent of inode `i` and the free counter follow the branch `p`. -/
structure VopMoves (s s' : Fs) (i : ℕ) (p : VopPlan) : Prop where
  tree : SameTree s s'
  total : s'.sb.totalBlocks = s.sb.totalBlocks
  free : s'.sb.freeBlocks = p.free s.sb.freeBlocks
  bitmap : s'.blockBitmap = s.blockBitmap
  size : s'.bitmapBlocks = s.bitmapBlocks
  fds : s'.fdEntries = s.fdEntries
  other : ∀ j, j ≠ i → s'.inodes j = s.inodes j
  first : (s'.inodes i).firstBlock = p.first (s.inodes i)
  blocks : (s'.inodes i).blocks = p.count (s.inodes i)

theorem VopPlan.run_moves (p : VopPlan) (s : Fs) (i : ℕ) : VopMoves s (p.run s i) i p := by
  refine ⟨?_, rfl, rfl, rfl, rfl, rfl, fun j hj => ?_, ?_, ?_⟩
  · exact .of_update i (s.inodes i).size (p.first (s.inodes i)) (p.count (s.inodes i)) rfl rfl rfl
  · simp [VopPlan.run, hj]
  · simp [VopPlan.run]
  · simp [VopPlan.run]

theorem vopStore_moves (p : VopPlan) (s : Fs) (i off : ℕ) (buf : ℕ → UInt8) (k : ℕ) :
    VopMoves s (vopStore (p.run s i) i off buf k) i p := by
  refine ⟨?_, rfl, rfl, rfl, rfl, rfl, fun j hj => ?_, ?_, ?_⟩
  · refine .of_update i (max (s.inodes i).size ((off + k) % 2 ^ 32)) (p.first (s.inodes i))
      (p.count (s.inodes i)) rfl rfl ?_
    simp [vopStore, VopPlan.run]
  · simp [vopStore, VopPlan.run, hj]
  · simp [vopStore, VopPlan.run]
  · simp [vopStore, VopPlan.run]

theorem vopWrite_cases (s : Fs) (i off : ℕ) (buf : ℕ → UInt8) (count : ℕ) :
    (vopWrite s i off buf count).1 = s ∨ ∃ p k, (s.inodes i).isDir = false ∧
      vopPlan s (s.inodes i) off count = some (p, k) ∧
      VopMoves s (vopWrite s i off buf count).1 i p := by
  unfold vopWrite
  by_cases hd : (s.inodes i).isDir = true
  · rw [if_pos hd]; exact Or.inl rfl
  rw [if_neg hd]
  cases hp : vopPlan s (s.inodes i) off count with
  | none => exact Or.inl rfl
  | some pk =>
    obtain ⟨p, k⟩ := pk
    refine Or.inr ⟨p, k, by simpa using hd, rfl, ?_⟩
    dsimp only
    cases vopClamp ((p.run s i).inodes i) off k with
    | none => exact p.run_moves s i
    | some m => exact vopStore_moves p s i off buf m

theorem vopWrite_sameTree (s : Fs) (i off : ℕ) (buf : ℕ → UInt8) (count : ℕ) :
    SameTree s (vopWrite s i off buf count).1 := by
  rcases vopWrite_cases s i off buf count with h | ⟨p, k, -, -, h⟩
  · rw [h]; exact .of_eq rfl rfl fun _ _ => rfl
  · exact h.tree

end Kerneloid.Vfs.Write
