import Kerneloid.UnnamedFS.Content
import Kerneloid.Vfs.Allocators

/-! # Two writes

Bytes are put behind the end of a file by `unamedfs_write` and by `unnamedfs_vop_write`, in one
state whose bitmap matches the extents of the inodes in use. Both look for blocks in the same order,
so that they differ in four places only.

* Where the free blocks are too few, `unamedfs_write` takes all of them; `unnamedfs_vop_write` fills
  the blocks the file has and takes none.
* `unnamedfs_vop_write` extends a file in place beyond the end of the device.
* Where rounding up to blocks wraps round, `unamedfs_write` writes without blocks.
* Where a file was cut to fewer blocks than its size needs, `unnamedfs_vop_write` relocates what lies
  behind its blocks with it.

`appends_alike` says that nothing else makes a difference. -/

namespace Kerneloid.Vfs.Appends

open Lib.Bytes Lib.Runs UnnamedFS.Types UnnamedFS.Bitmap UnnamedFS.Blocks UnnamedFS.Ops
open UnnamedFS.Alloc UnnamedFS.Content Types Write Ops Effects Allocators

variable {b f : ℕ}

/-! ### The comparison -/

/-- The bytes of file `i` that lie on the device. -/
def diskContent (s : Fs) (i : ℕ) : List UInt8 :=
  (fileContent s i).take ((s.sb.totalBlocks - (s.inodes i).firstBlock) * 4096)

/-- What `unnamedfs_vop_write` returns. -/
def vopResult : Option ℕ → ℤ
  | none => -1
  | some k => toInt32 k

/-- **The two writes do the same**: `count` bytes are put behind the end of file `i` through the
descriptor `fd` of the one layer, and by the operation of the other. -/
structure SameAppend (s : Fs) (fd : ℤ) (i : ℕ) (buf : ℕ → UInt8) (count : ℕ) : Prop where
  result : (unamedfsWrite s fd buf count).2 =
    vopResult (vopWrite s i (s.inodes i).size buf count).2
  size : ((unamedfsWrite s fd buf count).1.inodes i).size =
    ((vopWrite s i (s.inodes i).size buf count).1.inodes i).size
  content : diskContent (unamedfsWrite s fd buf count).1 i =
    diskContent (vopWrite s i (s.inodes i).size buf count).1 i

/-- The bitmap matches the extents of the inodes in use, and the superblock does. -/
structure Matched (s : Fs) : Prop where
  agree : Agree s
  spaced : Spaced s
  device : s.bitmapBlocks = s.sb.totalBlocks

/-- File `i` can be appended to through `fd`. -/
structure Appendable (s : Fs) (fd : ℤ) (i : ℕ) : Prop where
  live : s.Live i
  opened : OpenOn s fd i
  offset : (s.fdEntries fd.toNat).offset = (s.inodes i).size

/-- From the file to the end of the device all blocks are free, and this is not enough. -/
def AtEnd (s : Fs) (n : Inode) (need : ℕ) : Prop :=
  0 < n.blocks ∧ s.sb.totalBlocks < n.firstBlock + need ∧
    ∀ b < s.sb.totalBlocks, n.firstBlock + n.blocks ≤ b → bit s.blockBitmap b = false

instance (s : Fs) (n : Inode) (need : ℕ) : Decidable (AtEnd s n need) := by
  unfold AtEnd; infer_instance

/-- Nothing is lost where the free blocks are too few: there are none, or the blocks of the file are
full and there is no run of the size of all blocks it could have. -/
def NoneLost (s : Fs) (n : Inode) : Prop :=
  s.sb.freeBlocks = 0 ∨
    (n.size = n.blocks * 4096 ∧ planBlocks s n ((n.blocks + s.sb.freeBlocks) * 4096) = none)

instance (s : Fs) (n : Inode) : Decidable (NoneLost s n) := by unfold NoneLost; infer_instance

/-- The same for an append that needs `need` blocks. -/
def GrowsAlike (s : Fs) (n : Inode) (need : ℕ) : Prop :=
  if n.blocks + s.sb.freeBlocks < need then NoneLost s n else ¬ AtEnd s n need

instance (s : Fs) (n : Inode) (need : ℕ) : Decidable (GrowsAlike s n need) := by
  unfold GrowsAlike; infer_instance

/-- **The appends that the two writes do alike**: those that need no more blocks, and without a wrap
those that grow the file alike. -/
def Alike (s : Fs) (n : Inode) (count : ℕ) : Prop :=
  n.size + count ≤ n.blocks * 4096 ∨
    (n.size + count + 4095 < 2 ^ 32 ∧ GrowsAlike s n ((n.size + count + 4095) / 4096))

instance (s : Fs) (n : Inode) (count : ℕ) : Decidable (Alike s n count) :=
  inferInstanceAs (Decidable (_ ∨ (_ ∧ _)))

variable {s s' : Fs} {fd : ℤ} {i count k : ℕ} {buf : ℕ → UInt8}

/-! ### The file after a write -/

/-- File `i` after `k` bytes were put behind its end, into the `b` blocks from `f` on and the data
area `d` that allocation left. -/
structure Appended (s s' : Fs) (i : ℕ) (buf : ℕ → UInt8) (f b : ℕ) (d : Mem) (k : ℕ) : Prop where
  total : s'.sb.totalBlocks = s.sb.totalBlocks
  first : (s'.inodes i).firstBlock = f
  blocks : (s'.inodes i).blocks = b
  size : (s'.inodes i).size = (s.inodes i).size + k
  data : s'.data = store d (f * 4096 + (s.inodes i).size) buf k

theorem Appended.length {d : Mem} (h : Appended s s' i buf f b d k)
    (hfits : (s.inodes i).size + k ≤ b * 4096) :
    (diskContent s' i).length = min ((s.sb.totalBlocks - f) * 4096) ((s.inodes i).size + k) := by
  unfold diskContent
  rw [List.length_take, fileContent_length, copyLen, h.size, h.blocks, h.total, h.first,
    min_eq_left hfits]

theorem Appended.same {s₁ s₂ : Fs} {b₁ b₂ : ℕ} {d : Mem}
    (h₁ : Appended s s₁ i buf f b₁ d k) (h₂ : Appended s s₂ i buf f b₂ d k)
    (hb₁ : (s.inodes i).size + k ≤ b₁ * 4096) (hb₂ : (s.inodes i).size + k ≤ b₂ * 4096) :
    (s₁.inodes i).size = (s₂.inodes i).size ∧ diskContent s₁ i = diskContent s₂ i := by
  refine ⟨h₁.size.trans h₂.size.symm, ?_⟩
  unfold diskContent fileContent copyLen
  rw [h₁.size, h₂.size, h₁.blocks, h₂.blocks, h₁.total, h₂.total, h₁.first, h₂.first, h₁.data,
    h₂.data, min_eq_left hb₁, min_eq_left hb₂]

theorem write_appended (ha : Appendable s fd i) (buf : ℕ → UInt8) (hc : count ≠ 0) {p : BlockPlan}
    (hp : writePlan s (s.inodes i) (s.inodes i).size count = some (p, k))
    (hlt : (s.inodes i).size + k < 2 ^ 32) :
    (unamedfsWrite s fd buf count).2 = toInt32 k ∧
      Appended s (unamedfsWrite s fd buf count).1 i buf (p.first (s.inodes i))
        (p.count (s.inodes i)) (p.data s.data (s.inodes i)) k := by
  have hself := writeBytes_self s fd.toNat p buf k
  have hdata := writeBytes_data s fd.toNat p buf k
  rw [ha.opened.ino, ha.offset] at hself hdata
  rw [ha.opened.write_eq, if_neg hc, ha.offset, hp]
  dsimp only
  refine ⟨rfl, rfl, ?_, ?_, ?_, hdata⟩
  · rw [hself]
  · rw [hself]
  · rw [hself, Nat.mod_eq_of_lt hlt]
    exact max_eq_right (by omega)

theorem write_refused (ha : Appendable s fd i) (buf : ℕ → UInt8) (hc : count ≠ 0)
    (hp : writePlan s (s.inodes i) (s.inodes i).size count = none) :
    unamedfsWrite s fd buf count = (s, -1) := by
  rw [ha.opened.write_eq, if_neg hc, ha.offset, hp]

theorem vop_appended (ha : Appendable s fd i) (buf : ℕ → UInt8) {p : VopPlan} {k' : ℕ}
    (hp : vopPlan s (s.inodes i) (s.inodes i).size count = some (p, k))
    (hclamp : vopClamp ((p.run s i).inodes i) (s.inodes i).size k = some k')
    (hlt : (s.inodes i).size + k' < 2 ^ 32) :
    vopResult (vopWrite s i (s.inodes i).size buf count).2 = toInt32 k' ∧
      Appended s (vopWrite s i (s.inodes i).size buf count).1 i buf (p.first (s.inodes i))
        (p.count (s.inodes i)) (p.data s.data (s.inodes i)) k' := by
  rw [vopWrite_eq ha.opened.file hp, hclamp]
  have hinode : (p.run s i).inodes i = { s.inodes i with
      firstBlock := p.first (s.inodes i), blocks := p.count (s.inodes i) } := by
    simp [VopPlan.run]
  refine ⟨rfl, rfl, ?_, ?_, ?_, ?_⟩
  all_goals unfold vopStore
  all_goals dsimp only
  all_goals rw [hinode]
  · rw [Function.update_self]
  · rw [Function.update_self]
  · rw [Function.update_self, Nat.mod_eq_of_lt hlt]
    exact max_eq_right (Nat.le_add_right _ _)
  · rfl

theorem vop_refused (ha : Appendable s fd i) (buf : ℕ → UInt8)
    (hp : vopPlan s (s.inodes i) (s.inodes i).size count = none) :
    vopWrite s i (s.inodes i).size buf count = (s, none) := by
  unfold vopWrite
  rw [if_neg (by simp [ha.opened.file]), hp]

/-! ### The two searches -/

section Search

variable (hm : Matched s)

include hm

theorem vopFree_eq (hb : b < s.sb.totalBlocks) : vopFree s b = !bit s.blockBitmap b := by
  have hsmall := hm.spaced.small
  have hlow : b < 64 := by omega
  unfold vopFree
  rw [hm.agree.vopUsed_eq, decide_eq_true hlow, Bool.true_and]

theorem vopFreeRun_iff {n : ℕ} (hin : f + n ≤ s.sb.totalBlocks) :
    vopFreeRun s f n = true ↔ FreeRun s.bitmapBlocks s.blockBitmap n f := by
  unfold vopFreeRun FreeRun
  rw [List.all_eq_true, hm.device]
  constructor
  · intro h
    refine ⟨hin, fun b h₁ h₂ => ?_⟩
    have hfree := h (b - f) (List.mem_range.mpr (by omega))
    rw [Nat.add_sub_cancel' h₁, vopFree_eq hm (by omega)] at hfree
    simpa using hfree
  · rintro ⟨-, h⟩ j hj
    have hj' := List.mem_range.mp hj
    rw [vopFree_eq hm (by omega), h (f + j) (by omega) (by omega)]
    rfl

theorem not_freeRun_beyond {n : ℕ} (hout : s.sb.totalBlocks < f + n) :
    ¬ FreeRun s.bitmapBlocks s.blockBitmap n f := by
  rintro ⟨hle, -⟩
  rw [hm.device] at hle
  omega

theorem vopFree_beyond (hb : s.sb.totalBlocks ≤ b) : vopFree s b = true := by
  have hused : vopUsed s b = false := by
    rw [← Bool.not_eq_true, vopUsed_iff]
    rintro (hlow | ⟨j, hj⟩)
    · have hfree := hm.spaced.free
      omega
    · exact absurd (hm.spaced.inside j b hj).2 (not_lt.mpr hb)
  unfold vopFree
  rw [hused, Bool.and_false, Bool.not_false]

/-- The blocks behind a file are free for the one if they are for the other, but for those behind
the device. -/
theorem vopFreeRun_eq {n : Inode} {need : ℕ} (hpos : 0 < n.blocks) (hmore : n.blocks < need)
    (hend : ¬ AtEnd s n need) :
    vopFreeRun s (n.firstBlock + n.blocks) (need - n.blocks) =
      (List.range (need - n.blocks)).all fun k =>
        !bitmapTest s.bitmapBlocks s.blockBitmap (n.firstBlock + n.blocks + k) := by
  rw [Bool.eq_iff_iff, all_free_iff (by omega)]
  by_cases hin : n.firstBlock + need ≤ s.sb.totalBlocks
  · exact vopFreeRun_iff hm (by omega)
  · refine iff_of_false (fun hrun => hend ⟨hpos, by omega, fun b hb hle => ?_⟩)
      (not_freeRun_beyond hm (by omega))
    have hfree := List.all_eq_true.mp hrun (b - (n.firstBlock + n.blocks))
      (List.mem_range.mpr (by omega))
    rw [Nat.add_sub_cancel' hle, vopFree_eq hm hb] at hfree
    simpa using hfree

theorem AtEnd.vopFreeRun {n : Inode} {need : ℕ} (hend : AtEnd s n need) :
    vopFreeRun s (n.firstBlock + n.blocks) (need - n.blocks) = true := by
  refine List.all_eq_true.mpr fun k _ => ?_
  by_cases hb : n.firstBlock + n.blocks + k < s.sb.totalBlocks
  · rw [vopFree_eq hm hb, hend.2.2 _ hb (by omega)]
    rfl
  · exact vopFree_beyond hm (by omega)

theorem vopFind_eq {need : ℕ} (hn : 0 < need) :
    vopFind s need = bitmapFindContiguous s.bitmapBlocks s.blockBitmap need := by
  cases hfind : bitmapFindContiguous s.bitmapBlocks s.blockBitmap need with
  | none =>
    have hnone := bitmapFindContiguous_eq_none hn hfind
    cases hvop : vopFind s need with
    | none => rfl
    | some f =>
      obtain ⟨hf, hin, hrun⟩ := vopFind_some hvop
      exact absurd ((vopFreeRun_iff hm hin).mp hrun) (hnone f hf)
  | some f =>
    obtain ⟨hf, hrun, hleast⟩ := bitmapFindContiguous_eq_some hn hfind
    have hin : f + need ≤ s.sb.totalBlocks := hm.device ▸ hrun.1
    refine List.find?_range_eq_some.mpr ⟨?_, List.mem_range.mpr (by omega), fun g hg => ?_⟩
    · rw [(vopFreeRun_iff hm hin).mpr hrun, decide_eq_true hf, decide_eq_true hin]
      rfl
    · by_contra hno
      simp only [Bool.not_eq_true', Bool.not_eq_false, Bool.and_eq_true, decide_eq_true_eq] at hno
      obtain ⟨⟨hg₂, hgin⟩, hgrun⟩ := hno
      exact hleast g hg₂ hg ((vopFreeRun_iff hm hgin).mp hgrun)

end Search

/-! ### The branches, where the file grows -/

theorem capacity_mod (h : b + f < 256) :
    b * 4096 % 2 ^ 32 = b * 4096 ∧ (b * 4096 + f * 4096) % 2 ^ 32 = (b + f) * 4096 ∧
      (b + f) * 4096 % 2 ^ 32 = (b + f) * 4096 := by
  omega

theorem needBlocks_mul (h : b < 256) : needBlocks (b * 4096) = b := by
  rw [needBlocks_eq (by omega)]
  omega

theorem vopNeed_eq {n : ℕ} (h : n + 4095 < 2 ^ 32) : vopNeed n = (n + 4095) / 4096 := by
  unfold vopNeed
  rw [Nat.mod_eq_of_lt h]

theorem le_blocks (n : ℕ) : n ≤ (n + 4095) / 4096 * 4096 := by omega

theorem blocks_lt {n : ℕ} (h : 0 < n) : ((n + 4095) / 4096 - 1) * 4096 < n := by omega

section Grow

variable {n : Inode} {off need : ℕ} (hcap : n.blocks * 4096 < off + count)
  (hoff : off ≤ n.blocks * 4096) (hwrap : off + count + 4095 < 2 ^ 32)
  (hneed : need = (off + count + 4095) / 4096) (hsmall : n.blocks + s.sb.freeBlocks < 256)

include hcap hoff hwrap hneed hsmall

theorem vopPlan_grow (hroom : need ≤ n.blocks + s.sb.freeBlocks) :
    vopPlan s n off count =
      if n.blocks = 0 then (vopFind s need).map fun f => (.fresh f need need, count)
      else if vopFreeRun s (n.firstBlock + n.blocks) (need - n.blocks) then
        some (.extend need (need - n.blocks), count)
      else (vopFind s need).map fun f => (.relocate f need (need - n.blocks), count) := by
  have hend : (off + count) % 2 ^ 32 = off + count := Nat.mod_eq_of_lt (by omega)
  obtain ⟨hblocks, hmax, -⟩ := capacity_mod hsmall
  have hvop : vopNeed (off + count) = need := (vopNeed_eq hwrap).trans hneed.symm
  -- a second search is for more blocks
  have hretry : vopFind s need = none → vopFind s
      (vopNeed ((off + ((n.blocks + s.sb.freeBlocks) * 4096 - off)) % 2 ^ 32)) = none := by
    refine vopFind_none_mono ?_
    unfold vopNeed
    omega
  unfold vopPlan
  dsimp only
  rw [hend, hblocks, hmax, hvop, if_neg (by omega), if_neg (by omega), if_neg (by omega)]
  cases hfind : vopFind s need with
  | some f => rfl
  | none =>
    have hnot : ¬ (n.blocks + s.sb.freeBlocks) * 4096 ≤ off := by omega
    dsimp only
    rw [hretry hfind, if_neg hnot, if_neg hnot]
    dsimp only [Option.map_none]
    rw [ite_self]

theorem writePlan_grow (hroom : need ≤ n.blocks + s.sb.freeBlocks) :
    writePlan s n off count = (if n.blocks = 0 then
        (bitmapFindContiguous s.bitmapBlocks s.blockBitmap need).map (.fresh · need)
      else if (List.range (need - n.blocks)).all fun k =>
          !bitmapTest s.bitmapBlocks s.blockBitmap (n.firstBlock + n.blocks + k) then
        some (.extend need)
      else (bitmapFindContiguous s.bitmapBlocks s.blockBitmap need).map (.relocate · need)).map
        (·, count) := by
  have hend : (off + count) % 2 ^ 32 = off + count := Nat.mod_eq_of_lt (by omega)
  -- with the count cut to the free space, the call is the same
  have hcut : min ((n.blocks + s.sb.freeBlocks) * 4096 % 2 ^ 32 - off) count = count := by omega
  have hnot : ¬ (n.blocks + s.sb.freeBlocks) * 4096 % 2 ^ 32 ≤ off := by omega
  have hplan : writePlan s n off count = (planBlocks s n (off + count)).map (·, count) := by
    unfold writePlan
    rw [hend]
    dsimp only
    rw [hcut, hend, if_neg hnot]
    cases planBlocks s n (off + count) <;> rfl
  rw [hplan]
  unfold planBlocks
  dsimp only
  rw [needBlocks_eq hwrap, ← hneed, if_neg (by omega), if_neg (by omega), if_neg (by omega)]

omit hoff in
theorem vopPlan_full (hfull : n.blocks + s.sb.freeBlocks < need) :
    vopPlan s n off count =
      if (n.blocks + s.sb.freeBlocks) * 4096 ≤ off then none
      else some (.keep, (n.blocks + s.sb.freeBlocks) * 4096 - off) := by
  have hend : (off + count) % 2 ^ 32 = off + count := Nat.mod_eq_of_lt (by omega)
  obtain ⟨hblocks, hmax, -⟩ := capacity_mod hsmall
  have hvop : vopNeed (off + count) = need := (vopNeed_eq hwrap).trans hneed.symm
  unfold vopPlan
  dsimp only
  rw [hend, hblocks, hmax, hvop, if_neg (by omega), if_pos (by omega)]

theorem writePlan_full (hfull : n.blocks + s.sb.freeBlocks < need) :
    writePlan s n off count =
      if (n.blocks + s.sb.freeBlocks) * 4096 ≤ off then none
      else (planBlocks s n ((n.blocks + s.sb.freeBlocks) * 4096)).map
        fun p => (p, (n.blocks + s.sb.freeBlocks) * 4096 - off) := by
  have hend : (off + count) % 2 ^ 32 = off + count := Nat.mod_eq_of_lt (by omega)
  obtain ⟨-, -, hmax⟩ := capacity_mod hsmall
  have hnone : planBlocks s n (off + count) = none := by
    unfold planBlocks
    dsimp only
    rw [needBlocks_eq hwrap, ← hneed, if_neg (by omega), if_neg (by omega), if_pos (by omega)]
  have hcut : min ((n.blocks + s.sb.freeBlocks) * 4096 - off) count =
      (n.blocks + s.sb.freeBlocks) * 4096 - off := by omega
  unfold writePlan
  rw [hend, hnone]
  dsimp only
  rw [hmax, hcut]
  by_cases hle : (n.blocks + s.sb.freeBlocks) * 4096 ≤ off
  · rw [if_pos hle, if_pos hle]
  · rw [if_neg hle, if_neg hle, Nat.add_sub_cancel' (le_of_not_ge hle), hmax]

end Grow

/-! ### The cases -/

theorem vopClamp_fits {n : Inode} {off : ℕ} (hlt : off + k < 2 ^ 32) (hsmall : n.blocks < 256)
    (hfits : off + k ≤ n.blocks * 4096) : vopClamp n off k = some k := by
  have hcap : n.blocks * 4096 % 2 ^ 32 = n.blocks * 4096 := Nat.mod_eq_of_lt (by omega)
  unfold vopClamp
  dsimp only
  rw [hcap, Nat.mod_eq_of_lt hlt, if_neg (by omega)]

theorem writePlan_within (s : Fs) (n : Inode) {off need : ℕ} (hlt : off + count < 2 ^ 32)
    (hneed : needBlocks (off + count) = need) (hle : need ≤ n.blocks) :
    writePlan s n off count = some (if need = n.blocks then .keep else .shrink need, count) := by
  unfold writePlan planBlocks
  rw [Nat.mod_eq_of_lt hlt, hneed]
  dsimp only
  by_cases heq : need = n.blocks
  · rw [if_pos heq, if_pos heq]
  · rw [if_neg heq, if_neg heq, if_pos (lt_of_le_of_ne hle heq)]

section Cases

variable (hm : Matched s) (ha : Appendable s fd i)

include ha

theorem vop_fitting (buf : ℕ → UInt8) {q : VopPlan}
    (hq : vopPlan s (s.inodes i) (s.inodes i).size count = some (q, k))
    (hfits : (s.inodes i).size + k ≤ q.count (s.inodes i) * 4096)
    (hsmall : q.count (s.inodes i) < 256) :
    vopResult (vopWrite s i (s.inodes i).size buf count).2 = toInt32 k ∧
      Appended s (vopWrite s i (s.inodes i).size buf count).1 i buf (q.first (s.inodes i))
        (q.count (s.inodes i)) (q.data s.data (s.inodes i)) k := by
  have hlt : (s.inodes i).size + k < 2 ^ 32 := by omega
  have hblocks : ((q.run s i).inodes i).blocks = q.count (s.inodes i) := (q.run_moves s i).blocks
  refine vop_appended ha buf hq (vopClamp_fits hlt ?_ ?_) hlt
  · rw [hblocks]
    exact hsmall
  · rw [hblocks]
    exact hfits

theorem SameAppend.of_plans (hc : count ≠ 0) {p : BlockPlan} {q : VopPlan}
    (hp : writePlan s (s.inodes i) (s.inodes i).size count = some (p, k))
    (hq : vopPlan s (s.inodes i) (s.inodes i).size count = some (q, k))
    (hfirst : p.first (s.inodes i) = q.first (s.inodes i))
    (hdata : p.data s.data (s.inodes i) = q.data s.data (s.inodes i))
    (hfits : (s.inodes i).size + k ≤ p.count (s.inodes i) * 4096)
    (hfits' : (s.inodes i).size + k ≤ q.count (s.inodes i) * 4096)
    (hsmall : q.count (s.inodes i) < 256) : SameAppend s fd i buf count := by
  obtain ⟨hr, happ⟩ := write_appended ha buf hc hp (by omega)
  obtain ⟨hr', happ'⟩ := vop_fitting ha buf hq hfits' hsmall
  rw [hfirst, hdata] at happ
  obtain ⟨hsize, hcontent⟩ := happ.same happ' hfits hfits'
  exact ⟨hr.trans hr'.symm, hsize, hcontent⟩

theorem SameAppend.of_refused (hc : count ≠ 0)
    (hp : writePlan s (s.inodes i) (s.inodes i).size count = none)
    (hq : vopWrite s i (s.inodes i).size buf count = (s, none)) : SameAppend s fd i buf count := by
  have hw := write_refused ha buf hc hp
  exact ⟨by rw [hw, hq]; rfl, by rw [hw, hq], by rw [hw, hq]⟩

theorem vop_kept (hfull : (s.inodes i).size ≤ (s.inodes i).blocks * 4096) (buf : ℕ → UInt8)
    (hq : vopPlan s (s.inodes i) (s.inodes i).size count = some (.keep, k))
    (hsmall : (s.inodes i).blocks < 256) (hlt : (s.inodes i).size + k < 2 ^ 32)
    (hover : (s.inodes i).blocks * 4096 < (s.inodes i).size + k) :
    ((vopWrite s i (s.inodes i).size buf count).1.inodes i).size = (s.inodes i).blocks * 4096 ∧
      ((s.inodes i).size = (s.inodes i).blocks * 4096 →
        vopWrite s i (s.inodes i).size buf count = (s, none)) := by
  have hcap : (s.inodes i).blocks * 4096 % 2 ^ 32 = (s.inodes i).blocks * 4096 :=
    Nat.mod_eq_of_lt (by omega)
  have hclamp : vopClamp ((VopPlan.keep.run s i).inodes i) (s.inodes i).size k =
      if (s.inodes i).blocks * 4096 ≤ (s.inodes i).size then none
      else some ((s.inodes i).blocks * 4096 - (s.inodes i).size) := by
    rw [VopPlan.keep_run]
    unfold vopClamp
    dsimp only
    rw [hcap, Nat.mod_eq_of_lt hlt, if_pos hover]
  by_cases hend : (s.inodes i).blocks * 4096 ≤ (s.inodes i).size
  · have hwrite : vopWrite s i (s.inodes i).size buf count = (s, none) := by
      rw [vopWrite_eq ha.opened.file hq, hclamp, if_pos hend]
      dsimp only
      rw [VopPlan.keep_run]
    refine ⟨?_, fun _ => hwrite⟩
    rw [hwrite]
    exact le_antisymm hfull hend
  · rw [if_neg hend] at hclamp
    obtain ⟨-, happ⟩ := vop_appended ha buf hq hclamp (by omega)
    exact ⟨by rw [happ.size]; omega, fun heq => absurd heq.ge hend⟩

include hm

theorem Matched.small : (s.inodes i).blocks + s.sb.freeBlocks < 256 := by
  have hle := hm.spaced.blocks_le ha.live
  have hsmall := hm.spaced.small
  omega

theorem same_of_fits (hfits : (s.inodes i).size + count ≤ (s.inodes i).blocks * 4096) :
    SameAppend s fd i buf count := by
  have hsmall := hm.small ha
  have hend : ((s.inodes i).size + count) % 2 ^ 32 = (s.inodes i).size + count :=
    Nat.mod_eq_of_lt (by omega)
  obtain ⟨hcap, -, -⟩ := capacity_mod hsmall
  have hkeep : vopPlan s (s.inodes i) (s.inodes i).size count = some (.keep, count) := by
    unfold vopPlan
    dsimp only
    rw [hend, hcap, if_pos hfits]
  by_cases hc : count = 0
  · -- `unamedfs_write` returns at once, the other one copies nothing
    subst hc
    have hwrite : unamedfsWrite s fd buf 0 = (s, 0) := by rw [ha.opened.write_eq, if_pos rfl]
    have happ : Appended s s i buf (s.inodes i).firstBlock (s.inodes i).blocks s.data 0 :=
      ⟨rfl, rfl, rfl, rfl, funext fun x => (store_outside _ buf (by omega)).symm⟩
    obtain ⟨hr, happ'⟩ := vop_fitting ha buf hkeep hfits (by simp only [VopPlan.count]; omega)
    obtain ⟨hsize, hcontent⟩ := happ.same happ' hfits hfits
    exact ⟨by rw [hwrite, hr]; rfl, by rw [hwrite]; exact hsize, by rw [hwrite]; exact hcontent⟩
  · have hround : ((s.inodes i).size + count + 4095) / 4096 ≤ (s.inodes i).blocks := by omega
    have hplan := writePlan_within s (s.inodes i) (by omega) (needBlocks_eq (by omega)) hround
    split_ifs at hplan with heq
    · exact .of_plans ha hc hplan hkeep rfl rfl hfits hfits (by simp only [VopPlan.count]; omega)
    · refine .of_plans ha hc hplan hkeep ?_ rfl ?_ hfits (by simp only [VopPlan.count]; omega)
      · exact if_neg (by omega)
      · exact le_blocks _

variable (hfull : (s.inodes i).size ≤ (s.inodes i).blocks * 4096)

include hfull

theorem not_same_of_wrap (hcap : (s.inodes i).blocks * 4096 < (s.inodes i).size + count)
    (hlt : (s.inodes i).size + count < 2 ^ 32) (hwrap : 2 ^ 32 ≤ (s.inodes i).size + count + 4095) :
    ¬ SameAppend s fd i buf count := by
  have hsmall := hm.small ha
  have hend := Nat.mod_eq_of_lt hlt
  have hround : ((s.inodes i).size + count + 4095) % 2 ^ 32 / 4096 = 0 := by omega
  obtain ⟨hblocks, -, -⟩ := capacity_mod hsmall
  have hkeep : vopPlan s (s.inodes i) (s.inodes i).size count = some (.keep, count) := by
    unfold vopPlan vopNeed
    dsimp only
    rw [hend, hblocks, hround, if_neg (by omega), if_neg (by omega), if_pos (by omega)]
  have hneed : needBlocks ((s.inodes i).size + count) = 0 := by
    unfold needBlocks
    rw [hround, ite_self]
  have hp := writePlan_within s (s.inodes i) hlt hneed (Nat.zero_le _)
  intro hsame
  have hsize := hsame.size
  rw [(write_appended ha buf (by omega) hp hlt).2.size,
    (vop_kept ha hfull buf hkeep (by omega) hlt hcap).1] at hsize
  omega

theorem same_iff_of_full (hcap : (s.inodes i).blocks * 4096 < (s.inodes i).size + count)
    (hwrap : (s.inodes i).size + count + 4095 < 2 ^ 32)
    (hfew : (s.inodes i).blocks + s.sb.freeBlocks < ((s.inodes i).size + count + 4095) / 4096) :
    SameAppend s fd i buf count ↔ NoneLost s (s.inodes i) := by
  unfold NoneLost
  have hsmall := hm.small ha
  have hc : count ≠ 0 := by omega
  have hp := writePlan_full hcap hfull hwrap rfl hsmall hfew
  have hq := vopPlan_full hcap hwrap rfl hsmall hfew
  by_cases hend : ((s.inodes i).blocks + s.sb.freeBlocks) * 4096 ≤ (s.inodes i).size
  · rw [if_pos hend] at hp hq
    exact iff_of_true (.of_refused ha hc hp (vop_refused ha buf hq)) (Or.inl (by omega))
  rw [if_neg hend] at hp hq
  by_cases hfree : s.sb.freeBlocks = 0
  · refine iff_of_true ?_ (Or.inl hfree)
    have hneed := needBlocks_mul (b := (s.inodes i).blocks) (by omega)
    rw [hfree, Nat.add_zero] at hp hq
    unfold planBlocks at hp
    rw [hneed, if_pos rfl] at hp
    exact .of_plans ha hc hp hq rfl rfl (by simp only [BlockPlan.count]; omega)
      (by simp only [VopPlan.count]; omega) (by simp only [VopPlan.count]; omega)
  obtain ⟨hsize, hrefused⟩ := vop_kept ha hfull buf hq (by omega) (by omega) (by omega)
  cases hplan : planBlocks s (s.inodes i) (((s.inodes i).blocks + s.sb.freeBlocks) * 4096) with
  | none =>
    rw [hplan] at hp
    by_cases heq : (s.inodes i).size = (s.inodes i).blocks * 4096
    · exact iff_of_true (.of_refused ha hc hp (hrefused heq)) (Or.inr ⟨heq, rfl⟩)
    · refine iff_of_false (fun hsame => heq ?_) (by simp [hfree, heq])
      rw [← hsize, ← hsame.size, write_refused ha buf hc hp]
  | some p =>
    rw [hplan] at hp
    refine iff_of_false (fun hsame => ?_) (by simp [hfree])
    have hother := hsame.size
    rw [(write_appended ha buf hc hp (by omega)).2.size, hsize] at hother
    omega

section Room

variable (hcap : (s.inodes i).blocks * 4096 < (s.inodes i).size + count)
  (hwrap : (s.inodes i).size + count + 4095 < 2 ^ 32)
  (hroom : ((s.inodes i).size + count + 4095) / 4096 ≤ (s.inodes i).blocks + s.sb.freeBlocks)

include hcap hwrap hroom

theorem same_of_room (hend : ¬ AtEnd s (s.inodes i) (((s.inodes i).size + count + 4095) / 4096)) :
    SameAppend s fd i buf count := by
  have hsmall := hm.small ha
  have hc : count ≠ 0 := by omega
  have hmore : (s.inodes i).blocks < ((s.inodes i).size + count + 4095) / 4096 := by omega
  have hp := writePlan_grow hcap hfull hwrap rfl hsmall hroom
  have hq := vopPlan_grow hcap hfull hwrap rfl hsmall hroom
  have hfits := le_blocks ((s.inodes i).size + count)
  have hlow : ((s.inodes i).size + count + 4095) / 4096 < 256 := by omega
  have hcopy : copyLen (s.inodes i) = (s.inodes i).size := min_eq_left hfull
  rw [vopFind_eq hm (by omega)] at hq
  generalize ((s.inodes i).size + count + 4095) / 4096 = need at *
  by_cases hnew : (s.inodes i).blocks = 0
  · rw [if_pos hnew] at hp hq
    cases hfind : bitmapFindContiguous s.bitmapBlocks s.blockBitmap need with
    | none =>
      rw [hfind] at hp hq
      exact .of_refused ha hc hp (vop_refused ha buf hq)
    | some f =>
      rw [hfind] at hp hq
      exact .of_plans ha hc hp hq rfl rfl hfits hfits hlow
  rw [if_neg hnew] at hp hq
  rw [vopFreeRun_eq hm (by omega) hmore hend] at hq
  split_ifs at hp hq with hrun
  · exact .of_plans ha hc hp hq rfl rfl hfits hfits hlow
  · cases hfind : bitmapFindContiguous s.bitmapBlocks s.blockBitmap need with
    | none =>
      rw [hfind] at hp hq
      exact .of_refused ha hc hp (vop_refused ha buf hq)
    | some f =>
      rw [hfind] at hp hq
      refine .of_plans ha hc hp hq rfl ?_ hfits hfits hlow
      simp only [BlockPlan.data, VopPlan.data]
      rw [hcopy]

theorem not_same_of_atEnd
    (hend : AtEnd s (s.inodes i) (((s.inodes i).size + count + 4095) / 4096)) :
    ¬ SameAppend s fd i buf count := by
  have hsmall := hm.small ha
  have hc : count ≠ 0 := by omega
  have hmore : (s.inodes i).blocks < ((s.inodes i).size + count + 4095) / 4096 := by omega
  have hp := writePlan_grow hcap hfull hwrap rfl hsmall hroom
  have hq := vopPlan_grow hcap hfull hwrap rfl hsmall hroom
  have hfits := le_blocks ((s.inodes i).size + count)
  have hlast := blocks_lt (n := (s.inodes i).size + count) (by omega)
  have hlt : (s.inodes i).size + count < 2 ^ 32 := by omega
  have hlow : ((s.inodes i).size + count + 4095) / 4096 < 256 := by omega
  generalize ((s.inodes i).size + count + 4095) / 4096 = need at *
  obtain ⟨hpos, hout, -⟩ := id hend
  have hrun : ¬ ((List.range (need - (s.inodes i).blocks)).all fun k => !bitmapTest s.bitmapBlocks
      s.blockBitmap ((s.inodes i).firstBlock + (s.inodes i).blocks + k)) = true := by
    rw [all_free_iff (by omega)]
    exact not_freeRun_beyond hm (by omega)
  rw [if_neg hpos.ne', if_pos (hend.vopFreeRun hm)] at hq
  rw [if_neg hpos.ne', if_neg hrun] at hp
  obtain ⟨-, happ'⟩ := vop_fitting ha buf hq hfits hlow
  intro hsame
  cases hfind : bitmapFindContiguous s.bitmapBlocks s.blockBitmap need with
  | none =>
    rw [hfind] at hp
    have hsize := hsame.size
    rw [write_refused ha buf hc hp, happ'.size] at hsize
    exact hc (by simpa using hsize)
  | some f =>
    -- the relocated file lies on the device, the extended one does not
    rw [hfind] at hp
    obtain ⟨-, hrange, -⟩ := bitmapFindContiguous_eq_some (by omega) hfind
    obtain ⟨-, happ⟩ := write_appended ha buf hc hp hlt
    have hlength := congrArg List.length hsame.content
    rw [happ.length hfits, happ'.length hfits] at hlength
    have hin := hrange.1
    rw [hm.device] at hin
    simp only [BlockPlan.first, VopPlan.first] at hlength
    omega

end Room

end Cases

theorem matched_reach (h : Reach WritesLive step ramDisk s) (hsmall : s.sb.totalBlocks ≤ 64)
    (hdevice : s.bitmapBlocks = s.sb.totalBlocks) : Matched s := by
  have ht : Tight s := tight_reach (by norm_num) formatMount_ramDisk h
  have hs : Sound s := sound_reach (by norm_num) formatMount_ramDisk (h.mono fun _ _ _ => trivial)
  exact ⟨agree_of_tight ht hs, spaced_of_tight ht hs hsmall, hdevice⟩

def emptyFile : Fs := [Op.create (cstr "/f"), .open_ (cstr "/f") 0].foldl step vfsInit.fs

theorem emptyFile_matched : Matched emptyFile :=
  matched_reach (Reach.foldl _ (vfsInit_reach fun _ _ => trivial) (by decide +kernel))
    (by decide +kernel) (by decide +kernel)

theorem emptyFile_appendable : Appendable emptyFile 0 5 := by
  refine ⟨by decide +kernel, ⟨?_, ?_, ?_, ?_⟩, ?_⟩ <;> decide +kernel

/-- File `f` of 4097 bytes, cut to its first block by a write at 0; file `g` has the second one. -/
def cutFile : Fs :=
  [Op.create (cstr "/f"), .open_ (cstr "/f") 0, .lseek 0 4096 0, .write 0 (fun _ => 7) 1,
    .lseek 0 0 0, .write 0 (fun _ => 7) 1, .create (cstr "/g"), .open_ (cstr "/g") 0,
    .write 1 (fun _ => 9) 1, .lseek 0 4097 0].foldl step ramDisk

end Kerneloid.Vfs.Appends
