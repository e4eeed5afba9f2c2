import Kerneloid.UnnamedFS.Alloc
import Kerneloid.UnnamedFS.Decode

/-! # The device runs the file system

`ByteFs.view` carries the runs on the bytes of the device to runs of the file system of `Types`. The
three areas overlap on the device, so this needs the guard of `Layout`: the bytes written lie behind
the inode table and on the device. Then every call does to the records, the bitmap and the
descriptors what the call of `Ops` does (`view_step`), and the directory tree and the allocation
invariant hold of the bytes (`device_invariants`).

The data area is left out (`Alike`): a new inode record may go over the data of a file. So are the
records that are not counted in `inode_count`. -/

namespace Kerneloid.UnnamedFS.Simulation

open Lib.Bytes Lib.Runs Types Bitmap UnnamedFS.Path Lookup Blocks Ops Effects Namespace Alloc Slots
open Layout Decode

/-! ### The same records -/

/-- The two states agree on everything but the data area and the records not counted. -/
structure Alike (s t : Fs) : Prop where
  sb : s.sb = t.sb
  inode : ∀ i < t.sb.inodeCount, s.inodes i = t.inodes i
  bitmap : s.blockBitmap = t.blockBitmap
  size : s.bitmapBlocks = t.bitmapBlocks
  fds : s.fdEntries = t.fdEntries
  icache : s.icache = t.icache
  mount : s.mountValid = t.mountValid

variable {s t : Fs}

theorem Alike.of_eq (h : s = t) : Alike s t := by
  subst h
  exact ⟨rfl, fun _ _ => rfl, rfl, rfl, rfl, rfl, rfl⟩

theorem Alike.live (h : Alike s t) (i : ℕ) : s.Live i ↔ t.Live i := by
  unfold Fs.Live
  rw [h.sb]
  exact and_congr_right fun hi => by rw [h.inode i hi]

theorem Alike.sameTree (h : Alike s t) : SameTree t s := .of_eq h.mount (by rw [h.sb]) h.inode

theorem Alike.sameSpace (h : Alike s t) : SameSpace t s := .of_eq h.sb h.inode h.bitmap h.size

theorem Alike.sound (h : Alike s t) (ht : Sound t) : Sound s :=
  ht.congr h.sameSpace (by rw [h.fds]; exact ht.fds)

/-- The states after a call on both levels agree, and so does what it returns. -/
structure Both {α : Type*} (x : ByteFs × α) (y : Fs × α) : Prop where
  state : Alike x.1.view y.1
  value : x.2 = y.2

section Both
variable {α : Type*} {x y : ByteFs × α} {x' y' : Fs × α}

theorem Both.of_eq (h : x.1.view = x'.1) (h' : x.2 = x'.2) : Both x x' := ⟨.of_eq h, h'⟩

theorem Both.ite {P Q : Prop} [Decidable P] [Decidable Q] (hPQ : P ↔ Q) (h1 : P → Both x x')
    (h2 : ¬ P → Both y y') : Both (if P then x else y) (if Q then x' else y') := by
  by_cases h : P
  · rw [if_pos h, if_pos (hPQ.mp h)]; exact h1 h
  · rw [if_neg h, if_neg fun hq => h (hPQ.mpr hq)]; exact h2 h

end Both

/-! ### Calls without stores -/

theorem keepDevice_view {b : ByteFs}
    (h : s = { b.view with fdEntries := s.fdEntries, icache := s.icache }) :
    (b.keepDevice s).view = s := h.symm

theorem open_view (b : ByteFs) (path : CStr) (flags : ℤ) :
    (b.step (.open_ path flags)).view = step b.view (.open_ path flags) := by
  refine keepDevice_view ?_
  unfold unamedfsOpen
  split_ifs
  · rfl
  · dsimp only
    split
    · rfl
    · split <;> rfl

theorem close_view (b : ByteFs) (fd : ℤ) : (b.step (.close fd)).view = step b.view (.close fd) := by
  refine keepDevice_view ?_
  unfold unamedfsClose
  split_ifs <;> rfl

theorem read_view (b : ByteFs) (fd : ℤ) (count : ℕ) :
    (b.step (.read fd count)).view = step b.view (.read fd count) := by
  refine keepDevice_view ?_
  unfold unamedfsRead
  dsimp only
  split_ifs <;> rfl

theorem lseek_view (b : ByteFs) (fd offset whence : ℤ) :
    (b.step (.lseek fd offset whence)).view = step b.view (.lseek fd offset whence) := by
  refine keepDevice_view ?_
  unfold unamedfsLseek
  split_ifs
  · rfl
  · rfl
  · dsimp only
    split
    · rfl
    · split_ifs <;> rfl

/-! ### Removals -/

section Removals
variable {b : ByteFs} {i : ℕ}

theorem clearInode_alike {c : ByteFs} {free : ℕ} {fds : ℕ → FdEntry}
    (hsb : c.sb = { b.sb with freeBlocks := free }) (hin : c.inode = b.inode)
    (hbm : c.blockBitmap = bitmapMarkRange b.bitmapBlocks b.blockBitmap (b.inode i).firstBlock
      (b.inode i).blocks false) (hnb : c.bitmapBlocks = b.bitmapBlocks) (hfd : c.fdEntries = fds)
    (hic : c.icache = b.icache) (hm : c.mountValid = b.mountValid) :
    Alike (c.clearInode i).view { dropInode b.view i free with fdEntries := fds } := by
  refine ⟨(clearInode_sb c i).trans hsb, fun j _ => ?_, hbm, hnb, hfd, ?_, hm⟩
  · change (c.clearInode i).inode j = _
    rw [clearInode_inode, hin]
    rfl
  · change icacheInvalidate c.icache i (c.inode i).name (c.inode i).parent = _
    rw [hic, hin]
    rfl

theorem rmdirInode_alike (b : ByteFs) (i : ℕ) :
    Alike (b.rmdirInode i).view (rmdirInode b.view i) := by
  have hfree : b.sb.freeBlocks < 2 ^ 32 := rd32_lt _ _
  unfold ByteFs.rmdirInode
  dsimp only
  by_cases hb : (b.inode i).blocks = 0
  · rw [if_neg (not_not.mpr hb)]
    refine clearInode_alike ?_ rfl ?_ rfl rfl rfl rfl
    · change b.sb = { b.sb with freeBlocks := (b.sb.freeBlocks + (b.inode i).blocks) % 2 ^ 32 }
      rw [hb, Nat.add_zero, Nat.mod_eq_of_lt hfree]
    · rw [hb]; rfl
  · rw [if_pos hb]
    exact clearInode_alike (setFree_sb _ _) (setFree_inode _ _) rfl rfl rfl rfl rfl

theorem unlinkInode_alike (b : ByteFs) (i : ℕ) :
    Alike (b.unlinkInode i).view (unlinkInode b.view i) := by
  have htotal : b.sb.totalBlocks < 2 ^ 32 := rd32_lt _ _
  change Alike _ { dropInode b.view i (if b.sb.freeBlocks + (b.inode i).blocks ≤ b.sb.totalBlocks
    then b.sb.freeBlocks + (b.inode i).blocks else b.sb.freeBlocks) with
      fdEntries := closeFds b.fdEntries i }
  unfold ByteFs.unlinkInode
  dsimp only
  by_cases hb : (b.inode i).blocks = 0
  · rw [if_neg (not_not.mpr hb), hb, Nat.add_zero, ite_self]
    exact clearInode_alike rfl rfl (by rw [hb]; rfl) rfl rfl rfl rfl
  rw [if_pos hb, markRange_sb]
  by_cases hfree : b.sb.freeBlocks + (b.inode i).blocks ≤ b.sb.totalBlocks
  · rw [if_pos hfree, if_pos hfree]
    refine clearInode_alike ?_ (setFree_inode _ _) rfl rfl rfl rfl rfl
    change (ByteFs.setFree _ _).sb = _
    rw [setFree_sb, Nat.mod_eq_of_lt (by omega)]
    rfl
  · rw [if_neg hfree, if_neg hfree]
    exact clearInode_alike rfl rfl rfl rfl rfl rfl rfl

theorem found_lt (hn : Numbered b.view) {path : CStr}
    (h : (findInodeByPath b.view path).2 = some i) : i < b.sb.inodeCount :=
  (hn.reachable (findInodeByPath_anchored h)).1

theorem unlink_both (b : ByteFs) (path : CStr) :
    Both (b.unamedfsUnlink path) (unamedfsUnlink b.view path) := by
  unfold ByteFs.unamedfsUnlink unamedfsUnlink
  refine .ite Iff.rfl (fun _ => .of_eq rfl rfl) fun _ => .ite Iff.rfl (fun _ => .of_eq rfl rfl)
    fun _ => ?_
  dsimp only
  cases hf : (findInodeByPath b.view (pathNormalize path 256)).2 with
  | none => exact .of_eq rfl rfl
  | some i =>
    exact .ite Iff.rfl (fun _ => .of_eq rfl rfl) fun _ => ⟨unlinkInode_alike _ i, rfl⟩

theorem rmdir_both (b : ByteFs) (path : CStr) :
    Both (b.unamedfsRmdir path) (unamedfsRmdir b.view path) := by
  unfold ByteFs.unamedfsRmdir unamedfsRmdir
  refine .ite Iff.rfl (fun _ => .of_eq rfl rfl) fun _ => .ite Iff.rfl (fun _ => .of_eq rfl rfl)
    fun _ => ?_
  dsimp only
  cases hf : (findInodeByPath b.view (pathNormalize path 256)).2 with
  | none => exact .of_eq rfl rfl
  | some i =>
    exact .ite Iff.rfl (fun _ => .of_eq rfl rfl) fun _ =>
      .ite Iff.rfl (fun _ => .of_eq rfl rfl) fun _ => ⟨rmdirInode_alike _ i, rfl⟩

end Removals

/-! ### New inodes -/

section Creation
variable {b : ByteFs}

theorem fillInode_alike {slot flags par : ℕ} {name : CStr} (hsb : b.sb = t.sb)
    (hin : ∀ j < t.sb.inodeCount, j ≠ slot → b.inode j = t.inodes j)
    (hbm : b.blockBitmap = t.blockBitmap) (hnb : b.bitmapBlocks = t.bitmapBlocks)
    (hfd : b.fdEntries = t.fdEntries) (hm : b.mountValid = t.mountValid) (ic : InodeCache)
    (hs : slot < 2 ^ 32) (hf : flags = 1 ∨ flags = 2) (hp : par < 2 ^ 32) (hn : name.length ≤ 63)
    (h0 : ∀ c ∈ name, c ≠ 0) :
    Alike (ByteFs.view { b.fillInode slot flags par name with icache := ic }) { t with
      inodes := Function.update t.inodes slot ⟨slot, 0, flags, par, 0, 0, name⟩
      icache := ic } := by
  refine ⟨(fillInode_sb b slot flags par hn).trans hsb, fun j hj => ?_, hbm, hnb, hfd, rfl, hm⟩
  change (b.fillInode slot flags par name).inode j =
    Function.update t.inodes slot ⟨slot, 0, flags, par, 0, 0, name⟩ j
  by_cases hjs : j = slot
  · subst hjs
    rw [Function.update_self]
    exact fillInode_self b hs (by omega) hp hn h0
  · rw [Function.update_of_ne hjs, fillInode_other b slot flags par hn hjs]
    exact hin j hj hjs

theorem allocInodeSlot_both (b : ByteFs) :
    (b.allocInodeSlot = (b, none) ∧ allocInodeSlot b.view = (b.view, none)) ∨
    (∃ i < b.sb.inodeCount, b.allocInodeSlot = (b, some i) ∧
      allocInodeSlot b.view = (b.view, some i)) ∨
    (b.sb.inodeCount < 256 ∧
      b.allocInodeSlot = ({ b with dev := b.dev.put32 16 (b.sb.inodeCount + 1) },
        some b.sb.inodeCount) ∧
      allocInodeSlot b.view = ({ b.view with
        sb := { b.sb with inodeCount := b.sb.inodeCount + 1 } }, some b.sb.inodeCount)) := by
  have hview : (List.range b.view.sb.inodeCount).find? (fun i => !(b.view.inodes i).isLive) =
      (List.range b.sb.inodeCount).find? fun i => !(b.inode i).isLive := rfl
  unfold ByteFs.allocInodeSlot allocInodeSlot
  rw [hview]
  cases hf : (List.range b.sb.inodeCount).find? fun i => !(b.inode i).isLive with
  | some i =>
    have hlt := List.mem_range.mp (List.find?_range_eq_some.mp hf).2.1
    exact Or.inr (Or.inl ⟨i, hlt, rfl, rfl⟩)
  | none =>
    dsimp only
    by_cases hfull : 256 ≤ b.sb.inodeCount
    · rw [if_pos hfull, if_pos (show 256 ≤ b.view.sb.inodeCount from hfull)]
      exact Or.inl ⟨rfl, rfl⟩
    · rw [if_neg hfull, if_neg (show ¬ 256 ≤ b.view.sb.inodeCount from hfull)]
      exact Or.inr (Or.inr ⟨by omega, rfl, rfl⟩)

theorem createInode_both (hn : Numbered b.view) {norm : CStr} (hnorm : ∀ c ∈ norm, c ≠ 0)
    {flags : ℕ} (hf : flags = 1 ∨ flags = 2) :
    Both (b.createInode norm flags) (createInode b.view norm flags) := by
  have hcount : b.sb.inodeCount ≤ 256 := hn.count_le
  have hlen : ((pathBasename norm 64).take 63).length ≤ 63 := List.length_take_le _ _
  have hname : ∀ c ∈ (pathBasename norm 64).take 63, c ≠ 0 := fun c hc =>
    hnorm c (mem_of_mem_pathBasename (List.mem_of_mem_take hc))
  unfold ByteFs.createInode createInode
  refine .ite Iff.rfl (fun _ => .of_eq rfl rfl) fun _ => .ite Iff.rfl (fun _ => .of_eq rfl rfl)
    fun _ => ?_
  dsimp only
  cases hr : (findInodeByPath b.view (pathDirname norm)).2 with
  | none => exact .of_eq rfl rfl
  | some par =>
    have hpar := found_lt hn hr
    refine .ite Iff.rfl (fun _ => .of_eq rfl rfl) fun _ => .ite Iff.rfl (fun _ => .of_eq rfl rfl)
      fun _ => ?_
    -- the state of both levels after the lookups
    rw [show findInodeByNameParent
        (ByteFs.view { b with icache := (findInodeByPath b.view (pathDirname norm)).1 }) =
      findInodeByNameParent
        { b.view with icache := (findInodeByPath b.view (pathDirname norm)).1 } from rfl]
    generalize (findInodeByNameParent _ _ (pathBasename norm 64) par).1 = ic
    obtain ⟨c, hc⟩ : ∃ c : ByteFs, c = { b with icache := ic } := ⟨_, rfl⟩
    have hcc : c.sb.inodeCount ≤ 256 := by rw [hc]; exact hcount
    rw [show ({ b.view with icache := ic } : Fs) = c.view by rw [hc]; rfl, ← hc]
    rcases allocInodeSlot_both c with ⟨h1, h2⟩ | ⟨i, hi, h1, h2⟩ | ⟨hlt, h1, h2⟩
    · rw [h1, h2]
      exact .of_eq rfl rfl
    · rw [h1, h2]
      exact ⟨fillInode_alike (b := c) (t := c.view) rfl (fun _ _ _ => rfl) rfl rfl rfl rfl
        { c.icache with valid := false } (by omega) hf (by omega) hlen hname, rfl⟩
    · rw [h1, h2]
      refine ⟨fillInode_alike (b := { c with dev := c.dev.put32 16 (c.sb.inodeCount + 1) })
        (t := { c.view with sb := { c.sb with inodeCount := c.sb.inodeCount + 1 } }) ?_
        (fun j _ _ => ?_) rfl rfl rfl rfl { c.icache with valid := false } (by omega) hf (by omega)
        hlen hname, rfl⟩
      · rw [putCount_sb, Nat.mod_eq_of_lt (by omega)]
      · rw [putCount_inode]
        rfl

theorem create_both (hn : Numbered b.view) (path : CStr) :
    Both (b.unamedfsCreate path) (unamedfsCreate b.view path) := by
  have h := createInode_both hn (pathNormalize_ne_zero path 256) (Or.inl rfl)
  exact ⟨h.state, by unfold ByteFs.unamedfsCreate unamedfsCreate; dsimp only; rw [h.value]⟩

theorem mkdir_both (hn : Numbered b.view) (path : CStr) :
    Both (b.unamedfsMkdir path) (unamedfsMkdir b.view path) := by
  have h := createInode_both hn (pathNormalize_ne_zero path 256) (Or.inr rfl)
  unfold ByteFs.unamedfsMkdir unamedfsMkdir
  refine .ite Iff.rfl (fun _ => .of_eq rfl rfl) fun _ => .ite Iff.rfl (fun _ => .of_eq rfl rfl)
    fun _ => ⟨h.state, ?_⟩
  dsimp only
  rw [h.value]

end Creation

/-! ### Writes -/

section Writes
variable {b : ByteFs} {i need : ℕ} {p : BlockPlan}

/-- A relocation copies behind the inode table. -/
def CopyFits (b : ByteFs) : BlockPlan → Prop
  | .relocate first _ => inodeAddr b.sb.inodeCount ≤ blockAddr first
  | _ => True

theorem runPlan_sb (hs : Sound b.view) (hi : i < b.sb.inodeCount)
    (hp : Planned b.view (b.inode i) need p) (hc : CopyFits b p) :
    (b.runPlan i p).sb = { b.sb with freeBlocks := p.free b.sb (b.inode i) } := by
  have hroom : b.sb.freeBlocks + 2 + (b.inode i).blocks ≤ b.sb.totalBlocks := hs.blocks_le hi
  have htotal : b.sb.totalBlocks < 2 ^ 20 := hs.total_lt
  cases hp with
  | keep h => rfl
  | shrink h =>
    have hle : b.sb.freeBlocks + ((b.inode i).blocks - need) ≤ b.sb.totalBlocks := by omega
    have hmod : (b.sb.freeBlocks + ((b.inode i).blocks - need)) % 2 ^ 32 =
        b.sb.freeBlocks + ((b.inode i).blocks - need) := Nat.mod_eq_of_lt (by omega)
    simp only [ByteFs.runPlan, BlockPlan.free, markRange_sb, hle, if_true]
    split_ifs <;> simp only [setFirst_sb, setBlocks_sb, setFree_sb, markRange_sb, hmod]
  | fresh h0 hn hf h2 hr =>
    change need ≤ b.sb.freeBlocks at hf
    simp only [ByteFs.runPlan, ByteFs.subFree, BlockPlan.free, setBlocks_sb, setFirst_sb, setFree_sb,
      markRange_sb]
    congr 1
    omega
  | extend h0 hn hf hr =>
    change need - (b.inode i).blocks ≤ b.sb.freeBlocks at hf
    simp only [ByteFs.runPlan, ByteFs.subFree, BlockPlan.free, setBlocks_sb, setFree_sb,
      markRange_sb]
    congr 1
    omega
  | relocate h0 hn hf h2 hr =>
    change need - (b.inode i).blocks ≤ b.sb.freeBlocks at hf
    simp only [ByteFs.runPlan, ByteFs.subFree, BlockPlan.free, setBlocks_sb, setFirst_sb, setFree_sb,
      markRange_sb, copyData_sb b (le_blockAddr _), copyData_inode b (apart_of_behind hc hi)]
    congr 1
    omega

theorem runPlan_inode (hs : Sound b.view) (hi : i < b.sb.inodeCount)
    (hp : Planned b.view (b.inode i) need p) (hc : CopyFits b p) {j : ℕ} (hj : j < b.sb.inodeCount) :
    (b.runPlan i p).inode j = Function.update b.inode i { b.inode i with
      firstBlock := p.first (b.inode i), blocks := p.count (b.inode i) } j := by
  have hroom : b.sb.freeBlocks + 2 + (b.inode i).blocks ≤ b.sb.totalBlocks := hs.blocks_le hi
  have htotal : b.sb.totalBlocks < 2 ^ 20 := hs.total_lt
  have hnb : b.bitmapBlocks ≤ 4096 := by
    rw [show b.bitmapBlocks = min b.sb.totalBlocks 4096 from hs.size_eq]
    exact min_le_right _ _
  cases hp with
  | keep h => exact congrFun (Function.update_eq_self i b.inode).symm j
  | shrink h =>
    have hle : b.sb.freeBlocks + ((b.inode i).blocks - need) ≤ b.sb.totalBlocks := by omega
    have hmod : need % 4294967296 = need := Nat.mod_eq_of_lt (by omega)
    simp only [ByteFs.runPlan, BlockPlan.first, BlockPlan.count, markRange_sb, hle, if_true]
    split_ifs <;> simp [hmod]
  | @fresh first h0 hn hf h2 hr =>
    have hlt : first + need ≤ b.bitmapBlocks := hr.1
    have hmod : need % 4294967296 = need := Nat.mod_eq_of_lt (by omega)
    have hmod' : first % 4294967296 = first := Nat.mod_eq_of_lt (by omega)
    simp [ByteFs.runPlan, ByteFs.subFree, BlockPlan.first, BlockPlan.count, hmod, hmod']
  | extend h0 hn hf hr =>
    have hlt : (b.inode i).firstBlock + (b.inode i).blocks + (need - (b.inode i).blocks) ≤
      b.bitmapBlocks := hr.1
    have hmod : need % 4294967296 = need := Nat.mod_eq_of_lt (by omega)
    simp [ByteFs.runPlan, ByteFs.subFree, BlockPlan.first, BlockPlan.count, hmod]
  | @relocate first h0 hn hf h2 hr =>
    have hlt : first + need ≤ b.bitmapBlocks := hr.1
    have hmod : need % 4294967296 = need := Nat.mod_eq_of_lt (by omega)
    have hmod' : first % 4294967296 = first := Nat.mod_eq_of_lt (by omega)
    by_cases hji : j = i
    · subst hji
      simp [ByteFs.runPlan, ByteFs.subFree, BlockPlan.first, BlockPlan.count, hmod, hmod',
        copyData_inode b (apart_of_behind hc hj)]
    · simp [ByteFs.runPlan, ByteFs.subFree, hji, copyData_inode b (apart_of_behind hc hj)]

theorem runPlan_bitmap (hi : i < b.sb.inodeCount) (hc : CopyFits b p) :
    (b.runPlan i p).blockBitmap = p.bitmap b.bitmapBlocks b.blockBitmap (b.inode i) := by
  cases p with
  | keep => rfl
  | shrink need =>
    simp only [ByteFs.runPlan, BlockPlan.bitmap]
    split_ifs <;> rfl
  | fresh first need => rfl
  | extend need => rfl
  | relocate first need =>
    simp only [ByteFs.runPlan, BlockPlan.bitmap, copyData_inode b (apart_of_behind hc hi)]
    rfl

theorem runPlan_rest (b : ByteFs) (i : ℕ) (p : BlockPlan) :
    (b.runPlan i p).icache = b.icache ∧ (b.runPlan i p).mountValid = b.mountValid := by
  cases p with
  | shrink need =>
    simp only [ByteFs.runPlan]
    split_ifs <;> exact ⟨rfl, rfl⟩
  | keep | fresh | extend | relocate => exact ⟨rfl, rfl⟩

theorem writeBytes_rest (b : ByteFs) (fd : ℕ) (p : BlockPlan) (buf : ℕ → UInt8) (k : ℕ) :
    (b.writeBytes fd p buf k).blockBitmap = (b.runPlan (b.fdEntries fd).ino p).blockBitmap ∧
      (b.writeBytes fd p buf k).icache = (b.runPlan (b.fdEntries fd).ino p).icache ∧
      (b.writeBytes fd p buf k).mountValid = (b.runPlan (b.fdEntries fd).ino p).mountValid := by
  unfold ByteFs.writeBytes
  dsimp only
  split_ifs <;> exact ⟨rfl, rfl, rfl⟩

theorem setSize_alike {c : ByteFs} (hi : c.inode i = t.inodes i) (hsb : c.sb = t.sb)
    (hin : ∀ j < t.sb.inodeCount, c.inode j = t.inodes j) {v : ℕ} (hv : v < 2 ^ 32) :
    (if (c.inode i).size < v then c.setSize i v else c).sb = t.sb ∧
      ∀ j < t.sb.inodeCount, (if (c.inode i).size < v then c.setSize i v else c).inode j =
        Function.update t.inodes i { t.inodes i with size := max (t.inodes i).size v } j := by
  rw [hi]
  by_cases hlt : (t.inodes i).size < v
  · rw [if_pos hlt]
    refine ⟨(setSize_sb c i v).trans hsb, fun j hj => ?_⟩
    rw [setSize_inode, hi, Nat.mod_eq_of_lt hv, max_eq_right hlt.le]
    by_cases hji : j = i
    · subst hji; rw [Function.update_self, Function.update_self]
    · rw [Function.update_of_ne hji, Function.update_of_ne hji]; exact hin j hj
  · rw [if_neg hlt]
    refine ⟨hsb, fun j hj => ?_⟩
    rw [max_eq_left (by omega), hin j hj]
    exact congrFun (Function.update_eq_self i t.inodes).symm j

theorem writeBytes_alike (hs : Sound b.view) {fd off k : ℕ} (hi : (b.fdEntries fd).ino = i)
    (hoff : (b.fdEntries fd).offset = off) (hlt : i < b.sb.inodeCount)
    (hp : Planned b.view (b.inode i) need p) (hfit : b.PlanFits (b.inode i) off p k)
    (buf : ℕ → UInt8) : Alike (b.writeBytes fd p buf k).view (writeBytes b.view fd p buf k) := by
  have hc : CopyFits b p := by
    cases p with
    | relocate first need => exact hfit.2.1
    | keep | shrink | fresh | extend => trivial
  have hsb := runPlan_sb hs hlt hp hc
  have hin := fun j => runPlan_inode (j := j) hs hlt hp hc
  have hbm := runPlan_bitmap hlt hc
  have hfirst : ((b.runPlan i p).inode i).firstBlock = p.first (b.inode i) := by
    rw [hin i hlt, Function.update_self]
  have haddr : inodeAddr b.sb.inodeCount ≤ blockAddr ((b.runPlan i p).inode i).firstBlock + off := by
    rw [hfirst]; exact hfit.1.1
  subst hi hoff
  have hput := fun j hj =>
    (putData_inode (n := k) _ (apart_of_behind haddr hj) buf).trans (hin j hj)
  obtain ⟨h1, h2⟩ := setSize_alike (i := (b.fdEntries fd).ino) (t := p.run b.view (b.fdEntries fd).ino)
    (c := (b.runPlan (b.fdEntries fd).ino p).putData
      (blockAddr ((b.runPlan (b.fdEntries fd).ino p).inode (b.fdEntries fd).ino).firstBlock +
        (b.fdEntries fd).offset) buf k)
    (hput _ hlt) ((putData_sb _ ((le_blockAddr _).trans (Nat.le_add_right _ _)) buf k).trans hsb) hput
    (v := ((b.fdEntries fd).offset + k) % 2 ^ 32) (Nat.mod_lt _ (by norm_num))
  obtain ⟨-, hnb, hfd⟩ := b.writeBytes_statics fd p buf k
  obtain ⟨hbits, hcache, hmount⟩ := writeBytes_rest b fd p buf k
  obtain ⟨hic, hm⟩ := runPlan_rest b (b.fdEntries fd).ino p
  exact ⟨h1, h2, hbits.trans hbm, hnb, hfd, hcache.trans hic, hmount.trans hm⟩

theorem write_both (hs : Sound b.view) {fd : ℤ} {buf : ℕ → UInt8} {count : ℕ}
    (hfit : b.WriteFits (.write fd buf count)) :
    Both (b.unamedfsWrite fd buf count) (unamedfsWrite b.view fd buf count) := by
  unfold ByteFs.unamedfsWrite unamedfsWrite
  refine .ite Iff.rfl (fun _ => .of_eq rfl rfl) fun hfd =>
    .ite Iff.rfl (fun _ => .of_eq rfl rfl) fun _ => .ite Iff.rfl (fun _ => .of_eq rfl rfl)
      fun hdir => .ite Iff.rfl (fun _ => .of_eq rfl rfl) fun hc => ?_
  have hf := hfit hfd (by simpa using hdir) (by omega)
  have hlt := hs.fds _ (not_badFd_used hfd)
  rw [show writePlan b.view (b.view.inodes (b.view.fdEntries fd.toNat).ino)
      (b.view.fdEntries fd.toNat).offset count =
    writePlan b.view (b.inode (b.fdEntries fd.toNat).ino) (b.fdEntries fd.toNat).offset count from rfl]
  revert hf
  cases hp : writePlan b.view (b.inode (b.fdEntries fd.toNat).ino) (b.fdEntries fd.toNat).offset
      count with
  | none => exact fun _ => .of_eq rfl rfl
  | some pk => exact fun hf => ⟨writeBytes_alike hs rfl rfl hlt (writePlan_some hp).1 hf buf, rfl⟩

end Writes

/-! ### Runs -/

/-- **One call.** On a device with a numbered table and a sound allocator, a call whose write fits
does to the records what the call of the file system does. -/
theorem view_step {b : ByteFs} (hn : Numbered b.view) (hs : Sound b.view) {op : Op}
    (hfit : b.WriteFits op) : Alike (b.step op).view (step b.view op) := by
  cases op with
  | create path => exact (create_both hn path).state
  | mkdir path => exact (mkdir_both hn path).state
  | open_ path flags => exact .of_eq (open_view b path flags)
  | close fd => exact .of_eq (close_view b fd)
  | read fd count => exact .of_eq (read_view b fd count)
  | write fd buf count => exact (write_both hs hfit).state
  | lseek fd offset whence => exact .of_eq (lseek_view b fd offset whence)
  | unlink path => exact (unlink_both b path).state
  | rmdir path => exact (rmdir_both b path).state

theorem invariants_reach {m : Mem} {size : ℕ} {b₀ b : ByteFs} (hsize : size < 2 ^ 32)
    (h0 : formatMountBytes m size = some b₀) (h : Reach ByteFs.WriteFits ByteFs.step b₀ b) :
    DirTree b.view ∧ Sound b.view := by
  obtain ⟨d, hd⟩ := formatMountBytes_view hsize h0
  refine h.inv (I := fun b => DirTree b.view ∧ Sound b.view)
    ⟨namespace_init hd, (alloc_init hsize hd).1⟩ ?_
  rintro b op ⟨ht, hs⟩ hok
  have hn := numbered_of_dirTree ht
  have ha := view_step hn hs hok
  exact ⟨(namespace_step ht op).congr ha.sameTree, ha.sound (hs.effect hn (step_effect _ op))⟩

/-- **The device keeps the invariants of the file system.** In every state reached from a formatted
and mounted device by calls whose writes fit, the inode records are a directory tree and the
allocator is sound. -/
theorem device_invariants {m : Mem} {size : ℕ} {b₀ b : ByteFs} (hsize : size < 2 ^ 32)
    (h0 : formatMountBytes m size = some b₀) (h : Reach ByteFs.WriteFits ByteFs.step b₀ b) :
    DirTree b.view ∧ Sound b.view := invariants_reach hsize h0 h

theorem device_invariants_six :
    DirTree ((openFile.foldl ByteFs.step sixBlocks).step (.write 0 (fun _ => 7) 1)).view ∧
      Sound ((openFile.foldl ByteFs.step sixBlocks).step (.write 0 (fun _ => 7) 1)).view :=
  device_invariants (by decide : 4096 * 6 < 2 ^ 32) (Option.some_get _).symm
    (.next _ (Reach.foldl openFile .init ⟨trivial, trivial, trivial⟩) (by decide +kernel))

end Kerneloid.UnnamedFS.Simulation
