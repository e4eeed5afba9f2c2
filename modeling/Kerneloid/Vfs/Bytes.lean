import Kerneloid.UnnamedFS.Components
import Kerneloid.UnnamedFS.Simulation
import Kerneloid.Vfs.Effects

/-! # The VFS on the device

The VFS over the bytes of the device. The VFS reads the device through `ByteFs.view`, and stores to
it in three places only: `unnamedfs_vop_write`, the record of a new inode, and the call of the file
system below with which a removal ends. So a call is that of `Ops` on what the bytes stand for, with
these stores made to the bytes.

A write may go over inode records, as it may in `Layout`. As long as it spares those that are
counted (`WriteSpares`), every call does to the records and to the state of the VFS what `vstep`
does (`step_alike`), and so the invariants of `vstep` hold of the bytes (`reach_inv`). -/

namespace Kerneloid.Vfs.Bytes

open Lib.Bytes Lib.Runs UnnamedFS.Types UnnamedFS.Ops UnnamedFS.Slots
open UnnamedFS.Alloc UnnamedFS.Components UnnamedFS.Effects UnnamedFS.Layout UnnamedFS.Decode
open UnnamedFS.Simulation UnnamedFS.Path Types Vfs.Path Walk Write Ops Effects

/-! ### Stores -/

/-- A branch of `unnamedfs_vop_write` carried out on inode `i`. -/
def vopRun (b : ByteFs) (i : ℕ) : VopPlan → ByteFs
  | .keep => b
  | .fresh first need taken => ((b.setFirst i first).setBlocks i need).subFree taken
  | .extend need taken => (b.setBlocks i need).subFree taken
  | .relocate first need taken =>
    let n := b.inode i
    let b := b.copyData (blockAddr first) (blockAddr n.firstBlock) n.size
    ((b.setFirst i first).setBlocks i need).subFree taken

def vopWriteBytes (b : ByteFs) (i off : ℕ) (buf : ℕ → UInt8) (count : ℕ) : ByteFs × Option ℕ :=
  if (b.inode i).isDir then (b, none)
  else
    match vopPlan b.view (b.inode i) off count with
    | none => (b, none)
    | some (p, count) =>
      let b := vopRun b i p
      match vopClamp (b.inode i) off count with
      | none => (b, none)
      | some k =>
        let b := b.putData (blockAddr (b.inode i).firstBlock + off) buf k
        let newEnd := (off + k) % 2 ^ 32
        (if (b.inode i).size < newEnd then b.setSize i newEnd else b, some k)

/-- The record of a new inode in slot `j`; the table is counted up if that is its end. -/
def addRecord (b : ByteFs) (j : ℕ) (n : Inode) : ByteFs :=
  let c := b.fillInode j n.flags n.parent n.name
  if j = b.sb.inodeCount then { c with dev := c.dev.put32 16 (j + 1) } else c

/-! ### The system -/

/-- The state of the VFS over the bytes of the device, which its file system is read from. -/
structure ByteVfs where
  dev : ByteFs
  vfs : VState
  fs_eq : vfs.fs = dev.view

/-- The state `v` of the VFS over the device `b`. -/
def onDevice (b : ByteFs) (v : VState) : ByteVfs := ⟨b, { v with fs := b.view }, rfl⟩

theorem onDevice_vfs {b : ByteFs} {v : VState} (h : v.fs = b.view) : (onDevice b v).vfs = v := by
  cases v
  subst h
  rfl

theorem onDevice_self (w : ByteVfs) : onDevice w.dev w.vfs = w := by
  obtain ⟨b, v, h⟩ := w
  simp only [onDevice, ← h]

def vfsWriteBytes (w : ByteVfs) (fd : ℤ) (buf : ℕ → UInt8) (count : ℕ) : ByteVfs × ℤ :=
  if VState.badFd w.vfs fd then (w, -1)
  else
    match VState.fileInode w.vfs fd.toNat with
    | none => (w, -1)
    | some i =>
      let off := (w.vfs.fileTable fd.toNat).offset
      match vopWriteBytes w.dev i off buf count with
      | (b, none) => (onDevice b w.vfs, -1)
      | (b, some k) =>
        let v := VState.setOffset w.vfs fd.toNat ((off + k) % 2 ^ 32)
        (onDevice b (if 0 < toInt32 k then v.dropRdcache else v), toInt32 k)

/-- A call that has made an inode if it returned 0, in the slot picked. -/
def withNew (w : ByteVfs) (slot : Fs → Option ℕ) (r : VState × ℤ) : ByteVfs :=
  match slot w.dev.view with
  | some j => onDevice (if r.2 = 0 then addRecord w.dev j (r.1.fs.inodes j) else w.dev) r.1
  | none => onDevice w.dev r.1

/-- A call that has removed an inode for the target if it returned 0. -/
def withRemoval (w : ByteVfs) (path : CStr) (r : VState × ℤ) : ByteVfs :=
  match removalTarget w.vfs path with
  | some t =>
    onDevice (if r.2 = 0 then w.dev.step (removeOp w.dev.view t) else w.dev.keepDevice r.1.fs) r.1
  | none => onDevice (w.dev.keepDevice r.1.fs) r.1

def ByteVfs.step (w : ByteVfs) : VOp → ByteVfs
  | .write fd buf count => (vfsWriteBytes w fd buf count).1
  | .mkdir path => withNew w mkdirSlot (vfsMkdir w.vfs path)
  | .create dir name => withNew w createSlot (vopCreate w.vfs dir name)
  | .unlink path => withRemoval w path (vfsUnlink w.vfs path)
  | .rmdir path => withRemoval w path (vfsRmdir w.vfs path)
  | .fs op => onDevice (w.dev.step op) w.vfs
  -- the other calls store nothing on the device
  | op => onDevice w.dev (vstep w.vfs op)

/-- The RAM disk, formatted and mounted, with the first four directories. -/
def ramBytes : ByteFs :=
  [Op.mkdir (cstr "/bin"), .mkdir (cstr "/etc"), .mkdir (cstr "/home"), .mkdir (cstr "/tmp")].foldl
    ByteFs.step ((formatMountBytes (fun _ => 0) 65536).get (by decide +kernel))

def initBytes : ByteVfs := onDevice ramBytes vfsInit

/-! ### Writes that spare the records -/

/-- The bytes `[a, a + n)` are on the device and in no record that is counted, nor in record `i`. -/
def Spares (b : ByteFs) (i a n : ℕ) : Prop :=
  (n = 0 ∨ a + n ≤ b.deviceSize) ∧ ∀ j < max b.sb.inodeCount (i + 1), Apart j a n

/-- The copy of a relocation spares the records. -/
def CopySpares (b : ByteFs) (i : ℕ) : VopPlan → Prop
  | .relocate first _ _ => Spares b i (blockAddr first) (b.inode i).size
  | _ => True

/-- So do the bytes written. -/
def PutSpares (b : ByteFs) (i off : ℕ) (p : VopPlan) (k : ℕ) : Prop :=
  ∀ m ∈ vopClamp ((p.run b.view i).inodes i) off k,
    Spares b i (blockAddr (p.first (b.inode i)) + off) m

/-- **The guard**: what a write copies, by the branch it takes, spares the inode records. -/
def WriteSpares (w : ByteVfs) : VOp → Prop
  | .write fd _ count => ¬ VState.badFd w.vfs fd → ∀ i ∈ VState.fileInode w.vfs fd.toNat,
      (w.dev.inode i).isDir = false →
      ∀ pk ∈ vopPlan w.dev.view (w.dev.inode i) (w.vfs.fileTable fd.toNat).offset count,
        CopySpares w.dev i pk.1 ∧
          PutSpares w.dev i (w.vfs.fileTable fd.toNat).offset pk.1 pk.2
  | .fs op => w.dev.WriteFits op
  | _ => True

/-- The calls are those of the VFS, and the `create` vnode operation. -/
def VfsCall (_ : VState) : VOp → Prop
  | .fs _ => False
  | _ => True

instance (v : VState) (op : VOp) : Decidable (VfsCall v op) := by
  cases op <;> unfold VfsCall <;> infer_instance

/-- The guard of the runs: `ok` of the call, and a write spares the records. -/
def Sparing (ok : VState → VOp → Prop) (w : ByteVfs) (op : VOp) : Prop :=
  WriteSpares w op ∧ ok w.vfs op

instance (b : ByteFs) (i a n : ℕ) : Decidable (Spares b i a n) := by
  unfold Spares; infer_instance

instance (b : ByteFs) (i : ℕ) (p : VopPlan) : Decidable (CopySpares b i p) := by
  cases p <;> unfold CopySpares <;> infer_instance

instance (b : ByteFs) (i off : ℕ) (p : VopPlan) (k : ℕ) : Decidable (PutSpares b i off p k) := by
  unfold PutSpares; infer_instance

instance (w : ByteVfs) (op : VOp) : Decidable (WriteSpares w op) := by
  cases op <;> unfold WriteSpares <;> infer_instance

instance (ok : VState → VOp → Prop) [∀ v op, Decidable (ok v op)] (w : ByteVfs) (op : VOp) :
    Decidable (Sparing ok w op) := by unfold Sparing; infer_instance

variable {b : ByteFs} {w : ByteVfs} {i j off count k : ℕ} {p : VopPlan}

theorem vopPlan_lt (h : vopPlan b.view (b.inode i) off count = some (p, k)) :
    p.first (b.inode i) < 2 ^ 32 ∧ p.count (b.inode i) < 2 ^ 32 := by
  have hfirst : (b.inode i).firstBlock < 2 ^ 32 := rd32_lt _ _
  have hblocks : (b.inode i).blocks < 2 ^ 32 := rd32_lt _ _
  have htotal : b.view.sb.totalBlocks < 2 ^ 32 := rd32_lt _ _
  have hneed : ∀ n, vopNeed n < 2 ^ 32 := fun n => by unfold vopNeed; omega
  have hfind : ∀ {n f}, vopFind b.view n = some f → f < 2 ^ 32 := fun hf => by
    have := (vopFind_some hf).2.1
    omega
  unfold vopPlan at h
  cases hf : vopFind b.view (vopNeed ((off + count) % 2 ^ 32)) with
  | some f =>
    simp only [hf] at h
    split_ifs at h <;> cases h
    · exact ⟨hfirst, hblocks⟩
    · exact ⟨hfirst, hblocks⟩
    · exact ⟨hfirst, hblocks⟩
    · exact ⟨hfind hf, hneed _⟩
    · exact ⟨hfirst, hneed _⟩
    · exact ⟨hfind hf, hneed _⟩
  | none =>
    simp only [hf] at h
    split_ifs at h
    · cases h; exact ⟨hfirst, hblocks⟩
    · cases h; exact ⟨hfirst, hblocks⟩
    · cases h; exact ⟨hfirst, hblocks⟩
    · obtain ⟨f, hf', he⟩ := Option.map_eq_some_iff.mp h
      cases he
      exact ⟨hfind hf', hneed _⟩
    · cases h; exact ⟨hfirst, hneed _⟩
    · obtain ⟨f, hf', he⟩ := Option.map_eq_some_iff.mp h
      cases he
      exact ⟨hfind hf', hneed _⟩

theorem vopRun_sb (b : ByteFs) (i : ℕ) (p : VopPlan) :
    (vopRun b i p).sb = { b.sb with freeBlocks := p.free b.sb.freeBlocks } := by
  cases p with
  | keep => rfl
  | fresh first need taken => simp [vopRun, ByteFs.subFree, VopPlan.free]
  | extend need taken => simp [vopRun, ByteFs.subFree, VopPlan.free]
  | relocate first need taken =>
    simp [vopRun, ByteFs.subFree, VopPlan.free, copyData_sb b (le_blockAddr first)]

theorem vopRun_inode (hlt : p.first (b.inode i) < 2 ^ 32 ∧ p.count (b.inode i) < 2 ^ 32)
    (hc : CopySpares b i p) (hj : j < max b.sb.inodeCount (i + 1)) :
    (vopRun b i p).inode j = (p.run b.view i).inodes j := by
  obtain ⟨h1, h2⟩ := hlt
  change _ = Function.update b.inode i { b.inode i with
    firstBlock := p.first (b.inode i), blocks := p.count (b.inode i) } j
  cases p with
  | keep => exact congrFun (Function.update_eq_self i b.inode).symm j
  | fresh first need taken =>
    have hfirst : first % 4294967296 = first := Nat.mod_eq_of_lt h1
    have hneed : need % 4294967296 = need := Nat.mod_eq_of_lt h2
    simp [vopRun, ByteFs.subFree, VopPlan.first, VopPlan.count, hfirst, hneed]
  | extend need taken =>
    have hneed : need % 4294967296 = need := Nat.mod_eq_of_lt h2
    simp [vopRun, ByteFs.subFree, VopPlan.first, VopPlan.count, hneed]
  | relocate first need taken =>
    have hfirst : first % 4294967296 = first := Nat.mod_eq_of_lt h1
    have hneed : need % 4294967296 = need := Nat.mod_eq_of_lt h2
    have hcopy := copyData_inode b (hc.2 j hj) (blockAddr (b.inode i).firstBlock)
    by_cases hji : j = i
    · subst hji
      simp [vopRun, ByteFs.subFree, VopPlan.first, VopPlan.count, hfirst, hneed, hcopy]
    · simp [vopRun, ByteFs.subFree, hji, hcopy]

theorem vopRun_rest (b : ByteFs) (i : ℕ) (p : VopPlan) :
    (vopRun b i p).blockBitmap = b.blockBitmap ∧ (vopRun b i p).bitmapBlocks = b.bitmapBlocks ∧
      (vopRun b i p).fdEntries = b.fdEntries ∧ (vopRun b i p).icache = b.icache ∧
      (vopRun b i p).mountValid = b.mountValid := by
  cases p <;> exact ⟨rfl, rfl, rfl, rfl, rfl⟩

/-- **`unnamedfs_vop_write`** does to the records what it does in `Write`, and returns the same. -/
theorem vopWrite_both (buf : ℕ → UInt8)
    (hok : (b.inode i).isDir = false → ∀ pk ∈ vopPlan b.view (b.inode i) off count,
      CopySpares b i pk.1 ∧ PutSpares b i off pk.1 pk.2) :
    Both (vopWriteBytes b i off buf count) (vopWrite b.view i off buf count) := by
  unfold vopWriteBytes vopWrite
  refine .ite Iff.rfl (fun _ => .of_eq rfl rfl) fun hdir => ?_
  cases hp : vopPlan b.view (b.inode i) off count with
  | none =>
    rw [show vopPlan b.view (b.view.inodes i) off count = none from hp]
    exact .of_eq rfl rfl
  | some pk =>
    obtain ⟨p, n⟩ := pk
    obtain ⟨hcopy, hput⟩ := hok (by simpa using hdir) (p, n) hp
    rw [show vopPlan b.view (b.view.inodes i) off count = some (p, n) from hp]
    have hin := fun j => vopRun_inode (j := j) (vopPlan_lt hp) hcopy
    have hself := hin i (by omega)
    obtain ⟨hbm, hnb, hfd, hic, hm⟩ := vopRun_rest b i p
    dsimp only at hput ⊢
    rw [hself]
    cases hk : vopClamp ((p.run b.view i).inodes i) off n with
    | none =>
      exact ⟨⟨vopRun_sb b i p, fun j hj => hin j (lt_max_of_lt_left hj), hbm, hnb, hfd, hic, hm⟩, rfl⟩
    | some k =>
      have hfirst : ((p.run b.view i).inodes i).firstBlock = p.first (b.inode i) := by
        simp [VopPlan.run]; rfl
      have hspare := (hput k hk).2
      rw [← hfirst] at hspare
      have hin' := fun j hj =>
        (putData_inode (vopRun b i p) (hspare j hj) buf).trans (hin j hj)
      obtain ⟨h1, h2⟩ := setSize_alike (t := p.run b.view i) (hin' i (by omega))
        ((putData_sb _ ((le_blockAddr _).trans (Nat.le_add_right _ _)) buf k).trans (vopRun_sb b i p))
        (fun j hj => hin' j (lt_max_of_lt_left hj)) (v := (off + k) % 2 ^ 32)
        (Nat.mod_lt _ (by norm_num))
      refine ⟨⟨h1, h2, ?_, ?_, ?_, ?_, ?_⟩, rfl⟩
      all_goals dsimp only; split_ifs
      all_goals first | exact hbm | exact hnb | exact hfd | exact hic | exact hm

theorem vfsWrite_alike {fd : ℤ} {buf : ℕ → UInt8} (hok : WriteSpares w (.write fd buf count)) :
    ∃ s, Alike s (vfsWrite w.vfs fd buf count).1.fs ∧
      (vfsWriteBytes w fd buf count).1.vfs = { (vfsWrite w.vfs fd buf count).1 with fs := s } ∧
      (vfsWriteBytes w fd buf count).2 = (vfsWrite w.vfs fd buf count).2 := by
  have hsame : ∃ s, Alike s w.vfs.fs ∧ w.vfs = { w.vfs with fs := s } ∧ (-1 : ℤ) = -1 :=
    ⟨w.vfs.fs, .of_eq rfl, rfl, rfl⟩
  unfold vfsWriteBytes vfsWrite
  by_cases hfd : VState.badFd w.vfs fd
  · rw [if_pos hfd, if_pos hfd]; exact hsame
  rw [if_neg hfd, if_neg hfd]
  cases hi : VState.fileInode w.vfs fd.toNat with
  | none => exact hsame
  | some i =>
    have hboth := vopWrite_both buf (hok hfd i hi)
    rw [← w.fs_eq] at hboth
    obtain ⟨hstate, hvalue⟩ := hboth
    revert hstate hvalue
    dsimp only
    generalize vopWriteBytes w.dev i _ buf count = x
    generalize vopWrite w.vfs.fs i _ buf count = y
    obtain ⟨c, o⟩ := x
    obtain ⟨s, o'⟩ := y
    rintro hstate rfl
    cases o with
    | none => exact ⟨c.view, hstate, rfl, rfl⟩
    | some k =>
      refine ⟨c.view, ?_, ?_, rfl⟩
      · dsimp only
        split_ifs <;> exact hstate
      · dsimp only [onDevice]
        split_ifs <;> rfl

theorem vopRun_data (b : ByteFs) (p : VopPlan) {x : ℕ} (hx : ¬ OwnField i (8192 + x)) :
    (vopRun b i p).view.data x = (p.run b.view i).data x := by
  cases p with
  | keep => rfl
  | fresh first need taken =>
    exact (setFree_data _ _ x).trans ((setBlocks_data _ _ hx).trans (setFirst_data _ _ hx))
  | extend need taken => exact (setFree_data _ _ x).trans (setBlocks_data _ _ hx)
  | relocate first need taken =>
    refine (setFree_data _ _ x).trans ((setBlocks_data _ _ hx).trans ((setFirst_data _ _ hx).trans ?_))
    exact copyData_data b first (b.inode i).firstBlock (b.inode i).size x

/-- Behind its fields, a write leaves the bytes that it leaves in `Write`. -/
theorem vopWrite_data (buf : ℕ → UInt8)
    (hok : (b.inode i).isDir = false → ∀ pk ∈ vopPlan b.view (b.inode i) off count,
      CopySpares b i pk.1) {x : ℕ} (hx : ¬ OwnField i (8192 + x)) :
    (vopWriteBytes b i off buf count).1.view.data x = (vopWrite b.view i off buf count).1.data x := by
  unfold vopWriteBytes vopWrite
  by_cases hdir : (b.inode i).isDir = true
  · rw [if_pos hdir, if_pos (show (b.view.inodes i).isDir = true from hdir)]
  rw [if_neg hdir, if_neg (show ¬ (b.view.inodes i).isDir = true from hdir)]
  cases hp : vopPlan b.view (b.inode i) off count with
  | none => rw [show vopPlan b.view (b.view.inodes i) off count = none from hp]
  | some pk =>
    obtain ⟨p, n⟩ := pk
    rw [show vopPlan b.view (b.view.inodes i) off count = some (p, n) from hp]
    have hself := vopRun_inode (j := i) (vopPlan_lt hp) (hok (by simpa using hdir) (p, n) hp) (by omega)
    dsimp only
    rw [hself]
    cases vopClamp ((p.run b.view i).inodes i) off n with
    | none => exact vopRun_data b p hx
    | some k =>
      have hput := putData_data (vopRun b i p) ((p.run b.view i).inodes i).firstBlock off buf k x
      have hstore : store (vopRun b i p).view.data (((p.run b.view i).inodes i).firstBlock * 4096 + off)
          buf k x = (vopStore (p.run b.view i) i off buf k).data x := by
        unfold vopStore store
        dsimp only
        rw [vopRun_data b p hx]
      dsimp only
      split_ifs
      · exact (setSize_data _ _ hx).trans (hput.trans hstore)
      · exact hput.trans hstore

/-! ### New inodes and removals -/

theorem addRecord_alike {flags par : ℕ} {name : CStr} (hj : FreeSlot b.view j)
    (hcount : b.sb.inodeCount ≤ 256) (hf : flags = 1 ∨ flags = 2) (hp : par < 2 ^ 32)
    (hn : name.length ≤ 63) (h0 : ∀ c ∈ name, c ≠ 0) :
    Alike (addRecord b j ⟨j, 0, flags, par, 0, 0, name⟩).view
      (addInode b.view b.icache j ⟨j, 0, flags, par, 0, 0, name⟩) := by
  have hle : j ≤ b.sb.inodeCount := freeSlot_le hj
  have hin : ∀ i, (b.fillInode j flags par name).inode i =
      Function.update b.inode j ⟨j, 0, flags, par, 0, 0, name⟩ i := fun i => by
    by_cases hij : i = j
    · subst hij
      rw [Function.update_self, fillInode_self b (by omega) (by omega) hp hn h0]
    · rw [Function.update_of_ne hij, fillInode_other b j flags par hn hij]
  have hsb := fillInode_sb b j flags par hn
  unfold addRecord
  dsimp only
  split_ifs with hend
  · refine ⟨?_, fun i _ => (congrFun (putCount_inode _ _) i).trans (hin i), rfl, rfl, rfl, rfl, rfl⟩
    refine (putCount_sb _ _).trans ?_
    rw [hsb, Nat.mod_eq_of_lt (by omega)]
    simp only [addInode]
    rw [max_eq_right (by change b.sb.inodeCount ≤ _; omega)]
    rfl
  · refine ⟨?_, fun i _ => hin i, rfl, rfl, rfl, rfl, rfl⟩
    refine hsb.trans ?_
    simp only [addInode]
    rw [max_eq_left (by change _ ≤ b.sb.inodeCount; omega)]
    rfl

/-- What a creation does to the file system: nothing, or a new record in the slot picked. -/
inductive Makes (s : Fs) (slot : Fs → Option ℕ) (r : VState × ℤ) : Prop
  | failed (hrc : r.2 = -1) (hfs : r.1.fs = s)
  | made {j flags d : ℕ} {name : CStr} (hrc : r.2 = 0) (hslot : slot s = some j)
      (hj : FreeSlot s j) (hf : flags = 1 ∨ flags = 2)
      (hfs : r.1.fs = addInode s s.icache j (newInode s j flags d (chars name)))

theorem addedState_fs {u v : VState} (hfs : u.fs = v.fs) (j flags d : ℕ) (name : CStr) :
    (addedState u j flags d name).fs =
      addInode v.fs v.fs.icache j (newInode v.fs j flags d name) := by
  rw [← hfs]
  rfl

theorem mkdir_makes {v : VState} (hn : Numbered v.fs) (path : CStr) :
    Makes v.fs mkdirSlot (vfsMkdir v path) := by
  have hm := vfsMkdir_mkdir hn path
  have hc1 := vfsLookup_calm hn (splitLast (chars path)).1
  have hc2 := vfsLookup_calm (by rw [hc1.fs]; exact hn) (chars path)
    (v := (vfsLookup v (splitLast (chars path)).1).1)
  generalize vfsMkdir v path = r at hm ⊢
  cases hm with
  | early => exact .failed rfl rfl
  | noParent hlen => exact .failed rfl hc1.fs
  | failed hlen h1 ht hw =>
    rw [h1] at hc1 hc2
    exact .failed rfl (hw.fs.trans (hc2.fs.trans hc1.fs))
  | @made v1 v2 u parent d j name hlen h1 h2 ht hd hl hw hj hlt =>
    rw [h1] at hc1 hc2
    rw [h2] at hc2
    exact .made rfl hj (mkdirSlot_free hj) (Or.inr rfl)
      (addedState_fs (hw.fs.trans (hc2.fs.trans hc1.fs)) j 2 d (chars name))

theorem create_makes {v : VState} (hn : Numbered v.fs) (dir : ℕ) (name : CStr) :
    Makes v.fs createSlot (vopCreate v dir name) := by
  unfold vopCreate
  rcases vopNew_cases hn dir name 1 createSlot with
    ⟨u, hu, hm⟩ | ⟨u, d, j, hu, -, -, -, -, hj, hm⟩
  · rw [hm]; exact .failed rfl hu.fs
  · rw [hm]
    exact .made rfl hj (createSlot_free hj) (Or.inl rfl) (addedState_fs hu.fs j 1 d (chars name))

theorem withNew_alike (hn : Numbered w.vfs.fs) {slot : Fs → Option ℕ} {r : VState × ℤ}
    (h : Makes w.vfs.fs slot r) : Alike (withNew w slot r).dev.view r.1.fs := by
  rw [w.fs_eq] at h hn
  unfold withNew
  cases h with
  | failed hrc hfs =>
    rw [hfs]
    split
    · rw [if_neg (by rw [hrc]; decide)]; exact .of_eq rfl
    · exact .of_eq rfl
  | @made j flags d name hrc hslot hj hf hfs =>
    rw [hslot]
    dsimp only
    rw [if_pos hrc, hfs]
    have hnew : (addInode w.dev.view w.dev.view.icache j
        (newInode w.dev.view j flags d (chars name))).inodes j =
      newInode w.dev.view j flags d (chars name) := Function.update_self _ _ _
    rw [hnew]
    have hpar : (if d = j then j else (w.dev.view.inodes d).ino) < 2 ^ 32 := by
      have := freeSlot_le hj
      have := hn.count_le
      split_ifs
      · omega
      · exact rd32_lt _ _
    exact addRecord_alike hj hn.count_le hf hpar (List.length_take_le _ _)
      fun c hc => chars_ne_zero name c (List.mem_of_mem_take hc)

theorem withRemoval_alike (hn : Numbered w.vfs.fs) {path : CStr} {r : VState × ℤ}
    (h : Removal w.vfs path r) : Alike (withRemoval w path r).dev.view r.1.fs := by
  have hnorm := (lookNorm_calm hn path).fs
  have hparent := (lookParent_calm hn path).fs
  -- a removal that failed leaves all but `icache` alone
  have hkeep : ∀ u : VState, ∀ ic, u.fs = { w.vfs.fs with icache := ic } →
      Alike (w.dev.keepDevice u.fs).view u.fs := fun u ic hu => by
    rw [hu, w.fs_eq]
    exact .of_eq rfl
  have hfail : ∀ u : VState, ∀ ic, u.fs = { w.vfs.fs with icache := ic } →
      Alike (withRemoval w path (u, -1)).dev.view u.fs := fun u ic hu => by
    unfold withRemoval
    split
    · exact hkeep u ic hu
    · exact hkeep u ic hu
  cases h with
  | early => exact hfail _ w.vfs.fs.icache rfl
  | noTarget => exact hfail _ w.vfs.fs.icache hnorm
  | noParent => exact hfail _ w.vfs.fs.icache hparent
  | failed hw rd ic =>
    rw [hw] at hparent
    exact hfail _ ic (by dsimp only; rw [hparent])
  | @removed u hw rd target t r htarget ht hr hz =>
    rw [hw] at hparent
    unfold withRemoval
    rw [ht]
    dsimp only
    rw [if_pos rfl]
    change Alike _ (UnnamedFS.Ops.step u.fs (removeOp u.fs t))
    rw [hparent, w.fs_eq]
    unfold removeOp
    split_ifs
    · exact (rmdir_both w.dev _).state
    · exact (unlink_both w.dev _).state

theorem withNew_vfs (w : ByteVfs) (slot : Fs → Option ℕ) (r : VState × ℤ) :
    (withNew w slot r).vfs = { r.1 with fs := (withNew w slot r).dev.view } := by
  unfold withNew
  split <;> rfl

theorem withRemoval_vfs (w : ByteVfs) (path : CStr) (r : VState × ℤ) :
    (withRemoval w path r).vfs = { r.1 with fs := (withRemoval w path r).dev.view } := by
  unfold withRemoval
  split <;> rfl

/-! ### Every call -/

/-- **One call** does to the records and to the state of the VFS what `vstep` does. -/
theorem step_alike (hn : Numbered w.vfs.fs) {op : VOp} (hok : WriteSpares w op)
    (hs : ∀ o, op = .fs o → Sound w.vfs.fs) :
    ∃ s, Alike s (vstep w.vfs op).fs ∧ (w.step op).vfs = { vstep w.vfs op with fs := s } := by
  have hread : ∀ v : VState, v.fs = w.vfs.fs → ∃ s, Alike s v.fs ∧
      (onDevice w.dev v).vfs = { v with fs := s } := fun v hv =>
    ⟨_, .of_eq (by rw [hv, w.fs_eq]), rfl⟩
  cases op with
  | lookup path => exact hread _ (vfsLookup_calm hn path).fs
  | stat path => exact hread _ (vfsLookup_calm hn path).fs
  | open_ path mode => exact hread _ (vfsOpen_fs hn path mode)
  | close fd => exact hread _ (vfsClose_files w.vfs fd).calm.fs
  | read fd count => exact hread _ (vfsRead_files w.vfs fd count).calm.fs
  | write fd buf count =>
    obtain ⟨s, ha, hv, -⟩ := vfsWrite_alike hok
    exact ⟨s, ha, hv⟩
  | lseek fd offset whence => exact hread _ (vfsLseek_files w.vfs fd offset whence).calm.fs
  | readdir fd size => exact hread _ (vfsReaddir_calm w.vfs fd size).fs
  | mkdir path => exact ⟨_, withNew_alike hn (mkdir_makes hn path), withNew_vfs _ _ _⟩
  | unlink path =>
    exact ⟨_, withRemoval_alike hn (vfsRemove_removal hn false path), withRemoval_vfs _ _ _⟩
  | rmdir path =>
    exact ⟨_, withRemoval_alike hn (vfsRemove_removal hn true path), withRemoval_vfs _ _ _⟩
  | create dir name => exact ⟨_, withNew_alike hn (create_makes hn dir name), withNew_vfs _ _ _⟩
  | fs op =>
    have hsound := hs op rfl
    rw [w.fs_eq] at hn hsound
    have ha := view_step hn hsound hok
    rw [← w.fs_eq] at ha
    exact ⟨_, ha, rfl⟩

theorem init_alike : Alike initBytes.vfs.fs vfsInit.fs := by
  refine ⟨by decide +kernel, fun i hi => ?_, rfl, by decide +kernel, rfl, by decide +kernel,
    by decide +kernel⟩
  have hlt : i < 5 := hi
  interval_cases i <;> decide +kernel

/-- **Invariants of the calls hold of the bytes**, if they look at nothing that differs and the runs
spare the records. -/
theorem reach_inv {ok : VState → VOp → Prop} {I : VState → Prop} (hnum : ∀ v, I v → Numbered v.fs)
    (halike : ∀ v s, Alike s v.fs → I v → I { v with fs := s })
    (hsound : ∀ v o, ok v (.fs o) → I v → Sound v.fs) (h0 : I vfsInit)
    (hstep : ∀ v op, ok v op → I v → I (vstep v op))
    (h : Reach (Sparing ok) ByteVfs.step initBytes w) : I w.vfs := by
  refine h.inv (I := fun w => I w.vfs) (halike vfsInit _ init_alike h0) fun w op hw hok => ?_
  obtain ⟨s, ha, hv⟩ := step_alike (hnum _ hw) hok.1 fun o ho => hsound w.vfs o (ho ▸ hok.2) hw
  rw [hv]
  exact halike _ s ha (hstep w.vfs op hok.2 hw)

end Kerneloid.Vfs.Bytes
