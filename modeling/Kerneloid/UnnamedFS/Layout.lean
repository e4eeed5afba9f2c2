import Kerneloid.Lib.Footprint
import Kerneloid.Lib.Runs
import Kerneloid.UnnamedFS.Effects

/-! # The layout on the device

UnnamedFS over the bytes of the device. The superblock is at 0, inode `i` at `4096 + 4104 * i`
(`struct unamedfs_inode` is packed and has 24 + 64 + 4016 = 4104 bytes), the data of block `b` at
`8192 + 4096 * b`. The three areas overlap: the table of `c` inodes ends at `4096 + 4104 * c`, which
is behind the start of block 2 from the third inode on, and the last two of the `total_blocks`
blocks lie behind the end of the device.

`ByteFs.view` decodes the bytes into the file system of `Types`; what a function reads, it reads
through it. The stores are those of the source, in its order, and are logged. -/

namespace Kerneloid.UnnamedFS.Layout

open Lib.Bytes Lib.Footprint Lib.Runs Types Bitmap UnnamedFS.Path Lookup Blocks Ops Effects

variable {b : ByteFs} {p : BlockPlan} {count : ℕ}

/-- `&current_mount.inodes[i]`. -/
def inodeAddr (i : ℕ) : ℕ := 4096 + 4104 * i

/-- `current_mount.data_blocks + b * UNAMEDFS_BLOCK_SIZE`. -/
def blockAddr (b : ℕ) : ℕ := 8192 + 4096 * b

theorem le_blockAddr (b : ℕ) : 24 ≤ blockAddr b := by unfold blockAddr; omega

def readSb (m : Mem) : Superblock :=
  ⟨rd32 m 0, rd32 m 4, rd32 m 8, rd32 m 12, rd32 m 16, rd32 m 20⟩

/-- The string in a field of `n` bytes. -/
def readStr (m : Mem) (a n : ℕ) : CStr := ((List.range n).map fun k => m (a + k)).takeWhile (· ≠ 0)

/-- The inode record at `a`. -/
def readInode (m : Mem) (a : ℕ) : Inode :=
  ⟨rd32 m a, rd32 m (a + 4), rd32 m (a + 8), rd32 m (a + 12), rd32 m (a + 16), rd32 m (a + 20),
    readStr m (a + 24) 64⟩

/-- The mounted device: the memory from `device` on, and the statics of `unnamedfs.c`. -/
structure ByteFs where
  dev : LogMem
  deviceSize : ℕ
  blockBitmap : BlockBitmap
  bitmapBlocks : ℕ
  fdEntries : ℕ → FdEntry
  icache : InodeCache
  mountValid : Bool

namespace ByteFs

def sb (b : ByteFs) : Superblock := readSb b.dev.mem

def inode (b : ByteFs) (i : ℕ) : Inode := readInode b.dev.mem (inodeAddr i)

/-- What the bytes stand for. -/
def view (b : ByteFs) : Fs where
  sb := b.sb
  inodes := b.inode
  data := fun a => b.dev.mem (8192 + a)
  blockBitmap := b.blockBitmap
  bitmapBlocks := b.bitmapBlocks
  fdEntries := b.fdEntries
  icache := b.icache
  mountValid := b.mountValid

/-! ### Stores -/

def setFree (b : ByteFs) (v : ℕ) : ByteFs := { b with dev := b.dev.put32 12 v }

def setSize (b : ByteFs) (i v : ℕ) : ByteFs := { b with dev := b.dev.put32 (inodeAddr i + 4) v }

def setFirst (b : ByteFs) (i v : ℕ) : ByteFs := { b with dev := b.dev.put32 (inodeAddr i + 16) v }

def setBlocks (b : ByteFs) (i v : ℕ) : ByteFs := { b with dev := b.dev.put32 (inodeAddr i + 20) v }

/-- `lib_memcpy` of `n` bytes from address `src` to address `dst`. -/
def copyData (b : ByteFs) (dst src n : ℕ) : ByteFs := { b with dev := b.dev.copy dst src n }

/-- `lib_memcpy` of `n` bytes from the buffer to address `a`. -/
def putData (b : ByteFs) (a : ℕ) (buf : ℕ → UInt8) (n : ℕ) : ByteFs :=
  { b with dev := b.dev.put a buf n }

def markRange (b : ByteFs) (first n : ℕ) (used : Bool) : ByteFs :=
  { b with blockBitmap := bitmapMarkRange b.bitmapBlocks b.blockBitmap first n used }

def subFree (b : ByteFs) (n : ℕ) : ByteFs := b.setFree (b.sb.freeBlocks + (2 ^ 32 - n))

/-- A branch of `ensure_blocks` carried out on inode `i`. -/
def runPlan (b : ByteFs) (i : ℕ) : BlockPlan → ByteFs
  | .keep => b
  | .shrink need =>
    let ino := b.inode i
    let toFree := ino.blocks - need
    let b := b.markRange (ino.firstBlock + need) toFree false
    let b := if b.sb.freeBlocks + toFree ≤ b.sb.totalBlocks then
      b.setFree (b.sb.freeBlocks + toFree) else b
    let b := b.setBlocks i need
    if need = 0 then b.setFirst i 0 else b
  | .fresh first need =>
    let b := b.markRange first need true
    let b := b.subFree need
    let b := b.setFirst i first
    b.setBlocks i need
  | .extend need =>
    let ino := b.inode i
    let extra := need - ino.blocks
    let b := b.markRange (ino.firstBlock + ino.blocks) extra true
    let b := b.subFree extra
    b.setBlocks i need
  | .relocate first need =>
    let ino := b.inode i
    let b := b.copyData (blockAddr first) (blockAddr ino.firstBlock) (copyLen ino)
    -- the record is read again: the copy may have gone over it
    let ino := b.inode i
    let b := b.markRange ino.firstBlock ino.blocks false
    let b := b.setFree (b.sb.freeBlocks + ino.blocks)
    let b := b.markRange first need true
    let b := b.subFree need
    let b := b.setFirst i first
    b.setBlocks i need

/-- The copy and the bookkeeping of a write of `k` bytes after the branch `p`. -/
def writeBytes (b : ByteFs) (fd : ℕ) (p : BlockPlan) (buf : ℕ → UInt8) (k : ℕ) : ByteFs :=
  let e := b.fdEntries fd
  let b := b.runPlan e.ino p
  let newEnd := (e.offset + k) % 2 ^ 32
  let b := b.putData (blockAddr (b.inode e.ino).firstBlock + e.offset) buf k
  let b := if (b.inode e.ino).size < newEnd then b.setSize e.ino newEnd else b
  { b with fdEntries :=
      Function.update b.fdEntries fd { e with offset := (e.offset + k) % 2 ^ 32 } }

def unamedfsWrite (b : ByteFs) (fd : ℤ) (buf : ℕ → UInt8) (count : ℕ) : ByteFs × ℤ :=
  if Fs.badFd b.view fd then (b, -1)
  else if b.mountValid = false then (b, -1)
  else
    let e := b.fdEntries fd.toNat
    if (b.inode e.ino).isDir then (b, -1)
    else if count = 0 then (b, 0)
    else
      match writePlan b.view (b.inode e.ino) e.offset count with
      | none => (b, -1)
      | some (p, k) => (b.writeBytes fd.toNat p buf k, toInt32 k)

/-- The record of a new inode: cleared, then filled in. -/
def fillInode (b : ByteFs) (slot flags par : ℕ) (name : CStr) : ByteFs :=
  let a := inodeAddr slot
  let d := b.dev.zero a 4104
  let d := d.put32 a slot
  let d := d.put32 (a + 4) 0
  let d := d.put32 (a + 8) flags
  let d := d.put32 (a + 12) par
  let d := d.put32 (a + 16) 0
  let d := d.put32 (a + 20) 0
  { b with dev := d.put (a + 24) (fun k => name.getD k 0) (name.length + 1) }

def allocInodeSlot (b : ByteFs) : ByteFs × Option ℕ :=
  match (List.range b.sb.inodeCount).find? fun i => !(b.inode i).isLive with
  | some i => (b, some i)
  | none =>
    if 256 ≤ b.sb.inodeCount then (b, none)
    else ({ b with dev := b.dev.put32 16 (b.sb.inodeCount + 1) }, some b.sb.inodeCount)

def createInode (b : ByteFs) (norm : CStr) (flags : ℕ) : ByteFs × Option ℕ :=
  let dir := pathDirname norm
  let base := pathBasename norm 64
  if base = [] then (b, none)
  else if 64 ≤ base.length then (b, none)
  else
    let r := findInodeByPath b.view dir
    let b := { b with icache := r.1 }
    match r.2 with
    | none => (b, none)
    | some par =>
      if (b.inode par).isDir = false then (b, none)
      else
        let f := findInodeByNameParent b.view b.icache base par
        let b := { b with icache := f.1 }
        if f.2.isSome then (b, none)
        else
          match b.allocInodeSlot with
          | (b, none) => (b, none)
          | (b, some slot) =>
            let b := b.fillInode slot flags par (base.take 63)
            ({ b with icache := { b.icache with valid := false } }, some slot)

/-- The record of inode `i` cleared, after its entries in the cache are dropped. -/
def clearInode (b : ByteFs) (i : ℕ) : ByteFs :=
  let n := b.inode i
  { b with
    icache := icacheInvalidate b.icache i n.name n.parent
    dev := b.dev.zero (inodeAddr i) 4104 }

/-- `unamedfs_unlink` of the inode found. -/
def unlinkInode (b : ByteFs) (i : ℕ) : ByteFs :=
  let n := b.inode i
  let b := if n.blocks ≠ 0 then
      let b := b.markRange n.firstBlock n.blocks false
      if b.sb.freeBlocks + n.blocks ≤ b.sb.totalBlocks then
        b.setFree (b.sb.freeBlocks + n.blocks) else b
    else b
  clearInode { b with fdEntries := closeFds b.fdEntries i } i

/-- `unamedfs_rmdir` of the inode found. -/
def rmdirInode (b : ByteFs) (i : ℕ) : ByteFs :=
  let n := b.inode i
  let b := if n.blocks ≠ 0 then
      (b.markRange n.firstBlock n.blocks false).setFree (b.sb.freeBlocks + n.blocks)
    else b
  b.clearInode i

def unamedfsUnlink (b : ByteFs) (path : CStr) : ByteFs × ℤ :=
  if b.mountValid = false then (b, -1)
  else
    let norm := pathNormalize path 256
    if norm = [slash] then (b, -1)
    else
      let r := findInodeByPath b.view norm
      let b := { b with icache := r.1 }
      match r.2 with
      | none => (b, -1)
      | some i => if (b.inode i).isDir then (b, -1) else (b.unlinkInode i, 0)

def unamedfsRmdir (b : ByteFs) (path : CStr) : ByteFs × ℤ :=
  if b.mountValid = false then (b, -1)
  else
    let norm := pathNormalize path 256
    if norm = [slash] then (b, -1)
    else
      let r := findInodeByPath b.view norm
      let b := { b with icache := r.1 }
      match r.2 with
      | none => (b, -1)
      | some i =>
        if (b.inode i).isDir = false then (b, -1)
        else if Fs.hasChild b.view i then (b, -1)
        else (b.rmdirInode i, 0)

def unamedfsMkdir (b : ByteFs) (path : CStr) : ByteFs × ℤ :=
  if b.mountValid = false then (b, -1)
  else
    let norm := pathNormalize path 256
    if norm = [slash] then (b, -1)
    else
      let r := b.createInode norm 2
      (r.1, if r.2.isSome then 0 else -1)

def unamedfsCreate (b : ByteFs) (path : CStr) : ByteFs × ℤ :=
  let r := b.createInode (pathNormalize path 256) 1
  (r.1, if r.2.isSome then 0 else -1)

/-- A call that stores nothing on the device: only the statics follow. -/
def keepDevice (b : ByteFs) (s : Fs) : ByteFs :=
  { b with fdEntries := s.fdEntries, icache := s.icache }

def step (b : ByteFs) : Op → ByteFs
  | .create path => (b.unamedfsCreate path).1
  | .mkdir path => (b.unamedfsMkdir path).1
  | .open_ path flags => b.keepDevice (unamedfsOpen b.view path flags).1
  | .close fd => b.keepDevice (unamedfsClose b.view fd).1
  | .read fd count => b.keepDevice (unamedfsRead b.view fd count).1
  | .write fd buf count => (b.unamedfsWrite fd buf count).1
  | .lseek fd offset whence => b.keepDevice (unamedfsLseek b.view fd offset whence).1
  | .unlink path => (b.unamedfsUnlink path).1
  | .rmdir path => (b.unamedfsRmdir path).1

end ByteFs

/-! ### Formatting and mounting -/

def formatBytes (m : Mem) (size : ℕ) : Option Mem :=
  if size < 4096 * 3 then none
  else
    let m := fill m 0 0 4096
    let m := wr32 m 0 magicNumber
    let m := wr32 m 4 1
    let m := wr32 m 8 (size / 4096)
    let m := wr32 m 12 (size / 4096 - 2)
    let m := wr32 m 16 0
    let m := wr32 m 20 2
    let m := fill m 4096 0 4096
    let a := inodeAddr 0
    let m := wr32 m a 0
    let m := wr32 m (a + 4) 0
    let m := wr32 m (a + 8) 2
    let m := wr32 m (a + 12) 0
    let m := wr32 m (a + 16) 0
    let m := wr32 m (a + 20) 0
    let m := Function.update m (a + 24) slash
    let m := Function.update m (a + 25) 0
    some (wr32 m 16 1)

def mountBytes (m : Mem) (size : ℕ) : Option ByteFs :=
  if rd32 m 0 ≠ magicNumber then none
  else
    let b := bitmapInit (readSb m).totalBlocks
    some
      { dev := ⟨m, []⟩
        deviceSize := size
        blockBitmap := bitmapRebuild b.1 b.2 (readSb m).inodeCount fun i => readInode m (inodeAddr i)
        bitmapBlocks := b.1
        fdEntries := fun _ => ⟨0, 0, 0, false⟩
        icache := ⟨[], 0, 0, false⟩
        mountValid := true }

/-- A device of `size` bytes, formatted and mounted. -/
def formatMountBytes (m : Mem) (size : ℕ) : Option ByteFs :=
  (formatBytes m size).bind fun m => mountBytes m size

/-! ### The footprint of a write -/

/-- The words of record `i` that a write may store to: `size`, `first_block` and `blocks`. -/
def OwnField (i x : ℕ) : Prop :=
  (inodeAddr i + 4 ≤ x ∧ x < inodeAddr i + 8) ∨ (inodeAddr i + 16 ≤ x ∧ x < inodeAddr i + 24)

def InRange (a n x : ℕ) : Prop := a ≤ x ∧ x < a + n

/-- The bytes a relocation copies to. -/
def CopyRange (p : BlockPlan) (ino : Inode) (x : ℕ) : Prop :=
  match p with
  | .relocate first _ => InRange (blockAddr first) (copyLen ino) x
  | _ => False

/-- Where `ensure_blocks` stores: `free_blocks`, the record, and the new blocks on relocation. -/
def PlanRange (ino : Inode) (i : ℕ) (p : BlockPlan) (x : ℕ) : Prop :=
  InRange 12 4 x ∨ OwnField i x ∨ CopyRange p ino x

namespace ByteFs

section Stores
variable {P : ℕ → Prop} (b : ByteFs) {i : ℕ}

theorem setFree_touches (v : ℕ) (hP : ∀ x, InRange 12 4 x → P x) :
    Touches P b.dev (b.setFree v).dev := .put32 _ v fun x h1 h2 => hP x ⟨h1, h2⟩

theorem setSize_touches (v : ℕ) (hP : ∀ x, OwnField i x → P x) :
    Touches P b.dev (b.setSize i v).dev :=
  .put32 _ v fun x h1 h2 => hP x (Or.inl (by omega))

theorem setFirst_touches (v : ℕ) (hP : ∀ x, OwnField i x → P x) :
    Touches P b.dev (b.setFirst i v).dev :=
  .put32 _ v fun x h1 h2 => hP x (Or.inr (by omega))

theorem setBlocks_touches (v : ℕ) (hP : ∀ x, OwnField i x → P x) :
    Touches P b.dev (b.setBlocks i v).dev :=
  .put32 _ v fun x h1 h2 => hP x (Or.inr (by omega))

theorem putData_touches {a n : ℕ} (buf : ℕ → UInt8) (hP : ∀ x, InRange a n x → P x) :
    Touches P b.dev (b.putData a buf n).dev := .put _ buf fun x h1 h2 => hP x ⟨h1, h2⟩

end Stores

theorem runPlan_touches (b : ByteFs) (i : ℕ) (p : BlockPlan) :
    Touches (PlanRange (b.inode i) i p) b.dev (b.runPlan i p).dev := by
  have hfree : ∀ x, InRange 12 4 x → PlanRange (b.inode i) i p x := fun x hx => Or.inl hx
  have hown : ∀ x, OwnField i x → PlanRange (b.inode i) i p x := fun x hx => Or.inr (Or.inl hx)
  cases p with
  | keep => exact .refl _ _
  | shrink need =>
    simp only [runPlan]
    split_ifs
    · exact (setFree_touches (b.markRange _ _ false) _ hfree).trans
        ((setBlocks_touches _ _ hown).trans (setFirst_touches _ _ hown))
    · exact (setBlocks_touches (b.markRange _ _ false) _ hown).trans (setFirst_touches _ _ hown)
    · exact (setFree_touches (b.markRange _ _ false) _ hfree).trans (setBlocks_touches _ _ hown)
    · exact setBlocks_touches (b.markRange _ _ false) _ hown
  | fresh first need =>
    exact (setFree_touches (b.markRange first need true) _ hfree).trans
      ((setFirst_touches _ _ hown).trans (setBlocks_touches _ _ hown))
  | extend need =>
    exact (setFree_touches (b.markRange _ _ true) _ hfree).trans (setBlocks_touches _ _ hown)
  | relocate first need =>
    have hcopy : ∀ x, blockAddr first ≤ x → x < blockAddr first + copyLen (b.inode i) →
        PlanRange (b.inode i) i (.relocate first need) x := fun x h1 h2 => Or.inr (Or.inr ⟨h1, h2⟩)
    exact (Touches.copy b.dev (blockAddr (b.inode i).firstBlock) hcopy).trans
      ((setFree_touches ((b.copyData _ _ _).markRange _ _ false) _ hfree).trans
        ((setFree_touches (((b.copyData _ _ _).markRange _ _ false).setFree _ |>.markRange _ _ true)
          _ hfree).trans ((setFirst_touches _ _ hown).trans (setBlocks_touches _ _ hown))))

theorem setFirst_first (b : ByteFs) (i v : ℕ) :
    ((b.setFirst i v).inode i).firstBlock = v % 2 ^ 32 := rd32_wr32 _ _ _

theorem setBlocks_first (b : ByteFs) (i v : ℕ) :
    ((b.setBlocks i v).inode i).firstBlock = (b.inode i).firstBlock :=
  rd32_congr fun x h1 h2 => wr32_outside _ _ (by omega)

theorem setFree_first (b : ByteFs) (i v : ℕ) :
    ((b.setFree v).inode i).firstBlock = (b.inode i).firstBlock :=
  rd32_congr fun x h1 h2 => wr32_outside _ _ (by unfold inodeAddr at h1; omega)

theorem runPlan_first (b : ByteFs) (i : ℕ) {need : ℕ} (hp : Planned b.view (b.inode i) need p)
    (hnb : b.bitmapBlocks ≤ 4096) : ((b.runPlan i p).inode i).firstBlock = p.first (b.inode i) := by
  cases hp with
  | keep h => rfl
  | shrink h =>
    simp only [runPlan, BlockPlan.first]
    split_ifs <;> simp only [setFirst_first, setBlocks_first, setFree_first] <;> rfl
  | fresh h0 hn hf h2 hr =>
    have hle := hr.1
    simp only [runPlan, BlockPlan.first, setBlocks_first, setFirst_first]
    exact Nat.mod_eq_of_lt (by change _ + need ≤ b.bitmapBlocks at hle; omega)
  | extend h0 hn hf hr =>
    simp only [runPlan, BlockPlan.first, subFree, setBlocks_first, setFree_first]
    rfl
  | relocate h0 hn hf h2 hr =>
    have hle := hr.1
    simp only [runPlan, BlockPlan.first, setBlocks_first, setFirst_first]
    exact Nat.mod_eq_of_lt (by change _ + need ≤ b.bitmapBlocks at hle; omega)

theorem writeBytes_touches (b : ByteFs) (fd : ℕ) {need : ℕ} {i off : ℕ}
    (hi : (b.fdEntries fd).ino = i) (hoff : (b.fdEntries fd).offset = off)
    (hp : Planned b.view (b.inode i) need p) (hnb : b.bitmapBlocks ≤ 4096) (buf : ℕ → UInt8)
    (k : ℕ) :
    Touches (fun x => PlanRange (b.inode i) i p x ∨
      InRange (blockAddr (p.first (b.inode i)) + off) k x) b.dev (b.writeBytes fd p buf k).dev := by
  subst hi hoff
  have hfirst := b.runPlan_first _ hp hnb
  set i := (b.fdEntries fd).ino
  set c := b.runPlan i p
  have hput := putData_touches c (a := blockAddr (c.inode i).firstBlock + (b.fdEntries fd).offset)
    (n := k) (P := fun x => PlanRange (b.inode i) i p x ∨
      InRange (blockAddr (p.first (b.inode i)) + (b.fdEntries fd).offset) k x) buf
    (by rw [hfirst]; exact fun x hx => Or.inr hx)
  refine ((b.runPlan_touches i p).mono fun x hx => Or.inl hx).trans (hput.trans ?_)
  unfold writeBytes
  dsimp only
  split_ifs
  · exact setSize_touches _ _ fun x hx => Or.inl (Or.inr (Or.inl hx))
  · exact .refl _ _

/-! ### What every call keeps -/

/-- The superblock counts the root, and the descriptors in use are below the count. -/
structure Ready (size : ℕ) (b : ByteFs) : Prop where
  size_eq : b.deviceSize = size
  count_pos : 0 < b.sb.inodeCount
  bitmap_le : b.bitmapBlocks ≤ 4096
  fds : ∀ k, (b.fdEntries k).used = true → (b.fdEntries k).ino < b.sb.inodeCount

variable {size : ℕ}

theorem Ready.of_touches {b b' : ByteFs} (h : Ready size b) {P : ℕ → Prop}
    (ht : Touches P b.dev b'.dev) (hP : ∀ x, InRange 16 4 x → ¬ P x)
    (hsize : b'.deviceSize = b.deviceSize) (hnb : b'.bitmapBlocks = b.bitmapBlocks)
    (hfds : ∀ k, (b'.fdEntries k).used = true → (b'.fdEntries k).ino < b.sb.inodeCount) :
    Ready size b' := by
  have hcount : b'.sb.inodeCount = b.sb.inodeCount := ht.rd32 fun x h1 h2 => hP x ⟨h1, h2⟩
  exact ⟨by rw [hsize]; exact h.size_eq, by rw [hcount]; exact h.count_pos,
    by rw [hnb]; exact h.bitmap_le,
    by rw [hcount]; exact hfds⟩

theorem Ready.cache (h : Ready size b) (ic : InodeCache) : Ready size { b with icache := ic } :=
  ⟨h.size_eq, h.count_pos, h.bitmap_le, h.fds⟩

theorem allocInodeSlot_ready (h : Ready size b) : Ready size b.allocInodeSlot.1 := by
  unfold allocInodeSlot
  split
  · exact h
  · split_ifs with hfull
    · exact h
    · have hcount : rd32 (b.dev.put32 16 (b.sb.inodeCount + 1)).mem 16 = b.sb.inodeCount + 1 :=
        (rd32_wr32 _ _ _).trans (Nat.mod_eq_of_lt (by omega))
      refine ⟨h.size_eq, ?_, h.bitmap_le, fun k hk => ?_⟩
      · change 0 < rd32 _ 16
        rw [hcount]
        omega
      · have := h.fds k hk
        change _ < rd32 _ 16
        rw [hcount]
        exact this.trans (Nat.lt_succ_self _)

theorem fillInode_touches (b : ByteFs) (slot flags par : ℕ) {name : CStr} (hn : name.length ≤ 63) :
    Touches (InRange (inodeAddr slot) 4104) b.dev (b.fillInode slot flags par name).dev := by
  have hin : ∀ o n : ℕ, o + n ≤ 4104 → ∀ x, inodeAddr slot + o ≤ x → x < inodeAddr slot + o + n →
      InRange (inodeAddr slot) 4104 x := fun o n hon x h1 h2 => ⟨by omega, by omega⟩
  exact (Touches.zero b.dev (hin 0 4104 (by norm_num))).trans <|
    (Touches.put32 _ slot (hin 0 4 (by norm_num))).trans <|
    (Touches.put32 _ 0 (hin 4 4 (by norm_num))).trans <|
    (Touches.put32 _ flags (hin 8 4 (by norm_num))).trans <|
    (Touches.put32 _ par (hin 12 4 (by norm_num))).trans <|
    (Touches.put32 _ 0 (hin 16 4 (by norm_num))).trans <|
    (Touches.put32 _ 0 (hin 20 4 (by norm_num))).trans <|
    Touches.put _ _ (hin 24 (name.length + 1) (by omega))

theorem inRange_inode {i x : ℕ} (hx : InRange 16 4 x) : ¬ InRange (inodeAddr i) 4104 x := by
  unfold InRange inodeAddr at *
  omega

theorem createInode_ready (h : Ready size b) (norm : CStr) (flags : ℕ) :
    Ready size (b.createInode norm flags).1 := by
  unfold createInode
  dsimp only
  split_ifs with h1 h2
  · exact h
  · exact h
  · have hlen := pathBasename_length norm
    cases (findInodeByPath b.view (pathDirname norm)).2 with
    | none => exact h.cache _
    | some par =>
      dsimp only
      split_ifs with hd hf
      · exact h.cache _
      · exact h.cache _
      · have ha := allocInodeSlot_ready ((h.cache (findInodeByPath b.view (pathDirname norm)).1).cache
          (findInodeByNameParent (ByteFs.view { b with
            icache := (findInodeByPath b.view (pathDirname norm)).1 })
            (findInodeByPath b.view (pathDirname norm)).1 (pathBasename norm 64) par).1)
        generalize allocInodeSlot _ = r at ha ⊢
        obtain ⟨c, o⟩ := r
        cases o with
        | none => exact ha
        | some slot =>
          refine Ready.of_touches (Ready.cache ha _) (fillInode_touches c slot flags par ?_)
            (fun x hx => inRange_inode hx) rfl rfl ha.fds
          rw [List.length_take]
          omega

theorem clearInode_touches (b : ByteFs) (i : ℕ) :
    Touches (InRange (inodeAddr i) 4104) b.dev (b.clearInode i).dev :=
  Touches.zero b.dev fun _ h1 h2 => ⟨h1, h2⟩

theorem clearInode_ready (h : Ready size b) (i : ℕ) : Ready size (b.clearInode i) :=
  h.of_touches (b.clearInode_touches i) (fun _ hx => inRange_inode hx) rfl rfl h.fds

theorem setFree_ready (h : Ready size b) (v : ℕ) : Ready size (b.setFree v) :=
  h.of_touches (b.setFree_touches v fun _ hx => hx) (fun _ hx hc => by unfold InRange at *; omega)
    rfl rfl h.fds

theorem markRange_ready (h : Ready size b) (first n : ℕ) (used : Bool) :
    Ready size (b.markRange first n used) := ⟨h.size_eq, h.count_pos, h.bitmap_le, h.fds⟩

theorem unlinkInode_ready (h : Ready size b) (i : ℕ) : Ready size (b.unlinkInode i) := by
  have hclose : ∀ {c : ByteFs}, Ready size c →
      Ready size { c with fdEntries := closeFds c.fdEntries i } :=
    fun hc => ⟨hc.size_eq, hc.count_pos, hc.bitmap_le, fun k hk => by
      dsimp only at hk ⊢
      have he := closeFds_used hk
      rw [he] at hk ⊢
      exact hc.fds k hk⟩
  unfold unlinkInode
  refine clearInode_ready (hclose ?_) i
  dsimp only
  split_ifs
  · exact setFree_ready (markRange_ready h _ _ _) _
  · exact markRange_ready h _ _ _
  · exact h

theorem rmdirInode_ready (h : Ready size b) (i : ℕ) : Ready size (b.rmdirInode i) := by
  unfold rmdirInode
  refine clearInode_ready ?_ i
  split_ifs
  · exact setFree_ready (markRange_ready h _ _ _) _
  · exact h

theorem keepDevice_ready (h : Ready size b) {op : Op} {s : Fs} (he : Effect b.view op s) :
    Ready size (b.keepDevice s) :=
  ⟨h.size_eq, h.count_pos, h.bitmap_le, he.fds h.count_pos h.fds⟩

/-! ### Writes that fit -/

/-- The range `[a, a + n)` lies behind the inode table and on the device. -/
def InData (b : ByteFs) (a n : ℕ) : Prop :=
  inodeAddr b.sb.inodeCount ≤ a ∧ a + n ≤ b.deviceSize

instance (b : ByteFs) (a n : ℕ) : Decidable (b.InData a n) := by unfold InData; infer_instance

/-- The bytes written at `off` of a file, and those a relocation copies, lie in the data area. -/
def PlanFits (b : ByteFs) (ino : Inode) (off : ℕ) (p : BlockPlan) (k : ℕ) : Prop :=
  b.InData (blockAddr (p.first ino) + off) k ∧
    match p with
    | .relocate first _ => b.InData (blockAddr first) (copyLen ino)
    | _ => True

instance (b : ByteFs) (ino : Inode) (off : ℕ) (p : BlockPlan) (k : ℕ) :
    Decidable (b.PlanFits ino off p k) := by
  cases p <;> unfold PlanFits <;> infer_instance

/-- The guard of the runs below: the extent a write is going to use, picked from the bitmap, the
record and `free_blocks` as they are before the call, holds it behind the inode table and on the
device. -/
def WriteFits (b : ByteFs) : Op → Prop
  | .write fd _ count =>
    let e := b.fdEntries fd.toNat
    let ino := b.inode e.ino
    ¬ Fs.badFd b.view fd → ino.isDir = false → 0 < count →
      match writePlan b.view ino e.offset count with
      | none => True
      | some (p, k) => b.PlanFits ino e.offset p k
  | _ => True

instance (b : ByteFs) (op : Op) : Decidable (b.WriteFits op) := by
  cases op with
  | write fd buf count =>
    unfold WriteFits
    dsimp only
    cases writePlan b.view (b.inode (b.fdEntries fd.toNat).ino) (b.fdEntries fd.toNat).offset count
      <;> dsimp only <;> infer_instance
  | _ => exact isTrue trivial

/-- **What a write may do**: it stores on the device only, in the superblock only to `free_blocks`
and in the inode table only to `size`, `first_block` and `blocks` of its own record `i`. -/
structure WriteInside (b b' : ByteFs) (i : ℕ) : Prop where
  stores : ∃ new, b'.dev.log = new ++ b.dev.log ∧
    ∀ r ∈ new, ∀ x, r.1 ≤ x → x < r.1 + r.2 → x < b.deviceSize
  superblock : ∀ x < 4096, ¬ InRange 12 4 x → b'.dev.mem x = b.dev.mem x
  inodes : ∀ j < b.sb.inodeCount, ∀ x, InRange (inodeAddr j) 4104 x → ¬ (j = i ∧ OwnField i x) →
    b'.dev.mem x = b.dev.mem x

theorem WriteInside.refl (b : ByteFs) (i : ℕ) : WriteInside b b i :=
  ⟨⟨[], rfl, by simp⟩, fun _ _ _ => rfl, fun _ _ _ _ _ => rfl⟩

theorem PlanFits.footprint {i off k : ℕ} (h : b.PlanFits (b.inode i) off p k) {x : ℕ}
    (hx : PlanRange (b.inode i) i p x ∨ InRange (blockAddr (p.first (b.inode i)) + off) k x) :
    InRange 12 4 x ∨ OwnField i x ∨ (inodeAddr b.sb.inodeCount ≤ x ∧ x < b.deviceSize) := by
  obtain ⟨⟨h1, h2⟩, h3⟩ := h
  rcases hx with (hx | hx | hx) | hx
  · exact Or.inl hx
  · exact Or.inr (Or.inl hx)
  · cases p with
    | relocate first need =>
      unfold CopyRange InRange at hx
      unfold InData at h3
      exact Or.inr (Or.inr ⟨by omega, by omega⟩)
    | keep => exact hx.elim
    | shrink need => exact hx.elim
    | fresh first need => exact hx.elim
    | extend need => exact hx.elim
  · unfold InRange at hx
    exact Or.inr (Or.inr ⟨by omega, by omega⟩)

theorem unamedfsWrite_cases (b : ByteFs) (fd : ℤ) (buf : ℕ → UInt8) (count : ℕ) :
    (b.unamedfsWrite fd buf count).1 = b ∨
    ∃ p k, ¬ Fs.badFd b.view fd ∧ (b.inode (b.fdEntries fd.toNat).ino).isDir = false ∧ 0 < count ∧
      writePlan b.view (b.inode (b.fdEntries fd.toNat).ino) (b.fdEntries fd.toNat).offset count =
        some (p, k) ∧ (b.unamedfsWrite fd buf count).1 = b.writeBytes fd.toNat p buf k := by
  unfold unamedfsWrite
  dsimp only
  split_ifs with h1 h2 h3 h4
  · exact Or.inl rfl
  · exact Or.inl rfl
  · exact Or.inl rfl
  · exact Or.inl rfl
  · cases hp : writePlan b.view (b.inode (b.fdEntries fd.toNat).ino) (b.fdEntries fd.toNat).offset
        count with
    | none => exact Or.inl rfl
    | some pk => exact Or.inr ⟨pk.1, pk.2, h1, by simpa using h3, by omega, rfl, rfl⟩

theorem writeBytes_footprint (h : Ready size b) {fd k : ℕ}
    (hp : writePlan b.view (b.inode (b.fdEntries fd).ino) (b.fdEntries fd).offset count = some (p,
      k)) (hfit : b.PlanFits (b.inode (b.fdEntries fd).ino) (b.fdEntries fd).offset p k)
    (buf : ℕ → UInt8) :
    Touches (fun x => InRange 12 4 x ∨ OwnField (b.fdEntries fd).ino x ∨
      (inodeAddr b.sb.inodeCount ≤ x ∧ x < b.deviceSize)) b.dev (b.writeBytes fd p buf k).dev :=
  (b.writeBytes_touches fd rfl rfl (writePlan_some hp).1 h.bitmap_le buf k).mono
    fun _ hx => hfit.footprint hx

theorem runPlan_statics (b : ByteFs) (i : ℕ) (p : BlockPlan) :
    (b.runPlan i p).deviceSize = b.deviceSize ∧ (b.runPlan i p).bitmapBlocks = b.bitmapBlocks ∧
      (b.runPlan i p).fdEntries = b.fdEntries := by
  cases p with
  | shrink need =>
    simp only [runPlan]
    split_ifs <;> exact ⟨rfl, rfl, rfl⟩
  | keep => exact ⟨rfl, rfl, rfl⟩
  | fresh first need => exact ⟨rfl, rfl, rfl⟩
  | extend need => exact ⟨rfl, rfl, rfl⟩
  | relocate first need => exact ⟨rfl, rfl, rfl⟩

theorem writeBytes_statics (b : ByteFs) (fd : ℕ) (p : BlockPlan) (buf : ℕ → UInt8) (k : ℕ) :
    (b.writeBytes fd p buf k).deviceSize = b.deviceSize ∧
      (b.writeBytes fd p buf k).bitmapBlocks = b.bitmapBlocks ∧
      (b.writeBytes fd p buf k).fdEntries = Function.update b.fdEntries fd
        ⟨(b.fdEntries fd).ino, ((b.fdEntries fd).offset + k) % 2 ^ 32, (b.fdEntries fd).flags,
          (b.fdEntries fd).used⟩ := by
  obtain ⟨h1, h2, h3⟩ := b.runPlan_statics (b.fdEntries fd).ino p
  unfold writeBytes
  dsimp only
  split_ifs <;>
    exact ⟨h1, h2, by simp only [setSize, putData, h3]⟩

theorem write_ready (h : Ready size b) {fd : ℤ} {buf : ℕ → UInt8}
    (hfit : b.WriteFits (.write fd buf count)) : Ready size (b.unamedfsWrite fd buf count).1 := by
  rcases b.unamedfsWrite_cases fd buf count with he | ⟨p, k, h1, h2, h3, hp, he⟩
  · rw [he]; exact h
  · rw [he]
    have hf := hfit h1 h2 h3
    rw [hp] at hf
    obtain ⟨hs, hb, hfd⟩ := b.writeBytes_statics fd.toNat p buf k
    refine h.of_touches (writeBytes_footprint h hp hf buf) (fun x hx hc => ?_) hs hb ?_
    · unfold InRange OwnField inodeAddr at *
      omega
    · rw [hfd]
      exact fds_update h.fds _ _ (h.fds fd.toNat)

/-- **Every call keeps the superblock and the descriptors in order**, if its write fits. -/
theorem step_ready (h : Ready size b) {op : Op} (hfit : b.WriteFits op) :
    Ready size (b.step op) := by
  cases op with
  | create path => exact createInode_ready h _ _
  | mkdir path =>
    simp only [step, unamedfsMkdir]
    by_cases hm : b.mountValid = false
    · rw [if_pos hm]; exact h
    · rw [if_neg hm]
      by_cases hn : pathNormalize path 256 = [slash]
      · rw [if_pos hn]; exact h
      · rw [if_neg hn]; exact createInode_ready h _ _
  | open_ path flags => exact keepDevice_ready h (open_effect _ path flags)
  | close fd => exact keepDevice_ready h (close_effect _ fd)
  | read fd count => exact keepDevice_ready h (read_effect _ fd count)
  | write fd buf count => exact write_ready h hfit
  | lseek fd offset whence => exact keepDevice_ready h (lseek_effect _ fd offset whence)
  | unlink path =>
    simp only [step, unamedfsUnlink]
    split_ifs
    · exact h
    · exact h
    · cases (findInodeByPath b.view (pathNormalize path 256)).2 with
      | none => exact h.cache _
      | some i =>
        dsimp only
        split_ifs
        · exact h.cache _
        · exact unlinkInode_ready (h.cache _) i
  | rmdir path =>
    simp only [step, unamedfsRmdir]
    split_ifs
    · exact h
    · exact h
    · cases (findInodeByPath b.view (pathNormalize path 256)).2 with
      | none => exact h.cache _
      | some i =>
        dsimp only
        split_ifs
        · exact h.cache _
        · exact h.cache _
        · exact rmdirInode_ready (h.cache _) i

theorem write_inside (h : Ready size b) {fd : ℤ} {buf : ℕ → UInt8}
    (hfit : b.WriteFits (.write fd buf count)) :
    WriteInside b (b.step (.write fd buf count)) (b.fdEntries fd.toNat).ino := by
  change WriteInside b (b.unamedfsWrite fd buf count).1 _
  rcases b.unamedfsWrite_cases fd buf count with he | ⟨p, k, h1, h2, h3, hp, he⟩
  · rw [he]; exact .refl _ _
  · rw [he]
    have hf := hfit h1 h2 h3
    rw [hp] at hf
    have ht := writeBytes_footprint h hp hf buf
    have hi : (b.fdEntries fd.toNat).ino < b.sb.inodeCount := h.fds _ (not_badFd_used h1)
    -- some byte is written, so the device reaches behind the inode table
    have hend : inodeAddr b.sb.inodeCount < b.deviceSize := by
      have hk := writePlan_pos h3 hp
      obtain ⟨⟨h4, h5⟩, -⟩ := hf
      omega
    obtain ⟨new, hnew, hin⟩ := ht.log
    refine ⟨⟨new, hnew, fun r hr x hx1 hx2 => ?_⟩, fun x hx hn => ht.frame x ?_,
      fun j hj x hx hn => ht.frame x ?_⟩
    · have := hin r hr x hx1 hx2
      unfold InRange OwnField inodeAddr at *
      omega
    · unfold InRange OwnField inodeAddr at *
      omega
    · rintro (hc | hc | hc)
      · unfold InRange inodeAddr at *
        omega
      · refine hn ⟨?_, hc⟩
        unfold InRange OwnField inodeAddr at *
        omega
      · unfold InRange inodeAddr at *
        omega

end ByteFs

theorem formatBytes_some {m m' : Mem} {size : ℕ} (h : formatBytes m size = some m') :
    ∃ m₁, m' = wr32 m₁ 16 1 := by
  unfold formatBytes at h
  split_ifs at h
  simp only [Option.some.injEq] at h
  exact ⟨_, h.symm⟩

theorem formatMountBytes_ready {m : Mem} {size : ℕ}
    (h : formatMountBytes m size = some b) : b.Ready size := by
  obtain ⟨m', hm', hmount⟩ := Option.bind_eq_some_iff.mp h
  obtain ⟨m₁, rfl⟩ := formatBytes_some hm'
  unfold mountBytes at hmount
  split_ifs at hmount
  simp only [Option.some.injEq] at hmount
  subst hmount
  refine ⟨rfl, ?_, min_le_right _ _, fun k hk => by simp at hk⟩
  change 0 < rd32 (wr32 m₁ 16 1) 16
  rw [rd32_wr32]
  norm_num

/-- **Writes stay inside.** From a formatted and mounted device, in every state reached by calls
whose writes all fit, a write that fits stores on the device only and leaves the superblock and the
inode table alone, but for `free_blocks` and the size and extent of its own inode. -/
theorem device_write_inside (m : Mem) (size : ℕ) (b₀ b : ByteFs)
    (h0 : formatMountBytes m size = some b₀) (h : Reach ByteFs.WriteFits ByteFs.step b₀ b) (fd : ℤ)
    (buf : ℕ → UInt8) (count : ℕ) (hfit : b.WriteFits (.write fd buf count)) :
    b.deviceSize = size ∧
      b.WriteInside (b.step (.write fd buf count)) (b.fdEntries fd.toNat).ino := by
  have hr : b.Ready size :=
    h.inv (formatMountBytes_ready h0) fun _ _ hb hok => ByteFs.step_ready hb hok
  exact ⟨hr.size_eq, ByteFs.write_inside hr hfit⟩

def sixBlocks : ByteFs := (formatMountBytes (fun _ => 0) (4096 * 6)).get (by decide +kernel)

def threeBlocks : ByteFs := (formatMountBytes (fun _ => 0) (4096 * 3)).get (by decide +kernel)

def openFile : List Op := [.create (cstr "/a"), .open_ (cstr "/a") 0]

/-- On six blocks the first byte of the file goes to block 2, which is on the device and behind the
table of two inodes. -/
theorem device_write_inside_six :
    (openFile.foldl ByteFs.step sixBlocks).WriteInside
      ((openFile.foldl ByteFs.step sixBlocks).step (.write 0 (fun _ => 7) 1)) 1 :=
  (device_write_inside (fun _ => 0) (4096 * 6) sixBlocks (openFile.foldl ByteFs.step sixBlocks)
    (Option.some_get _).symm (Reach.foldl openFile .init ⟨trivial, trivial, trivial⟩) 0
    (fun _ => 7) 1 (by decide +kernel)).2

/-- On three blocks, the least that can be formatted, block 2 is the only free one and lies behind
the end of the device: the first byte written goes to address 16384 of 12288. -/
theorem write_outside_device :
    Reach Any ByteFs.step threeBlocks (openFile.foldl ByteFs.step threeBlocks) ∧
      ¬ (openFile.foldl ByteFs.step threeBlocks).WriteInside
        ((openFile.foldl ByteFs.step threeBlocks).step (.write 0 (fun _ => 7) 1)) 1 := by
  refine ⟨Reach.foldl openFile .init ⟨trivial, trivial, trivial⟩, fun h => ?_⟩
  obtain ⟨new, hnew, hin⟩ := h.stores
  have hmem : (16384, 1) ∈
      ((openFile.foldl ByteFs.step threeBlocks).step (.write 0 (fun _ => 7) 1)).dev.log := by
    decide +kernel
  have hold : (16384, 1) ∉ (openFile.foldl ByteFs.step threeBlocks).dev.log := by decide +kernel
  rw [hnew] at hmem
  rcases List.mem_append.mp hmem with hm | hm
  · have hlt := hin _ hm 16384 le_rfl (by norm_num)
    exact absurd hlt (by decide +kernel)
  · exact hold hm

end Kerneloid.UnnamedFS.Layout
