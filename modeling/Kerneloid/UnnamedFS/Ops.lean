import Kerneloid.UnnamedFS.Blocks
import Kerneloid.UnnamedFS.Lookup

/-! # The operations of UnnamedFS

The `unamedfs_*` functions on the mounted file system. A function of the source that changes the
file system returns the new state next to its result; results of type `int`, `ssize_t` and `off_t`
are integers, `-1` for failure. `Op` and `step` put the calls together into one system, whose runs
from a freshly formatted and mounted device are what the invariants are about. -/

namespace Kerneloid.UnnamedFS.Ops

open Lib.Bytes Types Bitmap UnnamedFS.Path Lookup Blocks

/-- A value stored into an `int`, `ssize_t` or `off_t`. -/
def toInt32 (x : ℤ) : ℤ := x.bmod (2 ^ 32)

/-! ### Formatting and mounting -/

def magicNumber : ℕ := 0x554E4653

def rootInode : Inode := ⟨0, 0, 2, 0, 0, 0, [slash]⟩

/-- `unamedfs_format`. Of the inode table only the record of the root is written. -/
def unamedfsFormat (d : Device) (size : ℕ) : Option Device :=
  if size < 4096 * 3 then none
  else some
    { sb := ⟨magicNumber, 1, size / 4096, size / 4096 - 2, 1, 2⟩
      inodes := Function.update d.inodes 0 rootInode
      data := d.data }

def unamedfsMount (d : Device) : Option Fs :=
  if d.sb.magic ≠ magicNumber then none
  else
    let b := bitmapInit d.sb.totalBlocks
    some
      { d with
        blockBitmap := bitmapRebuild b.1 b.2 d.sb.inodeCount d.inodes
        bitmapBlocks := b.1
        fdEntries := fun _ => ⟨0, 0, 0, false⟩
        icache := ⟨[], 0, 0, false⟩
        mountValid := true }

def formatMount (d : Device) (size : ℕ) : Option Fs :=
  (unamedfsFormat d size).bind unamedfsMount

def zeroDevice : Device := ⟨⟨0, 0, 0, 0, 0, 0⟩, fun _ => Inode.zero, fun _ => 0⟩

/-- A small file system: five blocks of zeros, formatted and mounted. -/
def smallFs : Fs := (formatMount zeroDevice (4096 * 5)).get rfl

theorem formatMount_small : formatMount zeroDevice (4096 * 5) = some smallFs :=
  (Option.some_get _).symm

/-! ### Descriptors -/

/-- `fd < 0 || fd >= 64 || !fd_entries[fd].used`. -/
def Fs.badFd (s : Fs) (fd : ℤ) : Prop := fd < 0 ∨ 64 ≤ fd ∨ (s.fdEntries fd.toNat).used = false

instance (s : Fs) (fd : ℤ) : Decidable (Fs.badFd s fd) := by unfold Fs.badFd; infer_instance

def unamedfsOpen (s : Fs) (path : CStr) (flags : ℤ) : Fs × ℤ :=
  if s.mountValid = false then (s, -1)
  else
    let norm := pathNormalize path 256
    let r := findInodeByPath s norm
    let s := { s with icache := r.1 }
    match r.2 with
    | none => (s, -1)
    | some ino =>
      match (List.range 64).find? fun i => !(s.fdEntries i).used with
      | none => (s, -1)
      | some i => ({ s with fdEntries := Function.update s.fdEntries i ⟨ino, 0, flags, true⟩ }, i)

def unamedfsClose (s : Fs) (fd : ℤ) : Fs × ℤ :=
  if Fs.badFd s fd then (s, -1)
  else
    let e := s.fdEntries fd.toNat
    ({ s with fdEntries :=
        Function.update s.fdEntries fd.toNat { e with used := false, offset := 0 } }, 0)

/-- The `switch` of `unamedfs_lseek`: the new offset for `SEEK_SET`, `SEEK_CUR` and `SEEK_END`. -/
def seekTarget (s : Fs) (e : FdEntry) (offset whence : ℤ) : Option ℤ :=
  if whence = 0 then some offset
  else if whence = 1 then some (toInt32 (toInt32 e.offset + offset))
  else if whence = 2 then some (toInt32 (toInt32 (s.inodes e.ino).size + offset))
  else none

def unamedfsLseek (s : Fs) (fd offset whence : ℤ) : Fs × ℤ :=
  if Fs.badFd s fd then (s, -1)
  else if s.mountValid = false then (s, -1)
  else
    let e := s.fdEntries fd.toNat
    match seekTarget s e offset whence with
    | none => (s, -1)
    | some newOff =>
      if newOff < 0 then (s, -1)
      else ({ s with fdEntries :=
          Function.update s.fdEntries fd.toNat { e with offset := newOff.toNat } }, newOff)

/-- The bytes a read delivers: the count is cut to the file size, then to the allocated blocks. -/
def readCount (n : Inode) (off count : ℕ) : ℕ :=
  if n.size ≤ off then 0
  else
    let count := min count (n.size - off)
    if count = 0 then 0
    else if n.blocks = 0 then 0
    else if n.blocks * 4096 ≤ off then 0
    else min count (n.blocks * 4096 - off)

/-- `unamedfs_read`: the new state, the result and the bytes put into the buffer. -/
def unamedfsRead (s : Fs) (fd : ℤ) (count : ℕ) : Fs × ℤ × List UInt8 :=
  if Fs.badFd s fd then (s, -1, [])
  else if s.mountValid = false then (s, -1, [])
  else
    let e := s.fdEntries fd.toNat
    let n := s.inodes e.ino
    if n.isDir then (s, -1, [])
    else
      let k := readCount n e.offset count
      ({ s with fdEntries :=
          Function.update s.fdEntries fd.toNat { e with offset := (e.offset + k) % 2 ^ 32 } },
        toInt32 k,
        (List.range k).map fun j => s.data (n.firstBlock * 4096 + e.offset + j))

/-- The copy and the bookkeeping of a write of `k` bytes after the branch `p`. -/
def writeBytes (s : Fs) (fd : ℕ) (p : BlockPlan) (buf : ℕ → UInt8) (k : ℕ) : Fs :=
  let e := s.fdEntries fd
  let s := p.run s e.ino
  let n := s.inodes e.ino
  let newEnd := (e.offset + k) % 2 ^ 32
  { s with
    data := store s.data (n.firstBlock * 4096 + e.offset) buf k
    inodes := Function.update s.inodes e.ino { n with size := max n.size newEnd }
    fdEntries := Function.update s.fdEntries fd { e with offset := (e.offset + k) % 2 ^ 32 } }

def unamedfsWrite (s : Fs) (fd : ℤ) (buf : ℕ → UInt8) (count : ℕ) : Fs × ℤ :=
  if Fs.badFd s fd then (s, -1)
  else if s.mountValid = false then (s, -1)
  else
    let e := s.fdEntries fd.toNat
    if (s.inodes e.ino).isDir then (s, -1)
    else if count = 0 then (s, 0)
    else
      match writePlan s (s.inodes e.ino) e.offset count with
      | none => (s, -1)
      | some (p, k) => (writeBytes s fd.toNat p buf k, toInt32 k)

/-! ### Creating and removing -/

/-- `alloc_inode_slot`: a slot that is not in use, else a new one at the end. -/
def allocInodeSlot (s : Fs) : Fs × Option ℕ :=
  match (List.range s.sb.inodeCount).find? fun i => !(s.inodes i).isLive with
  | some i => (s, some i)
  | none =>
    if 256 ≤ s.sb.inodeCount then (s, none)
    else ({ s with sb := { s.sb with inodeCount := s.sb.inodeCount + 1 } }, some s.sb.inodeCount)

def createInode (s : Fs) (norm : CStr) (flags : ℕ) : Fs × Option ℕ :=
  let dir := pathDirname norm
  let base := pathBasename norm 64
  if base = [] then (s, none)
  else if 64 ≤ base.length then (s, none)
  else
    let r := findInodeByPath s dir
    let s := { s with icache := r.1 }
    match r.2 with
    | none => (s, none)
    | some par =>
      if (s.inodes par).isDir = false then (s, none)
      else
        let f := findInodeByNameParent s s.icache base par
        let s := { s with icache := f.1 }
        if f.2.isSome then (s, none)
        else
          match allocInodeSlot s with
          | (s, none) => (s, none)
          | (s, some slot) =>
            ({ s with
                inodes := Function.update s.inodes slot ⟨slot, 0, flags, par, 0, 0, base.take 63⟩
                icache := { s.icache with valid := false } }, some slot)

def unamedfsMkdir (s : Fs) (path : CStr) : Fs × ℤ :=
  if s.mountValid = false then (s, -1)
  else
    let norm := pathNormalize path 256
    if norm = [slash] then (s, -1)
    else
      let r := createInode s norm 2
      (r.1, if r.2.isSome then 0 else -1)

def unamedfsCreate (s : Fs) (path : CStr) : Fs × ℤ :=
  let r := createInode s (pathNormalize path 256) 1
  (r.1, if r.2.isSome then 0 else -1)

/-- `icache_invalidate(ino)` followed by `icache_invalidate_name(name, parent)`. -/
def icacheInvalidate (ic : InodeCache) (ino : ℕ) (name : CStr) (parent : ℕ) : InodeCache :=
  if ic.valid = true ∧ (ic.ino = ino ∨ (ic.parent = parent ∧ ic.name = name)) then
    { ic with valid := false } else ic

/-- The inode's blocks cleared in the bitmap and its record zeroed; `free` is the new
`free_blocks`. -/
def dropInode (s : Fs) (i free : ℕ) : Fs :=
  let n := s.inodes i
  { s with
    sb := { s.sb with freeBlocks := free }
    blockBitmap := bitmapMarkRange s.bitmapBlocks s.blockBitmap n.firstBlock n.blocks false
    icache := icacheInvalidate s.icache i n.name n.parent
    inodes := Function.update s.inodes i Inode.zero }

def closeFds (fds : ℕ → FdEntry) (i : ℕ) : ℕ → FdEntry := fun k =>
  if k < 64 ∧ (fds k).used = true ∧ (fds k).ino = i then { fds k with used := false } else fds k

/-- `unamedfs_unlink` of the inode found: its blocks are freed and its descriptors closed. -/
def unlinkInode (s : Fs) (i : ℕ) : Fs :=
  let n := s.inodes i
  let free := if s.sb.freeBlocks + n.blocks ≤ s.sb.totalBlocks then
    s.sb.freeBlocks + n.blocks else s.sb.freeBlocks
  { dropInode s i free with fdEntries := closeFds s.fdEntries i }

/-- `unamedfs_rmdir` of the inode found. No descriptor is closed. -/
def rmdirInode (s : Fs) (i : ℕ) : Fs :=
  dropInode s i ((s.sb.freeBlocks + (s.inodes i).blocks) % 2 ^ 32)

/-- Some slot in use has parent `i`. -/
def Fs.hasChild (s : Fs) (i : ℕ) : Bool :=
  (List.range s.sb.inodeCount).any fun j =>
    (s.inodes j).isLive && decide ((s.inodes j).parent = i)

def unamedfsUnlink (s : Fs) (path : CStr) : Fs × ℤ :=
  if s.mountValid = false then (s, -1)
  else
    let norm := pathNormalize path 256
    if norm = [slash] then (s, -1)
    else
      let r := findInodeByPath s norm
      let s := { s with icache := r.1 }
      match r.2 with
      | none => (s, -1)
      | some i => if (s.inodes i).isDir then (s, -1) else (unlinkInode s i, 0)

def unamedfsRmdir (s : Fs) (path : CStr) : Fs × ℤ :=
  if s.mountValid = false then (s, -1)
  else
    let norm := pathNormalize path 256
    if norm = [slash] then (s, -1)
    else
      let r := findInodeByPath s norm
      let s := { s with icache := r.1 }
      match r.2 with
      | none => (s, -1)
      | some i =>
        if (s.inodes i).isDir = false then (s, -1)
        else if Fs.hasChild s i then (s, -1)
        else (rmdirInode s i, 0)

/-! ### The system -/

/-- A call of the `unamedfs_*` interface. -/
inductive Op
  | create (path : CStr)
  | mkdir (path : CStr)
  | open_ (path : CStr) (flags : ℤ)
  | close (fd : ℤ)
  | read (fd : ℤ) (count : ℕ)
  | write (fd : ℤ) (buf : ℕ → UInt8) (count : ℕ)
  | lseek (fd offset whence : ℤ)
  | unlink (path : CStr)
  | rmdir (path : CStr)

def step (s : Fs) : Op → Fs
  | .create path => (unamedfsCreate s path).1
  | .mkdir path => (unamedfsMkdir s path).1
  | .open_ path flags => (unamedfsOpen s path flags).1
  | .close fd => (unamedfsClose s fd).1
  | .read fd count => (unamedfsRead s fd count).1
  | .write fd buf count => (unamedfsWrite s fd buf count).1
  | .lseek fd offset whence => (unamedfsLseek s fd offset whence).1
  | .unlink path => (unamedfsUnlink s path).1
  | .rmdir path => (unamedfsRmdir s path).1

end Kerneloid.UnnamedFS.Ops
