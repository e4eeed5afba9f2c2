import Kerneloid.Lib.Bytes

/-! # UnnamedFS: the data model

The mounted file system of `unnamedfs.c`. The device holds a superblock, an inode table and the data
area; the statics of the source are the block bitmap, the descriptor table `fd_entries` and the
one-entry inode cache `icache`. Here the three parts of the device are separate: `inodes i` is the
record `current_mount.inodes[i]` and `data a` is the byte at `current_mount.data_blocks + a`, so
that block `b` of the data area is `[4096 * b, 4096 * (b + 1))`. On the device block `b` overlaps the
record of inode `b + 1`; `Layout.ByteFs` is the file system on the bytes, and `Simulation` says when
the two agree.

Constants of `unnamedfs.h`: blocks have 4096 bytes (`UNAMEDFS_BLOCK_SIZE`), there are at most 256
inodes (`UNAMEDFS_MAX_FILES`), a name field has 64 bytes (`UNAMEDFS_FILENAME_LEN`), the descriptor
table has 64 entries. `size_t` and `uint32_t` are 32 bits wide (the kernel is built with `-m32`);
sums that can wrap are taken modulo `2 ^ 32`. -/

namespace Kerneloid.UnnamedFS.Types

open Lib.Bytes

/-- A C string: its bytes up to the terminating NUL. -/
abbrev CStr := List UInt8

/-- The C string of a literal. -/
def cstr (s : String) : CStr := s.toList.map fun c => UInt8.ofNat c.toNat

abbrev slash : UInt8 := 47

/-- The strings `"."` and `".."`. -/
abbrev dot : CStr := [46]

@[inherit_doc dot]
abbrev dotdot : CStr := [46, 46]

/-- `struct unamedfs_superblock`. -/
structure Superblock where
  magic : ℕ
  version : ℕ
  totalBlocks : ℕ
  freeBlocks : ℕ
  inodeCount : ℕ
  firstDataBlock : ℕ
  deriving DecidableEq, Inhabited

/-- `struct unamedfs_inode`; `name` is the string in the 64-byte name field. -/
structure Inode where
  ino : ℕ
  size : ℕ
  flags : ℕ
  parent : ℕ
  firstBlock : ℕ
  blocks : ℕ
  name : CStr
  deriving DecidableEq, Inhabited

/-- The record `lib_memset` to zero. -/
def Inode.zero : Inode := ⟨0, 0, 0, 0, 0, 0, []⟩

/-- `flags & 2`. -/
def Inode.isDir (n : Inode) : Bool := n.flags.testBit 1

/-- `flags != 0`: the slot is in use. -/
def Inode.isLive (n : Inode) : Bool := n.flags != 0

/-- `struct fd_entry`. The source also stores `-1` in `ino` when `used` is cleared; nothing reads
`ino` of an unused entry. -/
structure FdEntry where
  ino : ℕ
  offset : ℕ
  flags : ℤ
  used : Bool
  deriving DecidableEq, Inhabited

/-- `struct inode_cache_ent`. -/
structure InodeCache where
  name : CStr
  parent : ℕ
  ino : ℕ
  valid : Bool
  deriving DecidableEq, Inhabited

structure Device where
  sb : Superblock
  inodes : ℕ → Inode
  data : Mem

/-- The device together with the statics of `unnamedfs.c`. -/
structure Fs extends Device where
  blockBitmap : ℕ → BitVec 8
  bitmapBlocks : ℕ
  fdEntries : ℕ → FdEntry
  icache : InodeCache
  mountValid : Bool

/-- Slot `i` of the inode table is below `inode_count` and in use. -/
def Fs.Live (s : Fs) (i : ℕ) : Prop := i < s.sb.inodeCount ∧ (s.inodes i).isLive = true

instance (s : Fs) (i : ℕ) : Decidable (s.Live i) := by unfold Fs.Live; infer_instance

@[simp] theorem Inode.isLive_zero : Inode.zero.isLive = false := rfl

end Kerneloid.UnnamedFS.Types
