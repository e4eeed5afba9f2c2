import Kerneloid.UnnamedFS.Ops

/-! # VFS: the data model

The statics of `vfs.c` on top of the mounted UnnamedFS. A vnode pointer is an index into the static
table `nodes` of `inode_to_vnode`; an inode pointer is an index into the inode table. The pointers
`mount` and `ops` of a vnode are the same for all of them and are left out, as are the mount table
and the registered file system types, which nothing reads.

Constants of `vfs.h` and `vfs.c`: a path buffer has 256 bytes (`VFS_MAX_PATH`), a name buffer 64
(`VFS_MAX_NAME`), there are 64 descriptors (`VFS_MAX_FILES`) and 32 cache entries
(`DENTRY_CACHE_SIZE`). -/

namespace Kerneloid.Vfs.Types

open UnnamedFS.Types UnnamedFS.Ops

/-- `VFS_TYPE_UNKNOWN`, `VFS_TYPE_FILE` and `VFS_TYPE_DIR`. -/
inductive VType
  | unknown
  | file
  | dir
  deriving DecidableEq, Inhabited

/-- `struct vfs_node`. -/
structure VNode where
  id : ℕ
  type : VType
  refcount : ℕ
  data : Option ℕ
  name : CStr
  deriving DecidableEq, Inhabited

/-- `struct dentry_cache_entry`. -/
structure Dentry where
  path : CStr
  node : ℕ
  hash : ℕ
  lru : ℕ
  valid : Bool
  deriving DecidableEq, Inhabited

/-- `struct readdir_cache`; `children` are the first `child_count` entries of `child_inos`. -/
structure RdCache where
  dir : ℕ
  children : List ℕ
  valid : Bool
  deriving DecidableEq, Inhabited

/-- `struct vfs_file`. Its `flags` and `fd` are never read. -/
structure VFile where
  node : Option ℕ
  offset : ℕ
  mode : ℤ
  deriving DecidableEq, Inhabited

/-- The state of the VFS and of the file system below it. -/
structure VState where
  fs : Fs
  nodes : ℕ → VNode
  root : ℕ
  dcache : ℕ → Dentry
  dcacheTick : ℕ
  rdcache : RdCache
  fileTable : ℕ → VFile
  fdUsed : ℕ → Bool

def typeOf (n : Inode) : VType := if n.isDir then .dir else .file

def VState.dropRdcache (v : VState) : VState := { v with rdcache := { v.rdcache with valid := false } }

/-! ### The dentry cache -/

def hashPath (p : CStr) : ℕ :=
  p.foldl (fun h c => ((h <<< 5 + h) % 2 ^ 32) ^^^ c.toNat) 5381

/-- The entry of the cache that answers for `path`. -/
def dcacheFind (v : VState) (path : CStr) : Option ℕ :=
  (List.range 32).find? fun i =>
    (v.dcache i).valid && ((v.dcache i).hash == hashPath path) && ((v.dcache i).path == path)

def dcacheLookup (v : VState) (path : CStr) : VState × Option ℕ :=
  match dcacheFind v path with
  | none => (v, none)
  | some i =>
    ({ v with
        dcache := Function.update v.dcache i { v.dcache i with lru := v.dcacheTick }
        dcacheTick := v.dcacheTick + 1 }, some (v.dcache i).node)

/-- The entry that `dcache_insert` replaces: the first invalid one, else the least recently used. -/
def dcacheVictim (v : VState) : ℕ :=
  match (List.range 32).find? fun i => !(v.dcache i).valid with
  | some i => i
  | none =>
    (List.range 32).foldl (fun k i => if (v.dcache i).lru < (v.dcache k).lru then i else k) 0

def dcacheInsert (v : VState) (path : CStr) (node : ℕ) : VState :=
  { v with
    dcache := Function.update v.dcache (dcacheVictim v)
      ⟨path.take 255, node, hashPath path, v.dcacheTick, true⟩
    dcacheTick := v.dcacheTick + 1 }

/-- `dcache_invalidate(0)`. -/
def dcacheFlush (v : VState) : VState :=
  { v with dcache := fun i => { v.dcache i with valid := false } }.dropRdcache

/-- `path` is the cached path or one above it. -/
def isUnder (path cached : CStr) : Bool :=
  path.isPrefixOf cached && ((cached.drop path.length).head?.all (· = slash))

/-- `dcache_invalidate(path)`. The exact match of its first loop is a case of the second one. -/
def dcacheInvalidate (v : VState) (path : CStr) : VState :=
  { v with dcache := fun i =>
      { v.dcache i with valid := (v.dcache i).valid && !isUnder path (v.dcache i).path }
    }.dropRdcache

def dcacheInvalidateNode (v : VState) (node : ℕ) : VState :=
  { v with
    dcache := fun i => { v.dcache i with valid := (v.dcache i).valid && (v.dcache i).node != node }
    rdcache := { v.rdcache with valid := v.rdcache.valid && v.rdcache.dir != node } }

end Kerneloid.Vfs.Types
