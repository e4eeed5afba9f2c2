import Kerneloid.Vfs.Walk
import Kerneloid.Vfs.Write

/-! # The operations of the VFS

The `vfs_*` functions and the vnode operations of UnnamedFS below them. `VOp` and `vstep` put the
calls of both layers together into one system: the VFS calls, the `create` vnode operation, which no
VFS call uses, and the calls of the UnnamedFS interface on the same mounted file system. `vfsInit`
is the state after `vfs_init`. -/

namespace Kerneloid.Vfs.Ops

open UnnamedFS.Types UnnamedFS.Path UnnamedFS.Ops Types Vfs.Path Walk Write

/-! ### Descriptors -/

/-- `fd < 0 || fd >= VFS_MAX_FILES || !fd_used[fd]`. -/
def VState.badFd (v : VState) (fd : ℤ) : Prop := fd < 0 ∨ 64 ≤ fd ∨ v.fdUsed fd.toNat = false

instance (v : VState) (fd : ℤ) : Decidable (VState.badFd v fd) := by
  unfold VState.badFd; infer_instance

def vfsOpen (v : VState) (path : CStr) (mode : ℤ) : VState × ℤ :=
  match vfsLookup v path with
  | (v, none) => (v, -1)
  | (v, some node) =>
    match (List.range 64).find? fun k => !v.fdUsed k with
    | none => (v, -1)
    | some fd =>
      let v := { v with fileTable := Function.update v.fileTable fd ⟨some node, 0, mode⟩ }
      -- `unnamedfs_vop_open` fails for a vnode without an inode
      match (v.nodes node).data with
      | none => (v, -1)
      | some _ =>
        ({ v with
            fdUsed := Function.update v.fdUsed fd true
            nodes := Function.update v.nodes node
              { v.nodes node with refcount := ((v.nodes node).refcount + 1) % 2 ^ 32 } }, fd)

/-- `vfs_close`. `unnamedfs_vop_close` has cleared `node` before the reference count would be
reduced, so it never is. -/
def vfsClose (v : VState) (fd : ℤ) : VState × ℤ :=
  if VState.badFd v fd then (v, -1)
  else
    let f := v.fileTable fd.toNat
    ({ v with
        fdUsed := Function.update v.fdUsed fd.toNat false
        fileTable := Function.update v.fileTable fd.toNat
          ⟨none, if f.node.isSome then 0 else f.offset, f.mode⟩ }, 0)

/-- The inode behind a descriptor. -/
def VState.fileInode (v : VState) (fd : ℕ) : Option ℕ :=
  (v.fileTable fd).node.bind fun n => (v.nodes n).data

def VState.setOffset (v : VState) (fd off : ℕ) : VState :=
  { v with fileTable := Function.update v.fileTable fd { v.fileTable fd with offset := off } }

/-- `vfs_read` with `unnamedfs_vop_read`: the result and the bytes put into the buffer. -/
def vfsRead (v : VState) (fd : ℤ) (count : ℕ) : VState × ℤ × List UInt8 :=
  if VState.badFd v fd then (v, -1, [])
  else
    match VState.fileInode v fd.toNat with
    | none => (v, -1, [])
    | some i =>
      let n := v.fs.inodes i
      if n.isDir then (v, -1, [])
      else
        let off := (v.fileTable fd.toNat).offset
        let k := readCount n off count
        (VState.setOffset v fd.toNat ((off + k) % 2 ^ 32), toInt32 k,
          (List.range k).map fun j => v.fs.data (n.firstBlock * 4096 + off + j))

/-- `vfs_write` with `unnamedfs_vop_write`. -/
def vfsWrite (v : VState) (fd : ℤ) (buf : ℕ → UInt8) (count : ℕ) : VState × ℤ :=
  if VState.badFd v fd then (v, -1)
  else
    match VState.fileInode v fd.toNat with
    | none => (v, -1)
    | some i =>
      let off := (v.fileTable fd.toNat).offset
      match vopWrite v.fs i off buf count with
      | (s, none) => ({ v with fs := s }, -1)
      | (s, some k) =>
        let v := VState.setOffset { v with fs := s } fd.toNat ((off + k) % 2 ^ 32)
        (if 0 < toInt32 k then v.dropRdcache else v, toInt32 k)

/-- The `switch` of `vfs_lseek`. -/
def vfsSeekTarget (v : VState) (fd : ℕ) (offset whence : ℤ) : Option ℤ :=
  if whence = 0 then some offset
  else if whence = 1 then some (toInt32 (toInt32 (v.fileTable fd).offset + offset))
  else if whence = 2 then
    (VState.fileInode v fd).map fun i => toInt32 (toInt32 (v.fs.inodes i).size + offset)
  else none

def vfsLseek (v : VState) (fd offset whence : ℤ) : VState × ℤ :=
  if VState.badFd v fd then (v, -1)
  else
    match vfsSeekTarget v fd.toNat offset whence with
    | none => (v, -1)
    | some newOff => if newOff < 0 then (v, -1) else (VState.setOffset v fd.toNat newOff.toNat, newOff)

/-! ### Directories -/

/-- The children of the directory with number `ino`, in the order of the table. -/
def childrenOf (s : Fs) (ino : ℕ) : List ℕ :=
  (List.range s.sb.inodeCount).filter fun i =>
    (s.inodes i).isLive && decide ((s.inodes i).parent = ino)

/-- `unnamedfs_vop_readdir`: the name of child `index`, in a buffer of `size` bytes. More than eight
children are remembered in `rdcache`. -/
def vopReaddir (v : VState) (dir size index : ℕ) : VState × Option CStr :=
  if (v.nodes dir).type ≠ .dir then (v, none)
  else
    match (v.nodes dir).data with
    | none => (v, none)
    | some d =>
      if v.rdcache.valid = true ∧ v.rdcache.dir = dir then
        match v.rdcache.children[index]? with
        | none => (v, none)
        | some i =>
          if v.fs.sb.inodeCount ≤ i then (v, none)
          else if (v.fs.inodes i).isLive = false then (v, none)
          else (v, some ((v.fs.inodes i).name.take (size - 1)))
      else
        let kids := childrenOf v.fs (v.fs.inodes d).ino
        let v := if 8 < kids.length then { v with rdcache := ⟨dir, kids, true⟩ } else v
        (v, kids[index]?.map fun i => (v.fs.inodes i).name.take (size - 1))

def vfsReaddir (v : VState) (fd : ℤ) (size : ℕ) : VState × Option CStr :=
  if size = 0 then (v, none)
  else if VState.badFd v fd then (v, none)
  else
    let f := v.fileTable fd.toNat
    match f.node with
    | none => (v, none)
    | some dir =>
      if (v.nodes dir).type ≠ .dir then (v, none)
      else
        match vopReaddir v dir size f.offset with
        | (v, none) => (v, none)
        | (v, some name) => (VState.setOffset v fd.toNat ((f.offset + 1) % 2 ^ 32), some name)

/-- A new inode under the vnode's inode `d`. The parent's number is read after the new record is
filled in, which matters if both are the same slot. -/
def newInode (s : Fs) (slot flags d : ℕ) (name : CStr) : Inode :=
  ⟨slot, 0, flags, if d = slot then slot else (s.inodes d).ino, 0, 0, name.take 63⟩

/-- The record stored and the table counted up if it is at the end. -/
def putInode (v : VState) (slot : ℕ) (n : Inode) : VState :=
  { v with
    fs := { v.fs with
      sb := { v.fs.sb with inodeCount := max v.fs.sb.inodeCount (slot + 1) }
      inodes := Function.update v.fs.inodes slot n } }

/-- The first free slot below `inode_count`. -/
def freeSlotOf (s : Fs) : Option ℕ :=
  (List.range s.sb.inodeCount).find? fun i => !(s.inodes i).isLive

/-- The part `unnamedfs_vop_create` and `unnamedfs_vop_mkdir` share: the checks, then a new inode
in the slot picked, then the whole cache flushed. -/
def vopNew (v : VState) (dir : ℕ) (name : CStr) (flags : ℕ) (slot : Fs → Option ℕ) : VState × ℤ :=
  if (v.nodes dir).type ≠ .dir then (v, -1)
  else if 64 ≤ (chars name).length then (v, -1)
  else
    match (v.nodes dir).data with
    | none => (v, -1)
    | some d =>
      match vopLookup v dir (chars name) with
      | (v, some _) => (v, -1)
      | (v, none) =>
        match slot v.fs with
        | none => (v, -1)
        | some j => (dcacheFlush (putInode v j (newInode v.fs j flags d (chars name))), 0)

/-- The slot `unnamedfs_vop_create` picks: a free one is looked for only when the table is full. -/
def createSlot (s : Fs) : Option ℕ :=
  if 256 ≤ s.sb.inodeCount then freeSlotOf s else some s.sb.inodeCount

/-- The slot `unnamedfs_vop_mkdir` picks: a free one is looked for first. -/
def mkdirSlot (s : Fs) : Option ℕ :=
  match freeSlotOf s with
  | some j => some j
  | none => if 256 ≤ s.sb.inodeCount then none else some s.sb.inodeCount

def vopCreate (v : VState) (dir : ℕ) (name : CStr) : VState × ℤ := vopNew v dir name 1 createSlot

def vopMkdir (v : VState) (dir : ℕ) (name : CStr) : VState × ℤ := vopNew v dir name 2 mkdirSlot

def vfsMkdir (v : VState) (path : CStr) : VState × ℤ :=
  let path := chars path
  if path = [] then (v, -1)
  else if 256 ≤ path.length then (v, -1)
  else
    let (par, name) := splitLast path
    if name = [] then (v, -1)
    else if 64 ≤ name.length then (v, -1)
    else
      match vfsLookup v par with
      | (v, none) => (v, -1)
      | (v, some parent) =>
        if (v.nodes parent).type ≠ .dir then (v, -1)
        else
          match vfsLookup v path with
          | (v, some _) => (v, -1)
          | (v, none) =>
            match vopMkdir v parent name with
            | (v, rc) =>
              if rc = 0 then ((dcacheInvalidate v (pathNormalize path 256)).dropRdcache, rc)
              else (v, rc)

/-! ### Removal -/

/-- The names of inode `cur` and of at most `depth - 1` directories above it, topmost first. -/
def namesUp (s : Fs) : ℕ → ℕ → List CStr
  | 0, _ => []
  | depth + 1, cur =>
    if cur = 0 then []
    else
      let n := s.inodes cur
      if s.sb.inodeCount ≤ n.parent then [n.name] else namesUp s depth n.parent ++ [n.name]

/-- `tmp_path`: the names joined to a path. -/
def joinNames (names : List CStr) : CStr :=
  names.foldl (fun p name => (if 1 < p.length then p ++ [slash] else p) ++ name) [slash]

/-- The path `unnamedfs_vop_unlink` builds for inode `t`: at most eight names. The source joins them
in a buffer of 256 bytes without a check; here the string is as long as it gets. -/
def tmpPath (s : Fs) (t : ℕ) : CStr := joinNames (namesUp s 8 t)

/-- The inode `unnamedfs_vop_unlink(dir, name)` is after. -/
def unlinkTarget (v : VState) (dir : ℕ) (name : CStr) : Option ℕ :=
  if (v.nodes dir).type ≠ .dir then none
  else
    match (v.nodes dir).data with
    | none => none
    | some d => childOf v.fs name (v.fs.inodes d).ino

/-- The call of the file system below for a target: `unamedfs_rmdir` or `unamedfs_unlink` of the
path built. -/
def removeCall (s : Fs) (t : ℕ) : Fs × ℤ :=
  if (s.inodes t).isDir then unamedfsRmdir s (tmpPath s t) else unamedfsUnlink s (tmpPath s t)

/-- `unnamedfs_vop_unlink`. After the removal the vnode of the target is looked up through its
record, which is zeroed by then. -/
def vopUnlink (v : VState) (dir : ℕ) (name : CStr) : VState × ℤ :=
  match unlinkTarget v dir name with
  | none => (v, -1)
  | some t =>
    if (v.fs.inodes t).isDir && Fs.hasChild v.fs (v.fs.inodes t).ino then (v, -1)
    else
      let tmp := tmpPath v.fs t
      match removeCall v.fs t with
      | (s, rc) =>
        let v := { v with fs := s }
        if rc = 0 then
          match inodeToVnode (dcacheInvalidate v tmp) t with
          | (v, none) => (v.dropRdcache, rc)
          | (v, some n) => ((dcacheInvalidateNode v n).dropRdcache, rc)
        else (v, rc)

/-- The end of `vfs_unlink` and `vfs_rmdir`: the vnode operation, then the cache. -/
def finishRemoval (v : VState) (norm : CStr) (target parent : ℕ) (name : CStr) : VState × ℤ :=
  match vopUnlink v parent name with
  | (v, rc) =>
    if rc = 0 then ((dcacheInvalidateNode (dcacheInvalidate v norm) target).dropRdcache, rc)
    else (v, rc)

def vfsUnlink (v : VState) (path : CStr) : VState × ℤ :=
  if chars path = [] then (v, -1)
  else
    let norm := pathNormalize path 256
    match vfsLookup v norm with
    | (v, none) => (v, -1)
    | (v, some target) =>
      if (v.nodes target).type = .dir then (v, -1)
      else
        match vfsLookup v (splitLast norm).1 with
        | (v, none) => (v, -1)
        | (v, some parent) => finishRemoval v norm target parent ((splitLast norm).2.take 63)

def vfsRmdir (v : VState) (path : CStr) : VState × ℤ :=
  if chars path = [] then (v, -1)
  else
    let norm := pathNormalize path 256
    if norm = [slash] then (v, -1)
    else
      match vfsLookup v norm with
      | (v, none) => (v, -1)
      | (v, some target) =>
        if (v.nodes target).type ≠ .dir then (v, -1)
        else
          match vfsLookup v (splitLast norm).1 with
          | (v, none) => (v, -1)
          | (v, some parent) =>
            match vopReaddir v target 64 0 with
            | (v, some _) => (v, -1)
            | (v, none) => finishRemoval v norm target parent ((splitLast norm).2.take 63)

/-! ### The system -/

/-- A call of the VFS, of the `create` vnode operation on vnode `dir`, or of the file system
below. -/
inductive VOp
  | lookup (path : CStr)
  | stat (path : CStr)
  | open_ (path : CStr) (mode : ℤ)
  | close (fd : ℤ)
  | read (fd : ℤ) (count : ℕ)
  | write (fd : ℤ) (buf : ℕ → UInt8) (count : ℕ)
  | lseek (fd offset whence : ℤ)
  | readdir (fd : ℤ) (size : ℕ)
  | mkdir (path : CStr)
  | unlink (path : CStr)
  | rmdir (path : CStr)
  | create (dir : ℕ) (name : CStr)
  | fs (op : Op)

/-- The state after a call. `vfs_stat` changes what its lookup changes. -/
def vstep (v : VState) : VOp → VState
  | .lookup path => (vfsLookup v path).1
  | .stat path => (vfsLookup v path).1
  | .open_ path mode => (vfsOpen v path mode).1
  | .close fd => (vfsClose v fd).1
  | .read fd count => (vfsRead v fd count).1
  | .write fd buf count => (vfsWrite v fd buf count).1
  | .lseek fd offset whence => (vfsLseek v fd offset whence).1
  | .readdir fd size => (vfsReaddir v fd size).1
  | .mkdir path => (vfsMkdir v path).1
  | .unlink path => (vfsUnlink v path).1
  | .rmdir path => (vfsRmdir v path).1
  | .create dir name => (vopCreate v dir name).1
  | .fs op => { v with fs := step v.fs op }

def ramDisk : Fs := (formatMount zeroDevice 65536).get rfl

/-- The state after `vfs_init`: the RAM disk, the root vnode and the first four directories. -/
def vfsInit : VState :=
  let v : VState :=
    { fs := ramDisk
      nodes := fun i => ⟨i, .unknown, 0, none, []⟩
      root := 0
      dcache := fun _ => ⟨[], 0, 0, 0, false⟩
      dcacheTick := 1
      rdcache := ⟨0, [], false⟩
      fileTable := fun _ => ⟨none, 0, 0⟩
      fdUsed := fun _ => false }
  let v := (inodeToVnode v 0).1
  { v with fs := [.mkdir (cstr "/bin"), .mkdir (cstr "/etc"), .mkdir (cstr "/home"),
      .mkdir (cstr "/tmp")].foldl step v.fs }

end Kerneloid.Vfs.Ops
