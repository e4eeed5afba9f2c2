import Kerneloid.Vfs.Bytes
import Kerneloid.Vfs.Coherence
import Kerneloid.Vfs.Copies

/-! # Files read back

`readBack` opens a path and reads to the end. A program replaces the content of a file by opening
it, going to its start and writing (`overwrite`): the bytes behind those written stay. So a file
read back through the same path has the bytes written and, behind them, what the file had there
(`readBack_overwrite`); the second lookup is answered by the cache (`vfsLookup_again`). -/

namespace Kerneloid.Vfs.Contents

open Lib.Bytes Lib.Runs UnnamedFS.Types UnnamedFS.Path UnnamedFS.Blocks UnnamedFS.Ops
open UnnamedFS.Slots UnnamedFS.Alloc UnnamedFS.Content UnnamedFS.Layout
open UnnamedFS.Decode UnnamedFS.Simulation Types Vfs.Path Walk Write Ops Effects Coherence Copies Bytes

/-- The bytes of the file at `path`, from its start to its end. -/
def readBack (v : VState) (path : CStr) : Option (List UInt8) :=
  match vfsOpen v path 1 with
  | (v, fd) =>
    if fd < 0 then none
    else
      match vfsRead v fd (2 ^ 31 - 1) with
      | (_, n, bytes) => if n < 0 then none else some bytes

/-- The inode that `path` leads to. -/
def fileAt (v : VState) (path : CStr) : Option ℕ :=
  (vfsLookup v path).2.bind fun n => ((vfsLookup v path).1.nodes n).data

variable {v w u : VState} {path : CStr} {mode fd : ℤ} {i k n count : ℕ} {buf : ℕ → UInt8}

/-! ### Opening -/

/-- `vfs_open` has returned the descriptor `fd` of the file in slot `i`. -/
inductive Opened (v : VState) (path : CStr) (mode : ℤ) : VState → ℤ → ℕ → Prop
  | mk {u : VState} {n i k : ℕ} (hl : vfsLookup v path = (u, some n))
      (hd : (u.nodes n).data = some i) (hk : k < 64) (hu : u.fdUsed k = false) :
      Opened v path mode (openedState u n k mode) k i

theorem Opened.fileAt (h : Opened v path mode w fd i) : fileAt v path = some i := by
  obtain ⟨hl, hd, -, -⟩ := h
  unfold Contents.fileAt
  rw [hl]
  exact hd

theorem vfsOpen_eq (hl : vfsLookup v path = (u, some n)) (hd : (u.nodes n).data = some i)
    (hk : (List.range 64).find? (fun k => !u.fdUsed k) = some k) (mode : ℤ) :
    vfsOpen v path mode = (openedState u n k mode, (k : ℤ)) := by
  unfold vfsOpen
  rw [hl]
  dsimp only
  rw [hk]
  dsimp only
  rw [hd]
  simp only [openedState, hd]

theorem vfsOpen_opened (h : ¬ (vfsOpen v path mode).2 < 0) :
    ∃ i, Opened v path mode (vfsOpen v path mode).1 (vfsOpen v path mode).2 i := by
  cases hl : vfsLookup v path with
  | mk u o =>
    cases o with
    | none =>
      unfold vfsOpen at h
      rw [hl] at h
      exact absurd (by decide : (-1 : ℤ) < 0) h
    | some n =>
      cases hk : (List.range 64).find? fun k => !u.fdUsed k with
      | none =>
        unfold vfsOpen at h
        rw [hl] at h
        dsimp only at h
        rw [hk] at h
        exact absurd (by decide : (-1 : ℤ) < 0) h
      | some k =>
        cases hd : (u.nodes n).data with
        | none =>
          unfold vfsOpen at h
          rw [hl] at h
          dsimp only at h
          rw [hk] at h
          dsimp only at h
          rw [hd] at h
          exact absurd (by decide : (-1 : ℤ) < 0) h
        | some i =>
          obtain ⟨hu, hlt, -⟩ := List.find?_range_eq_some.mp hk
          rw [vfsOpen_eq hl hd hk]
          exact ⟨i, .mk hl hd (List.mem_range.mp hlt) (by simpa using hu)⟩

theorem Opened.spec (h : Opened v path mode w fd i) :
    ¬ VState.badFd w fd ∧ VState.fileInode w fd.toNat = some i ∧
      (w.fileTable fd.toNat).offset = 0 := by
  obtain ⟨hl, hd, hk, hu⟩ := h
  rename_i u n k
  refine ⟨?_, ?_, ?_⟩
  · unfold VState.badFd openedState
    simp only [Int.toNat_natCast, Function.update_self, Bool.true_eq_false, or_false]
    omega
  · simp [VState.fileInode, openedState, hd]
  · simp [openedState]

/-! ### Reading -/

theorem vfsRead_start (hgood : ¬ VState.badFd v fd) (hi : VState.fileInode v fd.toNat = some i)
    (hoff : (v.fileTable fd.toNat).offset = 0) (hfile : (v.fs.inodes i).isDir = false) (count : ℕ) :
    (vfsRead v fd count).2.2 = (fileContent v.fs i).take count ∧
      (vfsRead v fd count).2.1 = toInt32 (vfsRead v fd count).2.2.length := by
  unfold vfsRead
  rw [if_neg hgood, hi]
  dsimp only
  rw [if_neg (by simp [hfile]), hoff]
  dsimp only
  rw [List.length_map, List.length_range, readCount_eq, Nat.sub_zero]
  refine ⟨?_, rfl⟩
  rw [fileContent_slice _ _ _ _ (by omega), List.drop_zero, List.take_eq_take_iff,
    fileContent_length]
  omega

theorem vfsRead_length (v : VState) (fd : ℤ) (hcount : count < 2 ^ 31) :
    ((vfsRead v fd count).2.1 = -1 ∧ (vfsRead v fd count).2.2 = []) ∨
      ((vfsRead v fd count).2.1 = (vfsRead v fd count).2.2.length ∧
        (vfsRead v fd count).2.2.length ≤ count) := by
  unfold vfsRead
  split_ifs
  · exact Or.inl ⟨rfl, rfl⟩
  · cases VState.fileInode v fd.toNat with
    | none => exact Or.inl ⟨rfl, rfl⟩
    | some i =>
      dsimp only
      split_ifs
      · exact Or.inl ⟨rfl, rfl⟩
      · right
        dsimp only
        rw [List.length_map, List.length_range, readCount_eq]
        exact ⟨toInt32_natCast (by omega), by omega⟩

theorem vfsRead_dir (hgood : ¬ VState.badFd v fd) (hi : VState.fileInode v fd.toNat = some i)
    (hdir : (v.fs.inodes i).isDir = true) (count : ℕ) : vfsRead v fd count = (v, -1, []) := by
  unfold vfsRead
  rw [if_neg hgood, hi]
  exact if_pos hdir

/-- **What is read of a file that was opened** is the start of what is read back. -/
theorem vfsRead_readBack (hopen : ¬ (vfsOpen v path 1).2 < 0) (hcount : count < 2 ^ 31) :
    let r := vfsRead (vfsOpen v path 1).1 (vfsOpen v path 1).2 count
    (readBack v path = none ∧ r.2 = (-1, [])) ∨
      ∃ content, readBack v path = some content ∧
        r.2 = (((content.take count).length : ℤ), content.take count) := by
  obtain ⟨i, hopened⟩ := vfsOpen_opened hopen
  obtain ⟨hgood, hi, hoff⟩ := hopened.spec
  unfold readBack
  dsimp only
  rw [if_neg hopen]
  by_cases hdir : ((vfsOpen v path 1).1.fs.inodes i).isDir = true
  · rw [vfsRead_dir hgood hi hdir, vfsRead_dir hgood hi hdir]
    exact Or.inl ⟨rfl, rfl⟩
  rw [Bool.not_eq_true] at hdir
  obtain ⟨hall, hn⟩ := vfsRead_start hgood hi hoff hdir (2 ^ 31 - 1)
  obtain ⟨hbytes, hm⟩ := vfsRead_start hgood hi hoff hdir count
  rw [toInt32_natCast (by rw [hall, List.length_take]; omega)] at hn
  rw [toInt32_natCast (by rw [hbytes, List.length_take]; omega), hbytes] at hm
  rw [hn, if_neg (by omega), hall]
  refine Or.inr ⟨_, rfl, Prod.ext ?_ ?_⟩
  · rw [hm, List.take_take, min_eq_left (by omega)]
  · rw [hbytes, List.take_take, min_eq_left (by omega)]

theorem readBack_opened (h : Opened v path 1 (vfsOpen v path 1).1 (vfsOpen v path 1).2 i)
    (hfile : ((vfsOpen v path 1).1.fs.inodes i).isDir = false)
    (hsize : copyLen ((vfsOpen v path 1).1.fs.inodes i) < 2 ^ 31) :
    readBack v path = some (fileContent (vfsOpen v path 1).1.fs i) := by
  obtain ⟨hgood, hi, hoff⟩ := h.spec
  have hnot : ¬ (vfsOpen v path 1).2 < 0 := fun hlt => hgood (Or.inl hlt)
  obtain ⟨hbytes, hn⟩ := vfsRead_start hgood hi hoff hfile (2 ^ 31 - 1)
  rw [List.take_of_length_le (by rw [fileContent_length]; omega)] at hbytes
  rw [hbytes, fileContent_length, toInt32_natCast hsize] at hn
  unfold readBack
  dsimp only
  rw [if_neg hnot, hn, if_neg (by omega), hbytes]

/-! ### Looking up again -/

theorem dcacheFind_congr
    (h : ∀ j, ((w.dcache j).valid, (w.dcache j).hash, (w.dcache j).path) = ((v.dcache j).valid,
      (v.dcache j).hash, (v.dcache j).path)) (p : CStr) :
    dcacheFind w p = dcacheFind v p := by
  unfold dcacheFind
  congr 1
  funext j
  have hj := h j
  simp only [Prod.mk.injEq] at hj
  rw [hj.1, hj.2.1, hj.2.2]

/-- What a lookup of `path` leaves in the dentry cache, and its answer: nothing is found, an entry
is used, or an entry is replaced by a new one. -/
inductive CacheUse (v : VState) (path : CStr) : (ℕ → Dentry) → Option ℕ → Prop
  | missed : CacheUse v path v.dcache none
  | touched {k : ℕ} (hp : chars path ≠ [])
      (hfind : dcacheFind v (pathNormalize path 256) = some k) :
      CacheUse v path (Function.update v.dcache k { v.dcache k with lru := v.dcacheTick })
        (some (v.dcache k).node)
  | inserted {x : ℕ} (hp : chars path ≠ [])
      (hfind : dcacheFind v (pathNormalize path 256) = none) :
      CacheUse v path
        (Function.update v.dcache (dcacheVictim v)
          ⟨pathNormalize path 256, x, hashPath (pathNormalize path 256), v.dcacheTick, true⟩)
        (some x)

theorem vfsLookup_cacheUse (hn : Numbered v.fs) (path : CStr) :
    CacheUse v path (vfsLookup v path).1.dcache (vfsLookup v path).2 := by
  unfold vfsLookup
  by_cases hp : chars path = []
  · rw [if_pos hp]
    exact .missed
  rw [if_neg hp]
  dsimp only
  unfold dcacheLookup
  cases hfind : dcacheFind v (pathNormalize path 256) with
  | some k => exact .touched hp hfind
  | none =>
    have hrest := (vfsWalk_refreshed hn path).rest
    revert hrest
    dsimp only
    generalize vfsWalk v path = r
    obtain ⟨u, o⟩ := r
    intro hrest
    dsimp only at hrest
    have hcache : u.dcache = v.dcache := by rw [hrest]
    have htick : u.dcacheTick = v.dcacheTick := by rw [hrest]
    cases o with
    | none =>
      dsimp only
      rw [hcache]
      exact .missed
    | some x =>
      have hlen := pathNormalize_length path
      dsimp only [dcacheInsert]
      unfold dcacheVictim
      rw [hcache, htick, List.take_of_length_le hlen]
      exact .inserted hp hfind

theorem dcacheFind_inserted {e : Dentry}
    (hw : w.dcache = Function.update v.dcache (dcacheVictim v) e)
    (hnone : dcacheFind v e.path = none) (hhash : e.hash = hashPath e.path)
    (hvalid : e.valid = true) : dcacheFind w e.path = some (dcacheVictim v) := by
  refine List.find?_range_eq_some.mpr ⟨?_, List.mem_range.mpr (dcacheVictim_lt v), ?_⟩
  · simp [hw, hhash, hvalid]
  · intro j hj
    have hold := List.find?_eq_none.mp hnone j
      (List.mem_range.mpr (hj.trans (dcacheVictim_lt v)))
    rw [Bool.not_eq_true', ← Bool.not_eq_true, hw, Function.update_of_ne hj.ne]
    exact hold

theorem vfsLookup_cached (hn : Numbered v.fs) (h : vfsLookup v path = (w, some n)) :
    chars path ≠ [] ∧
      ∃ j, dcacheFind w (pathNormalize path 256) = some j ∧ (w.dcache j).node = n ∧
        (w.dcache j).lru = v.dcacheTick ∧ ∀ i ≠ j, w.dcache i = v.dcache i := by
  have hc := vfsLookup_cacheUse hn path
  rw [h] at hc
  dsimp only at hc
  generalize hw : w.dcache = dc at hc
  cases hc with
  | @touched k hp hfind =>
    refine ⟨hp, k, ?_, by simp, by simp, fun i hi => Function.update_of_ne hi _ _⟩
    rw [← hfind]
    refine dcacheFind_congr (fun m => ?_) _
    rw [hw]
    by_cases hm : m = k
    · rw [hm, Function.update_self]
    · rw [Function.update_of_ne hm]
  | inserted hp hfind =>
    refine ⟨hp, dcacheVictim v, dcacheFind_inserted hw hfind rfl rfl, by simp, by simp, ?_⟩
    exact fun i hi => Function.update_of_ne hi _ _

theorem vfsLookup_hit {j : ℕ} (hp : chars path ≠ [])
    (hfind : dcacheFind v (pathNormalize path 256) = some j) :
    ∃ dc tick, vfsLookup v path =
      ({ v with dcache := dc, dcacheTick := tick }, some (v.dcache j).node) := by
  unfold vfsLookup dcacheLookup
  rw [if_neg hp]
  dsimp only
  rw [hfind]
  exact ⟨_, _, rfl⟩

/-- **A path that was found is found again** while the cache is as the lookup left it. -/
theorem vfsLookup_again (hn : Numbered v.fs) (h : vfsLookup v path = (w, some n))
    (hcache : u.dcache = w.dcache) :
    ∃ dc tick, vfsLookup u path = ({ u with dcache := dc, dcacheTick := tick }, some n) := by
  obtain ⟨hp, j, hfind, hnode, -⟩ := vfsLookup_cached hn h
  have hagain : dcacheFind u (pathNormalize path 256) = some j := by
    rw [← hfind]
    exact dcacheFind_congr (fun m => by rw [hcache]) _
  rw [← hnode, ← hcache]
  exact vfsLookup_hit hp hagain

theorem vfsOpen_found (hl : vfsLookup v path = (u, some n)) (hd : (u.nodes n).data = some i)
    (hfree : ∃ k < 64, u.fdUsed k = false) (mode : ℤ) :
    Opened v path mode (vfsOpen v path mode).1 (vfsOpen v path mode).2 i ∧
      (vfsOpen v path mode).1.fs = u.fs := by
  obtain ⟨m, hm⟩ : ∃ m, (List.range 64).find? (fun k => !u.fdUsed k) = some m := by
    rw [← Option.isSome_iff_exists, List.find?_isSome]
    obtain ⟨k', hk', hfree⟩ := hfree
    exact ⟨k', List.mem_range.mpr hk', by simpa using hfree⟩
  obtain ⟨hmu, hmlt, -⟩ := List.find?_range_eq_some.mp hm
  rw [vfsOpen_eq hl hd hm]
  exact ⟨.mk hl hd (List.mem_range.mp hmlt) (by simpa using hmu), rfl⟩

theorem vfsOpen_again (hn : Numbered v.fs) (h : Opened v path mode w fd i)
    (hcache : u.dcache = w.dcache) (hnodes : ∀ n, (u.nodes n).data = (w.nodes n).data)
    (hfree : ∃ k < 64, u.fdUsed k = false) (mode' : ℤ) :
    Opened u path mode' (vfsOpen u path mode').1 (vfsOpen u path mode').2 i ∧
      (vfsOpen u path mode').1.fs = u.fs := by
  obtain ⟨hl, hd, hk, hu⟩ := h
  rename_i w n k
  obtain ⟨dc, tick, hlook⟩ := vfsLookup_again hn hl (u := u) (by rw [hcache]; rfl)
  have hdata : (u.nodes n).data = some i := by
    rw [hnodes, openedState]
    simpa using hd
  exact vfsOpen_found hlook hdata hfree mode'

/-! ### Writing at the start -/

/-- The bytes that file `i` has behind the first `count` ones, once these are written. A file
without blocks gets one, and shows of it what its size says. -/
def behind (s : Fs) (i count : ℕ) : List UInt8 :=
  if (s.inodes i).blocks = 0 then
    if count = 0 then []
    else
      ((vopFind s 1).map fun f => (List.range (min (s.inodes i).size 4096 - count)).map fun j =>
        s.data (f * 4096 + count + j)).getD []
  else (fileContent s i).drop count

theorem behind_nil {s : Fs} (h : (s.inodes i).size ≤ count) : behind s i count = [] := by
  have hcopy : (fileContent s i).length ≤ count := by
    rw [fileContent_length, copyLen]
    omega
  have hzero : min (s.inodes i).size 4096 - count = 0 := by omega
  unfold behind
  split_ifs with hb hc
  · rfl
  · rw [hzero]
    cases vopFind s 1 <;> rfl
  · exact List.drop_of_length_le hcopy

theorem fileContent_store {s : Fs} {d : Mem} {f size blocks : ℕ}
    (hfirst : (s.inodes i).firstBlock = f) (hsize : (s.inodes i).size = max size count)
    (hblocks : (s.inodes i).blocks = blocks) (hcount : count ≤ blocks * 4096)
    (hdata : s.data = store d (f * 4096) buf count) :
    fileContent s i = (List.range count).map buf ++
      (List.range (min size (blocks * 4096) - count)).map fun j => d (f * 4096 + count + j) := by
  have hlen : copyLen (s.inodes i) = count + (min size (blocks * 4096) - count) := by
    rw [copyLen, hsize, hblocks]
    omega
  unfold fileContent
  rw [hlen, List.range_add, List.map_append, List.map_map, hfirst, hdata]
  congr 1
  · refine List.map_congr_left fun j hj => ?_
    rw [store_inside _ _ (by omega) (by have := List.mem_range.mp hj; omega),
      Nat.add_sub_cancel_left]
  · refine List.map_congr_left fun j _ => ?_
    rw [Function.comp_apply, ← add_assoc]
    exact store_outside _ _ (Or.inr (by omega))

section Start
variable {s : Fs} (hsmall : (s.inodes i).blocks + s.sb.freeBlocks < 256)
include hsmall

theorem vopPlan_keep (h : count ≤ (s.inodes i).blocks * 4096) :
    vopPlan s (s.inodes i) 0 count = some (.keep, count) := by
  unfold vopPlan
  dsimp only
  rw [zero_add, Nat.mod_eq_of_lt (by omega), Nat.mod_eq_of_lt (by omega), if_pos h]

theorem vopPlan_fresh (hb : (s.inodes i).blocks = 0) (hpos : 0 < count) (hle : count ≤ 4096) :
    vopPlan s (s.inodes i) 0 count =
      if s.sb.freeBlocks = 0 then none else (vopFind s 1).map fun f => (.fresh f 1 1, count) := by
  have hneed : vopNeed count = 1 := by
    unfold vopNeed
    omega
  have hmax : (0 * 4096 % 2 ^ 32 + s.sb.freeBlocks * 4096) % 2 ^ 32 = s.sb.freeBlocks * 4096 := by
    omega
  unfold vopPlan
  dsimp only
  rw [hb, zero_add, Nat.mod_eq_of_lt (by omega : count < 2 ^ 32), hneed, if_neg (by omega), hmax]
  by_cases hfree : s.sb.freeBlocks = 0
  · rw [if_pos (by omega), if_pos (by omega), if_pos hfree]
  · rw [if_neg (by omega), if_neg (by omega), if_pos rfl, if_neg hfree]
    cases hfind : vopFind s 1 with
    | some f => rfl
    | none =>
      have hmore : vopFind s (vopNeed ((0 + (s.sb.freeBlocks * 4096 - 0)) % 2 ^ 32)) = none := by
        refine vopFind_none_mono ?_ hfind
        unfold vopNeed
        omega
      dsimp only
      rw [hmore, if_neg (by omega)]
      split_ifs <;> rfl

omit hsmall in
theorem vopWrite_branch {p : VopPlan} (hfile : (s.inodes i).isDir = false)
    (hp : vopPlan s (s.inodes i) 0 count = some (p, count))
    (hdata : p.data s.data (s.inodes i) = s.data) (hle : count ≤ p.count (s.inodes i) * 4096)
    (hlt : p.count (s.inodes i) < 256) (buf : ℕ → UInt8) :
    let s' := vopStore (p.run s i) i 0 buf count
    vopWrite s i 0 buf count = (s', some count) ∧
      fileContent s' i = (List.range count).map buf ++
        (List.range (min (s.inodes i).size (p.count (s.inodes i) * 4096) - count)).map
          (fun j => s.data (p.first (s.inodes i) * 4096 + count + j)) ∧
      s'.inodes i = { s.inodes i with
        firstBlock := p.first (s.inodes i), blocks := p.count (s.inodes i),
        size := max (s.inodes i).size count } ∧
      copyLen (s'.inodes i) < 2 ^ 31 := by
  have hinode : (vopStore (p.run s i) i 0 buf count).inodes i = { s.inodes i with
      firstBlock := p.first (s.inodes i), blocks := p.count (s.inodes i),
      size := max (s.inodes i).size count } := by
    simp only [vopStore, VopPlan.run, Function.update_self, zero_add]
    rw [Nat.mod_eq_of_lt (by omega)]
  have hclamp : vopClamp ((p.run s i).inodes i) 0 count = some count := by
    unfold vopClamp
    rw [(p.run_moves s i).blocks, zero_add, if_neg (by omega)]
  dsimp only
  rw [vopWrite_eq hfile hp, hclamp]
  refine ⟨rfl, fileContent_store ?_ ?_ ?_ hle ?_, hinode, ?_⟩
  · rw [hinode]
  · rw [hinode]
  · rw [hinode]
  · simp only [vopStore, VopPlan.run, Function.update_self, add_zero]
    rw [hdata]
  · refine (copyLen_le _).trans_lt ?_
    rw [hinode]
    dsimp only
    omega

theorem vopWrite_start (hfile : (s.inodes i).isDir = false) (hcount : count ≤ 4096)
    (buf : ℕ → UInt8) :
    vopWrite s i 0 buf count = (s, none) ∨
      ∃ p s', vopPlan s (s.inodes i) 0 count = some (p, count) ∧
        vopWrite s i 0 buf count = (s', some count) ∧
        fileContent s' i = (List.range count).map buf ++ behind s i count ∧
        s'.inodes i = { s.inodes i with
          firstBlock := p.first (s.inodes i), blocks := p.count (s.inodes i),
          size := max (s.inodes i).size count } ∧
        copyLen (s'.inodes i) < 2 ^ 31 := by
  by_cases hkeep : count ≤ (s.inodes i).blocks * 4096
  · have hplan := vopPlan_keep hsmall hkeep
    obtain ⟨hs', hcontent, hrest⟩ := vopWrite_branch hfile hplan rfl hkeep
      (by simp only [VopPlan.count]; omega) buf
    refine Or.inr ⟨_, _, hplan, hs', hcontent.trans ?_, hrest⟩
    congr 1
    unfold behind
    split_ifs with hb hc
    · simp [VopPlan.count, hb]
    · omega
    · refine List.ext_getElem ?_ fun j _ _ => ?_
      · simp [fileContent_length, copyLen, VopPlan.count]
      · simp [fileContent, VopPlan.first, add_assoc]
  · have hb : (s.inodes i).blocks = 0 := by omega
    have hplan := vopPlan_fresh hsmall hb (by omega) hcount
    by_cases hfree : s.sb.freeBlocks = 0
    · rw [if_pos hfree] at hplan
      left
      unfold vopWrite
      rw [if_neg (by simp [hfile]), hplan]
    rw [if_neg hfree] at hplan
    cases hfind : vopFind s 1 with
    | none =>
      rw [hfind] at hplan
      left
      unfold vopWrite
      rw [if_neg (by simp [hfile]), hplan]
      rfl
    | some f =>
      rw [hfind] at hplan
      obtain ⟨hs', hcontent, hrest⟩ := vopWrite_branch hfile hplan rfl
        (by simpa [VopPlan.count] using hcount) (by simp [VopPlan.count]) buf
      refine Or.inr ⟨_, _, hplan, hs', hcontent.trans ?_, hrest⟩
      congr 1
      unfold behind
      rw [if_pos hb, if_neg (by omega), hfind]
      simp [VopPlan.count, VopPlan.first]

end Start

/-! ### Overwriting -/

/-- `count` bytes written at the start of an open file, which is then closed. -/
def overwrite (w : ByteVfs) (fd : ℤ) (buf : ℕ → UInt8) (count : ℕ) : ByteVfs × ℤ :=
  match vfsWriteBytes (onDevice w.dev (vfsLseek w.vfs fd 0 0).1) fd buf count with
  | (w, r) => (onDevice w.dev (vfsClose w.vfs fd).1, r)

/-- A write of `count` bytes at the start of file `i` spares the inode records, and the file as it is
then its own one. -/
def StartSpares (b : ByteFs) (i count : ℕ) : Prop :=
  ∀ pk ∈ vopPlan b.view (b.inode i) 0 count, CopySpares b i pk.1 ∧ PutSpares b i 0 pk.1 pk.2 ∧
    Apart i (blockAddr (pk.1.first (b.inode i))) (max (b.inode i).size count)

instance (b : ByteFs) (i count : ℕ) : Decidable (StartSpares b i count) := by
  unfold StartSpares; infer_instance

theorem vfsLseek_start (hgood : ¬ VState.badFd v fd) (hoff : (v.fileTable fd.toNat).offset = 0) :
    (vfsLseek v fd 0 0).1 = v := by
  unfold vfsLseek vfsSeekTarget
  rw [if_neg hgood, if_pos rfl]
  dsimp only
  rw [if_neg (by decide)]
  unfold VState.setOffset
  dsimp only
  rw [Int.toNat_zero, ← hoff, Function.update_eq_self]

/-- The two ends of the write. The vnodes and the caches of names stay, and the descriptor is free
again. -/
theorem overwrite_cases {w : ByteVfs} (hgood : ¬ VState.badFd w.vfs fd)
    (hi : VState.fileInode w.vfs fd.toNat = some i)
    (hoff : (w.vfs.fileTable fd.toNat).offset = 0) (buf : ℕ → UInt8) (count : ℕ) :
    (overwrite w fd buf count).2 = -1 ∨ (vopWriteBytes w.dev i 0 buf count).2 ≠ none ∧
      ∃ rd used ft, used fd.toNat = false ∧
        (overwrite w fd buf count).1 = onDevice (vopWriteBytes w.dev i 0 buf count).1
          { w.vfs with rdcache := rd, fdUsed := used, fileTable := ft } := by
  have hopen : ∀ u : VState, u.fdUsed = w.vfs.fdUsed → ¬ VState.badFd u fd := by
    intro u hu
    unfold VState.badFd at hgood ⊢
    rwa [hu]
  unfold overwrite vfsWriteBytes
  rw [vfsLseek_start hgood hoff, onDevice_self, if_neg hgood, hi]
  dsimp only
  rw [hoff]
  rcases vopWriteBytes w.dev i 0 buf count with ⟨b, _ | k⟩
  · exact Or.inl rfl
  · refine Or.inr ⟨nofun, ?_⟩
    dsimp only
    unfold vfsClose
    split_ifs with _ hbad hbad
    · exact absurd hbad (hopen _ rfl)
    · exact ⟨_, _, _, Function.update_self .., rfl⟩
    · exact absurd hbad (hopen _ rfl)
    · exact ⟨_, _, _, Function.update_self .., rfl⟩

theorem Budget.alike {s : Fs} (h : Budget v) (ha : Alike s v.fs) : Budget { v with fs := s } := by
  have hused : blocksUsed s = blocksUsed v.fs := by
    unfold blocksUsed
    rw [ha.sb]
    exact Finset.sum_congr rfl fun i hi => by rw [ha.inode i (Finset.mem_range.mp hi)]
  refine ⟨h.numbered.congr ha.sameTree, ?_, ?_, ?_, ?_⟩
  · rw [ha.sb]
    exact h.small
  · rw [ha.sb, hused]
    exact h.room
  · rw [ha.sb, ha.fds]
    exact h.fds
  · rw [ha.sb]
    exact h.nodes

theorem budget_bytes {w : ByteVfs} (h : Reach (Sparing VfsCall) ByteVfs.step initBytes w) :
    Budget w.vfs :=
  reach_inv (fun _ hv => hv.numbered) (fun _ _ ha hv => Budget.alike hv ha) (fun _ _ hok => hok.elim)
    budget_vfsInit (fun _ op _ hv => budget_vstep hv op) h

/-- What a write at the start of file `i` has made of `w`. -/
structure Overwritten (w u : ByteVfs) (fd : ℤ) (i : ℕ) (buf : ℕ → UInt8) (count : ℕ) : Prop where
  bytes : fileContent u.vfs.fs i = (List.range count).map buf ++ behind w.vfs.fs i count
  file : (u.vfs.fs.inodes i).isDir = false
  len : copyLen (u.vfs.fs.inodes i) < 2 ^ 31
  extent : ∃ pk ∈ vopPlan w.vfs.fs (w.vfs.fs.inodes i) 0 count,
    (u.vfs.fs.inodes i).firstBlock = pk.1.first (w.vfs.fs.inodes i) ∧
    (u.vfs.fs.inodes i).size = max (w.vfs.fs.inodes i).size count
  alike : Alike u.vfs.fs (vopWrite w.vfs.fs i 0 buf count).1
  rest : ∃ rd used ft, used fd.toNat = false ∧
    u.vfs = { w.vfs with fs := u.vfs.fs, rdcache := rd, fdUsed := used, fileTable := ft }

/-- A file that does not cover its own record has the bytes that it has with the areas apart. -/
theorem fileContent_apart {s : Fs} {b : ByteFs} (h : b.inode i = s.inodes i)
    (hapart : Apart i (blockAddr (s.inodes i).firstBlock) (s.inodes i).size)
    (hdata : ∀ x, ¬ OwnField i (8192 + x) → b.view.data x = s.data x) :
    fileContent b.view i = fileContent s i := by
  unfold fileContent
  rw [show b.view.inodes i = s.inodes i from h]
  refine List.map_congr_left fun j hj => hdata _ fun hown => ?_
  have hlt := List.mem_range.mp hj
  unfold copyLen Apart OwnField blockAddr at *
  omega

theorem Opened.overwrite {w : ByteVfs} (h : Opened v path mode w.vfs fd i) (hb : Budget w.vfs)
    (hcount : count ≤ 4096) (hok : StartSpares w.dev i count)
    (hr : ¬ (overwrite w fd buf count).2 < 0) :
    Overwritten w (overwrite w fd buf count).1 fd i buf count := by
  obtain ⟨hgood, hi, hoff⟩ := h.spec
  obtain ⟨n, -, hdata⟩ := Option.bind_eq_some_iff.mp hi
  have hlt := hb.nodes n i hdata
  have hboth : Both (vopWriteBytes w.dev i 0 buf count) (vopWrite w.dev.view i 0 buf count) :=
    vopWrite_both buf fun _ pk hpk => ⟨(hok pk hpk).1, (hok pk hpk).2.1⟩
  have hbytes : ∀ x, ¬ OwnField i (8192 + x) → (vopWriteBytes w.dev i 0 buf count).1.view.data x =
      (vopWrite w.dev.view i 0 buf count).1.data x :=
    fun _ => vopWrite_data buf fun _ pk hpk => (hok pk hpk).1
  rw [← w.fs_eq] at hboth hbytes
  rcases overwrite_cases hgood hi hoff buf count with hneg | ⟨hsome, rd, used, ft, hused, hu⟩
  · exact absurd (by rw [hneg]; decide) hr
  have hdone : (vopWrite w.vfs.fs i 0 buf count).2 ≠ none := by rwa [← hboth.value]
  have hfile : (w.vfs.fs.inodes i).isDir = false := by
    by_contra hdir
    unfold vopWrite at hdone
    rw [if_pos (by simpa using hdir)] at hdone
    exact hdone rfl
  have hcount' := (vopWrite_sameTree w.vfs.fs i 0 buf count).count
  rcases vopWrite_start (hb.blocks_lt hlt) hfile hcount buf with
    hnone | ⟨p, s', hp, hs', hcontent, hinode, hlen⟩
  · exact absurd (by rw [hnone]) hdone
  have hi' : (vopWriteBytes w.dev i 0 buf count).1.inode i = s'.inodes i := by
    have halike := hboth.state.inode i (hcount' ▸ hlt)
    rwa [hs'] at halike
  have hi'' := hi'.trans hinode
  rw [hu]
  refine ⟨?_, ?_, ?_, ⟨_, hp, ?_, ?_⟩, hboth.state, rd, used, ft, hused, rfl⟩
  · refine (fileContent_apart hi' ?_ fun x hx => ?_).trans hcontent
    · rw [hinode, w.fs_eq]
      exact (hok _ (w.fs_eq ▸ hp)).2.2
    · rw [hbytes x hx, hs']
  · exact (congrArg Inode.isDir hi'').trans hfile
  · exact (congrArg copyLen hi').trans_lt hlen
  · exact congrArg Inode.firstBlock hi''
  · exact congrArg Inode.size hi''

theorem readBack_overwrite {w : ByteVfs} (hn : Numbered v.fs) (h : Opened v path mode w.vfs fd i)
    (hb : Budget w.vfs) (hcount : count ≤ 4096) (hok : StartSpares w.dev i count)
    (hr : ¬ (overwrite w fd buf count).2 < 0) :
    readBack (overwrite w fd buf count).1.vfs path =
      some ((List.range count).map buf ++ behind w.vfs.fs i count) := by
  obtain ⟨hbytes, hfile, hlen, -, -, rd, used, ft, hused, hrest⟩ := h.overwrite hb hcount hok hr
  have hfd : fd.toNat < 64 := by
    obtain ⟨hgood, -⟩ := h.spec
    unfold VState.badFd at hgood
    omega
  obtain ⟨hagain, hfs⟩ := vfsOpen_again (u := (overwrite w fd buf count).1.vfs) hn h
    (by rw [hrest]) (fun n => by rw [hrest]) ⟨_, hfd, by rw [hrest]; exact hused⟩ 1
  rw [readBack_opened hagain (by rw [hfs]; exact hfile) (by rw [hfs]; exact hlen), hfs, hbytes]

/-- The calls that make a file with the bytes `bytes` in the root directory. -/
def making (name : CStr) (bytes : List UInt8) : List VOp :=
  [.create 0 name, .open_ (slash :: name) 3,
    .write 0 (fun j => bytes.getD j 0) bytes.length, .close 0]

end Kerneloid.Vfs.Contents
