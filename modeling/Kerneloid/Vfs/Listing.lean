import Kerneloid.Vfs.Bytes
import Kerneloid.Vfs.Coherence

/-! # Listing a directory

`unnamedfs_vop_readdir` has three ways to find child number `index`: from `rdcache`, from a list it
has just built for `rdcache`, or by a scan of the inode table (`scanReaddir`). The runs here are
those of VFS calls on the bytes of the device, without direct calls of the file system below. As long
as the writes spare the inode records, the three ways agree in every state reached
(`readdir_cache_coherent`); a write that does not may return 0, and `rdcache` is kept then.

A listing reads entries until there are no more (`listDir`). It gives every inode whose parent field
is the directory, and so a directory that is its own parent lists itself (`listing_exact`). The root
always does.

The invariant is `Tidy`. The tree may be damaged by then: a removal loses the root vnode, a stale
vnode can become the parent of a new inode. What remains is that a directory vnode stands for the
inode of its number, that `rdcache` is up to date, and that what the dentry cache answers is the
root or, if it is in use, has an accurate vnode. -/

namespace Kerneloid.Vfs.Listing

open Lib.Runs UnnamedFS.Types UnnamedFS.Path UnnamedFS.Lookup UnnamedFS.Ops UnnamedFS.Effects
open UnnamedFS.Slots Types Vfs.Path Walk Write Ops Effects Removal Coherence Bytes

variable {v w : VState}

/-! ### The scan -/

/-- The last loop of `unnamedfs_vop_readdir` over the slots `is`: `found` children were passed. -/
def scanFrom (s : Fs) (ino index : ℕ) : List ℕ → ℕ → Option ℕ
  | [], _ => none
  | i :: is, found =>
    if (s.inodes i).isLive = false then scanFrom s ino index is found
    else if (s.inodes i).parent = ino then
      if found = index then some i else scanFrom s ino index is (found + 1)
    else scanFrom s ino index is found

/-- `unnamedfs_vop_readdir` without `rdcache`. -/
def scanReaddir (v : VState) (dir size index : ℕ) : Option CStr :=
  if (v.nodes dir).type ≠ .dir then none
  else
    match (v.nodes dir).data with
    | none => none
    | some d =>
      (scanFrom v.fs (v.fs.inodes d).ino index (List.range v.fs.sb.inodeCount) 0).map fun i =>
        (v.fs.inodes i).name.take (size - 1)

theorem scanFrom_eq (s : Fs) (ino index : ℕ) : ∀ (is : List ℕ) (found : ℕ), found ≤ index →
    scanFrom s ino index is found = (is.filter fun i =>
      (s.inodes i).isLive && decide ((s.inodes i).parent = ino))[index - found]?
  | [], _, _ => rfl
  | i :: is, found, hle => by
    unfold scanFrom
    by_cases hl : (s.inodes i).isLive = false
    · rw [if_pos hl, List.filter_cons_of_neg (by simp [hl])]
      exact scanFrom_eq s ino index is found hle
    rw [if_neg hl]
    by_cases hp : (s.inodes i).parent = ino
    · rw [if_pos hp, List.filter_cons_of_pos (by simpa [hp] using hl)]
      by_cases hf : found = index
      · rw [if_pos hf, hf, Nat.sub_self]
        rfl
      · rw [if_neg hf, scanFrom_eq s ino index is (found + 1) (by omega),
          show index - found = index - (found + 1) + 1 by omega, List.getElem?_cons_succ]
    · rw [if_neg hp, List.filter_cons_of_neg (by simp [hp])]
      exact scanFrom_eq s ino index is found hle

theorem scanFrom_children (s : Fs) (ino index : ℕ) :
    scanFrom s ino index (List.range s.sb.inodeCount) 0 = (childrenOf s ino)[index]? :=
  scanFrom_eq s ino index _ 0 (Nat.zero_le index)

theorem mem_childrenOf {s : Fs} {ino i : ℕ} :
    i ∈ childrenOf s ino ↔ s.Live i ∧ (s.inodes i).parent = ino := by
  simp [childrenOf, Fs.Live, and_assoc]

theorem childrenOf_length (s : Fs) (ino : ℕ) : (childrenOf s ino).length ≤ s.sb.inodeCount :=
  (List.length_filter_le _ _).trans (List.length_range).le

theorem childrenOf_congr {s s' : Fs} (h : SameTree s s') (ino : ℕ) :
    childrenOf s' ino = childrenOf s ino := by
  unfold childrenOf
  rw [h.count]
  refine List.filter_congr fun i hi => ?_
  have hlt := List.mem_range.mp hi
  rw [h.isLive hlt, h.parent i hlt]

/-! ### The invariant -/

/-- What a lookup may answer: the root, or a vnode that is accurate if its inode is in use. -/
def Trusted (v : VState) (n : ℕ) : Prop := n = 0 ∨ (v.fs.Live n → Accurate v n)

/-- The list in `rdcache` is that of the inode with the number of the vnode. -/
def Listed (s : Fs) (rd : RdCache) : Prop :=
  rd.valid = true → rd.dir < s.sb.inodeCount ∧ rd.children = childrenOf s (s.inodes rd.dir).ino

/-- **The invariant.** -/
structure Tidy (v : VState) : Prop where
  numbered : Numbered v.fs
  root : v.root = 0
  data : ∀ n, (v.nodes n).type = .dir → (v.nodes n).data = some n ∧ n < v.fs.sb.inodeCount
  names : ∀ i, v.fs.Live i → (v.fs.inodes i).name.length ≤ 63
  cache : ∀ i k n, Holds v i k n → Trusted v n
  listed : Listed v.fs v.rdcache

/-- From `v` to `w` the step is calm, and what the caches hold is old or right. -/
structure Quiet (v w : VState) : Prop where
  calm : Calm v w
  cache : ∀ i k n, Holds w i k n → Holds v i k n ∨ Trusted w n
  listed : Listed v.fs v.rdcache → Listed v.fs w.rdcache

theorem Trusted.calm {n : ℕ} (h : Trusted v n) (hc : Calm v w) : Trusted w n := by
  refine h.imp_right fun h hl => ?_
  rw [hc.fs] at hl
  exact Accurate.calm (h hl) hc

theorem Quiet.refl (v : VState) : Quiet v v := ⟨.refl v, fun _ _ _ h => Or.inl h, id⟩

theorem Quiet.trans {u v w : VState} (h : Quiet u v) (h' : Quiet v w) : Quiet u w := by
  refine ⟨h.calm.trans h'.calm, fun i k n hn => ?_, fun hl => ?_⟩
  · rcases h'.cache i k n hn with ho | ht
    · exact (h.cache i k n ho).imp_right fun ht => ht.calm h'.calm
    · exact Or.inr ht
  · have := h'.listed
    rw [h.calm.fs] at this
    exact this (h.listed hl)

theorem Tidy.quiet (h : Tidy v) (hq : Quiet v w) : Tidy w := by
  have hc := hq.calm
  refine ⟨by rw [hc.fs]; exact h.numbered, by rw [hc.root]; exact h.root, fun n hn => ?_,
    by rw [hc.fs]; exact h.names, fun i k n hn => ?_, by rw [hc.fs]; exact hq.listed h.listed⟩
  · rw [hc.fs]
    rcases hc.node n with ⟨ht, hd⟩ | ⟨hl, -, hd⟩
    · rw [hd]
      exact h.data n (ht ▸ hn)
    · exact ⟨hd, hl.1⟩
  · rcases hq.cache i k n hn with ho | ht
    · exact (h.cache i k n ho).calm hc
    · exact ht

theorem Calm.quiet (hc : Calm v w) (hd : w.dcache = v.dcache)
    (hr : w.rdcache = v.rdcache) : Quiet v w := by
  refine ⟨hc, fun i k n hn => Or.inl ?_, by rw [hr]; exact id⟩
  unfold Holds at hn ⊢
  rw [← hd]
  exact hn

theorem Refreshed.quiet (h : Refreshed v w) : Quiet v w :=
  Calm.quiet (Refreshed.calm h) (by rw [h.rest]) (by rw [h.rest])

/-! ### Lookups -/

theorem vfsWalk_accurate (h : Numbered v.fs) (hroot : v.root = 0) {path : CStr} {n : ℕ}
    (hw : vfsWalk v path = (w, some n)) : n = 0 ∨ Accurate w n := by
  have hends := walkFrom_ends (P := fun v n => n = 0 ∨ Accurate v n)
    (fun _ _ _ hr ha => ha.imp_right fun ha => ha.refreshed hr)
    (fun _ _ hi => Or.inr (accurate_refresh hi)) (components path) (n := n) h (Or.inl hroot)
    (Or.inl hroot) (congrArg Prod.snd hw)
  rwa [show walkFrom v v.root (components path) = _ from hw] at hends

theorem Tidy.lookup (h : Tidy v) (path : CStr) :
    Quiet v (vfsLookup v path).1 ∧
      ∀ n, (vfsLookup v path).2 = some n → Trusted (vfsLookup v path).1 n := by
  have hlook := vfsLookup_looked v path
  have hcalm := vfsLookup_calm h.numbered path
  generalize vfsLookup v path = q at hlook hcalm ⊢
  cases hlook with
  | empty he => exact ⟨.refl v, fun n hn => by cases hn⟩
  | @hit he i n hi =>
    refine ⟨⟨hcalm, fun j k m hm => Or.inl (holds_touch.mp hm), id⟩, fun m hm => ?_⟩
    cases hm
    exact (h.cache i _ n hi).calm hcalm
  | miss he hw =>
    have hr := vfsWalk_refreshed h.numbered path
    rw [hw] at hr
    exact ⟨Refreshed.quiet hr, fun n hn => by cases hn⟩
  | @found he w n hw =>
    have hr := vfsWalk_refreshed h.numbered path
    rw [hw] at hr
    have ha := vfsWalk_accurate h.numbered h.root hw
    have hins := calm_caches w (dcacheInsert w (pathNormalize path 256) n).dcache
      (dcacheInsert w (pathNormalize path 256) n).dcacheTick w.rdcache
    have ht : Trusted (dcacheInsert w (pathNormalize path 256) n) n :=
      Trusted.calm (ha.imp_right fun ha _ => ha) hins
    refine ⟨(Refreshed.quiet hr).trans ⟨hins, fun i k m hm => ?_, id⟩, fun m hm => ?_⟩
    · refine (holds_insert (pathNormalize_length path) hm).imp_right fun hnew => ?_
      rw [hnew.2]
      exact ht
    · cases hm
      exact ht

/-! ### Reading a directory -/

/-- **The list is up to date**: `unnamedfs_vop_readdir` answers as the scan does. -/
theorem Tidy.readdir (h : Tidy v) (dir size index : ℕ) :
    (vopReaddir v dir size index).2 = scanReaddir v dir size index ∧
      Quiet v (vopReaddir v dir size index).1 := by
  unfold vopReaddir scanReaddir
  by_cases ht : (v.nodes dir).type ≠ .dir
  · rw [if_pos ht, if_pos ht]
    exact ⟨rfl, .refl v⟩
  obtain ⟨hdata, hlt⟩ := h.data dir (not_not.mp ht)
  rw [if_neg ht, if_neg ht, hdata]
  dsimp only
  rw [scanFrom_children]
  by_cases hr : v.rdcache.valid = true ∧ v.rdcache.dir = dir
  · obtain ⟨-, hkids⟩ := h.listed hr.1
    rw [hr.2] at hkids
    rw [if_pos hr, hkids]
    cases hi : (childrenOf v.fs (v.fs.inodes dir).ino)[index]? with
    | none => exact ⟨rfl, .refl v⟩
    | some i =>
      -- an entry of an up-to-date list passes both checks
      obtain ⟨hlive, -⟩ := mem_childrenOf.mp (List.mem_of_getElem? hi)
      dsimp only
      rw [if_neg (by have := hlive.1; omega), if_neg (by simp [hlive.2])]
      exact ⟨rfl, .refl v⟩
  · rw [if_neg hr]
    by_cases h8 : 8 < (childrenOf v.fs (v.fs.inodes dir).ino).length
    · simp only [if_pos h8]
      exact ⟨trivial, calm_caches v v.dcache v.dcacheTick _, fun _ _ _ hn => Or.inl hn,
        fun _ _ => ⟨hlt, rfl⟩⟩
    · simp only [if_neg h8]
      exact ⟨trivial, .refl v⟩

theorem FilesOnly.quiet (h : FilesOnly v w) : Quiet v w :=
  Calm.quiet h.calm (by rw [h.rest]) (by rw [h.rest])

theorem setOffset_quiet (v : VState) (fd off : ℕ) : Quiet v (VState.setOffset v fd off) :=
  FilesOnly.quiet (setOffset_files v fd off)

theorem Tidy.vfsReaddir_quiet (h : Tidy v) (fd : ℤ) (size : ℕ) :
    Quiet v (vfsReaddir v fd size).1 := by
  rcases vfsReaddir_cases v fd size with e | ⟨dir, w, rfl, e⟩
  · rw [e]; exact .refl v
  have hq := (h.readdir dir size (v.fileTable fd.toNat).offset).2
  rcases e with e | ⟨off, e⟩
  · rw [e]; exact hq
  · rw [e]; exact hq.trans (setOffset_quiet _ _ _)

/-! ### The other calls that leave the tree alone -/

theorem Tidy.opened (h : Tidy v) (path : CStr) (mode : ℤ) :
    Tidy (vfsOpen v path mode).1 := by
  have hl := h.quiet (h.lookup path).1
  have hs := vfsOpen_steady v path mode
  have hrd : (vfsOpen v path mode).1.rdcache = (vfsLookup v path).1.rdcache := by
    have ho := vfsOpen_opening v path mode
    generalize (vfsOpen v path mode).1 = v' at ho ⊢
    cases ho with
    | refused => rfl
    | unused hw hu f => rw [hw]
    | opened hl hd hk hu => rw [hl]; rfl
  refine ⟨by rw [hs.fs]; exact hl.numbered, by rw [hs.root]; exact hl.root, fun n hn => ?_,
    by rw [hs.fs]; exact hl.names, fun i k n hn => ?_, by rw [hs.fs, hrd]; exact hl.listed⟩
  · rw [hs.type] at hn
    rw [hs.data, hs.fs]
    exact hl.data n hn
  · refine (hl.cache i k n (hs.holds.mp hn)).imp_right fun ha hlive => ?_
    rw [hs.fs] at hlive
    exact ⟨by rw [hs.fs]; exact hlive, by rw [hs.type, hs.fs]; exact (ha hlive).type,
      by rw [hs.data]; exact (ha hlive).data⟩

/-! ### Writes -/

theorem Tidy.sameTree (h : Tidy v) {s : Fs} (hs : SameTree v.fs s) :
    Tidy { v with fs := s } := by
  refine ⟨h.numbered.congr hs, h.root, fun n hn => ⟨(h.data n hn).1, ?_⟩, fun i hi => ?_,
    fun i k n hn => ?_, fun hv => ?_⟩
  · rw [hs.count]
    exact (h.data n hn).2
  · have hi := (hs.live i).mp hi
    rw [hs.name i hi.1]
    exact h.names i hi
  · refine (h.cache i k n hn).imp_right fun ha hl => ?_
    have ha' := ha ((hs.live n).mp hl)
    refine ⟨hl, ?_, ha'.data⟩
    unfold typeOf
    dsimp only
    rw [hs.isDir ha'.live.1]
    exact ha'.type
  · obtain ⟨hlt, hkids⟩ := h.listed hv
    dsimp only
    rw [hs.count, hs.ino _ hlt, childrenOf_congr hs]
    exact ⟨hlt, hkids⟩

theorem quiet_dropRdcache (v : VState) : Quiet v v.dropRdcache :=
  ⟨calm_caches v v.dcache v.dcacheTick _, fun _ _ _ hn => Or.inl hn,
    fun _ hv => absurd hv (by simp [VState.dropRdcache])⟩

theorem Tidy.write (h : Tidy v) (fd : ℤ) (buf : ℕ → UInt8) (count : ℕ) :
    Tidy (vfsWrite v fd buf count).1 := by
  unfold vfsWrite
  by_cases hfd : VState.badFd v fd
  · rw [if_pos hfd]; exact h
  rw [if_neg hfd]
  cases VState.fileInode v fd.toNat with
  | none => exact h
  | some i =>
    dsimp only
    have hs := h.sameTree (vopWrite_sameTree v.fs i (v.fileTable fd.toNat).offset buf count)
    generalize vopWrite v.fs i (v.fileTable fd.toNat).offset buf count = q at hs ⊢
    obtain ⟨s, o⟩ := q
    cases o with
    | none => exact hs
    | some k =>
      have hmoved := hs.quiet
        (setOffset_quiet _ fd.toNat (((v.fileTable fd.toNat).offset + k) % 2 ^ 32))
      dsimp only
      split_ifs
      · exact hmoved.quiet (quiet_dropRdcache _)
      · exact hmoved

/-! ### New inodes -/

theorem Tidy.added (h : Tidy v) (hw : Refreshed v w) {j flags d : ℕ} {name : CStr}
    (hf : flags = 1 ∨ flags = 2) (hj : FreeSlot v.fs j) : Tidy (addedState w j flags d name) := by
  have ht := h.quiet (Refreshed.quiet hw)
  have hlive : (newInode w.fs j flags d name).isLive = true := newInode_isLive hf
  have hj' : FreeSlot w.fs j := by rw [hw.fs]; exact hj
  refine ⟨ht.numbered.insert hj' hlive rfl, ht.root, fun n hn => ?_, fun i hi => ?_, ?_, ?_⟩
  · obtain ⟨hdata, hlt⟩ := ht.data n hn
    exact ⟨hdata, lt_max_of_lt_left hlt⟩
  · by_cases hij : i = j
    · subst hij
      simp [addedState, dcacheFlush, VState.dropRdcache, putInode, newInode]
    · have hold := ((addInode_live w.fs.icache hj' hlive i).mp hi).resolve_right hij
      have hkeep : (addedState w j flags d name).fs.inodes i = w.fs.inodes i := by
        simp [addedState, dcacheFlush, VState.dropRdcache, putInode, hij]
      rw [hkeep]
      exact ht.names i hold
  · rintro i k n ⟨hv, -⟩
    exact absurd hv (by simp [addedState, dcacheFlush, VState.dropRdcache])
  · intro hv
    exact absurd hv (by simp [addedState, dcacheFlush, VState.dropRdcache])

theorem quiet_invalidate (v : VState) (path : CStr) :
    Quiet v (dcacheInvalidate v path).dropRdcache := by
  refine ⟨calm_caches v _ v.dcacheTick _, fun i k n hn => Or.inl ?_,
    fun _ hv => absurd hv (by simp [VState.dropRdcache])⟩
  simp only [Holds, dcacheInvalidate, VState.dropRdcache, Bool.and_eq_true] at hn
  exact ⟨hn.1.1, hn.2⟩

theorem Tidy.mkdir (h : Tidy v) (path : CStr) : Tidy (vfsMkdir v path).1 := by
  have hm := vfsMkdir_mkdir h.numbered path
  generalize vfsMkdir v path = q at hm ⊢
  cases hm with
  | early => exact h
  | noParent hlen => exact h.quiet (h.lookup _).1
  | failed hlen h1 ht hw =>
    have hv1 := h.quiet (h.lookup (splitLast (chars path)).1).1
    rw [h1] at hv1
    exact (hv1.quiet (hv1.lookup (chars path)).1).quiet (Refreshed.quiet hw)
  | @made v1 v2 w parent d j name hlen h1 h2 ht hd hl hw hj hn =>
    have hq1 := (h.lookup (splitLast (chars path)).1).1
    rw [h1] at hq1
    have hv1 := h.quiet hq1
    have hq2 := (hv1.lookup (chars path)).1
    rw [h2] at hq2
    have hj2 : FreeSlot v2.fs j := by rw [hq2.calm.fs, hq1.calm.fs]; exact mkdirSlot_free hj
    exact ((hv1.quiet hq2).added hw (Or.inr rfl) hj2).quiet (quiet_invalidate _ _)

theorem Tidy.create (h : Tidy v) (dir : ℕ) (name : CStr) :
    Tidy (vopCreate v dir name).1 := by
  unfold vopCreate
  rcases vopNew_cases h.numbered dir name 1 createSlot with
    ⟨w, hw, hm⟩ | ⟨w, d, j, hw, -, -, -, -, hj, hm⟩
  · rw [hm]; exact h.quiet (Refreshed.quiet hw)
  · rw [hm]; exact h.added hw (Or.inl rfl) (createSlot_free hj)

/-! ### Removals -/

theorem removes_nonzero {s : Fs} (h : Numbered s) {t r : ℕ} (hr : removes s t = some r) : r ≠ 0 :=
  h.ne_root (removes_spec hr).2.2

theorem Tidy.removed (h : Tidy w) {norm : CStr} {target t r : ℕ}
    (ht : t < w.fs.sb.inodeCount) (hr : removes w.fs t = some r)
    (hz : Zeroed w.fs (step w.fs (removeOp w.fs t)) r) :
    Tidy (removedState w norm target t r) := by
  refine ⟨h.numbered.erase hz (removes_nonzero h.numbered hr), h.root, fun n hn => ?_, fun i hi => ?_,
    fun i k n hn => ?_, fun hv => ?_⟩
  · rw [removedState_type] at hn
    rw [removedState_data, removedState_fs, hz.count]
    split_ifs at hn ⊢ with hm
    · -- if the target was removed, the record that fills vnode 0 is no directory
      unfold refreshedNode at hm
      split_ifs at hm with hrt
      · have hself : (step w.fs (removeOp w.fs t)).inodes t = .zero := by rw [← hz.self, hrt]
        rw [hself] at hn
        exact absurd hn (by decide)
      · rw [hm]
        exact ⟨rfl, ht⟩
    · exact h.data n hn
  · obtain ⟨hl, hne⟩ := (hz.live i).mp hi
    rw [removedState_fs, hz.other hne]
    exact h.names i hl
  · refine (h.cache i k n (holds_removed hn).1).imp_right fun ha hl => ?_
    obtain ⟨hl', hne⟩ := (hz.live n).mp hl
    have hm := (holds_removed hn).2.2.1
    refine ⟨hl, ?_, ?_⟩
    · rw [removedState_type, if_neg hm, removedState_fs, hz.other hne]
      exact (ha hl').type
    · rw [removedState_data, if_neg hm]
      exact (ha hl').data
  · exact absurd hv (by simp [removedState, VState.dropRdcache])

theorem Tidy.finish (h : Tidy v) (norm : CStr) (target parent : ℕ) (name : CStr) :
    Tidy (finishRemoval v norm target parent name).1 := by
  rcases finishRemoval_cases h.numbered norm target parent name with
    ⟨ic, hf⟩ | ⟨t, r, ht, hr, hz, hf⟩
  · rw [hf]; exact h.sameTree (.of_eq rfl rfl fun _ _ => rfl)
  · rw [hf]; exact h.removed (unlinkTarget_live ht).1 hr hz

theorem Tidy.course (h : Tidy v) {path : CStr} {q : VState × ℤ}
    (hc : Course v path q) : Tidy q.1 := by
  have hnorm : Tidy (lookNorm v path).1 := h.quiet (h.lookup _).1
  have hparent : Tidy (lookParent v path).1 := hnorm.quiet (hnorm.lookup _).1
  cases hc with
  | early => exact h
  | noTarget => exact hnorm
  | noParent => exact hparent
  | occupied target => exact hparent.quiet (hparent.readdir target 64 0).2
  | @finish w target parent hw hn hp =>
    rcases hw with rfl | rfl
    · exact hparent.finish _ _ _ _
    · -- the check that the directory is empty may fill `rdcache`
      exact (hparent.quiet (hparent.readdir target 64 0).2).finish _ _ _ _

theorem Tidy.remove (h : Tidy v) (dir : Bool) (path : CStr) :
    Tidy (vfsRemove dir v path).1 := h.course (vfsRemove_course dir v path)

/-! ### Runs -/

theorem Tidy.vstep (h : Tidy v) {op : VOp} (hok : VfsCall v op) :
    Tidy (vstep v op) := by
  cases op with
  | lookup path => exact h.quiet (h.lookup path).1
  | stat path => exact h.quiet (h.lookup path).1
  | open_ path mode => exact h.opened path mode
  | close fd => exact h.quiet (FilesOnly.quiet (vfsClose_files v fd))
  | read fd count => exact h.quiet (FilesOnly.quiet (vfsRead_files v fd count))
  | write fd buf count => exact h.write fd buf count
  | lseek fd offset whence => exact h.quiet (FilesOnly.quiet (vfsLseek_files v fd offset whence))
  | readdir fd size => exact h.quiet (h.vfsReaddir_quiet fd size)
  | mkdir path => exact h.mkdir path
  | unlink path => exact h.remove false path
  | rmdir path => exact h.remove true path
  | create dir name => exact h.create dir name
  | fs op => exact hok.elim

theorem tidy_vfsInit : Tidy vfsInit := by
  refine ⟨numbered_vfsInit, rfl, fun n hn => ?_, fun i hi => ?_, ?_, fun hv => ?_⟩
  · by_cases h0 : n = 0
    · subst h0; exact ⟨rfl, by decide +kernel⟩
    · rw [vfsInit_node h0] at hn
      exact absurd hn (by simp)
  · have hlt : i < 5 := hi.1
    interval_cases i <;> decide +kernel
  · rintro i k n ⟨hv, -⟩
    exact absurd hv Bool.false_ne_true
  · exact absurd hv Bool.false_ne_true

theorem tidy_reach {w : ByteVfs} (h : Reach (Sparing VfsCall) ByteVfs.step initBytes w) :
    Tidy w.vfs :=
  reach_inv (fun _ hv => hv.numbered) (fun _ _ ha hv => hv.sameTree ha.sameTree)
    (fun _ _ hok _ => hok.elim) tidy_vfsInit (fun _ _ hok hv => hv.vstep hok) h

/-- **The list in `rdcache` is coherent.** In every state reached by calls of the VFS whose writes
spare the inode records, reading any entry of any vnode gives what the scan of the inode table
gives. -/
theorem readdir_cache_coherent (w : ByteVfs) (h : Reach (Sparing VfsCall) ByteVfs.step initBytes w)
    (dir size index : ℕ) :
    (vopReaddir w.vfs dir size index).2 = scanReaddir w.vfs dir size index :=
  ((tidy_reach h).readdir dir size index).1

/-- Nine entries under the root, read twice: the second time from `rdcache`. -/
def nineEntries : ByteVfs :=
  [VOp.mkdir (cstr "/a"), .mkdir (cstr "/b"), .mkdir (cstr "/c"), .mkdir (cstr "/d"),
    .open_ (cstr "/") 0, .readdir 0 64].foldl ByteVfs.step initBytes

theorem readdir_cache_coherent_nine :
    nineEntries.vfs.rdcache.valid = true ∧
      (vopReaddir nineEntries.vfs 0 64 8).2 = some (cstr "d") :=
  ⟨by decide +kernel, (readdir_cache_coherent nineEntries
    (Reach.foldl _ .init (by decide +kernel)) 0 64 8).trans (by decide +kernel)⟩

/-- 40 bytes of block 4, then a record for inode 5: a file in directory 3 that starts at block 2. -/
def forged (size blocks : ℕ) (k : ℕ) : UInt8 :=
  (((List.replicate 40 0 ++ [5, 0, 0, 0, size % 256, size / 256, 0, 0, 1, 0, 0, 0, 3, 0, 0, 0,
    2, 0, 0, 0, blocks]).getD k 0 : ℕ)).toUInt8

/-- Nine files under `/home`. The bytes of `c` are the record of `a`: as a file of 4097 bytes while
`a` is read, so that its offset is 4097, and then as one of 64 bytes in one block. After a listing of
`/home`, a write of no bytes relocates `a` to block 5, over the record of `b`. -/
def staleList : ByteVfs :=
  [VOp.open_ (cstr "/home") 0, .create 3 (cstr "a"), .create 3 (cstr "b"), .create 3 (cstr "c"),
    .create 3 (cstr "d"), .create 3 (cstr "e"), .create 3 (cstr "f"), .create 3 (cstr "g"),
    .create 3 (cstr "h"), .create 3 (cstr "i"), .open_ (cstr "/home/a") 0,
    .open_ (cstr "/home/b") 0, .open_ (cstr "/home/c") 0, .open_ (cstr "/home/c") 0,
    .write 1 (fun _ => 0) 1, .write 2 (fun _ => 0) 1, .write 3 (forged 4097 2) 64, .read 1 4096,
    .write 4 (forged 64 1) 64, .readdir 0 64, .write 1 (fun _ => 0) 0].foldl ByteVfs.step initBytes

/-- The second entry of `/home` is not in use for `rdcache`, and `c` for the scan. -/
theorem stale_list_kept :
    Reach (fun w op => VfsCall w.vfs op) ByteVfs.step initBytes staleList ∧
      (vopReaddir staleList.vfs 3 64 1).2 = none ∧
      scanReaddir staleList.vfs 3 64 1 = some (cstr "c") :=
  ⟨Reach.foldl _ .init (by simp [Admits, VfsCall]), by decide +kernel⟩

/-! ### Whole listings -/

/-- `vfs_readdir` called until it returns -1: the names in the order read. `none` if that took more
than `fuel` calls. -/
def listDir : ℕ → VState → ℤ → ℕ → Option (List CStr)
  | 0, _, _, _ => none
  | fuel + 1, v, fd, size =>
    match vfsReaddir v fd size with
    | (_, none) => some []
    | (v, some name) => (listDir fuel v fd size).map (name :: ·)

/-- The names of the children of directory `d`, which is not among its children. -/
def childNames (s : Fs) (d : ℕ) : List CStr :=
  ((childrenOf s d).filter fun i => i != d).map fun i => (s.inodes i).name

theorem vfsReaddir_entry (h : Tidy v) {fd : ℤ} {size d : ℕ} (hsize : size ≠ 0)
    (hfd : ¬ VState.badFd v fd) (hn : (v.fileTable fd.toNat).node = some d)
    (ht : (v.nodes d).type = .dir) : ∃ rd,
    vfsReaddir v fd size =
      match (childrenOf v.fs (v.fs.inodes d).ino)[(v.fileTable fd.toNat).offset]? with
      | none => ({ v with rdcache := rd }, none)
      | some i =>
        (VState.setOffset { v with rdcache := rd } fd.toNat
          (((v.fileTable fd.toNat).offset + 1) % 2 ^ 32),
          some ((v.fs.inodes i).name.take (size - 1))) := by
  have hscan := (h.readdir d size (v.fileTable fd.toNat).offset).1
  obtain ⟨rd, hrd⟩ := vopReaddir_rdcache v d size (v.fileTable fd.toNat).offset
  rw [scanReaddir, if_neg (by simp [ht]), (h.data d ht).1] at hscan
  dsimp only at hscan
  rw [scanFrom_children] at hscan
  refine ⟨rd, ?_⟩
  unfold vfsReaddir
  rw [if_neg hsize, if_neg hfd]
  dsimp only
  rw [hn]
  dsimp only
  rw [if_neg (by simp [ht])]
  revert hscan hrd
  generalize vopReaddir v d size (v.fileTable fd.toNat).offset = q
  obtain ⟨w, o⟩ := q
  intro hrd hscan
  dsimp only at hrd hscan
  subst hrd hscan
  cases (childrenOf v.fs (v.fs.inodes d).ino)[(v.fileTable fd.toNat).offset]? with
  | none => rfl
  | some i => rfl

/-- **The entries from an offset on.** Each call reads one and moves the offset by one; `rdcache`
may be filled on the way. -/
theorem listDir_from {s : Fs} {fd : ℤ} {size d : ℕ} (hsize : size ≠ 0) {kids : List ℕ}
    (hkids : kids = childrenOf s (s.inodes d).ino) :
    ∀ (fuel : ℕ) (v : VState), Tidy v → v.fs = s → ¬ VState.badFd v fd →
      (v.fileTable fd.toNat).node = some d → (v.nodes d).type = .dir →
      (v.fileTable fd.toNat).offset ≤ kids.length →
      kids.length - (v.fileTable fd.toNat).offset < fuel →
      listDir fuel v fd size = some ((kids.drop (v.fileTable fd.toNat).offset).map fun i =>
        (s.inodes i).name.take (size - 1))
  | 0, _, _, _, _, _, _, _, hf => absurd hf (by omega)
  | fuel + 1, v, h, hs, hfd, hn, ht, hoff, hf => by
    subst hs
    have htidy := h.quiet (h.vfsReaddir_quiet fd size)
    obtain ⟨rd, hread⟩ := vfsReaddir_entry h hsize hfd hn ht
    have hlen : kids.length ≤ 256 := by
      rw [hkids]
      exact (childrenOf_length _ _).trans h.numbered.count_le
    rw [← hkids] at hread
    unfold listDir
    rw [hread] at htidy ⊢
    generalize hk : (v.fileTable fd.toNat).offset = k at *
    by_cases hend : k < kids.length
    · rw [List.getElem?_eq_getElem hend] at htidy ⊢
      dsimp only at htidy ⊢
      have hmod : (k + 1) % 2 ^ 32 = k + 1 := Nat.mod_eq_of_lt (by omega)
      rw [hmod] at htidy ⊢
      generalize hw : VState.setOffset { v with rdcache := rd } fd.toNat (k + 1) = w at *
      have hoff' : (w.fileTable fd.toNat).offset = k + 1 := by simp [← hw, VState.setOffset]
      have hn' : (w.fileTable fd.toNat).node = some d := by simp [← hw, VState.setOffset, hn]
      rw [listDir_from hsize hkids fuel w htidy (by rw [← hw]; rfl) (by rw [← hw]; exact hfd) hn'
        (by rw [← hw]; exact ht) (by omega) (by omega), hoff', List.drop_eq_getElem_cons hend]
      rfl
    · rw [List.getElem?_eq_none (by omega), List.drop_of_length_le (by omega)]
      rfl

theorem listDir_file {fd : ℤ} {size d fuel : ℕ}
    (hn : (v.fileTable fd.toNat).node = some d) (ht : (v.nodes d).type ≠ .dir) :
    listDir (fuel + 1) v fd size = some [] := by
  have hread : vfsReaddir v fd size = (v, none) := by
    unfold vfsReaddir
    split_ifs
    · rfl
    · rfl
    · dsimp only
      rw [hn]
      dsimp only
      rw [if_pos ht]
  rw [listDir, hread]

theorem vfsOpen_fd {path : CStr} {mode : ℤ} (h : 0 ≤ (vfsOpen v path mode).2) :
    ∃ w n k, vfsLookup v path = (w, some n) ∧ k < 64 ∧
      vfsOpen v path mode = (openedState w n k mode, (k : ℤ)) := by
  revert h
  unfold vfsOpen
  cases hl : vfsLookup v path with
  | mk w o =>
    cases o with
    | none => intro h; exact absurd h (by simp)
    | some n =>
      dsimp only
      cases hk : (List.range 64).find? fun k => !w.fdUsed k with
      | none => intro h; exact absurd h (by simp)
      | some k =>
        obtain ⟨-, hlt, -⟩ := List.find?_range_eq_some.mp hk
        dsimp only
        cases hd : (w.nodes n).data with
        | none => intro h; exact absurd h (by simp)
        | some i =>
          intro _
          refine ⟨w, n, k, rfl, List.mem_range.mp hlt, ?_⟩
          simp only [openedState, hd]

theorem children_perm_iff {s : Fs} {d : ℕ} (hd : s.Live d) :
    ((childrenOf s d).map fun i => (s.inodes i).name).Perm (childNames s d) ↔
      (s.inodes d).parent ≠ d := by
  unfold childNames
  constructor
  · intro hp hpar
    have hlen := hp.length_eq
    rw [List.length_map, List.length_map] at hlen
    have hall := List.length_filter_eq_length_iff.mp hlen.symm d (mem_childrenOf.mpr ⟨hd, hpar⟩)
    exact absurd hall (by simp)
  · intro hpar
    have hall : ((childrenOf s d).filter fun i => i != d) = childrenOf s d := by
      refine List.filter_eq_self.mpr fun i hi => ?_
      have hne : i ≠ d := by
        rintro rfl
        exact hpar (mem_childrenOf.mp hi).2
      simpa using hne
    rw [hall]

theorem listDir_opened {n k size fuel : ℕ} {mode : ℤ}
    (h : Tidy (openedState w n k mode)) (hk : k < 64) (ht : (w.nodes n).type = .dir)
    (hfuel : 257 ≤ fuel) (hsize : size ≠ 0) :
    listDir fuel (openedState w n k mode) (k : ℤ) size =
      some ((childrenOf w.fs (w.fs.inodes n).ino).map fun i =>
        (w.fs.inodes i).name.take (size - 1)) := by
  have hgood : ¬ VState.badFd (openedState w n k mode) (k : ℤ) := by
    rintro (h1 | h1 | h1)
    · omega
    · omega
    · simp [openedState] at h1
  have hlen : (childrenOf w.fs (w.fs.inodes n).ino).length ≤ 256 :=
    (childrenOf_length _ _).trans h.numbered.count_le
  have hoff : ((openedState w n k mode).fileTable (k : ℤ).toNat).offset = 0 := by
    simp [openedState]
  have hnode : ((openedState w n k mode).fileTable (k : ℤ).toNat).node = some n := by
    simp [openedState]
  have htype : ((openedState w n k mode).nodes n).type = .dir := by simpa [openedState] using ht
  have hkids := listDir_from (s := w.fs) hsize rfl fuel _ h rfl hgood hnode htype (by omega)
    (by omega)
  rw [hoff, List.drop_zero] at hkids
  exact hkids

/-- **When a listing is exact.** In every state reached by calls of the VFS whose writes spare the
inode records, a directory `d` that was opened is listed in at most 257 calls. The listing has the
names of its children, each once and nothing else, exactly if the directory is not its own parent; or
if its vnode no longer says that it is a directory, so that nothing is listed, and it has no
children. -/
theorem listing_exact (w : ByteVfs) (h : Reach (Sparing VfsCall) ByteVfs.step initBytes w)
    (path : CStr) (mode : ℤ) (size fuel d : ℕ) (hsize : 64 ≤ size) (hfuel : 257 ≤ fuel)
    (hfd : 0 ≤ (vfsOpen w.vfs path mode).2)
    (hd : ((vfsOpen w.vfs path mode).1.fileTable (vfsOpen w.vfs path mode).2.toNat).node = some d)
    (hlive : w.vfs.fs.Live d) (hdir : (w.vfs.fs.inodes d).isDir = true) :
    ∃ names, listDir fuel (vfsOpen w.vfs path mode).1 (vfsOpen w.vfs path mode).2 size =
        some names ∧
      (names.Perm (childNames w.vfs.fs d) ↔ (w.vfs.fs.inodes d).parent ≠ d ∨
        (((vfsOpen w.vfs path mode).1.nodes d).type ≠ .dir ∧ childNames w.vfs.fs d = [])) := by
  have hv := tidy_reach h
  generalize w.vfs = v at *
  have htidy := hv.opened path mode
  obtain ⟨w, n, k, hl, hk, hopen⟩ := vfsOpen_fd hfd
  have hlook := hv.lookup path
  rw [hl] at hlook
  obtain ⟨hq, htrust⟩ := hlook
  have hfs : w.fs = v.fs := hq.calm.fs
  rw [hopen] at hd htidy ⊢
  dsimp only at hd htidy ⊢
  obtain rfl : n = d := by simpa [openedState] using hd
  have htype : ((openedState w n k mode).nodes n).type = (w.nodes n).type := by simp [openedState]
  by_cases ht : (w.nodes n).type = .dir
  · have hkids := listDir_opened htidy hk ht hfuel (show size ≠ 0 by omega)
    rw [hfs, hv.numbered.ino n hlive] at hkids
    have hnames : ((childrenOf v.fs n).map fun i => (v.fs.inodes i).name.take (size - 1)) =
        (childrenOf v.fs n).map fun i => (v.fs.inodes i).name := by
      refine List.map_congr_left fun i hi => List.take_of_length_le ?_
      have := hv.names i (mem_childrenOf.mp hi).1
      omega
    rw [hnames] at hkids
    refine ⟨_, hkids, ?_⟩
    rw [children_perm_iff hlive, htype]
    constructor
    · exact Or.inl
    · rintro (h1 | ⟨h1, -⟩)
      · exact h1
      · exact absurd ht h1
  · -- the vnode says it is no directory: it is the root vnode after the root was lost
    have hn0 : n = 0 := by
      rcases htrust n rfl with h0 | ha
      · exact h0
      · have hacc := (ha (by rw [hfs]; exact hlive)).type
        rw [hfs, typeOf_eq_dir.mpr hdir] at hacc
        exact absurd hacc ht
    obtain ⟨fuel, rfl⟩ : ∃ f, fuel = f + 1 := ⟨fuel - 1, by omega⟩
    refine ⟨[], listDir_file hd (by rw [htype]; exact ht), ?_⟩
    rw [htype, List.nil_perm, eq_comm]
    have hpar : (v.fs.inodes n).parent = n := by rw [hn0]; exact hv.numbered.root_parent
    constructor
    · intro h1
      exact Or.inr ⟨ht, h1⟩
    · rintro (h1 | ⟨-, h1⟩)
      · exact absurd hpar h1
      · exact h1

def homeState : ByteVfs :=
  [VOp.mkdir (cstr "/home/x"), .mkdir (cstr "/home/y")].foldl ByteVfs.step initBytes

theorem listing_exact_home : ∃ names,
    listDir 257 (vfsOpen homeState.vfs (cstr "/home") 0).1
      (vfsOpen homeState.vfs (cstr "/home") 0).2 64 = some names ∧
    names.Perm [cstr "x", cstr "y"] := by
  obtain ⟨names, hl, hp⟩ := listing_exact homeState (Reach.foldl _ .init (by decide +kernel))
    (cstr "/home") 0 64 257 3 (by decide) (by decide) (by decide +kernel) (by decide +kernel)
    (by decide +kernel) (by decide +kernel)
  have hkids : childNames homeState.vfs.fs 3 = [cstr "x", cstr "y"] := by decide +kernel
  exact ⟨names, hl, hkids ▸ hp.mpr (Or.inl (by decide +kernel))⟩

/-- After `vfs_init` the listing of `/` starts with `/`, which is no child of the root. -/
theorem root_lists_itself :
    (vfsOpen initBytes.vfs (cstr "/") 0).2 = 0 ∧
      listDir 257 (vfsOpen initBytes.vfs (cstr "/") 0).1 0 64 =
        some [cstr "/", cstr "bin", cstr "etc", cstr "home", cstr "tmp"] ∧
      childNames initBytes.vfs.fs 0 = [cstr "bin", cstr "etc", cstr "home", cstr "tmp"] :=
  ⟨by decide +kernel, by decide +kernel, by decide +kernel⟩

end Kerneloid.Vfs.Listing
