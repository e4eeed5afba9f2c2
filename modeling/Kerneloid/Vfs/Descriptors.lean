import Kerneloid.Vfs.Removal

/-! # Descriptors

Inode slots are used again, and descriptors of both tables hold bare slot numbers, those of the VFS
by way of a vnode. To tell an object from a later one in the same slot, `Tracked` adds a history to
the state: how often each slot was taken, and for each descriptor the slot and its count when it was
opened. `OnTarget` says that every descriptor in use still refers to the object it was opened on,
and that this object is in use.

`unamedfs_unlink` closes the descriptors of its own table. Nothing else is closed by any removal, so
the guard `KeepsTargets` asks for what is left: no descriptor is open where one would have to be
closed. -/

namespace Kerneloid.Vfs.Descriptors

open Lib.Runs UnnamedFS.Types UnnamedFS.Path UnnamedFS.Lookup UnnamedFS.Ops UnnamedFS.Effects
open UnnamedFS.Slots Types Vfs.Path Walk Write Ops Effects Removal

variable {n : ℕ} {op : Op} {path : CStr}

/-! ### Objects -/

/-- The object that is or was in a slot: the slot and how often it had been taken. -/
structure Object where
  slot : ℕ
  turn : ℕ
  deriving DecidableEq

/-- The state with its history. -/
structure Tracked where
  v : VState
  turn : ℕ → ℕ
  fsObject : ℕ → Option Object
  vfsObject : ℕ → Option Object

/-- A call, with the history kept: a slot that comes into use starts a new turn, and a descriptor
that comes into use is noted with the object it refers to. -/
def track (g : Tracked) (op : VOp) : Tracked :=
  let v := vstep g.v op
  let turn := fun i => if ¬ g.v.fs.Live i ∧ v.fs.Live i then g.turn i + 1 else g.turn i
  { v := v
    turn := turn
    fsObject := fun k =>
      if (g.v.fs.fdEntries k).used = false ∧ (v.fs.fdEntries k).used = true then
        some ⟨(v.fs.fdEntries k).ino, turn (v.fs.fdEntries k).ino⟩ else g.fsObject k
    vfsObject := fun k =>
      if g.v.fdUsed k = false ∧ v.fdUsed k = true then
        (VState.fileInode v k).map fun i => ⟨i, turn i⟩ else g.vfsObject k }

def trackInit : Tracked := ⟨vfsInit, fun _ => 0, fun _ => none, fun _ => none⟩

/-- **Every descriptor in use refers to the object it was opened on**, which is in use. -/
structure OnTarget (g : Tracked) : Prop where
  fsFd : ∀ k, (g.v.fs.fdEntries k).used = true → g.v.fs.Live (g.v.fs.fdEntries k).ino ∧
    g.fsObject k = some ⟨(g.v.fs.fdEntries k).ino, g.turn (g.v.fs.fdEntries k).ino⟩
  vfsFd : ∀ k, g.v.fdUsed k = true → ∃ i, VState.fileInode g.v k = some i ∧ g.v.fs.Live i ∧
    g.vfsObject k = some ⟨i, g.turn i⟩

/-! ### Targets -/

/-- Vnode `n` stands for inode `n`, which is in use. -/
def Own (v : VState) (n : ℕ) : Prop := (v.nodes n).data = some n ∧ v.fs.Live n

/-- Descriptors in use refer to slots in use; those of the VFS by the vnode of the slot. -/
structure Targets (v : VState) : Prop where
  slots : Numbered v.fs
  fsFd : ∀ k, (v.fs.fdEntries k).used = true → k < 64 ∧ v.fs.Live (v.fs.fdEntries k).ino
  vfsFd : ∀ k, v.fdUsed k = true → k < 64 ∧ ∃ n, (v.fileTable k).node = some n ∧ Own v n

/-- A descriptor of UnnamedFS in use after a step has a target in use, the one it had before. -/
def FsKept (s s' : Fs) : Prop :=
  ∀ k, (s'.fdEntries k).used = true → (k < 64 ∧ s'.Live (s'.fdEntries k).ino) ∧
    ((s.fdEntries k).used = true → (s'.fdEntries k).ino = (s.fdEntries k).ino)

def VfsKept (v v' : VState) : Prop :=
  ∀ k, v'.fdUsed k = true → (k < 64 ∧ ∃ n, (v'.fileTable k).node = some n ∧ Own v' n) ∧
    (v.fdUsed k = true → (v'.fileTable k).node = (v.fileTable k).node)

theorem Targets.fileInode {v : VState} (h : Targets v) {k : ℕ} (hk : v.fdUsed k = true)
    (hn : (v.fileTable k).node = some n) : VState.fileInode v k = some n ∧ v.fs.Live n := by
  obtain ⟨-, m, hm, hd, hl⟩ := h.vfsFd k hk
  cases hm.symm.trans hn
  exact ⟨by rw [VState.fileInode, hn]; exact hd, hl⟩

theorem Targets.of_kept {v v' : VState} (hn : Numbered v'.fs) (hf : FsKept v.fs v'.fs)
    (hv : VfsKept v v') : Targets v' :=
  ⟨hn, fun k hk => (hf k hk).1, fun k hk => (hv k hk).1⟩

/-- **One step keeps the history right** if it keeps the targets. -/
theorem onTarget_track {g : Tracked} {op : VOp} (h : OnTarget g) (ht : Targets g.v)
    (ht' : Targets (vstep g.v op)) (hf : FsKept g.v.fs (vstep g.v op).fs)
    (hv : VfsKept g.v (vstep g.v op)) : OnTarget (track g op) := by
  -- a slot in use before the step stays in its turn
  have hturn : ∀ i, g.v.fs.Live i → (track g op).turn i = g.turn i := fun i hi =>
    if_neg fun hn => hn.1 hi
  refine ⟨fun k (hk : ((vstep g.v op).fs.fdEntries k).used = true) => ⟨(ht'.fsFd k hk).2, ?_⟩,
    fun k (hk : (vstep g.v op).fdUsed k = true) => ?_⟩
  · cases hu : (g.v.fs.fdEntries k).used with
    | false => exact if_pos ⟨hu, hk⟩
    | true =>
      obtain ⟨hl, hobj⟩ := h.fsFd k hu
      have hold : (track g op).fsObject k = g.fsObject k :=
        if_neg fun hn => Bool.false_ne_true (hn.1.symm.trans hu)
      have hino : ((track g op).v.fs.fdEntries k).ino = (g.v.fs.fdEntries k).ino :=
        (hf k hk).2 hu
      rw [hold, hobj, hino, hturn _ hl]
  · obtain ⟨-, n, hn, -, -⟩ := ht'.vfsFd k hk
    obtain ⟨hi', hl'⟩ := ht'.fileInode hk hn
    refine ⟨n, hi', hl', ?_⟩
    cases hu : g.v.fdUsed k with
    | false =>
      have hnew : (track g op).vfsObject k = (VState.fileInode (vstep g.v op) k).map
          fun i => ⟨i, (track g op).turn i⟩ := if_pos ⟨hu, hk⟩
      rw [hnew, hi']
      rfl
    | true =>
      have hold : (track g op).vfsObject k = g.vfsObject k :=
        if_neg fun hn => Bool.false_ne_true (hn.1.symm.trans hu)
      rw [(hv k hk).2 hu] at hn
      obtain ⟨hi, hl⟩ := ht.fileInode hu hn
      obtain ⟨m, hm, -, hobj⟩ := h.vfsFd k hu
      cases hm.symm.trans hi
      rw [hold, hobj, hturn _ hl]

/-! ### The guard -/

def NoFsFd (s : Fs) (i : ℕ) : Prop := ∀ k < 64, (s.fdEntries k).used = true → (s.fdEntries k).ino ≠ i

def NoVfsFd (v : VState) (i : ℕ) : Prop :=
  ∀ k < 64, v.fdUsed k = true → VState.fileInode v k ≠ some i

/-- What a removal by the VFS asks for: no descriptor of the VFS on the inode it removes, none of
UnnamedFS if it is a directory, and none of the VFS on the root if the root vnode is lost. -/
def RemovalSafe (v : VState) (path : CStr) : Prop :=
  ∀ t ∈ removalTarget v path, ∀ r ∈ removes v.fs t, NoVfsFd v r ∧
    ((v.fs.inodes r).isDir = true → NoFsFd v.fs r) ∧ (r = t → NoVfsFd v 0)

/-- What `vfs_open` asks for: the cache entry that answers for the path, or the root vnode if the
path is walked, is no stale one. -/
def OpenSafe (v : VState) (path : CStr) : Prop :=
  match dcacheFind v (pathNormalize path 256) with
  | some e => Own v (v.dcache e).node
  | none => Own v v.root

/-- The guard. A removal by UnnamedFS finds no descriptor of the VFS on the inode, and
`unamedfs_rmdir` none of UnnamedFS either; a removal by the VFS is safe; and `vfs_open` does not
start at a stale vnode. -/
def KeepsTargets (v : VState) : VOp → Prop
  | .open_ path _ => OpenSafe v path
  | .unlink path => (vfsUnlink v path).2 = 0 → RemovalSafe v path
  | .rmdir path => (vfsRmdir v path).2 = 0 → RemovalSafe v path
  | .fs (.unlink path) => ∀ r ∈ (findInodeByPath v.fs (pathNormalize path 256)).2,
      (v.fs.inodes r).isDir = false → NoVfsFd v r
  | .fs (.rmdir path) => ∀ r ∈ (findInodeByPath v.fs (pathNormalize path 256)).2,
      (v.fs.inodes r).isDir = true → Fs.hasChild v.fs r = false → NoFsFd v.fs r ∧ NoVfsFd v r
  | _ => True

instance (s : Fs) (i : ℕ) : Decidable (NoFsFd s i) := by unfold NoFsFd; infer_instance

instance (v : VState) (i : ℕ) : Decidable (NoVfsFd v i) := by unfold NoVfsFd; infer_instance

instance (v : VState) (n : ℕ) : Decidable (Own v n) := by unfold Own; infer_instance

instance (v : VState) (path : CStr) : Decidable (OpenSafe v path) := by
  unfold OpenSafe; split <;> infer_instance

instance (v : VState) (path : CStr) : Decidable (RemovalSafe v path) := by
  unfold RemovalSafe; infer_instance

instance (v : VState) (op : VOp) : Decidable (KeepsTargets v op) :=
  match op with
  | .open_ path _ => inferInstanceAs (Decidable (OpenSafe v path))
  | .unlink path => inferInstanceAs (Decidable ((vfsUnlink v path).2 = 0 → RemovalSafe v path))
  | .rmdir path => inferInstanceAs (Decidable ((vfsRmdir v path).2 = 0 → RemovalSafe v path))
  | .fs (.unlink path) => inferInstanceAs (Decidable
      (∀ r ∈ (findInodeByPath v.fs (pathNormalize path 256)).2,
        (v.fs.inodes r).isDir = false → NoVfsFd v r))
  | .fs (.rmdir path) => inferInstanceAs (Decidable
      (∀ r ∈ (findInodeByPath v.fs (pathNormalize path 256)).2,
        (v.fs.inodes r).isDir = true → Fs.hasChild v.fs r = false → NoFsFd v.fs r ∧ NoVfsFd v r))
  | .fs (.create _) | .fs (.mkdir _) | .fs (.open_ _ _) | .fs (.close _) | .fs (.read _ _)
  | .fs (.write _ _ _) | .fs (.lseek _ _ _) | .lookup _ | .stat _ | .close _ | .read _ _
  | .write _ _ _ | .lseek _ _ _ | .readdir _ _ | .mkdir _ | .create _ _ => isTrue trivial

/-! ### The calls of UnnamedFS -/

section FsCalls
variable {s s' : Fs}
  (h : ∀ k, (s.fdEntries k).used = true → k < 64 ∧ s.Live (s.fdEntries k).ino)
include h

theorem fsKept_same (hfd : s'.fdEntries = s.fdEntries) (hl : ∀ i, s.Live i → s'.Live i) :
    FsKept s s' := by
  intro k hk
  rw [hfd] at hk ⊢
  obtain ⟨hlt, hi⟩ := h k hk
  exact ⟨⟨hlt, hl _ hi⟩, fun _ => rfl⟩

theorem fsKept_update {j : ℕ} {e : FdEntry} (hfd : s'.fdEntries = Function.update s.fdEntries j e)
    (hl : ∀ i, s.Live i → s'.Live i)
    (he : e.used = true → (j < 64 ∧ s.Live e.ino) ∧ ((s.fdEntries j).used = true → e.ino =
      (s.fdEntries j).ino)) : FsKept s s' := by
  intro k hk
  rw [hfd] at hk ⊢
  by_cases hkj : k = j
  · subst hkj
    rw [Function.update_self] at hk ⊢
    obtain ⟨⟨hlt, hi⟩, hsame⟩ := he hk
    exact ⟨⟨hlt, hl _ hi⟩, hsame⟩
  · rw [Function.update_of_ne hkj] at hk ⊢
    obtain ⟨hlt, hi⟩ := h k hk
    exact ⟨⟨hlt, hl _ hi⟩, fun _ => rfl⟩

theorem fsKept_effect (he : Effect s op s') (hn : Numbered s)
    (hok : ∀ path r, op = .rmdir path → (findInodeByPath s (pathNormalize path 256)).2 = some r →
      (s.inodes r).isDir = true → (∀ j, s.Live j → (s.inodes j).parent ≠ r) → NoFsFd s r) :
    FsKept s s' := by
  cases he with
  | quiet ic => exact fsKept_same h rfl fun _ hi => hi
  | seek j off => exact fsKept_update h rfl (fun _ hi => hi) fun hu => ⟨h j hu, fun _ => rfl⟩
  | closed j => exact fsKept_update h rfl (fun _ hi => hi) fun hu => absurd hu (by simp)
  | opened ic hi hfind hj hu =>
    refine fsKept_update h rfl (fun _ hi => hi) fun _ => ⟨⟨hj, hn.reachable hi⟩, fun hk => ?_⟩
    exact absurd (hu.symm.trans hk) (by simp)
  | created ic hj hpar hdir hf hnew hop =>
    refine fsKept_same h rfl fun i hi => (addInode_live ic hj ?_ i).mpr (Or.inl hi)
    rcases hf with rfl | rfl <;> rfl
  | @unlinked path ic i hi hfind hdir =>
    intro k hk
    change (closeFds s.fdEntries i k).used = true at hk
    have heq := closeFds_used hk
    change (k < 64 ∧ Fs.Live _ (closeFds s.fdEntries i k).ino) ∧ (_ →
      (closeFds s.fdEntries i k).ino = _)
    rw [heq]
    rw [heq] at hk
    obtain ⟨hlt, hl⟩ := h k hk
    refine ⟨⟨hlt, ((unlinkInode_zeroed s ic i).live _).mpr ⟨hl, fun hki => ?_⟩⟩, fun _ => rfl⟩
    -- a descriptor on `i` has been closed
    have hclosed : (closeFds s.fdEntries i k).used = false := by
      rw [closeFds, if_pos ⟨hlt, hk, hki⟩]
    rw [heq, hk] at hclosed
    exact absurd hclosed (by simp)
  | @removed path ic i hi hfind hdir hempty =>
    intro k hk
    obtain ⟨hlt, hl⟩ := h k hk
    exact ⟨⟨hlt, ((rmdirInode_zeroed s ic i).live _).mpr
      ⟨hl, hok path i rfl hfind hdir hempty k hlt hk⟩⟩, fun _ => rfl⟩
  | @wrote fd buf count m p hfd hdir hc hp =>
    have hlive := (writeBytes_sameTree s fd.toNat p buf m).live
    exact fsKept_update h rfl (fun i hi => (hlive i).mpr hi) fun hu => ⟨h fd.toNat hu, fun _ => rfl⟩

end FsCalls

theorem live_effect {s s' : Fs} (he : Effect s op s') {i : ℕ} (hi : s.Live i)
    (hunlink : ∀ path, op = .unlink path → (findInodeByPath s (pathNormalize path 256)).2 = some i →
      (s.inodes i).isDir = false → False)
    (hrmdir : ∀ path, op = .rmdir path → (findInodeByPath s (pathNormalize path 256)).2 = some i →
      (s.inodes i).isDir = true → (∀ j, s.Live j → (s.inodes j).parent ≠ i) → False) :
    s'.Live i := by
  cases he with
  | quiet ic => exact hi
  | seek k off => exact hi
  | closed k => exact hi
  | opened ic _ hfind hk hu => exact hi
  | created ic hj hpar hdir hf hnew hop =>
    refine (addInode_live ic hj ?_ i).mpr (Or.inl hi)
    rcases hf with rfl | rfl <;> rfl
  | @unlinked path ic r hr hfind hdir =>
    refine ((unlinkInode_zeroed s ic r).live i).mpr ⟨hi, ?_⟩
    rintro rfl
    exact hunlink path rfl hfind hdir
  | @removed path ic r hr hfind hdir hempty =>
    refine ((rmdirInode_zeroed s ic r).live i).mpr ⟨hi, ?_⟩
    rintro rfl
    exact hrmdir path rfl hfind hdir hempty
  | wrote hfd hdir hc hp => exact ((writeBytes_sameTree _ _ _ _ _).live i).mpr hi

/-! ### Opening -/

theorem Own.calm {v w : VState} (h : Own v n) (hc : Calm v w) : Own w n := by
  refine ⟨?_, by rw [hc.fs]; exact h.2⟩
  rcases hc.node n with ⟨-, hd⟩ | ⟨-, -, hd⟩
  · rw [hd]; exact h.1
  · exact hd

theorem own_walkFrom (cs : List CStr) {v : VState} {cur : ℕ} (h : Numbered v.fs)
    (hroot : Own v v.root) (hcur : Own v cur) (hn : (walkFrom v cur cs).2 = some n) :
    Own (walkFrom v cur cs).1 n :=
  walkFrom_ends (fun _ _ _ hr ho => ho.calm (Refreshed.calm hr))
    (fun _ _ hi => ⟨(accurate_refresh hi).data, hi⟩) cs h hroot hcur hn

theorem own_vfsLookup {v : VState} (h : Numbered v.fs) (hs : OpenSafe v path)
    (hn : (vfsLookup v path).2 = some n) : Own (vfsLookup v path).1 n := by
  unfold vfsLookup at hn ⊢
  unfold OpenSafe at hs
  by_cases hp : chars path = []
  · rw [if_pos hp] at hn; cases hn
  rw [if_neg hp] at hn ⊢
  dsimp only at hn ⊢
  unfold dcacheLookup at hn ⊢
  revert hs hn
  cases dcacheFind v (pathNormalize path 256) with
  | some e => intro hs hn; cases hn; exact hs
  | none =>
    intro hs
    dsimp only at hs ⊢
    have hown := fun m => own_walkFrom (n := m) (components path) h hs hs
    change ∀ m, (vfsWalk v path).2 = some m → Own (vfsWalk v path).1 m at hown
    revert hown
    generalize vfsWalk v path = q
    obtain ⟨w, o⟩ := q
    intro hown hn
    cases o with
    | none => cases hn
    | some m => cases hn; exact hown _ rfl

/-! ### One step -/

variable {v v' w : VState}

theorem Targets.vfsKept (h : Targets v)
    (hfd : ∀ k, v'.fdUsed k = true → v.fdUsed k = true ∧ (v'.fileTable k).node = (v.fileTable
      k).node)
    (hown : ∀ k n, k < 64 → v.fdUsed k = true → (v.fileTable k).node = some n → Own v n → Own v' n)
      : VfsKept v v' := by
  intro k hk
  obtain ⟨hk, hnode⟩ := hfd k hk
  obtain ⟨hlt, n, hn, ho⟩ := h.vfsFd k hk
  exact ⟨⟨hlt, n, by rw [hnode, hn], hown k n hlt hk hn ho⟩, fun _ => hnode⟩

theorem Targets.call (h : Targets v) {s' : Fs} (he : Effect v.fs op s')
    (hok : KeepsTargets v (.fs op)) : FsKept v.fs s' ∧ VfsKept v { v with fs := s' } := by
  refine ⟨fsKept_effect h.fsFd he h.slots ?_, h.vfsKept (fun k hk => ⟨hk, rfl⟩) ?_⟩
  · rintro path r rfl hfind hdir hleaf
    exact (hok r hfind hdir (hasChild_eq_false.mpr hleaf)).1
  · intro k n hlt hk hn ho
    have hi := (h.fileInode hk hn).1
    refine ⟨ho.1, live_effect he ho.2 ?_ ?_⟩
    · rintro path rfl hfind hdir
      exact hok n hfind hdir k hlt hk hi
    · rintro path rfl hfind hdir hleaf
      exact (hok n hfind hdir (hasChild_eq_false.mpr hleaf)).2 k hlt hk hi

theorem Targets.removed (h : Targets v) {norm : CStr} {target t r : ℕ} (hw : Calm v w)
    (ht : removalTarget v path = some t) (hr : removes v.fs t = some r)
    (hz : Zeroed v.fs (step v.fs (removeOp v.fs t)) r) (hok : RemovalSafe v path) :
    FsKept v.fs (removedState w norm target t r).fs ∧
      VfsKept v (removedState w norm target t r) := by
  obtain ⟨hvfs, hdir, hroot⟩ := hok t ht r hr
  have hfs : (removedState w norm target t r).fs = step v.fs (removeOp v.fs t) := by
    rw [removedState_fs, hw.fs]
  refine ⟨?_, h.vfsKept hw.fds fun k n hlt hk hn ho => ?_⟩
  · rw [hfs]
    refine fsKept_effect h.fsFd (step_effect _ _) h.slots fun path' r' hop hfind hd _ => ?_
    unfold removeOp at hop
    split_ifs at hop
    cases hop
    cases hfind.symm.trans (removes_find hr)
    exact hdir hd
  · have hi := (h.fileInode hk hn).1
    have hne : n ≠ r := fun hnr => hvfs k hlt hk (by rw [hi, hnr])
    refine ⟨?_, by rw [hfs]; exact (hz.live n).mpr ⟨ho.2, hne⟩⟩
    rw [removedState_data]
    split_ifs with hm
    · -- the refreshed vnode is that of the target, not the root's
      unfold refreshedNode at hm
      split_ifs at hm with hrt
      · exact absurd (by rw [hi, hm]) (hroot hrt k hlt hk)
      · rw [hm]
    · exact (Own.calm ho hw).1

theorem Targets.opened (h : Targets v) {mode : ℤ} {k : ℕ} (hs : OpenSafe v path)
    (hl : vfsLookup v path = (w, some n)) (hw : Calm v w) (hk : k < 64) (hu : v.fdUsed k = false) :
    FsKept v.fs (openedState w n k mode).fs ∧ VfsKept v (openedState w n k mode) := by
  have hown : Own w n := by
    have := own_vfsLookup h.slots hs (n := n) (by rw [hl])
    rwa [hl] at this
  have hstay : ∀ m, Own w m → Own (openedState w n k mode) m := fun m hm => by
    refine ⟨?_, hm.2⟩
    by_cases hmn : m = n
    · subst hmn; simpa [openedState] using hm.1
    · simpa [openedState, hmn] using hm.1
  refine ⟨fsKept_same h.fsFd (by rw [openedState, hw.fs]) fun i hi => ?_, fun k' hk' => ?_⟩
  · rw [openedState, hw.fs]; exact hi
  by_cases hkk : k' = k
  · subst hkk
    refine ⟨⟨hk, n, by simp [openedState], hstay n hown⟩, fun hk' => ?_⟩
    exact absurd (hu.symm.trans hk') (by simp)
  · simp only [openedState, Function.update_of_ne hkk] at hk' ⊢
    obtain ⟨hv, hnode⟩ := hw.fds k' hk'
    obtain ⟨hlt, m, hm, ho⟩ := h.vfsFd k' hv
    exact ⟨⟨hlt, m, by rw [hnode, hm], hstay m (ho.calm hw)⟩, fun _ => hnode⟩

theorem Targets.grown (h : Targets v) {u : VState} (hv : Calm u v')
    (hfd : u.fs.fdEntries = v.fs.fdEntries) (hl : ∀ i, v.fs.Live i → u.fs.Live i)
    (hnode : ∀ n, Own v n → (u.nodes n).data = some n)
    (hu : ∀ k, u.fdUsed k = true → v.fdUsed k = true ∧ (u.fileTable k).node = (v.fileTable k).node)
      : FsKept v.fs v'.fs ∧ VfsKept v v' := by
  refine ⟨fsKept_same h.fsFd (by rw [hv.fs, hfd]) fun i hi => by rw [hv.fs]; exact hl i hi,
    h.vfsKept (fun k hk => ?_) fun k n _ _ _ ho => ?_⟩
  · obtain ⟨hk, h1⟩ := hv.fds k hk
    obtain ⟨hk, h2⟩ := hu k hk
    exact ⟨hk, h1.trans h2⟩
  · have ho' : Own u n := ⟨hnode n ho, hl n ho.2⟩
    exact ho'.calm hv

theorem Targets.vstep (h : Targets v) {op : VOp} (hok : KeepsTargets v op) :
    FsKept v.fs (vstep v op).fs ∧ VfsKept v (vstep v op) := by
  have he := vstep_effect h.slots op
  revert he
  generalize Ops.vstep v op = v'
  intro he
  cases he with
  | calm hc => exact h.grown hc rfl (fun _ hi => hi) (fun _ ho => ho.1) fun _ hk => ⟨hk, rfl⟩
  | opened hl hw hd hk hu => exact h.opened hok hl hw hk hu
  | @wrote fd buf count i v' hfd hi hv =>
    have hlive := (vopWrite_sameTree v.fs i (v.fileTable fd.toNat).offset buf count).live
    refine h.grown hv ?_ (fun i hi => (hlive i).mpr hi) (fun _ ho => ho.1) fun _ hk => ⟨hk, rfl⟩
    rcases vopWrite_cases v.fs i (v.fileTable fd.toNat).offset buf count with he | ⟨p, k, -, -, hm⟩
    · exact congrArg _ he
    · exact hm.fds
  | @added op w v' j flags d name hw hj hf hv =>
    refine h.grown hv ?_ (fun i hi => ?_) (fun n ho => (ho.calm hw).1) hw.fds
    · rw [putInode_fs, hw.fs]; rfl
    · rw [putInode_fs, hw.fs]
      exact (addInode_live _ hj (newInode_isLive hf) i).mpr (Or.inl hi)
  | @tried _ w hw ic =>
    refine h.grown (.refl _) ?_ (fun i hi => ?_) (fun n ho => (ho.calm hw).1) hw.fds
    · dsimp only; rw [hw.fs]
    · dsimp only; rw [hw.fs]; exact hi
  | @removed _ dir path norm w target t r hop hrc hw ht hr hz =>
    refine h.removed hw ht hr hz ?_
    cases dir
    · subst hop; exact hok hrc
    · subst hop; exact hok hrc
  | call he => exact h.call he hok

/-! ### Runs -/

theorem fdEntries_vfsInit (k : ℕ) : (vfsInit.fs.fdEntries k).used = false := rfl

theorem fdUsed_vfsInit (k : ℕ) : vfsInit.fdUsed k = false := rfl

theorem targets_vfsInit : Targets vfsInit :=
  ⟨numbered_vfsInit, fun k hk => by simp [fdEntries_vfsInit] at hk,
    fun k hk => by simp [fdUsed_vfsInit] at hk⟩

theorem onTarget_trackInit : OnTarget trackInit :=
  ⟨fun k hk => by simp [trackInit, fdEntries_vfsInit] at hk,
    fun k hk => by simp [trackInit, fdUsed_vfsInit] at hk⟩

/-- **Descriptors never change target** in a run of the two layers whose steps the guard admits. -/
theorem descriptors_on_target {g : Tracked}
    (h : Reach (fun g op => KeepsTargets g.v op) track trackInit g) : OnTarget g := by
  suffices hs : Targets g.v ∧ OnTarget g from hs.2
  refine h.inv (I := fun g => Targets g.v ∧ OnTarget g) ⟨targets_vfsInit, onTarget_trackInit⟩ ?_
  rintro g op ⟨ht, ho⟩ hok
  obtain ⟨hf, hv⟩ := ht.vstep hok
  have ht' := Targets.of_kept (numbered_vstep ht.slots op) hf hv
  exact ⟨ht', onTarget_track ho ht ht' hf hv⟩

/-- Slot 5 is taken by `/f`, opened, given back, and taken again by `/g`, opened by the VFS; then
`/bin` is removed. -/
def reusedCalls : List VOp :=
  [.fs (.create (cstr "/f")), .fs (.open_ (cstr "/f") 0), .open_ (cstr "/bin") 0,
    .fs (.unlink (cstr "/f")), .fs (.create (cstr "/g")), .open_ (cstr "/g") 0, .close 0,
    .rmdir (cstr "/bin")]

theorem descriptors_on_target_reused : OnTarget (reusedCalls.foldl track trackInit) ∧
    (reusedCalls.foldl track trackInit).v.fdUsed 1 = true ∧
    (reusedCalls.foldl track trackInit).vfsObject 1 = some ⟨5, 2⟩ :=
  ⟨descriptors_on_target (Reach.foldl _ .init (by decide +kernel)), by decide +kernel,
    by decide +kernel⟩

/-- The directory `/d` is opened and removed, and `/f` takes its slot. -/
def retaken : Tracked :=
  [VOp.fs (.mkdir (cstr "/d")), .fs (.open_ (cstr "/d") 0), .fs (.rmdir (cstr "/d")),
    .fs (.create (cstr "/f"))].foldl track trackInit

/-- `unamedfs_rmdir` closes no descriptor: the one opened on `/d` now refers to `/f`. -/
theorem descriptor_retargeted : Reach Any track trackInit retaken ∧
    (retaken.v.fs.fdEntries 0).used = true ∧ retaken.fsObject 0 = some ⟨5, 1⟩ ∧
    retaken.v.fs.Live 5 ∧ (retaken.v.fs.fdEntries 0).ino = 5 ∧ retaken.turn 5 = 2 ∧
    ¬ OnTarget retaken := by
  have hused : (retaken.v.fs.fdEntries 0).used = true := by decide +kernel
  have hobj : retaken.fsObject 0 = some ⟨5, 1⟩ := by decide +kernel
  have hino : (retaken.v.fs.fdEntries 0).ino = 5 := by decide +kernel
  have hturn : retaken.turn 5 = 2 := by decide +kernel
  refine ⟨Reach.foldl _ .init ⟨trivial, trivial, trivial, trivial, trivial⟩, hused, hobj,
    by decide +kernel, hino, hturn, fun h => ?_⟩
  have := (h.fsFd 0 hused).2
  rw [hobj, hino, hturn] at this
  exact absurd this (by decide)

end Kerneloid.Vfs.Descriptors
