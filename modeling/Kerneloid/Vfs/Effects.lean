import Kerneloid.Vfs.Ops

/-! # What a call of the VFS can do

As `Effect` does for the file system below, `VEffect v op v'` lists what a call can do to the state,
as far as the file system, the vnodes and the targets of the descriptors are concerned
(`vstep_effect`). Lookups are `Calm`: they change caches, and vnodes to what their inodes say.

The effect of a removal needs care. `unnamedfs_vop_unlink` finds an inode `t`, builds a path for it
and lets the file system below remove what that path leads to (`removes`). If this is `t` itself,
the record handed to `inode_to_vnode` afterwards is zeroed, so the vnode it fills is vnode 0, the
root. -/

namespace Kerneloid.Vfs.Effects

open UnnamedFS.Types UnnamedFS.Path UnnamedFS.Lookup UnnamedFS.Ops UnnamedFS.Effects
open UnnamedFS.Namespace UnnamedFS.Slots Lib.Runs Types Vfs.Path Walk Write Ops

variable {s : Fs} {v w : VState} {j t : ℕ} {name path : CStr}

/-! ### Calm steps -/

/-- A vnode keeps type and inode, or gets those of inode `n` of `s`. -/
def NodeKept (s : Fs) (n : ℕ) (a b : VNode) : Prop :=
  (b.type = a.type ∧ b.data = a.data) ∨
    (s.Live n ∧ b.type = typeOf (s.inodes n) ∧ b.data = some n)

/-- From `v` to `v'` the file system stays, vnodes stay or are refreshed, and a descriptor in use
was in use before on the same vnode. -/
structure Calm (v v' : VState) : Prop where
  fs : v'.fs = v.fs
  root : v'.root = v.root
  node : ∀ n, NodeKept v.fs n (v.nodes n) (v'.nodes n)
  fds : ∀ k, v'.fdUsed k = true → v.fdUsed k = true ∧ (v'.fileTable k).node = (v.fileTable k).node

theorem NodeKept.refl (s : Fs) (n : ℕ) (a : VNode) : NodeKept s n a a := Or.inl ⟨rfl, rfl⟩

theorem NodeKept.trans {n : ℕ} {a b c : VNode} (h : NodeKept s n a b)
    (h' : NodeKept s n b c) : NodeKept s n a c := by
  rcases h' with ⟨ht, hd⟩ | h'
  · unfold NodeKept
    rw [ht, hd]
    exact h
  · exact Or.inr h'

theorem Calm.of_eq {v' : VState} (hfs : v'.fs = v.fs) (hroot : v'.root = v.root)
    (htype : ∀ n, (v'.nodes n).type = (v.nodes n).type)
    (hdata : ∀ n, (v'.nodes n).data = (v.nodes n).data)
    (hfds : ∀ k, v'.fdUsed k = true → v.fdUsed k = true ∧ (v'.fileTable k).node = (v.fileTable
      k).node) :
    Calm v v' :=
  ⟨hfs, hroot, fun n => Or.inl ⟨htype n, hdata n⟩, hfds⟩

theorem Calm.refl (v : VState) : Calm v v :=
  .of_eq rfl rfl (fun _ => rfl) (fun _ => rfl) fun _ h => ⟨h, rfl⟩

theorem Calm.trans {v' v'' : VState} (h : Calm v v') (h' : Calm v' v'') : Calm v v'' := by
  refine ⟨by rw [h'.fs, h.fs], by rw [h'.root, h.root], fun n => ?_, fun k hk => ?_⟩
  · have := h'.node n
    rw [h.fs] at this
    exact (h.node n).trans this
  · obtain ⟨hu, hn⟩ := h'.fds k hk
    obtain ⟨hu', hn'⟩ := h.fds k hu
    exact ⟨hu', by rw [hn, hn']⟩

theorem calm_caches (v : VState) (dc : ℕ → Dentry) (tick : ℕ) (rd : RdCache) :
    Calm v { v with dcache := dc, dcacheTick := tick, rdcache := rd } :=
  .of_eq rfl rfl (fun _ => rfl) (fun _ => rfl) fun _ h => ⟨h, rfl⟩

/-- From `v` to `w` only the dentry cache and vnodes change, those to what their inodes say. -/
structure Glance (v w : VState) : Prop where
  rest : w = { v with nodes := w.nodes, dcache := w.dcache, dcacheTick := w.dcacheTick }
  node : ∀ n, w.nodes n = v.nodes n ∨ (v.fs.Live n ∧ w.nodes n = vnodeOf v n)

theorem Glance.calm (h : Glance v w) : Calm v w := by
  refine ⟨by rw [h.rest], by rw [h.rest], fun n => ?_, fun k hk => ?_⟩
  · rcases h.node n with hn | ⟨hl, hn⟩
    · rw [hn]; exact .refl _ _ _
    · rw [hn]; exact Or.inr ⟨hl, rfl, rfl⟩
  · rw [h.rest] at hk ⊢
    exact ⟨hk, rfl⟩

theorem Glance.fdUsed (h : Glance v w) : w.fdUsed = v.fdUsed := by rw [h.rest]

theorem Refreshed.glance (h : Refreshed v w) (dc : ℕ → Dentry) (tick : ℕ) :
    Glance v { w with dcache := dc, dcacheTick := tick } :=
  ⟨by rw [h.rest], h.node⟩

theorem Refreshed.calm (h : Refreshed v w) : Calm v w :=
  (Refreshed.glance h w.dcache w.dcacheTick).calm

theorem vfsLookup_glance (h : Numbered v.fs) (path : CStr) : Glance v (vfsLookup v path).1 := by
  unfold vfsLookup
  split_ifs
  · exact Refreshed.glance (.refl v) v.dcache v.dcacheTick
  · dsimp only
    unfold dcacheLookup
    cases dcacheFind v (pathNormalize path 256) with
    | some i => exact Refreshed.glance (.refl v) _ _
    | none =>
      dsimp only
      have hw := vfsWalk_refreshed h path
      generalize vfsWalk v path = r at hw ⊢
      obtain ⟨w, o⟩ := r
      cases o with
      | none => exact Refreshed.glance hw w.dcache w.dcacheTick
      | some node => exact Refreshed.glance hw _ _

theorem vfsLookup_calm (h : Numbered v.fs) (path : CStr) :
    Calm v (vfsLookup v path).1 := (vfsLookup_glance h path).calm

theorem vopReaddir_rdcache (v : VState) (dir size index : ℕ) :
    ∃ rd, (vopReaddir v dir size index).1 = { v with rdcache := rd } := by
  unfold vopReaddir
  by_cases ht : (v.nodes dir).type ≠ .dir
  · rw [if_pos ht]; exact ⟨v.rdcache, rfl⟩
  rw [if_neg ht]
  cases (v.nodes dir).data with
  | none => exact ⟨v.rdcache, rfl⟩
  | some d =>
    dsimp only
    by_cases hr : v.rdcache.valid = true ∧ v.rdcache.dir = dir
    · rw [if_pos hr]
      cases v.rdcache.children[index]? with
      | none => exact ⟨v.rdcache, rfl⟩
      | some i => dsimp only; split_ifs <;> exact ⟨v.rdcache, rfl⟩
    · rw [if_neg hr]
      dsimp only
      split_ifs
      · exact ⟨_, rfl⟩
      · exact ⟨v.rdcache, rfl⟩

/-- From `v` to `w` only the file table changes; a descriptor in use was in use before on the same
vnode. -/
structure FilesOnly (v w : VState) : Prop where
  rest : w = { v with fileTable := w.fileTable, fdUsed := w.fdUsed }
  fds : ∀ k, w.fdUsed k = true → v.fdUsed k = true ∧ (w.fileTable k).node = (v.fileTable k).node

theorem FilesOnly.refl (v : VState) : FilesOnly v v := ⟨rfl, fun _ h => ⟨h, rfl⟩⟩

theorem FilesOnly.calm (h : FilesOnly v w) : Calm v w := by
  refine ⟨?_, ?_, fun n => ?_, h.fds⟩
  · rw [h.rest]
  · rw [h.rest]
  · rw [h.rest]; exact .refl _ _ _

theorem setOffset_files (v : VState) (fd off : ℕ) : FilesOnly v (VState.setOffset v fd off) := by
  refine ⟨rfl, fun k hk => ⟨hk, ?_⟩⟩
  by_cases hkf : k = fd
  · subst hkf; simp [VState.setOffset]
  · simp [VState.setOffset, hkf]

theorem vfsClose_files (v : VState) (fd : ℤ) : FilesOnly v (vfsClose v fd).1 := by
  unfold vfsClose
  split_ifs
  · exact .refl v
  · refine ⟨rfl, fun k hk => ?_⟩
    dsimp only at hk ⊢
    by_cases hkf : k = fd.toNat
    · subst hkf; simp at hk
    · rw [Function.update_of_ne hkf] at hk ⊢
      exact ⟨hk, rfl⟩

theorem vfsRead_files (v : VState) (fd : ℤ) (count : ℕ) : FilesOnly v (vfsRead v fd count).1 := by
  unfold vfsRead
  split_ifs
  · exact .refl v
  · cases VState.fileInode v fd.toNat with
    | none => exact .refl v
    | some i =>
      dsimp only
      split_ifs
      · exact .refl v
      · exact setOffset_files v _ _

theorem vfsLseek_files (v : VState) (fd offset whence : ℤ) :
    FilesOnly v (vfsLseek v fd offset whence).1 := by
  unfold vfsLseek
  split_ifs
  · exact .refl v
  · cases vfsSeekTarget v fd.toNat offset whence with
    | none => exact .refl v
    | some newOff =>
      dsimp only
      split_ifs
      · exact .refl v
      · exact setOffset_files v _ _

theorem vfsReaddir_cases (v : VState) (fd : ℤ) (size : ℕ) : (vfsReaddir v fd size).1 = v ∨
    ∃ dir w, (vopReaddir v dir size (v.fileTable fd.toNat).offset).1 = w ∧
      ((vfsReaddir v fd size).1 = w ∨
        ∃ off, (vfsReaddir v fd size).1 = VState.setOffset w fd.toNat off) := by
  unfold vfsReaddir
  by_cases hs : size = 0
  · exact Or.inl (by rw [if_pos hs])
  rw [if_neg hs]
  by_cases hfd : VState.badFd v fd
  · exact Or.inl (by rw [if_pos hfd])
  rw [if_neg hfd]
  dsimp only
  cases (v.fileTable fd.toNat).node with
  | none => exact Or.inl rfl
  | some dir =>
    dsimp only
    by_cases ht : (v.nodes dir).type ≠ .dir
    · exact Or.inl (by rw [if_pos ht])
    rw [if_neg ht]
    refine Or.inr ⟨dir, _, rfl, ?_⟩
    cases vopReaddir v dir size (v.fileTable fd.toNat).offset with
    | mk w o =>
      cases o with
      | none => exact Or.inl rfl
      | some name => exact Or.inr ⟨_, rfl⟩

theorem vfsReaddir_files (v : VState) (fd : ℤ) (size : ℕ) :
    ∃ rd, FilesOnly { v with rdcache := rd } (vfsReaddir v fd size).1 := by
  rcases vfsReaddir_cases v fd size with e | ⟨dir, w, hw, e⟩
  · rw [e]; exact ⟨v.rdcache, .refl v⟩
  obtain ⟨rd, hrd⟩ := vopReaddir_rdcache v dir size (v.fileTable fd.toNat).offset
  rw [hrd] at hw
  subst hw
  rcases e with e | ⟨off, e⟩
  · rw [e]; exact ⟨rd, .refl _⟩
  · rw [e]; exact ⟨rd, setOffset_files _ _ _⟩

theorem vfsReaddir_calm (v : VState) (fd : ℤ) (size : ℕ) : Calm v (vfsReaddir v fd size).1 := by
  obtain ⟨rd, h⟩ := vfsReaddir_files v fd size
  exact (calm_caches v v.dcache v.dcacheTick rd).trans h.calm

/-! ### Removal below the VFS -/

/-- The inode that the removal of target `t` takes away: what the path built for `t` leads to, if
it is of the same kind and, as a directory, empty. -/
def removes (s : Fs) (t : ℕ) : Option ℕ :=
  let norm := pathNormalize (tmpPath s t) 256
  if norm = [slash] then none
  else (findInodeByPath s norm).2.filter fun r =>
    (s.inodes r).isDir == (s.inodes t).isDir && !((s.inodes r).isDir && Fs.hasChild s r)

def removeOp (s : Fs) (t : ℕ) : Op :=
  if (s.inodes t).isDir then .rmdir (tmpPath s t) else .unlink (tmpPath s t)

theorem removeCall_step (s : Fs) (t : ℕ) : (removeCall s t).1 = step s (removeOp s t) := by
  unfold removeCall removeOp
  split_ifs <;> rfl

theorem removes_find {r : ℕ} (h : removes s t = some r) :
    (findInodeByPath s (pathNormalize (tmpPath s t) 256)).2 = some r := by
  unfold removes at h
  dsimp only at h
  split_ifs at h
  exact (Option.filter_eq_some_iff.mp h).1

theorem removes_spec {r : ℕ} (h : removes s t = some r) :
    Reachable s r ∧ (s.inodes r).isDir = (s.inodes t).isDir ∧
      ((s.inodes r).isDir = true → ∀ j, s.Live j → (s.inodes j).parent ≠ r) := by
  unfold removes at h
  dsimp only at h
  split_ifs at h with hn
  obtain ⟨hf, hp⟩ := Option.filter_eq_some_iff.mp h
  simp only [Bool.and_eq_true, beq_iff_eq, Bool.not_eq_true', Bool.and_eq_false_iff] at hp
  refine ⟨findInodeByPath_anchored hf, hp.1, fun hd => ?_⟩
  rcases hp.2 with hp | hp
  · rw [hd] at hp; exact absurd hp (by simp)
  · exact hasChild_eq_false.mp hp

/-- **The call below the VFS removes an inode or fails**, and then changes no more than `icache`. -/
theorem removeCall_cases (s : Fs) (t : ℕ) :
    (removes s t = none ∧ removeCall s t = ({ s with
      icache := (findInodeByPath s (pathNormalize (tmpPath s t) 256)).1 }, -1)) ∨
      ∃ r, removes s t = some r ∧ (removeCall s t).2 = 0 ∧ Zeroed s (removeCall s t).1 r := by
  unfold removeCall removes unamedfsRmdir unamedfsUnlink
  dsimp only
  by_cases hm : s.mountValid = false
  · have hnone : ∀ p, findInodeByPath s p = (s.icache, none) := fun p => by
      unfold findInodeByPath; rw [if_pos hm]
    rw [if_pos hm, if_pos hm, hnone, Option.filter_none, ite_self, ite_self]
    exact Or.inl ⟨rfl, rfl⟩
  rw [if_neg hm, if_neg hm]
  by_cases hn : pathNormalize (tmpPath s t) 256 = [slash]
  · have hroot : findInodeByPath s [slash] = (s.icache, some 0) := by
      unfold findInodeByPath
      rw [if_neg hm]
      exact if_pos (by decide)
    rw [if_pos hn, if_pos hn, if_pos hn, ite_self, hn, hroot]
    exact Or.inl ⟨rfl, rfl⟩
  rw [if_neg hn, if_neg hn, if_neg hn]
  cases hf : (findInodeByPath s (pathNormalize (tmpPath s t) 256)).2 with
  | none =>
    rw [Option.filter_none, ite_self]
    exact Or.inl ⟨rfl, rfl⟩
  | some r =>
    have hchild : Fs.hasChild { s with
        icache := (findInodeByPath s (pathNormalize (tmpPath s t) 256)).1 } r = Fs.hasChild s r := rfl
    dsimp only
    rw [Option.filter_some, hchild]
    cases ht : (s.inodes t).isDir with
    | false =>
      cases hr : (s.inodes r).isDir with
      | false => exact Or.inr ⟨r, rfl, rfl, unlinkInode_zeroed s _ r⟩
      | true => exact Or.inl ⟨rfl, rfl⟩
    | true =>
      cases hr : (s.inodes r).isDir with
      | false => exact Or.inl ⟨rfl, rfl⟩
      | true =>
        cases hc : Fs.hasChild s r with
        | false => exact Or.inr ⟨r, rfl, rfl, rmdirInode_zeroed s _ r⟩
        | true => exact Or.inl ⟨rfl, rfl⟩

/-! ### Removal in the VFS -/

/-- The vnode that `unnamedfs_vop_unlink` refreshes when `r` was removed for target `t`: its record
carries 0 if it is the one that was zeroed. -/
def refreshedNode (t r : ℕ) : ℕ := if r = t then 0 else t

/-- The state after `unnamedfs_vop_unlink` has removed `r` for target `t`. -/
def unlinkedState (v : VState) (t r : ℕ) : VState :=
  let s := step v.fs (removeOp v.fs t)
  let m := refreshedNode t r
  let w := dcacheInvalidate { v with fs := s } (tmpPath v.fs t)
  (dcacheInvalidateNode { w with
    nodes := Function.update w.nodes m
      { w.nodes m with
        type := typeOf (s.inodes t), data := some t, id := m, name := (s.inodes t).name.take 63 } }
    m).dropRdcache

/-- The state after `vfs_unlink` or `vfs_rmdir` has removed `r` for target `t`; `target` is the
vnode that the path gave. -/
def removedState (v : VState) (norm : CStr) (target t r : ℕ) : VState :=
  (dcacheInvalidateNode (dcacheInvalidate (unlinkedState v t r) norm) target).dropRdcache

theorem unlinkTarget_live {dir : ℕ} (h : unlinkTarget v dir name = some t) : v.fs.Live t := by
  unfold unlinkTarget at h
  split_ifs at h
  cases hd : (v.nodes dir).data with
  | none => simp [hd] at h
  | some d => simp only [hd] at h; exact childOf_live h

theorem vopUnlink_cases (h : Numbered v.fs) (dir : ℕ) (name : CStr) :
    (∃ ic, vopUnlink v dir name = ({ v with fs := { v.fs with icache := ic } }, -1)) ∨
      ∃ t r, unlinkTarget v dir name = some t ∧ removes v.fs t = some r ∧
        Zeroed v.fs (step v.fs (removeOp v.fs t)) r ∧
        vopUnlink v dir name = (unlinkedState v t r, 0) := by
  unfold vopUnlink
  cases ht : unlinkTarget v dir name with
  | none => exact Or.inl ⟨v.fs.icache, rfl⟩
  | some t =>
    dsimp only
    by_cases hc : ((v.fs.inodes t).isDir && Fs.hasChild v.fs (v.fs.inodes t).ino) = true
    · rw [if_pos hc]; exact Or.inl ⟨v.fs.icache, rfl⟩
    rw [if_neg hc]
    have hstep := removeCall_step v.fs t
    rcases removeCall_cases v.fs t with ⟨-, hcall⟩ | ⟨r, hr, hrc, hz⟩
    · rw [hcall]
      exact Or.inl ⟨_, rfl⟩
    · refine Or.inr ⟨t, r, rfl, hr, hstep ▸ hz, ?_⟩
      have htl := unlinkTarget_live ht
      -- the record of the target afterwards carries the number of the vnode
      have hino : ((step v.fs (removeOp v.fs t)).inodes t).ino = refreshedNode t r := by
        rw [← hstep, refreshedNode]
        split_ifs with hrt
        · subst hrt; rw [hz.self]; rfl
        · rw [hz.other (Ne.symm hrt)]; exact h.ino t htl
      have hlt : ¬ 256 ≤ refreshedNode t r := by
        have := h.count_le
        have := htl.1
        unfold refreshedNode
        split_ifs <;> omega
      generalize removeCall v.fs t = c at hstep hrc ⊢
      obtain ⟨s, rc⟩ := c
      dsimp only at hstep hrc
      subst hstep hrc
      rw [if_pos rfl]
      unfold inodeToVnode unlinkedState
      simp only [dcacheInvalidate, VState.dropRdcache, hino, if_neg hlt]

theorem finishRemoval_cases (h : Numbered v.fs) (norm : CStr) (target parent : ℕ) (name : CStr) :
    (∃ ic, finishRemoval v norm target parent name =
      ({ v with fs := { v.fs with icache := ic } }, -1)) ∨
      ∃ t r, unlinkTarget v parent name = some t ∧ removes v.fs t = some r ∧
        Zeroed v.fs (step v.fs (removeOp v.fs t)) r ∧
        finishRemoval v norm target parent name = (removedState v norm target t r, 0) := by
  unfold finishRemoval
  rcases vopUnlink_cases h parent name with ⟨ic, hu⟩ | ⟨t, r, ht, hr, hz, hu⟩
  · rw [hu]; exact Or.inl ⟨ic, rfl⟩
  · rw [hu]; exact Or.inr ⟨t, r, ht, hr, hz, rfl⟩

/-- The two lookups with which `vfs_unlink` and `vfs_rmdir` start. -/
def lookNorm (v : VState) (path : CStr) : VState × Option ℕ := vfsLookup v (pathNormalize path 256)

@[inherit_doc lookNorm]
def lookParent (v : VState) (path : CStr) : VState × Option ℕ :=
  vfsLookup (lookNorm v path).1 (splitLast (pathNormalize path 256)).1

/-- The inode a removal of `path` is after. -/
def removalTarget (v : VState) (path : CStr) : Option ℕ :=
  (lookParent v path).2.bind fun parent =>
    unlinkTarget (lookParent v path).1 parent ((splitLast (pathNormalize path 256)).2.take 63)

/-- `vfs_unlink`, or `vfs_rmdir` if `dir` is set. -/
def vfsRemove (dir : Bool) (v : VState) (path : CStr) : VState × ℤ :=
  if dir then vfsRmdir v path else vfsUnlink v path

/-- What a removal can do, with the two lookups it starts with. -/
inductive Removal (v : VState) (path : CStr) : VState × ℤ → Prop
  | early : Removal v path (v, -1)
  | noTarget : Removal v path ((lookNorm v path).1, -1)
  | noParent : Removal v path ((lookParent v path).1, -1)
  | failed {w : VState} (hw : (lookParent v path).1 = w) (rd : RdCache) (ic : InodeCache) :
      Removal v path ({ w with rdcache := rd, fs := { w.fs with icache := ic } }, -1)
  | removed {w : VState} (hw : (lookParent v path).1 = w) (rd : RdCache) {target t r : ℕ}
      (hn : (lookNorm v path).2 = some target) (ht : removalTarget v path = some t)
      (hr : removes v.fs t = some r) (hz : Zeroed v.fs (step v.fs (removeOp v.fs t)) r) :
      Removal v path (removedState { w with rdcache := rd } (pathNormalize path 256) target t r, 0)

theorem Removal.zero {q : VState × ℤ} (h : Removal v path q) (hq : q.2 = 0) :
    ∃ w rd target t r, (lookParent v path).1 = w ∧ (lookNorm v path).2 = some target ∧
      removalTarget v path = some t ∧ removes v.fs t = some r ∧
      Zeroed v.fs (step v.fs (removeOp v.fs t)) r ∧
      q = (removedState { w with rdcache := rd } (pathNormalize path 256) target t r, 0) := by
  have hne : ¬ (-1 : ℤ) = 0 := by decide
  cases h with
  | early => exact absurd hq hne
  | noTarget => exact absurd hq hne
  | noParent => exact absurd hq hne
  | failed hw rd ic => exact absurd hq hne
  | @removed w hw rd target t r hn ht hr hz =>
    exact ⟨w, rd, target, t, r, hw, hn, ht, hr, hz, rfl⟩

theorem lookNorm_calm (h : Numbered v.fs) (path : CStr) :
    Calm v (lookNorm v path).1 := vfsLookup_calm h _

theorem lookParent_calm (h : Numbered v.fs) (path : CStr) : Calm v (lookParent v path).1 := by
  have hn := lookNorm_calm h path
  exact hn.trans (vfsLookup_calm (by rw [hn.fs]; exact h) _)

theorem finishRemoval_removal (h : Numbered v.fs) {target parent : ℕ}
    (rd : RdCache) (hn : (lookNorm v path).2 = some target) (hw : (lookParent v path).1 = w)
    (hp : (lookParent v path).2 = some parent) :
    Removal v path (finishRemoval { w with rdcache := rd } (pathNormalize path 256) target parent
      ((splitLast (pathNormalize path 256)).2.take 63)) := by
  have hfs : w.fs = v.fs := by rw [← hw]; exact (lookParent_calm h path).fs
  rcases finishRemoval_cases (v := { w with rdcache := rd }) (by rw [hfs]; exact h)
      (pathNormalize path 256) target parent ((splitLast (pathNormalize path 256)).2.take 63) with
    ⟨ic, hf⟩ | ⟨t, r, ht, hr, hz, hf⟩
  · rw [hf]
    exact .failed hw rd ic
  · rw [hf]
    dsimp only at hr hz
    rw [hfs] at hr hz
    refine .removed hw rd hn ?_ hr hz
    unfold removalTarget
    rw [hp, hw]
    exact ht

/-- The course of a removal: where it stops, or the state from which it comes to its end. -/
inductive Course (v : VState) (path : CStr) : VState × ℤ → Prop
  | early : Course v path (v, -1)
  | noTarget : Course v path ((lookNorm v path).1, -1)
  | noParent : Course v path ((lookParent v path).1, -1)
  | occupied (target : ℕ) : Course v path ((vopReaddir (lookParent v path).1 target 64 0).1, -1)
  | finish {w : VState} {target parent : ℕ}
      (hw : w = (lookParent v path).1 ∨ w = (vopReaddir (lookParent v path).1 target 64 0).1)
      (hn : (lookNorm v path).2 = some target) (hp : (lookParent v path).2 = some parent) :
      Course v path (finishRemoval w (pathNormalize path 256) target parent
        ((splitLast (pathNormalize path 256)).2.take 63))

theorem course_lookups {test : VState → ℕ → Prop} [∀ w n, Decidable (test w n)]
    {rest : VState → ℕ → ℕ → VState × ℤ}
    (hrest : ∀ target parent, (lookNorm v path).2 = some target → (lookParent v path).2 = some
      parent → Course v path (rest (lookParent v path).1 target parent)) :
    Course v path
      (match vfsLookup v (pathNormalize path 256) with
      | (v, none) => (v, -1)
      | (v, some target) =>
        if test v target then (v, -1)
        else
          match vfsLookup v (splitLast (pathNormalize path 256)).1 with
          | (v, none) => (v, -1)
          | (v, some parent) => rest v target parent) := by
  have htarget : Course v path ((lookNorm v path).1, -1) := .noTarget
  have hparent : Course v path ((lookParent v path).1, -1) := .noParent
  unfold lookParent at hrest hparent
  unfold lookNorm at hrest hparent htarget
  generalize vfsLookup v (pathNormalize path 256) = q at hrest htarget hparent ⊢
  obtain ⟨v1, o⟩ := q
  cases o with
  | none => exact htarget
  | some target =>
    dsimp only at hrest hparent ⊢
    split_ifs
    · exact htarget
    generalize vfsLookup v1 (splitLast (pathNormalize path 256)).1 = q at hrest hparent ⊢
    obtain ⟨v2, o⟩ := q
    cases o with
    | none => exact hparent
    | some parent => exact hrest target parent rfl rfl

theorem vfsUnlink_course (v : VState) (path : CStr) : Course v path (vfsUnlink v path) := by
  unfold vfsUnlink
  by_cases he : chars path = []
  · rw [if_pos he]
    exact .early
  rw [if_neg he]
  exact course_lookups fun target parent hn hp => .finish (Or.inl rfl) hn hp

theorem vfsRmdir_course (v : VState) (path : CStr) : Course v path (vfsRmdir v path) := by
  unfold vfsRmdir
  by_cases he : chars path = []
  · rw [if_pos he]
    exact .early
  rw [if_neg he]
  dsimp only
  by_cases hroot : pathNormalize path 256 = [slash]
  · rw [if_pos hroot]
    exact .early
  rw [if_neg hroot]
  refine course_lookups fun target parent hn hp => ?_
  have hoccupied : Course v path ((vopReaddir (lookParent v path).1 target 64 0).1, -1) :=
    .occupied target
  have hempty := fun w hw => Course.finish (w := w) (Or.inr hw) hn hp
  generalize vopReaddir (lookParent v path).1 target 64 0 = q at hoccupied hempty ⊢
  obtain ⟨w, o⟩ := q
  cases o with
  | some name => exact hoccupied
  | none => exact hempty w rfl

theorem vfsRemove_course (dir : Bool) (v : VState) (path : CStr) :
    Course v path (vfsRemove dir v path) := by
  unfold vfsRemove
  split_ifs
  · exact vfsRmdir_course v path
  · exact vfsUnlink_course v path

theorem Course.removal {q : VState × ℤ} (hc : Course v path q)
    (h : Numbered v.fs) : Removal v path q := by
  cases hc with
  | early => exact .early
  | noTarget => exact .noTarget
  | noParent => exact .noParent
  | occupied target =>
    generalize hlook : (lookParent v path).1 = u
    obtain ⟨rd, hrd⟩ := vopReaddir_rdcache u target 64 0
    rw [hrd]
    exact .failed hlook rd u.fs.icache
  | @finish w target parent hw hn hp =>
    generalize hlook : (lookParent v path).1 = u at hw
    rcases hw with rfl | rfl
    · exact finishRemoval_removal h w.rdcache hn hlook hp
    · obtain ⟨rd, hrd⟩ := vopReaddir_rdcache u target 64 0
      rw [hrd]
      exact finishRemoval_removal h rd hn hlook hp

theorem vfsRemove_removal (h : Numbered v.fs) (dir : Bool) (path : CStr) :
    Removal v path (vfsRemove dir v path) := (vfsRemove_course dir v path).removal h

/-! ### A new inode in the VFS -/

theorem freeSlotOf_some (h : freeSlotOf s = some j) : FreeSlot s j := by
  obtain ⟨hl, hr, -⟩ := List.find?_range_eq_some.mp h
  exact Or.inl ⟨List.mem_range.mp hr, by simpa using hl⟩

/-- The state after a new inode in slot `j` under the inode `d`. -/
def addedState (w : VState) (j flags d : ℕ) (name : CStr) : VState :=
  dcacheFlush (putInode w j (newInode w.fs j flags d name))

/-- **A new inode or a failure.** The name was free under the vnode's inode. -/
theorem vopNew_cases (h : Numbered v.fs) (dir : ℕ) (name : CStr) (flags : ℕ)
    (slot : Fs → Option ℕ) :
    (∃ w, Refreshed v w ∧ vopNew v dir name flags slot = (w, -1)) ∨
      ∃ w d j, Refreshed v w ∧ (v.nodes dir).type = .dir ∧ (v.nodes dir).data = some d ∧
        vopLookup v dir (chars name) = (w, none) ∧ (chars name).length < 64 ∧ slot v.fs = some j ∧
        vopNew v dir name flags slot = (addedState w j flags d (chars name), 0) := by
  unfold vopNew
  by_cases ht : (v.nodes dir).type ≠ .dir
  · rw [if_pos ht]; exact Or.inl ⟨v, .refl v, rfl⟩
  rw [if_neg ht]
  by_cases hlen : 64 ≤ (chars name).length
  · rw [if_pos hlen]; exact Or.inl ⟨v, .refl v, rfl⟩
  rw [if_neg hlen]
  cases hd : (v.nodes dir).data with
  | none => exact Or.inl ⟨v, .refl v, rfl⟩
  | some d =>
    dsimp only
    have hw := (vopLookup_answers h dir (chars name)).refreshed
    generalize vopLookup v dir (chars name) = q at hw ⊢
    obtain ⟨w, o⟩ := q
    dsimp only at hw
    cases o with
    | some n => exact Or.inl ⟨w, hw, rfl⟩
    | none =>
      dsimp only
      cases hj : slot w.fs with
      | none => exact Or.inl ⟨w, hw, rfl⟩
      | some j =>
        rw [hw.fs] at hj
        exact Or.inr ⟨w, d, j, hw, not_not.mp ht, rfl, rfl, by omega, hj, rfl⟩

theorem mkdirSlot_free (h : mkdirSlot s = some j) : FreeSlot s j := by
  unfold mkdirSlot at h
  cases hf : freeSlotOf s with
  | some k =>
    rw [hf] at h
    cases h
    exact freeSlotOf_some hf
  | none =>
    rw [hf] at h
    dsimp only at h
    split_ifs at h with hfull
    cases h
    exact Or.inr ⟨rfl, by omega⟩

theorem createSlot_free (h : createSlot s = some j) : FreeSlot s j := by
  unfold createSlot at h
  split_ifs at h with hfull
  · exact freeSlotOf_some h
  · cases h
    exact Or.inr ⟨rfl, by omega⟩

/-- What `vfs_mkdir` can do, with the two lookups it starts with. -/
inductive Mkdir (v : VState) (path : CStr) : VState × ℤ → Prop
  | early : Mkdir v path (v, -1)
  | noParent (hlen : (chars path).length < 256) :
      Mkdir v path ((vfsLookup v (splitLast (chars path)).1).1, -1)
  | failed {v1 w : VState} {parent : ℕ} (hlen : (chars path).length < 256)
      (h1 : vfsLookup v (splitLast (chars path)).1 = (v1, some parent))
      (ht : (v1.nodes parent).type = .dir) (hw : Refreshed (vfsLookup v1 (chars path)).1 w) :
      Mkdir v path (w, -1)
  | made {v1 v2 w : VState} {parent d j : ℕ} {name : CStr} (hlen : (chars path).length < 256)
      (h1 : vfsLookup v (splitLast (chars path)).1 = (v1, some parent))
      (h2 : vfsLookup v1 (chars path) = (v2, none))
      (ht : (v2.nodes parent).type = .dir) (hd : (v2.nodes parent).data = some d)
      (hl : vopLookup v2 parent (chars name) = (w, none)) (hw : Refreshed v2 w)
      (hj : mkdirSlot v.fs = some j) (hn : (chars name).length < 64) :
      Mkdir v path ((dcacheInvalidate (addedState w j 2 d (chars name))
        (pathNormalize (chars path) 256)).dropRdcache, 0)

theorem vfsMkdir_mkdir (h : Numbered v.fs) (path : CStr) : Mkdir v path (vfsMkdir v path) := by
  unfold vfsMkdir
  dsimp only
  by_cases he : chars path = []
  · rw [if_pos he]; exact .early
  rw [if_neg he]
  by_cases hlen : 256 ≤ (chars path).length
  · rw [if_pos hlen]; exact .early
  rw [if_neg hlen]
  by_cases hn0 : (splitLast (chars path)).2 = []
  · rw [if_pos hn0]; exact .early
  rw [if_neg hn0]
  by_cases hnl : 64 ≤ (splitLast (chars path)).2.length
  · rw [if_pos hnl]; exact .early
  rw [if_neg hnl]
  cases h1 : vfsLookup v (splitLast (chars path)).1 with
  | mk v1 o =>
    have hc1 : Calm v v1 := by have := vfsLookup_calm h (splitLast (chars path)).1; rwa [h1] at this
    have he1 : (vfsLookup v (splitLast (chars path)).1).1 = v1 := by rw [h1]
    cases o with
    | none => dsimp only; rw [← he1]; exact .noParent (by omega)
    | some parent =>
      dsimp only
      by_cases ht : (v1.nodes parent).type ≠ .dir
      · rw [if_pos ht, ← he1]; exact .noParent (by omega)
      rw [if_neg ht]
      cases h2 : vfsLookup v1 (chars path) with
      | mk v2 o =>
        have hc2 : Calm v1 v2 := by
          have := vfsLookup_calm (by rw [hc1.fs]; exact h) (chars path)
          rwa [h2] at this
        have he2 : (vfsLookup v1 (chars path)).1 = v2 := by rw [h2]
        have hfs : v2.fs = v.fs := by rw [hc2.fs, hc1.fs]
        cases o with
        | some n => exact .failed (by omega) h1 (not_not.mp ht) (by rw [he2]; exact .refl v2)
        | none =>
          dsimp only
          rcases vopNew_cases (v := v2) (by rw [hfs]; exact h) parent (splitLast (chars path)).2 2
              mkdirSlot with
            ⟨w, hw, hm⟩ | ⟨w, d, j, hw, ht', hd, hl, hlt, hj, hm⟩
          · rw [vopMkdir, hm]
            dsimp only
            rw [if_neg (by decide)]
            exact .failed (by omega) h1 (not_not.mp ht) (by rw [he2]; exact hw)
          · rw [hfs] at hj
            rw [vopMkdir, hm]
            dsimp only
            rw [if_pos rfl]
            exact .made (by omega) h1 h2 ht' hd hl hw hj hlt

/-! ### Every call -/

/-- The state after descriptor `k` was opened on vnode `n`. -/
def openedState (w : VState) (n k : ℕ) (mode : ℤ) : VState :=
  { w with
    fileTable := Function.update w.fileTable k ⟨some n, 0, mode⟩
    fdUsed := Function.update w.fdUsed k true
    nodes := Function.update w.nodes n
      { w.nodes n with refcount := ((w.nodes n).refcount + 1) % 2 ^ 32 } }

/-- What `vfs_open` does after its lookup: nothing, an entry of the file table whose descriptor
stays unused, or a descriptor opened. -/
inductive Opening (v : VState) (path : CStr) (mode : ℤ) : VState → Prop
  | refused : Opening v path mode (vfsLookup v path).1
  | unused {w : VState} (hw : (vfsLookup v path).1 = w) {k : ℕ} (hu : w.fdUsed k = false) (f : VFile) :
      Opening v path mode { w with fileTable := Function.update w.fileTable k f }
  | opened {w : VState} {n i k : ℕ} (hl : vfsLookup v path = (w, some n))
      (hd : (w.nodes n).data = some i) (hk : k < 64) (hu : w.fdUsed k = false) :
      Opening v path mode (openedState w n k mode)

theorem vfsOpen_opening (v : VState) (path : CStr) (mode : ℤ) :
    Opening v path mode (vfsOpen v path mode).1 := by
  unfold vfsOpen
  cases hl : vfsLookup v path with
  | mk w o =>
    have hw : (vfsLookup v path).1 = w := by rw [hl]
    cases o with
    | none => dsimp only; rw [← hw]; exact .refused
    | some n =>
      dsimp only
      cases hk : (List.range 64).find? fun k => !w.fdUsed k with
      | none => dsimp only; rw [← hw]; exact .refused
      | some k =>
        obtain ⟨hu, hlt, -⟩ := List.find?_range_eq_some.mp hk
        have hunused : w.fdUsed k = false := by simpa using hu
        dsimp only
        cases hd : (w.nodes n).data with
        | none => exact .unused hw hunused _
        | some i =>
          have ho : Opening v path mode (openedState w n k mode) :=
            .opened hl hd (List.mem_range.mp hlt) hunused
          simp only [openedState, hd] at ho
          exact ho

theorem vfsOpen_fs (hn : Numbered v.fs) (path : CStr) (mode : ℤ) :
    (vfsOpen v path mode).1.fs = v.fs := by
  have hlook := (vfsLookup_calm hn path).fs
  have ho := vfsOpen_opening v path mode
  generalize (vfsOpen v path mode).1 = u at ho ⊢
  cases ho with
  | refused => exact hlook
  | unused hw hu f =>
    rw [hw] at hlook
    exact hlook
  | opened hl hd hk hu =>
    rw [hl] at hlook
    exact hlook

/-- **The effects of a call.** -/
inductive VEffect (v : VState) : VOp → VState → Prop
  | calm {op : VOp} {v' : VState} (h : Calm v v') : VEffect v op v'
  | opened {path : CStr} {mode : ℤ} {w : VState} {n i k : ℕ}
      (hl : vfsLookup v path = (w, some n)) (hw : Calm v w) (hd : (w.nodes n).data = some i)
      (hk : k < 64) (hu : v.fdUsed k = false) :
      VEffect v (.open_ path mode) (openedState w n k mode)
  | wrote {fd : ℤ} {buf : ℕ → UInt8} {count i : ℕ} {v' : VState} (hfd : ¬ VState.badFd v fd)
      (hi : VState.fileInode v fd.toNat = some i)
      (hv : Calm { v with
        fs := (vopWrite v.fs i (v.fileTable fd.toNat).offset buf count).1 } v') :
      VEffect v (.write fd buf count) v'
  | added {op : VOp} {w v' : VState} {j flags d : ℕ} {name : CStr} (hw : Calm v w)
      (hj : FreeSlot v.fs j) (hf : flags = 1 ∨ flags = 2)
      (hv : Calm (putInode w j (newInode w.fs j flags d name)) v') : VEffect v op v'
  | tried {op : VOp} {w : VState} (hw : Calm v w) (ic : InodeCache) :
      VEffect v op { w with fs := { w.fs with icache := ic } }
  | removed {op : VOp} {dir : Bool} {path norm : CStr} {w : VState} {target t r : ℕ}
      (hop : op = if dir then .rmdir path else .unlink path)
      (hrc : (vfsRemove dir v path).2 = 0) (hw : Calm v w)
      (ht : removalTarget v path = some t) (hr : removes v.fs t = some r)
      (hz : Zeroed v.fs (step v.fs (removeOp v.fs t)) r) :
      VEffect v op (removedState w norm target t r)
  | call {op : Op} {s' : Fs} (h : Effect v.fs op s') : VEffect v (.fs op) { v with fs := s' }

theorem vfsOpen_effect (h : Numbered v.fs) (path : CStr) (mode : ℤ) :
    VEffect v (.open_ path mode) (vfsOpen v path mode).1 := by
  have hg := vfsLookup_glance h path
  have ho := vfsOpen_opening v path mode
  generalize (vfsOpen v path mode).1 = v' at ho ⊢
  cases ho with
  | refused => exact .calm hg.calm
  | @unused w hw k hu f =>
    rw [hw] at hg
    refine .calm (hg.calm.trans (.of_eq rfl rfl (fun _ => rfl) (fun _ => rfl) fun j hj => ?_))
    have hne : j ≠ k := fun he => Bool.false_ne_true (hu.symm.trans (he ▸ hj))
    exact ⟨hj, by simp [hne]⟩
  | opened hl hd hk hu =>
    rw [hl] at hg
    exact .opened hl hg.calm hd hk (by rw [← hg.fdUsed]; exact hu)

theorem vfsWrite_effect (v : VState) (fd : ℤ) (buf : ℕ → UInt8) (count : ℕ) :
    VEffect v (.write fd buf count) (vfsWrite v fd buf count).1 := by
  unfold vfsWrite
  by_cases hfd : VState.badFd v fd
  · rw [if_pos hfd]; exact .calm (.refl v)
  rw [if_neg hfd]
  cases hi : VState.fileInode v fd.toNat with
  | none => exact .calm (.refl v)
  | some i =>
    refine .wrote hfd hi ?_
    dsimp only
    generalize vopWrite v.fs i (v.fileTable fd.toNat).offset buf count = q
    obtain ⟨s, o⟩ := q
    cases o with
    | none => exact .refl _
    | some k =>
      dsimp only
      split_ifs
      · exact (setOffset_files { v with fs := s } _ _).calm.trans (calm_caches _ _ _ _)
      · exact (setOffset_files { v with fs := s } _ _).calm

theorem addedState_calm (w : VState) (j flags d : ℕ) (name : CStr) :
    Calm (putInode w j (newInode w.fs j flags d name)) (addedState w j flags d name) :=
  calm_caches _ _ _ _

theorem vfsMkdir_effect (h : Numbered v.fs) (path : CStr) :
    VEffect v (.mkdir path) (vfsMkdir v path).1 := by
  have hm := vfsMkdir_mkdir h path
  have h1 := vfsLookup_calm h (splitLast (chars path)).1
  have h2 := h1.trans (vfsLookup_calm (by rw [h1.fs]; exact h) (chars path))
  generalize vfsMkdir v path = q at hm ⊢
  cases hm with
  | early => exact .calm (.refl v)
  | noParent hlen => exact .calm h1
  | failed hlen he1 ht hw =>
    rw [he1] at h2
    exact .calm (h2.trans (Refreshed.calm hw))
  | made hlen he1 he2 ht hd hl hw hj hn =>
    rw [he1] at h2
    dsimp only at h2
    rw [he2] at h2
    exact .added (h2.trans (Refreshed.calm hw)) (mkdirSlot_free hj) (Or.inr rfl)
      ((addedState_calm _ _ _ _ _).trans (calm_caches _ _ _ _))

theorem vfsRemove_effect (h : Numbered v.fs) (dir : Bool) (path : CStr) {op : VOp}
    (hop : op = if dir then .rmdir path else .unlink path) :
    VEffect v op (vfsRemove dir v path).1 := by
  have hm := vfsRemove_removal h dir path
  have hn := lookNorm_calm h path
  have hp := lookParent_calm h path
  revert hm
  generalize hq : vfsRemove dir v path = q
  intro hm
  cases hm with
  | early => exact .calm (.refl v)
  | noTarget => exact .calm hn
  | noParent => exact .calm hp
  | @failed w hw rd ic =>
    rw [hw] at hp
    exact .tried (hp.trans (calm_caches w w.dcache w.dcacheTick rd)) ic
  | @removed w hw rd target t r hnorm ht hr hz =>
    rw [hw] at hp
    exact .removed hop (by rw [hq]) (hp.trans (calm_caches w w.dcache w.dcacheTick rd)) ht hr hz

theorem vopCreate_effect (h : Numbered v.fs) (dir : ℕ) (name : CStr) :
    VEffect v (.create dir name) (vopCreate v dir name).1 := by
  unfold vopCreate
  rcases vopNew_cases h dir name 1 createSlot with
    ⟨w, hw, hm⟩ | ⟨w, d, j, hw, ht, hd, hl, hlt, hj, hm⟩
  · rw [hm]; exact .calm (Refreshed.calm hw)
  · rw [hm]
    exact .added (Refreshed.calm hw) (createSlot_free hj) (Or.inl rfl) (addedState_calm _ _ _ _ _)

/-- **Every call has one of the effects.** -/
theorem vstep_effect (h : Numbered v.fs) (op : VOp) : VEffect v op (vstep v op) := by
  cases op with
  | lookup path => exact .calm (vfsLookup_calm h path)
  | stat path => exact .calm (vfsLookup_calm h path)
  | open_ path mode => exact vfsOpen_effect h path mode
  | close fd => exact .calm (vfsClose_files v fd).calm
  | read fd count => exact .calm (vfsRead_files v fd count).calm
  | write fd buf count => exact vfsWrite_effect v fd buf count
  | lseek fd offset whence => exact .calm (vfsLseek_files v fd offset whence).calm
  | readdir fd size => exact .calm (vfsReaddir_calm v fd size)
  | mkdir path => exact vfsMkdir_effect h path
  | unlink path => exact vfsRemove_effect h false path rfl
  | rmdir path => exact vfsRemove_effect h true path rfl
  | create dir name => exact vopCreate_effect h dir name
  | fs op => exact .call (step_effect v.fs op)

/-! ### The inode table stays numbered -/

theorem putInode_fs (w : VState) (j : ℕ) (n : Inode) :
    (putInode w j n).fs = addInode w.fs w.fs.icache j n := rfl

theorem newInode_isLive {flags d : ℕ} (hf : flags = 1 ∨ flags = 2) :
    (newInode s j flags d name).isLive = true := by
  rcases hf with rfl | rfl <;> rfl

theorem numbered_vstep (h : Numbered v.fs) (op : VOp) : Numbered (vstep v op).fs := by
  have he := vstep_effect h op
  revert he
  generalize vstep v op = v'
  intro he
  cases he with
  | calm hc => rw [hc.fs]; exact h
  | opened hl hw hd hk hu => change Numbered _; rw [openedState, hw.fs]; exact h
  | wrote hfd hi hv => rw [hv.fs]; exact h.congr (vopWrite_sameTree _ _ _ _ _)
  | added hw hj hf hv =>
    rw [hv.fs, putInode_fs, hw.fs]
    exact h.insert hj (newInode_isLive hf) rfl
  | tried hw ic => dsimp only; rw [hw.fs]; exact h.congr (.of_eq rfl rfl fun _ _ => rfl)
  | @removed _ _ _ _ w _ t _ hop hrc hw ht hr hz =>
    change Numbered (step w.fs (removeOp w.fs t))
    rw [hw.fs]
    exact h.effect (step_effect _ _)
  | call he => exact h.effect he

/-! ### The state after `vfs_init` -/

theorem formatMount_ramDisk : formatMount zeroDevice 65536 = some ramDisk :=
  (Option.some_get _).symm

theorem vfsInit_reach {ok : Fs → Op → Prop} (hok : ∀ s path, ok s (.mkdir path)) :
    Reach ok step ramDisk vfsInit.fs :=
  Reach.foldl [Op.mkdir (cstr "/bin"), .mkdir (cstr "/etc"), .mkdir (cstr "/home"),
    .mkdir (cstr "/tmp")] .init ⟨hok _ _, hok _ _, hok _ _, hok _ _, trivial⟩

theorem dirTree_vfsInit : DirTree vfsInit.fs :=
  namespace_reach formatMount_ramDisk (vfsInit_reach fun _ _ => trivial)

theorem validRoot_vfsInit : ValidRoot vfsInit := ⟨rfl, rfl, rfl⟩

theorem numbered_vfsInit : Numbered vfsInit.fs := numbered_of_dirTree dirTree_vfsInit

theorem vfsInit_node {n : ℕ} (h : n ≠ 0) : vfsInit.nodes n = ⟨n, .unknown, 0, none, []⟩ :=
  Function.update_of_ne h _ _

end Kerneloid.Vfs.Effects
