import Kerneloid.Vfs.Effects

/-! # The frame of a removal

After `vfs_unlink(p)` or `vfs_rmdir(p)` has returned 0, `p` should lead nowhere, and every path
whose way did not come by the removed inode should lead where it led (`FrameLaw`). `removal_frame`
says exactly when this is so, from any state with a directory tree and a valid root vnode: the inode
`r` removed must not be the one asked for. If it is, which is the ordinary case, the root vnode is
lost.

The two differ when the target lies more than eight levels deep: the path built for it keeps its
last eight names, and may lead elsewhere. -/

namespace Kerneloid.Vfs.Removal

open Lib.Runs UnnamedFS.Types UnnamedFS.Path UnnamedFS.Ops UnnamedFS.Namespace UnnamedFS.Slots Types
open Vfs.Path Walk Ops Effects

variable {p q : CStr}

/-- With an empty cache, `vfs_lookup(q)` finds a vnode of inode `i` with the type of `i`. -/
def ResolvesTo (v : VState) (q : CStr) (i : ℕ) : Prop :=
  ∃ n, (vfsLookup (dcacheFlush v) q).2 = some n ∧
    ((vfsLookup (dcacheFlush v) q).1.nodes n).data = some i ∧
    ((vfsLookup (dcacheFlush v) q).1.nodes n).type = typeOf (v.fs.inodes i)

/-- **The frame law** of a removal of `p` that went from `v` to `v'` and took inode `r` away. -/
structure FrameLaw (v v' : VState) (p : CStr) (r : ℕ) : Prop where
  gone : (vfsLookup (dcacheFlush v') p).2 = none
  kept : ∀ q i, ResolvesTo v q i → ¬ Visits v.fs r 0 (components q) → ResolvesTo v' q i

/-! ### Lookups with an empty cache -/

theorem dcacheLookup_flush (v : VState) (path : CStr) :
    dcacheLookup (dcacheFlush v) path = (dcacheFlush v, none) := by
  have hf : dcacheFind (dcacheFlush v) path = none := by
    unfold dcacheFind
    refine List.find?_eq_none.mpr fun i _ => ?_
    simp [dcacheFlush, VState.dropRdcache]
  rw [dcacheLookup, hf]

theorem vfsLookup_flush {v : VState} (hq : chars q ≠ []) :
    (vfsLookup (dcacheFlush v) q).2 = (vfsWalk (dcacheFlush v) q).2 ∧
      (vfsLookup (dcacheFlush v) q).1.nodes = (vfsWalk (dcacheFlush v) q).1.nodes := by
  unfold vfsLookup
  rw [if_neg hq]
  dsimp only
  rw [dcacheLookup_flush]
  dsimp only
  generalize vfsWalk (dcacheFlush v) q = r
  obtain ⟨w, o⟩ := r
  cases o with
  | none => exact ⟨rfl, rfl⟩
  | some n => exact ⟨rfl, rfl⟩

theorem validRoot_flush {v : VState} (h : ValidRoot v) : ValidRoot (dcacheFlush v) :=
  ⟨h.root, h.type, h.data⟩

theorem vfsLookup_empty {v : VState} (hq : chars q = []) : (vfsLookup v q).2 = none := by
  rw [vfsLookup, if_pos hq]

section Tree
variable {v : VState} (ht : DirTree v.fs) (hr : ValidRoot v)
include ht hr

theorem vfsLookup_flush_eq (hq : chars q ≠ []) :
    (vfsLookup (dcacheFlush v) q).2 = inodeWalk v.fs 0 (components q) := by
  rw [(vfsLookup_flush hq).1]
  exact (vfsWalk_eq (v := dcacheFlush v) ht (validRoot_flush hr) q).1

theorem resolvesTo_iff {i : ℕ} :
    ResolvesTo v q i ↔ chars q ≠ [] ∧ inodeWalk v.fs 0 (components q) = some i := by
  have hacc := (vfsWalk_eq (v := dcacheFlush v) ht (validRoot_flush hr) q).2
  have hfs : (vfsWalk (dcacheFlush v) q).1.fs = v.fs :=
    (vfsWalk_refreshed (v := dcacheFlush v) (numbered_of_dirTree ht) q).fs
  constructor
  · rintro ⟨n, hn, hd, -⟩
    have hq : chars q ≠ [] := fun he => by
      rw [vfsLookup_empty he] at hn
      exact absurd hn (by simp)
    rw [vfsLookup_flush_eq ht hr hq] at hn
    rw [(vfsLookup_flush hq).2, (hacc n hn).data] at hd
    cases hd
    exact ⟨hq, hn⟩
  · rintro ⟨hq, hi⟩
    have ha := hacc i hi
    refine ⟨i, by rw [vfsLookup_flush_eq ht hr hq, hi], ?_, ?_⟩
    · rw [(vfsLookup_flush hq).2]; exact ha.data
    · rw [(vfsLookup_flush hq).2, ha.type, hfs]

end Tree

/-! ### The state after a removal -/

section Removed
variable {v w : VState} {norm : CStr} {target t r : ℕ}

theorem removedState_fs : (removedState w norm target t r).fs = step w.fs (removeOp w.fs t) := rfl

theorem removedState_nodes : (removedState w norm target t r).nodes =
    Function.update w.nodes (refreshedNode t r)
      { w.nodes (refreshedNode t r) with
        type := typeOf ((step w.fs (removeOp w.fs t)).inodes t)
        data := some t
        id := refreshedNode t r
        name := ((step w.fs (removeOp w.fs t)).inodes t).name.take 63 } := rfl

theorem removedState_type (n : ℕ) : ((removedState w norm target t r).nodes n).type =
    if n = refreshedNode t r then typeOf ((step w.fs (removeOp w.fs t)).inodes t)
    else (w.nodes n).type := by
  rw [removedState_nodes, Function.update_apply]
  split_ifs <;> rfl

theorem removedState_data (n : ℕ) : ((removedState w norm target t r).nodes n).data =
    if n = refreshedNode t r then some t else (w.nodes n).data := by
  rw [removedState_nodes, Function.update_apply]
  split_ifs <;> rfl

theorem Calm.validRoot (hc : Calm v w) (ht : DirTree v.fs) (hr : ValidRoot v) : ValidRoot w := by
  refine ⟨by rw [hc.root]; exact hr.root, ?_, ?_⟩ <;> rcases hc.node 0 with ⟨h1, h2⟩ | ⟨-, h1, h2⟩
  · rw [h1]; exact hr.type
  · rw [h1]; exact typeOf_eq_dir.mpr ht.root_dir
  · rw [h2]; exact hr.data
  · exact h2

theorem removes_leaf {s : Fs} (ht : DirTree s) (h : removes s t = some r) :
    ∀ j, s.Live j → parentOf s j ≠ r := by
  obtain ⟨-, -, hdir⟩ := removes_spec h
  cases hd : (s.inodes r).isDir with
  | true => exact hdir hd
  | false => exact ht.file_leaf hd

theorem removes_ne_root {s : Fs} (ht : DirTree s) (h : removes s t = some r) : r ≠ 0 :=
  (numbered_of_dirTree ht).ne_root fun _ => removes_leaf ht h

theorem removedState_validRoot (ht : DirTree w.fs) (hr : ValidRoot w) (hrem : removes w.fs t = some r)
    (hz : Zeroed w.fs (step w.fs (removeOp w.fs t)) r) (hne : r ≠ t) :
    ValidRoot (removedState w norm target t r) := by
  have h0 := removes_ne_root ht hrem
  have hm : refreshedNode t r = t := if_neg hne
  refine ⟨hr.root, ?_, ?_⟩
  · rw [removedState_type, hm]
    split_ifs with h
    · subst h; rw [hz.other h0.symm]; exact typeOf_eq_dir.mpr ht.root_dir
    · exact hr.type
  · rw [removedState_data, hm]
    split_ifs with h
    · rw [← h]
    · exact hr.data

end Removed

/-! ### The law -/

theorem not_frameLaw {v w : VState} {norm : CStr} {target r : ℕ} (ht : DirTree v.fs)
    (hr : ValidRoot v) (hroot : w.root = 0) (hrem : removes v.fs r = some r) :
    ¬ FrameLaw v (removedState w norm target r r) p r := by
  have h0 := removes_ne_root ht hrem
  intro hlaw
  have hq : chars [slash] ≠ [] := by decide
  obtain ⟨n, hn, hd, -⟩ := hlaw.kept [slash] 0 ((resolvesTo_iff ht hr).mpr ⟨hq, rfl⟩)
    fun hv => h0 (Eq.symm hv)
  -- the walk of `/` ends at the root vnode
  rw [(vfsLookup_flush hq).1] at hn
  rw [(vfsLookup_flush hq).2] at hd
  have hwalk : vfsWalk (dcacheFlush (removedState w norm target r r)) [slash] =
      (dcacheFlush (removedState w norm target r r), some w.root) := rfl
  rw [hwalk] at hn hd
  cases hn
  change ((removedState w norm target r r).nodes w.root).data = some 0 at hd
  rw [removedState_data, hroot, refreshedNode, if_pos rfl, if_pos rfl] at hd
  exact h0 (Option.some.inj hd)

theorem frameLaw_iff {v v' : VState} {r : ℕ} (ht : DirTree v.fs) (hr : ValidRoot v)
    (hr' : ValidRoot v') (hz : Zeroed v.fs v'.fs r) (hleaf : ∀ j, v.fs.Live j → parentOf v.fs j ≠ r)
    (hp : chars p ≠ []) :
    FrameLaw v v' p r ↔ ∀ i, inodeWalk v.fs 0 (components p) = some i →
      Visits v.fs r 0 (components p) := by
  have ht' := ht.erase hz hleaf
  have h0 : (0 : ℕ) ≠ r := fun he => hleaf 0 ht.tree.root_live (by rw [ht.tree.root_parent]; exact he)
  have herase := fun q => inodeWalk_erase ht hz hleaf (components q) ht.tree.root_live h0
  constructor
  · intro hlaw i hi
    by_contra hv
    have hgone := hlaw.gone
    rw [vfsLookup_flush_eq ht' hr' hp, (herase p).1 hv, hi] at hgone
    exact absurd hgone (by simp)
  · intro h
    refine ⟨?_, fun q i hq hv => ?_⟩
    · rw [vfsLookup_flush_eq ht' hr' hp]
      by_cases hv : Visits v.fs r 0 (components p)
      · exact (herase p).2 hv
      · rw [(herase p).1 hv]
        exact Option.eq_none_iff_forall_ne_some.mpr fun i hi => hv (h i hi)
    · obtain ⟨hne, hi⟩ := (resolvesTo_iff ht hr).mp hq
      exact (resolvesTo_iff ht' hr').mpr ⟨hne, by rw [(herase q).1 hv, hi]⟩

theorem chars_of_removal {dir : Bool} {v : VState} (h : (vfsRemove dir v p).2 = 0) :
    chars p ≠ [] := by
  intro he
  unfold vfsRemove vfsRmdir vfsUnlink at h
  rw [if_pos he, if_pos he, ite_self] at h
  exact absurd h (by simp)

/-- **The frame of a removal.** From a directory tree with a valid root vnode, let `vfs_unlink(p)`
or `vfs_rmdir(p)` return 0. It was after some inode `t` and removed some inode `r`. The law holds
for it if and only if `r` is not `t`, and `p` led nowhere without the cache or its way came by
`r`. -/
theorem removal_frame (dir : Bool) (v : VState) (p : CStr) (ht : DirTree v.fs) (hroot : ValidRoot v)
    (hrc : (vfsRemove dir v p).2 = 0) :
    ∃ t r, removalTarget v p = some t ∧ removes v.fs t = some r ∧
      Zeroed v.fs (vfsRemove dir v p).1.fs r ∧
      (FrameLaw v (vfsRemove dir v p).1 p r ↔ r ≠ t ∧
        ∀ i, inodeWalk v.fs 0 (components p) = some i → Visits v.fs r 0 (components p)) := by
  have hp := chars_of_removal hrc
  have hnum := numbered_of_dirTree ht
  have hcalm := lookParent_calm hnum p
  obtain ⟨w, rd, target, t, r, hw, hn, htar, hr, hz, hq⟩ :=
    (vfsRemove_removal hnum dir p).zero hrc
  rw [hq]
  rw [hw] at hcalm
  have hfs := hcalm.fs
  have hwr := Calm.validRoot hcalm ht hroot
  have hz' : Zeroed v.fs (removedState { w with rdcache := rd } (pathNormalize p 256) target t
      r).fs r := by
    rw [removedState_fs]
    dsimp only
    rw [hfs]
    exact hz
  refine ⟨t, r, htar, hr, hz', ?_⟩
  by_cases hrt : r = t
  · subst hrt
    exact ⟨fun hlaw => absurd hlaw (not_frameLaw ht hroot hwr.root hr), fun h => absurd rfl h.1⟩
  · have hroot' : ValidRoot
        (removedState { w with rdcache := rd } (pathNormalize p 256) target t r) := by
      rw [← hfs] at ht hr hz
      exact removedState_validRoot (w := { w with rdcache := rd }) ht
        ⟨hwr.root, hwr.type, hwr.data⟩ hr hz hrt
    rw [frameLaw_iff ht hroot hroot' hz' (removes_leaf ht hr) hp]
    exact ⟨fun h => ⟨hrt, h⟩, fun h => h.2⟩

/-- The directories `/a/b/../h` and `/x/a/b/../h`, nine levels deep. -/
def deepState : VState :=
  { vfsInit with fs := [Op.mkdir (cstr "/x"), .mkdir (cstr "/a"), .mkdir (cstr "/a/b"),
      .mkdir (cstr "/a/b/c"), .mkdir (cstr "/a/b/c/d"), .mkdir (cstr "/a/b/c/d/e"),
      .mkdir (cstr "/a/b/c/d/e/f"), .mkdir (cstr "/a/b/c/d/e/f/g"), .mkdir (cstr "/a/b/c/d/e/f/g/h"),
      .mkdir (cstr "/x/a"), .mkdir (cstr "/x/a/b"), .mkdir (cstr "/x/a/b/c"),
      .mkdir (cstr "/x/a/b/c/d"), .mkdir (cstr "/x/a/b/c/d/e"), .mkdir (cstr "/x/a/b/c/d/e/f"),
      .mkdir (cstr "/x/a/b/c/d/e/f/g"), .mkdir (cstr "/x/a/b/c/d/e/f/g/h")].foldl step vfsInit.fs }

/-- A way to the deeper `h` by the other one. -/
def deepPath : CStr := cstr "/a/b/c/d/e/f/g/h/../../../../../../../../x/a/b/c/d/e/f/g/h"

theorem dirTree_deepState : DirTree deepState.fs := by
  simp only [deepState]
  exact namespace_reach formatMount_ramDisk
    (Reach.foldl _ (vfsInit_reach fun _ _ => trivial) (Admits.any _))

/-- The removal of the deeper `h` takes the other one away, and the law holds for the way by it. -/
theorem removal_frame_deep :
    ∃ r, FrameLaw deepState (vfsRemove true deepState deepPath).1 deepPath r := by
  obtain ⟨t, r, ht, hr, -, hlaw⟩ := removal_frame true deepState deepPath dirTree_deepState
    ⟨rfl, rfl, rfl⟩ (by decide +kernel)
  have htarget : removalTarget deepState deepPath = some 21 := by decide +kernel
  cases htarget.symm.trans ht
  have hother : removes deepState.fs 21 = some 13 := by decide +kernel
  cases hother.symm.trans hr
  exact ⟨13, hlaw.mpr ⟨by decide, fun _ _ => by decide +kernel⟩⟩

/-- `vfs_rmdir("/etc")` in the state after `vfs_init` removes inode 2, and `/bin` no longer
resolves. -/
theorem rmdir_loses_root :
    DirTree vfsInit.fs ∧ ValidRoot vfsInit ∧ (vfsRmdir vfsInit (cstr "/etc")).2 = 0 ∧
      vfsInit.fs.Live 2 ∧ ¬ (vfsRmdir vfsInit (cstr "/etc")).1.fs.Live 2 ∧
      ¬ FrameLaw vfsInit (vfsRmdir vfsInit (cstr "/etc")).1 (cstr "/etc") 2 := by
  refine ⟨dirTree_vfsInit, validRoot_vfsInit, by decide +kernel, by decide +kernel,
    by decide +kernel, fun hlaw => ?_⟩
  obtain ⟨n, hn, -⟩ := hlaw.kept (cstr "/bin") 1
    ⟨1, by decide +kernel, by decide +kernel, by decide +kernel⟩ (by decide +kernel)
  have hnone : (vfsLookup (dcacheFlush (vfsRmdir vfsInit (cstr "/etc")).1) (cstr "/bin")).2 =
      none := by decide +kernel
  rw [hnone] at hn
  exact absurd hn (by simp)

end Kerneloid.Vfs.Removal
