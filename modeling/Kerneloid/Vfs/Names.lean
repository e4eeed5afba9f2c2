import Kerneloid.Vfs.Bytes
import Kerneloid.Vfs.Copies

/-! # Lookups read the names only

What a lookup answers depends on the tree, the vnodes and the caches of names, not on the sizes and
the blocks of the files (`SameNames.lookup`). So a removal after a write to a file comes to the same
answer as it would have come to before (`SameNames.unlink`). -/

namespace Kerneloid.Vfs.Names

open UnnamedFS.Types UnnamedFS.Path UnnamedFS.Lookup UnnamedFS.Ops UnnamedFS.Slots
open UnnamedFS.Layout UnnamedFS.Decode UnnamedFS.Simulation Types Vfs.Path Walk Ops
open Effects Copies Bytes

variable {s t : Fs} {v u : VState} {i : ℕ} {name path : CStr}

/-! ### The tree -/

section Tree
variable (h : SameTree s t)
include h

theorem childOf_congr (name : CStr) (parent : ℕ) : childOf t name parent = childOf s name parent :=
  find_isChild_congr h name parent

theorem namesUp_congr : ∀ (depth : ℕ) {cur : ℕ}, cur < s.sb.inodeCount →
    namesUp t depth cur = namesUp s depth cur
  | 0, _, _ => rfl
  | depth + 1, cur, hcur => by
    unfold namesUp
    dsimp only
    rw [h.parent cur hcur, h.name cur hcur, h.count]
    split_ifs with _ hpar
    · rfl
    · rfl
    · rw [namesUp_congr depth (not_le.mp hpar)]

theorem tmpPath_congr (hi : i < s.sb.inodeCount) : tmpPath t i = tmpPath s i := by
  unfold tmpPath
  rw [namesUp_congr h 8 hi]

variable (hn : Numbered s)
include hn

theorem removes_congr (hic : t.icache = s.icache) (hi : i < s.sb.inodeCount) :
    removes t i = removes s i := by
  unfold removes
  dsimp only
  rw [tmpPath_congr h hi, findInodeByPath_congr h hn hic, h.isDir hi]
  cases hr : (findInodeByPath s (pathNormalize (tmpPath s i) 256)).2 with
  | none => rfl
  | some r =>
    have hlt := (hn.reachable (findInodeByPath_anchored hr)).1
    simp only [Option.filter_some, h.isDir hlt, hasChild_congr h]

omit hn in
theorem SameTree.zeroed {s' t' : Fs} {r : ℕ} (hs : Zeroed s s' r) (ht : Zeroed t t' r) :
    SameTree s' t' := by
  have hcount := h.count
  refine ⟨by rw [hs.mount, ht.mount, h.mount], by rw [hs.count, ht.count, hcount], ?_, ?_, ?_, ?_⟩ <;>
  · intro i hi
    rw [hs.count] at hi
    by_cases hir : i = r
    · rw [hir, hs.self, ht.self]
    · rw [hs.other hir, ht.other hir]
      first | exact h.ino i hi | exact h.flags i hi | exact h.parent i hi | exact h.name i hi

theorem removeCall_congr (hic : t.icache = s.icache) (hi : i < s.sb.inodeCount) :
    (removeCall t i).2 = (removeCall s i).2 ∧ SameTree (removeCall s i).1 (removeCall t i).1 ∧
      (removeCall s i).1.sb.inodeCount = s.sb.inodeCount ∧
      ((removeCall s i).2 ≠ 0 → (removeCall t i).1.icache = (removeCall s i).1.icache) := by
  have hremoves := removes_congr h hn hic hi
  rcases removeCall_cases s i with ⟨hnone, hs⟩ | ⟨r, hr, hs, hz⟩
  · rcases removeCall_cases t i with ⟨-, ht⟩ | ⟨r, hr, -⟩
    · rw [hs, ht, tmpPath_congr h hi, findInodeByPath_congr h hn hic]
      exact ⟨rfl, ⟨h.mount, h.count, h.ino, h.flags, h.parent, h.name⟩, rfl, fun _ => rfl⟩
    · rw [hremoves, hnone] at hr
      cases hr
  · rcases removeCall_cases t i with ⟨hnone, -⟩ | ⟨r', hr', ht, hz'⟩
    · rw [hremoves, hr] at hnone
      cases hnone
    · rw [hremoves, hr] at hr'
      cases hr'
      exact ⟨by rw [hs, ht], SameTree.zeroed h hz hz', hz.count, fun hne => absurd hs hne⟩

end Tree

/-! ### The walk -/

/-- `v` with the file system and the open files of `u`. -/
def onto (v u : VState) : VState :=
  { u with nodes := v.nodes, root := v.root, dcache := v.dcache, dcacheTick := v.dcacheTick }

theorem onto_fs (v u : VState) : (onto v u).fs = u.fs := rfl

theorem onto_nodes (v u : VState) : (onto v u).nodes = v.nodes := rfl

theorem onto_root (v u : VState) : (onto v u).root = v.root := rfl

/-- The inodes behind the vnodes are counted. -/
def NodesLt (v : VState) : Prop := ∀ n i, (v.nodes n).data = some i → i < v.fs.sb.inodeCount

theorem inodeToVnode_fs (v : VState) (i : ℕ) : (inodeToVnode v i).1.fs = v.fs := by
  unfold inodeToVnode
  dsimp only
  split_ifs <;> rfl

section Walk
variable (h : SameTree v.fs u.fs)
include h

theorem inodeToVnode_onto (hi : i < v.fs.sb.inodeCount) :
    inodeToVnode (onto v u) i = (onto (inodeToVnode v i).1 u, (inodeToVnode v i).2) := by
  unfold inodeToVnode typeOf
  dsimp only [onto]
  rw [h.ino i hi, h.isDir hi, h.name i hi]
  split_ifs <;> rfl

omit h in
theorem find_lt {s : Fs} {p : ℕ → Bool} (hf : (List.range s.sb.inodeCount).find? p = some i) :
    i < s.sb.inodeCount := List.mem_range.mp (List.mem_of_find?_eq_some hf)

variable (hb : NodesLt v)
include hb

theorem vopLookup_onto (dir : ℕ) (name : CStr) :
    vopLookup (onto v u) dir name = (onto (vopLookup v dir name).1 u, (vopLookup v dir name).2) := by
  unfold vopLookup
  by_cases ht : (v.nodes dir).type ≠ .dir
  · rw [if_pos ht, if_pos (show ((onto v u).nodes dir).type ≠ .dir from ht)]
  rw [if_neg ht, if_neg (show ¬ ((onto v u).nodes dir).type ≠ .dir from ht), onto_nodes]
  cases hd : (v.nodes dir).data with
  | none => rfl
  | some d =>
    dsimp only
    rw [onto_fs, h.ino d (hb dir d hd), find_isChild_congr h]
    split_ifs
    · rfl
    · cases hf : (List.range v.fs.sb.inodeCount).find? (isChild v.fs name (v.fs.inodes d).ino) with
      | none => rfl
      | some i => exact inodeToVnode_onto h (find_lt hf)

theorem unlinkTarget_onto (dir : ℕ) (name : CStr) :
    unlinkTarget (onto v u) dir name = unlinkTarget v dir name := by
  unfold unlinkTarget
  by_cases ht : (v.nodes dir).type ≠ .dir
  · rw [if_pos ht, if_pos (show ((onto v u).nodes dir).type ≠ .dir from ht)]
  rw [if_neg ht, if_neg (show ¬ ((onto v u).nodes dir).type ≠ .dir from ht), onto_nodes, onto_fs]
  cases hd : (v.nodes dir).data with
  | none => rfl
  | some d =>
    dsimp only
    rw [h.ino d (hb dir d hd), childOf_congr h]

theorem lookupComponent_onto (dir : ℕ) (name : CStr) :
    lookupComponent (onto v u) dir name =
      (onto (lookupComponent v dir name).1 u, (lookupComponent v dir name).2) := by
  unfold lookupComponent
  rw [vopLookup_onto h hb, onto_nodes, onto_fs, onto_root]
  by_cases h1 : name = dot
  · rw [if_pos h1, if_pos h1]
  rw [if_neg h1, if_neg h1]
  by_cases h2 : name = dotdot
  · rw [if_pos h2, if_pos h2]
    cases hd : (v.nodes dir).data with
    | none => rfl
    | some d =>
      have hlt := hb dir d hd
      have hfind : ((List.range u.fs.sb.inodeCount).find? fun i =>
          decide ((u.fs.inodes i).ino = (u.fs.inodes d).parent)) =
          (List.range v.fs.sb.inodeCount).find? fun i =>
            decide ((v.fs.inodes i).ino = (v.fs.inodes d).parent) := by
        rw [h.count, h.parent d hlt]
        exact List.find?_congr fun i hi => by rw [h.ino i (List.mem_range.mp hi)]
      dsimp only
      rw [h.ino d hlt, hfind]
      split_ifs
      · rfl
      · cases hf : (List.range v.fs.sb.inodeCount).find? fun i =>
            decide ((v.fs.inodes i).ino = (v.fs.inodes d).parent) with
        | none => rfl
        | some i => exact inodeToVnode_onto h (find_lt hf)
  · rw [if_neg h2, if_neg h2]

end Walk

theorem NodesLt.calm {w : VState} (h : NodesLt v) (hc : Calm v w) : NodesLt w := Calm.nodes_lt hc h

theorem walkFrom_onto : ∀ (cs : List CStr) {v : VState} {cur : ℕ}, SameTree v.fs u.fs → NodesLt v →
    Numbered v.fs →
    walkFrom (onto v u) cur cs = (onto (walkFrom v cur cs).1 u, (walkFrom v cur cs).2)
  | [], _, _, _, _, _ => rfl
  | c :: cs, v, cur, h, hb, hn => by
    have hr := (lookupComponent_answers hn cur c).refreshed
    unfold walkFrom
    rw [lookupComponent_onto h hb]
    split_ifs
    · rfl
    · generalize lookupComponent v cur c = x at hr ⊢
      obtain ⟨w, o⟩ := x
      cases o with
      | none => rfl
      | some nxt =>
        exact walkFrom_onto cs (by rw [hr.fs]; exact h) (hb.calm (Refreshed.calm hr))
          (by rw [hr.fs]; exact hn)

/-! ### States with the same names -/

/-- Two states that have the tree, the vnodes and the cache of names in common. -/
structure SameNames (v w : VState) : Prop where
  rest : w = onto v w
  tree : SameTree v.fs w.fs

section Same
variable {w : VState} (h : SameNames v w) (hb : NodesLt v) (hn : Numbered v.fs)
include h hb hn

theorem SameNames.lookup (path : CStr) : SameNames (vfsLookup v path).1 (vfsLookup w path).1 ∧
    (vfsLookup w path).2 = (vfsLookup v path).2 ∧ (vfsLookup w path).1.fs = w.fs := by
  have hfind : dcacheFind (onto v w) (pathNormalize path 256) =
      dcacheFind v (pathNormalize path 256) := rfl
  have hwalk : vfsWalk (onto v w) path = (onto (vfsWalk v path).1 w, (vfsWalk v path).2) :=
    walkFrom_onto _ h.tree hb hn
  have hlook : vfsLookup w path = (onto (vfsLookup v path).1 w, (vfsLookup v path).2) := by
    refine (congrArg (vfsLookup · path) h.rest).trans ?_
    unfold vfsLookup dcacheLookup
    dsimp only
    rw [hfind]
    split_ifs
    · rfl
    · cases dcacheFind v (pathNormalize path 256) with
      | some j => rfl
      | none =>
        dsimp only
        rw [hwalk]
        rcases vfsWalk v path with ⟨x, _ | node⟩
        · rfl
        · rfl
  have hfs := (vfsLookup_calm hn path).fs
  rw [hlook]
  exact ⟨⟨rfl, hfs ▸ h.tree⟩, rfl, rfl⟩

variable (hic : w.fs.icache = v.fs.icache)
include hic

theorem SameNames.finish (norm : CStr) (target parent : ℕ) (name : CStr) :
    let x := finishRemoval v norm target parent name
    let y := finishRemoval w norm target parent name
    y.2 = x.2 ∧ SameNames x.1 y.1 ∧ (x.2 ≠ 0 → y.1.fs.icache = x.1.fs.icache) := by
  have htarget : unlinkTarget w parent name = unlinkTarget v parent name :=
    (congrArg (unlinkTarget · parent name) h.rest).trans (unlinkTarget_onto h.tree hb parent name)
  unfold finishRemoval vopUnlink
  rw [htarget]
  cases ht : unlinkTarget v parent name with
  | none => exact ⟨rfl, h, fun _ => hic⟩
  | some t =>
    have hlive := unlinkTarget_live ht
    obtain ⟨hrc, htree, hcount, hfail⟩ := removeCall_congr h.tree hn hic hlive.1
    dsimp only
    rw [h.tree.isDir hlive.1, h.tree.ino t hlive.1, hasChild_congr h.tree,
      tmpPath_congr h.tree hlive.1]
    by_cases hc : ((v.fs.inodes t).isDir && Fs.hasChild v.fs (v.fs.inodes t).ino) = true
    · rw [if_pos hc, if_pos hc]
      exact ⟨rfl, h, fun _ => hic⟩
    rw [if_neg hc, if_neg hc]
    revert hrc htree hcount hfail
    generalize removeCall v.fs t = x
    generalize removeCall w.fs t = y
    obtain ⟨s, rc⟩ := x
    obtain ⟨s', rc'⟩ := y
    rintro (rfl : rc' = rc) htree hcount hfail
    dsimp only at htree hcount hfail ⊢
    have hrest : { w with fs := s' } = onto { v with fs := s } { w with fs := s' } :=
      congrArg ({ · with fs := s' }) h.rest
    by_cases hz : rc' = 0
    · subst hz
      rw [if_pos rfl, if_pos rfl]
      have hinv : dcacheInvalidate { w with fs := s' } (tmpPath v.fs t) =
          onto (dcacheInvalidate { v with fs := s } (tmpPath v.fs t))
            (dcacheInvalidate { w with fs := s' } (tmpPath v.fs t)) :=
        congrArg (dcacheInvalidate · _) hrest
      have hnode := inodeToVnode_onto (v := dcacheInvalidate { v with fs := s } (tmpPath v.fs t))
        (u := dcacheInvalidate { w with fs := s' } (tmpPath v.fs t)) htree (hcount ▸ hlive.1)
      have hfs := inodeToVnode_fs (dcacheInvalidate { v with fs := s } (tmpPath v.fs t)) t
      rw [hinv, hnode]
      generalize inodeToVnode (dcacheInvalidate { v with fs := s } (tmpPath v.fs t)) t = x at hfs
      obtain ⟨x, _ | _⟩ := x
      · exact ⟨rfl, ⟨rfl, hfs ▸ htree⟩, fun hne => absurd rfl hne⟩
      · exact ⟨rfl, ⟨rfl, hfs ▸ htree⟩, fun hne => absurd rfl hne⟩
    · rw [if_neg hz, if_neg hz]
      dsimp only
      rw [if_neg hz, if_neg hz]
      exact ⟨rfl, ⟨hrest, htree⟩, hfail⟩

/-- **A removal** comes to the same answer in both, and to states with the same names. -/
theorem SameNames.unlink (path : CStr) : (vfsUnlink w path).2 = (vfsUnlink v path).2 ∧
    SameNames (vfsUnlink v path).1 (vfsUnlink w path).1 ∧
    ((vfsUnlink v path).2 ≠ 0 →
      (vfsUnlink w path).1.fs.icache = (vfsUnlink v path).1.fs.icache) := by
  have hc := vfsLookup_calm hn (pathNormalize path 256)
  have hl := h.lookup hb hn (pathNormalize path 256)
  unfold vfsUnlink
  split_ifs
  · exact ⟨rfl, h, fun _ => hic⟩
  dsimp only
  revert hc hl
  generalize vfsLookup v (pathNormalize path 256) = x
  generalize vfsLookup w (pathNormalize path 256) = y
  obtain ⟨v₁, o⟩ := x
  obtain ⟨w₁, o'⟩ := y
  rintro hc ⟨hl, rfl, hfs⟩
  have hb₁ := hb.calm hc
  have hn₁ : Numbered v₁.fs := by rw [hc.fs]; exact hn
  have hic₁ : w₁.fs.icache = v₁.fs.icache := by rw [hc.fs, ← hic]; exact congrArg Fs.icache hfs
  cases o' with
  | none => exact ⟨rfl, hl, fun _ => hic₁⟩
  | some target =>
    have hnodes : w₁.nodes = (onto v₁ w₁).nodes := congrArg VState.nodes hl.rest
    have hc₂ := vfsLookup_calm hn₁ (splitLast (pathNormalize path 256)).1
    have hl₂ := hl.lookup hb₁ hn₁ (splitLast (pathNormalize path 256)).1
    dsimp only
    rw [hnodes, onto_nodes]
    split_ifs
    · exact ⟨rfl, hl, fun _ => hic₁⟩
    revert hc₂ hl₂
    generalize vfsLookup v₁ (splitLast (pathNormalize path 256)).1 = x
    generalize vfsLookup w₁ (splitLast (pathNormalize path 256)).1 = y
    obtain ⟨v₂, o⟩ := x
    obtain ⟨w₂, o'⟩ := y
    rintro hc₂ ⟨hl₂, rfl, hfs₂⟩
    have hic₂ : w₂.fs.icache = v₂.fs.icache := by
      rw [hc₂.fs, ← hic₁]; exact congrArg Fs.icache hfs₂
    cases o' with
    | none => exact ⟨rfl, hl₂, fun _ => hic₂⟩
    | some parent => exact hl₂.finish (hb₁.calm hc₂) (by rw [hc₂.fs]; exact hn₁) hic₂ _ _ _ _

end Same

/-! ### Removals on the device -/

theorem SameNames.trans {w x : VState} (h : SameNames v w) (h' : SameNames w x) : SameNames v x := by
  refine ⟨?_, h.tree.trans h'.tree⟩
  have hx := h'.rest
  rw [h.rest] at hx
  exact hx

theorem SameNames.step {w : ByteVfs} (h : SameNames v w.vfs) (hb : NodesLt v) (hn : Numbered v.fs)
    (hic : w.vfs.fs.icache = v.fs.icache) (path : CStr) :
    (vfsUnlink w.vfs path).2 = (vfsUnlink v path).2 ∧
      SameNames (vfsUnlink v path).1 (w.step (.unlink path)).vfs ∧
      ((vfsUnlink v path).2 ≠ 0 →
        (w.step (.unlink path)).vfs.fs.icache = (vfsUnlink v path).1.fs.icache) := by
  have hnw := hn.congr h.tree
  have ha := withRemoval_alike hnw (vfsRemove_removal hnw false path)
  have hv := withRemoval_vfs w path (vfsUnlink w.vfs path)
  obtain ⟨hrc, hnames, hfail⟩ := h.unlink hb hn hic path
  change _ ∧ SameNames _ (withRemoval w path (vfsUnlink w.vfs path)).vfs ∧
    (_ → (withRemoval w path (vfsUnlink w.vfs path)).vfs.fs.icache = _)
  rw [hv]
  exact ⟨hrc, hnames.trans ⟨rfl, ha.sameTree⟩, fun hne => ha.icache.trans (hfail hne)⟩

/-- Neither the lookups nor the removal of a file change more than the record that is cleared: from
`w` to `w'` the inodes still in use and the bytes outside the records cleared stay. -/
structure Keeps (w w' : ByteVfs) : Prop where
  live : ∀ i, w'.vfs.fs.Live i → w.vfs.fs.Live i
  inode : ∀ i, w'.vfs.fs.Live i → w'.vfs.fs.inodes i = w.vfs.fs.inodes i
  data : ∀ x, (∀ r, w.vfs.fs.Live r → ¬ w'.vfs.fs.Live r → ¬ InRange (inodeAddr r) 4104 (8192 + x)) →
    w'.vfs.fs.data x = w.vfs.fs.data x
  fds : ∀ k, w.vfs.fdUsed k = false → w'.vfs.fdUsed k = false

theorem Keeps.trans {w w' w'' : ByteVfs} (h : Keeps w w') (h' : Keeps w' w'') : Keeps w w'' := by
  refine ⟨fun i hi => h.live i (h'.live i hi), fun i hi => ?_, fun x hx => ?_,
    fun k hk => h'.fds k (h.fds k hk)⟩
  · rw [h'.inode i hi, h.inode i (h'.live i hi)]
  · rw [h'.data x fun r hr => hx r (h.live r hr), h.data x fun r hr hr' => hx r hr ?_]
    exact fun hr'' => hr' (h'.live r hr'')

section Clears
variable {b : ByteFs} {r x : ℕ} (hx : ¬ InRange (inodeAddr r) 4104 (8192 + x))
include hx

theorem rmdirInode_data : (b.rmdirInode r).view.data x = b.view.data x := by
  refine ((ByteFs.clearInode_touches _ r).frame _ hx).trans ?_
  split_ifs
  · exact setFree_data _ _ x
  · rfl

theorem unlinkInode_data : (b.unlinkInode r).view.data x = b.view.data x := by
  refine ((ByteFs.clearInode_touches _ r).frame _ hx).trans ?_
  dsimp only
  split_ifs
  · exact setFree_data _ _ x
  · rfl
  · rfl

theorem removeOp_data {i : ℕ} (hr : removes b.view i = some r) :
    (b.step (removeOp b.view i)).view.data x = b.view.data x := by
  have hfind := removes_find hr
  unfold removeOp
  split_ifs
  · change (b.unamedfsRmdir _).1.view.data x = _
    unfold ByteFs.unamedfsRmdir
    dsimp only
    rw [hfind]
    split_ifs
    · rfl
    · rfl
    · dsimp only
      split_ifs
      · rfl
      · rfl
      · exact rmdirInode_data hx
  · change (b.unamedfsUnlink _).1.view.data x = _
    unfold ByteFs.unamedfsUnlink
    dsimp only
    rw [hfind]
    split_ifs
    · rfl
    · rfl
    · dsimp only
      split_ifs
      · rfl
      · exact unlinkInode_data hx

end Clears

/-- It is enough to look at the state that the call has without the device. -/
theorem withRemoval_keeps {w : ByteVfs} {o : VState × ℤ} (hn : Numbered w.vfs.fs)
    (hrem : Removal w.vfs path o)
    (hinode : ∀ i, o.1.fs.Live i → w.vfs.fs.Live i ∧ o.1.fs.inodes i = w.vfs.fs.inodes i)
    (hdata : ∀ x,
      (∀ r, w.vfs.fs.Live r → ¬ o.1.fs.Live r → ¬ InRange (inodeAddr r) 4104 (8192 + x)) →
      (withRemoval w path o).dev.view.data x = w.dev.view.data x)
    (hfds : ∀ k, o.1.fdUsed k = true → w.vfs.fdUsed k = true) : Keeps w (withRemoval w path o) := by
  have ha := withRemoval_alike hn hrem
  have hv := withRemoval_vfs w path o
  have hlive := ha.sameTree.live
  rw [← (withRemoval w path o).fs_eq] at hlive
  refine ⟨fun i hi => (hinode i ((hlive i).mp hi)).1, fun i hi => ?_, fun x hx => ?_, fun k hk => ?_⟩
  · have hi' := (hlive i).mp hi
    rw [hv]
    exact (ha.inode i hi'.1).trans (hinode i hi').2
  · rw [(withRemoval w path o).fs_eq, w.fs_eq]
    exact hdata x fun r hr hr' => hx r hr fun h => hr' ((hlive r).mp h)
  · rw [hv]
    exact Bool.eq_false_iff.mpr fun hu => by simp [hfds k hu] at hk

theorem failed_keeps {w : ByteVfs} (hn : Numbered w.vfs.fs) {u u' : VState} {ic : InodeCache}
    (hu : Calm w.vfs u) (hrem : Removal w.vfs path (u', -1))
    (hfs : u'.fs = { u.fs with icache := ic }) (hfds : u'.fdUsed = u.fdUsed) :
    Keeps w (withRemoval w path (u', -1)) := by
  rw [hu.fs] at hfs
  refine withRemoval_keeps hn hrem (fun i hi => ?_) (fun x _ => ?_) fun k hk => ?_
  · rw [hfs] at hi ⊢
    exact ⟨hi, rfl⟩
  · unfold withRemoval
    split <;> rfl
  · exact (hu.fds k (hfds ▸ hk)).1

theorem unlink_keeps {w : ByteVfs} (hn : Numbered w.vfs.fs) (path : CStr) :
    Keeps w (w.step (.unlink path)) := by
  have hrem := vfsRemove_removal hn false path
  have hpar := lookParent_calm hn path
  change Keeps w (withRemoval w path (vfsRemove false w.vfs path))
  generalize vfsRemove false w.vfs path = o at hrem ⊢
  have hkeeps := hrem
  cases hrem with
  | early => exact failed_keeps hn (.refl _) hkeeps rfl rfl
  | noTarget => exact failed_keeps hn (lookNorm_calm hn path) hkeeps rfl rfl
  | noParent => exact failed_keeps hn hpar hkeeps rfl rfl
  | failed hw rd ic =>
    rw [hw] at hpar
    exact failed_keeps hn hpar hkeeps rfl rfl
  | @removed u hw rd target t r htarget ht hr hz =>
    rw [hw] at hpar
    have hfs : (removedState { u with rdcache := rd } (pathNormalize path 256) target t r).fs =
        step w.vfs.fs (removeOp w.vfs.fs t) := by
      rw [← hpar.fs]
      rfl
    refine withRemoval_keeps hn hkeeps (fun i hi => ?_) (fun x hx => ?_) fun k h => (hpar.fds k h).1
    · rw [hfs] at hi ⊢
      obtain ⟨hi, hir⟩ := (hz.live i).mp hi
      exact ⟨hi, hz.other hir⟩
    · have hrlive := hn.reachable (removes_spec hr).1
      have hfar := hx r hrlive (by rw [hfs]; exact fun h => ((hz.live r).mp h).2 rfl)
      unfold withRemoval
      rw [ht]
      dsimp only
      rw [if_pos rfl]
      exact removeOp_data hfar (w.fs_eq ▸ hr)

end Kerneloid.Vfs.Names
