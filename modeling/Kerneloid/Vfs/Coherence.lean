import Kerneloid.Lib.Cache
import Kerneloid.Vfs.Removal

/-! # The dentry cache

`vfs_lookup` answers from the cache if the normal form of the path, cut to 255 characters, is there.
The cache is coherent if a lookup gives what the walk from the root gives in the same state.

Runs go through two kinds of state. In a `Healthy` one the inode table is a tree, the root vnode is
valid and the cache holds what walks on the inode table give. A removal usually loses the root vnode
(`Removal`): from then on the state is `Lost`, only paths made of `.` and `..` resolve, and the
cache must hold no others. Two things break the coherence, and the guard `CacheSafe` excludes them:
a path whose key is cut, and a removal that leaves entries behind whose walk fails from then on. -/

namespace Kerneloid.Vfs.Coherence

open Lib.Runs Lib.Cache UnnamedFS.Types UnnamedFS.Path UnnamedFS.Lookup UnnamedFS.Ops
open UnnamedFS.Effects UnnamedFS.Namespace UnnamedFS.Slots Types Vfs.Path Walk Ops Effects Removal

variable {v w : VState} {i : ℕ} {k path : CStr}

/-- `vfs_lookup` without its cache. -/
def uncachedLookup (v : VState) (path : CStr) : Option ℕ :=
  if chars path = [] then none else (vfsWalk v path).2

/-- Entry `i` of the cache is valid and answers `n` for `path`. -/
def Holds (v : VState) (i : ℕ) (path : CStr) (n : ℕ) : Prop :=
  (v.dcache i).valid = true ∧ (v.dcache i).path = path ∧ (v.dcache i).node = n

/-! ### What a lookup does to the cache -/

/-- The ways a lookup can go. -/
inductive Looked (v : VState) (path : CStr) : VState × Option ℕ → Prop
  | empty (hp : chars path = []) : Looked v path (v, none)
  | hit (hp : chars path ≠ []) {i : ℕ} {n : ℕ} (hi : Holds v i (pathNormalize path 256) n) :
      Looked v path
        ({ v with
          dcache := Function.update v.dcache i { v.dcache i with lru := v.dcacheTick }
          dcacheTick := v.dcacheTick + 1 }, some n)
  | miss (hp : chars path ≠ []) {w : VState} (hw : vfsWalk v path = (w, none)) :
      Looked v path (w, none)
  | found (hp : chars path ≠ []) {w : VState} {n : ℕ} (hw : vfsWalk v path = (w, some n)) :
      Looked v path (dcacheInsert w (pathNormalize path 256) n, some n)

theorem vfsLookup_looked (v : VState) (path : CStr) : Looked v path (vfsLookup v path) := by
  unfold vfsLookup
  by_cases hp : chars path = []
  · rw [if_pos hp]; exact .empty hp
  rw [if_neg hp]
  dsimp only
  unfold dcacheLookup
  cases hf : dcacheFind v (pathNormalize path 256) with
  | some i =>
    have hi := (List.find?_range_eq_some.mp hf).1
    simp only [Bool.and_eq_true, beq_iff_eq] at hi
    exact .hit hp ⟨hi.1.1, hi.2, rfl⟩
  | none =>
    dsimp only
    cases hw : vfsWalk v path with
    | mk w o =>
      cases o with
      | none => exact .miss hp hw
      | some n => exact .found hp hw

theorem holds_touch {tick tick' : ℕ} {j : ℕ} {n : ℕ} :
    Holds { v with
      dcache := Function.update v.dcache i { v.dcache i with lru := tick }
      dcacheTick := tick' } j k n ↔ Holds v j k n := by
  unfold Holds
  by_cases hj : j = i
  · subst hj; simp
  · simp [hj]

theorem holds_insert {n j m : ℕ} (hlen : path.length ≤ 255)
    (h : Holds (dcacheInsert v path n) j k m) : Holds v j k m ∨ (k = path ∧ m = n) := by
  unfold Holds dcacheInsert at h
  by_cases hj : j = dcacheVictim v
  · subst hj
    simp only [Function.update_self] at h
    rw [List.take_of_length_le hlen] at h
    exact Or.inr ⟨h.2.1.symm, h.2.2.symm⟩
  · simp only [Function.update_of_ne hj] at h
    exact Or.inl h

/-- Only the first 32 entries are used. -/
def Bounded (v : VState) : Prop := ∀ i, (v.dcache i).valid = true → i < 32

theorem foldl_victim_lt (f : ℕ → ℕ → ℕ) (hf : ∀ k i, f k i = k ∨ f k i = i) :
    ∀ (is : List ℕ) (k m : ℕ), k < m → (∀ i ∈ is, i < m) → is.foldl f k < m
  | [], _, _, hk, _ => hk
  | i :: is, k, m, hk, his => by
    refine foldl_victim_lt f hf is _ m ?_ fun j hj => his j (List.mem_cons_of_mem _ hj)
    rcases hf k i with h | h
    · rw [h]; exact hk
    · rw [h]; exact his i List.mem_cons_self

theorem dcacheVictim_lt (v : VState) : dcacheVictim v < 32 := by
  unfold dcacheVictim
  cases hf : (List.range 32).find? fun i => !(v.dcache i).valid with
  | some i => exact List.mem_range.mp (List.find?_range_eq_some.mp hf).2.1
  | none =>
    refine foldl_victim_lt _ (fun k i => ?_) _ 0 32 (by norm_num) fun i hi => List.mem_range.mp hi
    split_ifs
    · exact Or.inr rfl
    · exact Or.inl rfl

theorem Bounded.insert (h : Bounded v) (path : CStr) (n : ℕ) :
    Bounded (dcacheInsert v path n) := by
  intro i hi
  by_cases hv : i = dcacheVictim v
  · rw [hv]; exact dcacheVictim_lt v
  · simp only [dcacheInsert, Function.update_of_ne hv] at hi
    exact h i hi

/-! ### Healthy states -/

/-- **The cache holds what walks on the inode table give.** -/
structure Healthy (v : VState) : Prop where
  tree : DirTree v.fs
  root : ValidRoot v
  bounded : Bounded v
  cache : Coherent (Holds v) fun k => inodeWalk v.fs 0 (components k)
  accurate : ∀ i k n, Holds v i k n → Accurate v n

theorem healthy_of_empty (ht : DirTree v.fs) (hr : ValidRoot v)
    (hc : ∀ i, (v.dcache i).valid = false) : Healthy v := by
  have hnone : ∀ i k n, ¬ Holds v i k n := by
    rintro i k n ⟨hv, -⟩
    rw [hc i] at hv
    exact absurd hv (by simp)
  exact ⟨ht, hr, fun i hi => absurd ⟨hi, rfl, rfl⟩ (hnone i _ _), .empty hnone,
    fun i k n hn => absurd hn (hnone i k n)⟩

theorem Accurate.calm {n : ℕ} (h : Accurate v n) (hc : Calm v w) : Accurate w n := by
  refine ⟨by rw [hc.fs]; exact h.live, ?_, ?_⟩ <;> rcases hc.node n with ⟨h1, h2⟩ | ⟨-, h1, h2⟩
  · rw [h1, hc.fs]; exact h.type
  · rw [h1, hc.fs]
  · rw [h2]; exact h.data
  · exact h2

theorem Healthy.calm (h : Healthy v) (hc : Calm v w) (hb : Bounded w)
    (hh : ∀ i k n, Holds w i k n → (inodeWalk v.fs 0 (components k) = some n ∧ Accurate w n) ∨ Holds
      v i k n) :
    Healthy w := by
  refine ⟨by rw [hc.fs]; exact h.tree, Calm.validRoot hc h.tree h.root, hb, ?_, fun i k n hn => ?_⟩
  · rw [hc.fs]
    exact h.cache.step fun i k n hn => (hh i k n hn).imp And.left fun ho => ⟨ho, id⟩
  · rcases hh i k n hn with hnew | ho
    · exact hnew.2
    · exact Accurate.calm (h.accurate i k n ho) hc

theorem holds_refreshed (hr : Refreshed v w) {n : ℕ} :
    Holds w i k n ↔ Holds v i k n := by
  rw [hr.rest]
  rfl

theorem Healthy.refreshed (h : Healthy v) (hr : Refreshed v w) : Healthy w := by
  refine h.calm (Refreshed.calm hr) (fun i hi => ?_) fun i k n hn => Or.inr ((holds_refreshed hr).mp hn)
  rw [hr.rest] at hi
  exact h.bounded i hi

/-- **A lookup in a healthy state** gives what the walk gives, and leaves the state healthy. -/
theorem Healthy.lookup (h : Healthy v) (hp : Fits path) :
    Healthy (vfsLookup v path).1 ∧ (vfsLookup v path).2 = uncachedLookup v path ∧
      ∀ n, (vfsLookup v path).2 = some n → Accurate (vfsLookup v path).1 n := by
  have hlook := vfsLookup_looked v path
  have hcalm := vfsLookup_calm (numbered_of_dirTree h.tree) path
  have hwalk := vfsWalk_eq h.tree h.root path
  generalize vfsLookup v path = q at hlook hcalm ⊢
  unfold uncachedLookup
  cases hlook with
  | empty he => exact ⟨h, by rw [if_pos he], fun n hn => by cases hn⟩
  | @hit he i n hi =>
    have hn : inodeWalk v.fs 0 (components path) = some n := by
      rw [← show components (pathNormalize path 256) = components path from hp]
      exact h.cache i _ n hi
    refine ⟨h.calm hcalm (fun j hj => ?_) fun j k m hm => Or.inr (holds_touch.mp hm),
      by rw [if_neg he, hwalk.1, hn], fun m hm => ?_⟩
    · exact h.bounded j (holds_touch.mp ⟨hj, rfl, rfl⟩).1
    · cases hm
      exact Accurate.calm (h.accurate i _ n hi) hcalm
  | miss he hw =>
    have hr := vfsWalk_refreshed (numbered_of_dirTree h.tree) path
    rw [hw] at hr
    exact ⟨h.refreshed hr, by rw [if_neg he, hw], fun n hn => by cases hn⟩
  | @found he w n hw =>
    have hr := vfsWalk_refreshed (numbered_of_dirTree h.tree) path
    rw [hw] at hr hwalk
    have ha := hwalk.2 n hwalk.1.symm
    have hins := calm_caches w (dcacheInsert w (pathNormalize path 256) n).dcache
      (dcacheInsert w (pathNormalize path 256) n).dcacheTick w.rdcache
    refine ⟨(h.refreshed hr).calm hins ((h.refreshed hr).bounded.insert _ _) fun i k m hm => ?_,
      by rw [if_neg he, hw], fun m hm => ?_⟩
    · refine (holds_insert (pathNormalize_length path) hm).symm.imp_left fun hnew => ?_
      obtain ⟨rfl, rfl⟩ := hnew
      refine ⟨?_, Accurate.calm ha hins⟩
      rw [show components (pathNormalize path 256) = components path from hp, hr.fs]
      exact hwalk.1.symm
    · cases hm
      exact Accurate.calm ha hins

/-! ### Lost states -/

/-- The walk when the root vnode is lost: only `.` and `..` lead anywhere. -/
def lostWalk (cs : List CStr) : Option ℕ :=
  if cs.all fun c => c = dot || c = dotdot then some 0 else none

/-- **The root vnode stands for a freed slot.** -/
structure Lost (v : VState) : Prop where
  tree : DirTree v.fs
  root : v.root = 0
  type : (v.nodes 0).type ≠ .dir
  data : ∃ t, (v.nodes 0).data = some t ∧ (v.fs.inodes t).ino = 0
  bounded : Bounded v
  cache : Coherent (Holds v) fun k => lostWalk (components k)

theorem Lost.walkFrom_eq (h : Lost v) :
    ∀ cs : List CStr, walkFrom v 0 cs = (v, lostWalk cs)
  | [] => rfl
  | c :: cs => by
    obtain ⟨t, hd, hino⟩ := h.data
    have hstep : ∀ o, lookupComponent v 0 c = (v, o) → ¬ 64 ≤ c.length → o = some 0 →
        (c = dot ∨ c = dotdot) → walkFrom v 0 (c :: cs) = (v, lostWalk (c :: cs)) := by
      intro o ho hlen h0 hc
      have hall : lostWalk (c :: cs) = lostWalk cs := by
        unfold lostWalk
        rcases hc with rfl | rfl <;> simp
      rw [walkFrom, if_neg hlen, ho, h0, hall]
      exact h.walkFrom_eq cs
    by_cases hdot : c = dot
    · subst hdot
      exact hstep _ (by rw [lookupComponent, if_pos rfl]) (by decide) rfl (Or.inl rfl)
    by_cases hdd : c = dotdot
    · subst hdd
      refine hstep _ ?_ (by decide) rfl (Or.inr rfl)
      rw [lookupComponent, if_neg (by decide), if_pos rfl, hd]
      dsimp only
      rw [if_pos hino]
    · have hnone : lostWalk (c :: cs) = none := by
        unfold lostWalk
        simp [hdot, hdd]
      rw [walkFrom, hnone]
      split_ifs
      · rfl
      · rw [lookupComponent, if_neg hdot, if_neg hdd, vopLookup, if_pos h.type]

theorem Lost.vfsWalk_eq (h : Lost v) (path : CStr) :
    vfsWalk v path = (v, lostWalk (components path)) := by
  unfold vfsWalk
  rw [h.root]
  exact h.walkFrom_eq _

theorem lostWalk_some {cs : List CStr} {n : ℕ} (h : lostWalk cs = some n) : n = 0 := by
  unfold lostWalk at h
  split_ifs at h
  exact (Option.some.inj h).symm

theorem Lost.lookup (h : Lost v) (hp : Fits path) :
    Lost (vfsLookup v path).1 ∧ (vfsLookup v path).2 = uncachedLookup v path ∧
      ∀ n, (vfsLookup v path).2 = some n → n = 0 := by
  have hlook := vfsLookup_looked v path
  have hwalk := h.vfsWalk_eq path
  generalize vfsLookup v path = q at hlook ⊢
  unfold uncachedLookup
  cases hlook with
  | empty he => exact ⟨h, by rw [if_pos he], fun n hn => by cases hn⟩
  | @hit he i n hi =>
    have hn : lostWalk (components path) = some n := by
      rw [← show components (pathNormalize path 256) = components path from hp]
      exact h.cache i _ n hi
    refine ⟨⟨h.tree, h.root, h.type, h.data, fun j hj => ?_,
      h.cache.mono fun j k m hm => holds_touch.mp hm⟩, by rw [if_neg he, hwalk, hn],
      fun m hm => by cases hm; exact lostWalk_some hn⟩
    exact h.bounded j (holds_touch.mp ⟨hj, rfl, rfl⟩).1
  | miss he hw =>
    obtain ⟨rfl, -⟩ := Prod.mk.inj (hw.symm.trans hwalk)
    exact ⟨h, by rw [if_neg he, hw], fun n hn => by cases hn⟩
  | @found he w n hw =>
    obtain ⟨rfl, hn⟩ := Prod.mk.inj (hw.symm.trans hwalk)
    refine ⟨⟨h.tree, h.root, h.type, h.data, h.bounded.insert _ _,
      h.cache.step fun i k m hm => ?_⟩, by rw [if_neg he, hw], fun m hm => ?_⟩
    · refine (holds_insert (pathNormalize_length path) hm).symm.imp (fun hnew => ?_) fun ho => ⟨ho, id⟩
      obtain ⟨rfl, rfl⟩ := hnew
      rw [show components (pathNormalize path 256) = components path from hp]
      exact hn.symm
    · cases hm
      exact lostWalk_some hn.symm

/-! ### Calls that do not touch the tree -/

/-- The file system, the cache and what the vnodes stand for stay. -/
structure Steady (v w : VState) : Prop where
  fs : w.fs = v.fs
  root : w.root = v.root
  dcache : w.dcache = v.dcache
  type : ∀ n, (w.nodes n).type = (v.nodes n).type
  data : ∀ n, (w.nodes n).data = (v.nodes n).data

theorem Steady.refl (v : VState) : Steady v v := ⟨rfl, rfl, rfl, fun _ => rfl, fun _ => rfl⟩

theorem steady_files (v : VState) (rd : RdCache) (ft : ℕ → VFile) (used : ℕ → Bool) :
    Steady v { v with rdcache := rd, fileTable := ft, fdUsed := used } :=
  ⟨rfl, rfl, rfl, fun _ => rfl, fun _ => rfl⟩

theorem Steady.holds (hs : Steady v w) {n : ℕ} : Holds w i k n ↔ Holds v i k n := by
  unfold Holds
  rw [hs.dcache]

theorem Healthy.steady (h : Healthy v) (hs : Steady v w) : Healthy w := by
  refine ⟨by rw [hs.fs]; exact h.tree, ⟨by rw [hs.root]; exact h.root.root,
    by rw [hs.type]; exact h.root.type, by rw [hs.data]; exact h.root.data⟩,
    fun i hi => h.bounded i (by rw [← hs.dcache]; exact hi), ?_, fun i k n hn => ?_⟩
  · rw [hs.fs]; exact h.cache.mono fun i k n => hs.holds.mp
  · have ha := h.accurate i k n (hs.holds.mp hn)
    exact ⟨by rw [hs.fs]; exact ha.live, by rw [hs.type, hs.fs]; exact ha.type,
      by rw [hs.data]; exact ha.data⟩

theorem Lost.steady (h : Lost v) (hs : Steady v w) : Lost w := by
  obtain ⟨t, hd, hino⟩ := h.data
  exact ⟨by rw [hs.fs]; exact h.tree, by rw [hs.root]; exact h.root, by rw [hs.type]; exact h.type,
    ⟨t, by rw [hs.data]; exact hd, by rw [hs.fs]; exact hino⟩,
    fun i hi => h.bounded i (by rw [← hs.dcache]; exact hi), h.cache.mono fun i k n => hs.holds.mp⟩

theorem FilesOnly.steady (h : FilesOnly v w) : Steady v w := by
  rw [h.rest]
  exact steady_files v v.rdcache _ _

theorem vfsOpen_steady (v : VState) (path : CStr) (mode : ℤ) :
    Steady (vfsLookup v path).1 (vfsOpen v path mode).1 := by
  have ho := vfsOpen_opening v path mode
  generalize (vfsOpen v path mode).1 = v' at ho ⊢
  cases ho with
  | refused => exact .refl _
  | unused hw hu f =>
    rw [hw]
    exact steady_files _ _ _ _
  | @opened w n i k hl hd hk hu =>
    rw [hl]
    refine ⟨rfl, rfl, rfl, fun m => ?_, fun m => ?_⟩ <;> by_cases hm : m = n <;>
      simp [openedState, hm]

/-! ### A new directory -/

theorem vopLookup_none {n : ℕ} {name : CStr} (ht : DirTree v.fs) (ha : Accurate v n)
    (hd : (v.nodes n).type = .dir) (hl : vopLookup v n name = (w, none)) :
    ∀ i, v.fs.Live i → parentOf v.fs i = n → (v.fs.inodes i).name ≠ name := by
  intro i hi hp hname
  unfold vopLookup at hl
  rw [if_neg (by simp [hd]), ha.data] at hl
  dsimp only at hl
  rw [ht.ino n ha.live] at hl
  split_ifs at hl with hdots
  · exact absurd (Prod.mk.inj hl).2 (by simp)
  cases hf : (List.range v.fs.sb.inodeCount).find? (isChild v.fs name n) with
  | none =>
    have := List.find?_range_eq_none.mp hf i hi.1
    rw [isChild_iff.mpr ⟨hi.2, hp, hname⟩] at this
    exact absurd this (by simp)
  | some j =>
    rw [hf] at hl
    dsimp only at hl
    rw [inodeToVnode_live (numbered_of_dirTree ht) (childOf_live hf)] at hl
    exact absurd (Prod.mk.inj hl).2 (by simp)

section Added
variable {v w : VState} {n j flags : ℕ} {name : CStr} (ht : DirTree v.fs) (ha : Accurate v n)
  (hw : Refreshed v w) (hj : FreeSlot v.fs j) (hlen : name.length < 64)
include ht ha hw hj hlen

theorem addedState_fs : (addedState w j flags n name).fs =
    addInode v.fs v.fs.icache j ⟨j, 0, flags, n, 0, 0, name⟩ := by
  have hnj : n ≠ j := fun he => freeSlot_not_live hj (he ▸ ha.live)
  have hrec : newInode w.fs j flags n name = ⟨j, 0, flags, n, 0, 0, name⟩ := by
    rw [newInode, if_neg hnj, hw.fs, ht.ino n ha.live, List.take_of_length_le (by omega)]
  change (putInode w j (newInode w.fs j flags n name)).fs = _
  rw [putInode_fs, hrec, hw.fs]

theorem addedState_tree (hf : flags = 1 ∨ flags = 2) (hd : (v.nodes n).type = .dir)
    (hl : vopLookup v n name = (w, none)) : DirTree (addedState w j flags n name).fs := by
  rw [addedState_fs ht ha hw hj hlen]
  refine ht.insert hj ?_ rfl ha.live ?_ (vopLookup_none ht ha hd hl)
  · rcases hf with rfl | rfl <;> rfl
  · have htype := ha.type
    rw [hd] at htype
    exact typeOf_eq_dir.mp htype.symm

end Added

theorem Healthy.added {n d j : ℕ} {name : CStr} (h : Healthy v) (ha : Accurate v n)
    (hd : (v.nodes n).type = .dir) (hdata : (v.nodes n).data = some d)
    (hl : vopLookup v n name = (w, none)) (hw : Refreshed v w) (hj : FreeSlot v.fs j)
    (hlen : name.length < 64) :
    Healthy ((dcacheInvalidate (addedState w j 2 d name) path).dropRdcache) := by
  have hdn : d = n := Option.some.inj (hdata.symm.trans ha.data)
  subst hdn
  have hr := h.root.refreshed h.tree hw
  refine healthy_of_empty (addedState_tree h.tree ha hw hj hlen (Or.inr rfl) hd hl)
    ⟨hr.root, hr.type, hr.data⟩ fun i => ?_
  simp [addedState, dcacheInvalidate, dcacheFlush, VState.dropRdcache]

theorem fits_splitLast (h : path.length < 256) : Fits (splitLast path).1 :=
  fits_of_length (splitLast_length (by norm_num) (by omega))

theorem Healthy.mkdir (h : Healthy v) (path : CStr) : Healthy (vfsMkdir v path).1 := by
  have hm := vfsMkdir_mkdir (numbered_of_dirTree h.tree) path
  generalize vfsMkdir v path = q at hm ⊢
  cases hm with
  | early => exact h
  | noParent hlen => exact (h.lookup (fits_splitLast hlen)).1
  | failed hlen h1 ht hw =>
    have hv1 := (h.lookup (fits_splitLast hlen)).1
    rw [h1] at hv1
    exact (hv1.lookup (fits_of_length (by omega))).1.refreshed hw
  | @made v1 v2 w parent d j name hlen h1 h2 ht hd hl hw hj hn =>
    obtain ⟨hv1, -, ha⟩ := h.lookup (fits_splitLast hlen)
    rw [h1] at hv1 ha
    have hfits : Fits (chars path) := fits_of_length (by omega)
    have hv2 := (hv1.lookup hfits).1
    rw [h2] at hv2
    have hc1 := vfsLookup_calm (numbered_of_dirTree h.tree) (splitLast (chars path)).1
    have hc2 := vfsLookup_calm (numbered_of_dirTree hv1.tree) (chars path)
    rw [h1] at hc1
    rw [h2] at hc2
    have hfs : v2.fs = v.fs := by rw [hc2.fs, hc1.fs]
    exact hv2.added (Accurate.calm (ha parent rfl) hc2) ht hd hl hw
      (by rw [hfs]; exact mkdirSlot_free hj) hn

theorem Lost.mkdir (h : Lost v) (path : CStr) : Lost (vfsMkdir v path).1 := by
  have hm := vfsMkdir_mkdir (numbered_of_dirTree h.tree) path
  generalize vfsMkdir v path = q at hm ⊢
  -- what the parent's path leads to is the root vnode, which is no directory
  cases hm with
  | early => exact h
  | noParent hlen => exact (h.lookup (fits_splitLast hlen)).1
  | failed hlen h1 ht hw =>
    obtain ⟨hv1, -, h0⟩ := h.lookup (fits_splitLast hlen)
    rw [h1] at hv1 h0
    rw [h0 _ rfl] at ht
    exact absurd ht hv1.type
  | made hlen h1 h2 ht hd hl hw hj hn =>
    obtain ⟨hv1, -, h0⟩ := h.lookup (fits_splitLast hlen)
    rw [h1] at hv1 h0
    have hfits : Fits (chars path) := fits_of_length (by omega)
    have hv2 := (hv1.lookup hfits).1
    rw [h2] at hv2
    rw [h0 _ rfl] at ht
    exact absurd ht hv2.type

/-! ### Removals -/

/-- The entry for `path` with vnode `n` outlives the invalidations of a removal. -/
def Survives (s : Fs) (norm : CStr) (target t r : ℕ) (path : CStr) (n : ℕ) : Prop :=
  isUnder (tmpPath s t) path = false ∧ n ≠ refreshedNode t r ∧ isUnder norm path = false ∧ n ≠ target

instance (s : Fs) (norm : CStr) (target t r : ℕ) (path : CStr) (n : ℕ) :
    Decidable (Survives s norm target t r path n) := by unfold Survives; infer_instance

theorem holds_removed {norm : CStr} {target t r : ℕ} {n : ℕ}
    (h : Holds (removedState w norm target t r) i k n) :
    Holds w i k n ∧ Survives w.fs norm target t r k n := by
  obtain ⟨hv, hk, hn⟩ := h
  simp only [removedState, unlinkedState, dcacheInvalidateNode, dcacheInvalidate,
    VState.dropRdcache, Bool.and_eq_true, Bool.not_eq_true', bne_iff_ne] at hv hk hn
  subst hk hn
  exact ⟨⟨hv.1.1.1.1, rfl, rfl⟩, hv.1.1.1.2, hv.1.1.2, hv.1.2, hv.2⟩

/-- The removal of `path` leaves no entry behind whose walk fails from then on. An entry counts as
it stands after the two lookups of the call. If the root vnode is lost, no entry may outlive the
call; otherwise the walks of those that do must not come by the inode removed. -/
def KeepsCache (v : VState) (path : CStr) : Prop :=
  ∀ target ∈ (lookNorm v path).2, ∀ t ∈ removalTarget v path, ∀ r ∈ removes v.fs t, ∀ i < 32,
    ((lookParent v path).1.dcache i).valid = true →
    Survives v.fs (pathNormalize path 256) target t r ((lookParent v path).1.dcache i).path
      ((lookParent v path).1.dcache i).node →
    r ≠ t ∧ ¬ Visits v.fs r 0 (components ((lookParent v path).1.dcache i).path)

instance (v : VState) (path : CStr) : Decidable (KeepsCache v path) := by
  unfold KeepsCache; infer_instance

section Removed
variable {w : VState} (h : Healthy w) {norm : CStr} {target t r : ℕ}
  (hr : removes w.fs t = some r) (hz : Zeroed w.fs (step w.fs (removeOp w.fs t)) r)
include h hr hz

theorem Healthy.removed_self (hrt : r = t)
    (hnone : ∀ i k n, Holds w i k n → ¬ Survives w.fs norm target t r k n) :
    Lost (removedState w norm target t r) := by
  have hempty : ∀ i k n, ¬ Holds (removedState w norm target t r) i k n := fun i k n hn =>
    hnone i k n (holds_removed hn).1 (holds_removed hn).2
  have hm : refreshedNode t r = 0 := if_pos hrt
  have hself : (step w.fs (removeOp w.fs t)).inodes t = .zero := by rw [← hz.self, hrt]
  refine ⟨h.tree.erase hz (removes_leaf h.tree hr), h.root.root, ?_, ⟨t, ?_, ?_⟩,
    fun i hi => absurd ⟨hi, rfl, rfl⟩ (hempty i _ _), .empty hempty⟩
  · rw [removedState_type, hm, if_pos rfl, hself]; decide
  · rw [removedState_data, hm, if_pos rfl]
  · rw [removedState_fs, hself]; rfl

theorem Healthy.removed_other (hrt : r ≠ t)
    (hkeep : ∀ i k n, Holds w i k n → Survives w.fs norm target t r k n → ¬ Visits w.fs r 0
      (components k)) :
    Healthy (removedState w norm target t r) := by
  have htree' := h.tree.erase hz (removes_leaf h.tree hr)
  have h0 := removes_ne_root h.tree hr
  have hm : refreshedNode t r = t := if_neg hrt
  have hwalk : ∀ i k n, Holds (removedState w norm target t r) i k n →
      inodeWalk (step w.fs (removeOp w.fs t)) 0 (components k) = some n := fun i k n hn => by
    obtain ⟨ho, hs⟩ := holds_removed hn
    rw [(inodeWalk_erase h.tree hz (removes_leaf h.tree hr) (components k)
      h.tree.tree.root_live h0.symm).1 (hkeep i k n ho hs)]
    exact h.cache i k n ho
  refine ⟨htree', removedState_validRoot h.tree h.root hr hz hrt, fun i hi => ?_, hwalk,
    fun i k n hn => ?_⟩
  · exact h.bounded i (holds_removed ⟨hi, rfl, rfl⟩).1.1
  · have hl := inodeWalk_live htree' (components k) htree'.tree.root_live (hwalk i k n hn)
    have ha := h.accurate i k n (holds_removed hn).1
    have hnr := ((hz.live n).mp hl).2
    refine ⟨hl, ?_, ?_⟩
    · rw [removedState_type, removedState_fs, hm]
      split_ifs with hnt
      · rw [hnt]
      · rw [hz.other hnr]; exact ha.type
    · rw [removedState_data, hm]
      split_ifs with hnt
      · rw [hnt]
      · exact ha.data

end Removed

theorem inodeStep_icache (s : Fs) (ic : InodeCache) (i : ℕ) (c : CStr) :
    inodeStep { s with icache := ic } i c = inodeStep s i c := rfl

theorem inodeWalk_icache (s : Fs) (ic : InodeCache) :
    ∀ (cs : List CStr) (i : ℕ), inodeWalk { s with icache := ic } i cs = inodeWalk s i cs
  | [], _ => rfl
  | c :: cs, i => by
    rw [inodeWalk, inodeWalk, inodeStep_icache]
    exact Option.bind_congr fun j _ => inodeWalk_icache s ic cs j

theorem Healthy.icache (h : Healthy v) (ic : InodeCache) :
    Healthy { v with fs := { v.fs with icache := ic } } := by
  refine ⟨h.tree.congr (.of_eq rfl rfl fun _ _ => rfl), ⟨h.root.root, h.root.type, h.root.data⟩,
    h.bounded, ?_,
    fun i k n hn => ?_⟩
  · intro i k n hn
    exact (inodeWalk_icache v.fs ic (components k) 0).trans (h.cache i k n hn)
  · have ha := h.accurate i k n hn
    exact ⟨ha.live, ha.type, ha.data⟩

theorem Lost.icache (h : Lost v) (ic : InodeCache) :
    Lost { v with fs := { v.fs with icache := ic } } :=
  ⟨h.tree.congr (.of_eq rfl rfl fun _ _ => rfl), h.root, h.type, h.data, h.bounded, h.cache⟩

theorem fits_pathNormalize (path : CStr) : Fits (pathNormalize path 256) :=
  fits_of_length (pathNormalize_length path)

theorem fits_parent (path : CStr) : Fits (splitLast (pathNormalize path 256)).1 :=
  fits_splitLast (by have := pathNormalize_length path; omega)

theorem Healthy.remove (h : Healthy v) (dir : Bool) (path : CStr)
    (hok : (vfsRemove dir v path).2 = 0 → KeepsCache v path) :
    Healthy (vfsRemove dir v path).1 ∨ Lost (vfsRemove dir v path).1 := by
  have hnum := numbered_of_dirTree h.tree
  have hm := vfsRemove_removal hnum dir path
  have hn : Healthy (lookNorm v path).1 := (h.lookup (fits_pathNormalize path)).1
  have hp : Healthy (lookParent v path).1 := (hn.lookup (fits_parent path)).1
  revert hm hok
  generalize vfsRemove dir v path = q
  intro hok hm
  cases hm with
  | early => exact Or.inl h
  | noTarget => exact Or.inl hn
  | noParent => exact Or.inl hp
  | @failed w hw rd ic =>
    rw [hw] at hp
    exact Or.inl ((hp.steady (steady_files w rd w.fileTable w.fdUsed)).icache ic)
  | @removed w hw rd target t r htarget ht hr hz =>
    have hkeep := hok rfl target htarget t ht r hr
    rw [hw] at hkeep hp
    have hfs : w.fs = v.fs := by rw [← hw]; exact (lookParent_calm hnum path).fs
    rw [← hfs] at hr hz hkeep
    have hp' := hp.steady (steady_files w rd w.fileTable w.fdUsed)
    have hall : ∀ i k n, Holds w i k n → Survives w.fs (pathNormalize path 256) target t r k n →
        r ≠ t ∧ ¬ Visits w.fs r 0 (components k) := by
      rintro i k n ⟨hv, rfl, rfl⟩ hs
      exact hkeep i (hp.bounded i hv) hv hs
    by_cases hrt : r = t
    · exact Or.inr (hp'.removed_self hr hz hrt fun i k n hn hs => (hall i k n hn hs).1 hrt)
    · exact Or.inl (hp'.removed_other hr hz hrt fun i k n hn hs => (hall i k n hn hs).2)

theorem Lost.remove (h : Lost v) (dir : Bool) (path : CStr) :
    Lost (vfsRemove dir v path).1 := by
  have hm := vfsRemove_removal (numbered_of_dirTree h.tree) dir path
  have hn : Lost (lookNorm v path).1 := (h.lookup (fits_pathNormalize path)).1
  have hp : Lost (lookParent v path).1 := (hn.lookup (fits_parent path)).1
  have h0 : ∀ n, (lookParent v path).2 = some n → n = 0 := (hn.lookup (fits_parent path)).2.2
  generalize vfsRemove dir v path = q at hm ⊢
  cases hm with
  | early => exact h
  | noTarget => exact hn
  | noParent => exact hp
  | @failed w hw rd ic =>
    rw [hw] at hp
    exact (hp.steady (steady_files w rd w.fileTable w.fdUsed)).icache ic
  | removed hw rd htarget ht hr hz =>
    -- the parent is the root vnode, which is no directory, so there is no target
    unfold removalTarget at ht
    obtain ⟨parent, hpar, ht⟩ := Option.bind_eq_some_iff.mp ht
    rw [h0 parent hpar, unlinkTarget, if_pos hp.type] at ht
    exact absurd ht (by simp)

/-! ### Runs -/

/-- The guard: the paths given to `vfs_lookup`, `vfs_open` and `vfs_stat` have an uncut key, and a
removal leaves no entry behind whose walk fails from then on. The other calls of the directory
interface are free; writes, the `create` vnode operation and calls of the file system below are not
part of these runs. -/
def CacheSafe (v : VState) : VOp → Prop
  | .lookup path | .stat path | .open_ path _ => Fits path
  | .unlink path => (vfsUnlink v path).2 = 0 → KeepsCache v path
  | .rmdir path => (vfsRmdir v path).2 = 0 → KeepsCache v path
  | .mkdir _ | .readdir _ _ | .close _ | .read _ _ | .lseek _ _ _ => True
  | .write _ _ _ | .create _ _ | .fs _ => False

instance (v : VState) (op : VOp) : Decidable (CacheSafe v op) :=
  match op with
  | .lookup path | .stat path | .open_ path _ => inferInstanceAs (Decidable (Fits path))
  | .unlink path => inferInstanceAs (Decidable ((vfsUnlink v path).2 = 0 → KeepsCache v path))
  | .rmdir path => inferInstanceAs (Decidable ((vfsRmdir v path).2 = 0 → KeepsCache v path))
  | .mkdir _ | .readdir _ _ | .close _ | .read _ _ | .lseek _ _ _ => isTrue trivial
  | .write _ _ _ | .create _ _ | .fs _ => isFalse not_false

theorem safe_vstep (h : Healthy v ∨ Lost v) {op : VOp} (hok : CacheSafe v op) :
    Healthy (vstep v op) ∨ Lost (vstep v op) := by
  have hlookup : ∀ path, Fits path → Healthy (vfsLookup v path).1 ∨ Lost (vfsLookup v path).1 :=
    fun path hp => h.imp (fun h => (h.lookup hp).1) fun h => (h.lookup hp).1
  have hsteady : ∀ w, Steady v w → Healthy w ∨ Lost w := fun w hw =>
    h.imp (fun h => h.steady hw) fun h => h.steady hw
  cases op with
  | lookup path => exact hlookup path hok
  | stat path => exact hlookup path hok
  | open_ path mode =>
    exact (hlookup path hok).imp (fun h => h.steady (vfsOpen_steady v path mode))
      fun h => h.steady (vfsOpen_steady v path mode)
  | close fd => exact hsteady _ (FilesOnly.steady (vfsClose_files v fd))
  | read fd count => exact hsteady _ (FilesOnly.steady (vfsRead_files v fd count))
  | lseek fd offset whence => exact hsteady _ (FilesOnly.steady (vfsLseek_files v fd offset whence))
  | readdir fd size =>
    obtain ⟨rd, hw⟩ := vfsReaddir_files v fd size
    refine hsteady _ ?_
    show Steady v (vfsReaddir v fd size).1
    rw [hw.rest]
    exact steady_files v rd _ _
  | mkdir path => exact h.imp (fun h => h.mkdir path) fun h => h.mkdir path
  | unlink path =>
    rcases h with h | h
    · exact h.remove false path hok
    · exact Or.inr (h.remove false path)
  | rmdir path =>
    rcases h with h | h
    · exact h.remove true path hok
    · exact Or.inr (h.remove true path)
  | write fd buf count => exact hok.elim
  | create dir name => exact hok.elim
  | fs op => exact hok.elim

theorem healthy_vfsInit : Healthy vfsInit :=
  healthy_of_empty dirTree_vfsInit validRoot_vfsInit fun _ => rfl

/-- **The dentry cache is coherent.** In every state reached from `vfs_init` by calls of the
directory interface with uncut keys whose removals leave no failing entry behind, a lookup of any
path with an uncut key gives what the walk without the cache gives. -/
theorem dcache_coherent (v : VState) (h : Reach CacheSafe vstep vfsInit v) (path : CStr)
    (hp : Fits path) : (vfsLookup v path).2 = uncachedLookup v path := by
  have hinv : Healthy v ∨ Lost v :=
    h.inv (I := fun v => Healthy v ∨ Lost v) (Or.inl healthy_vfsInit) fun _ _ hv => safe_vstep hv
  rcases hinv with hv | hv
  · exact (hv.lookup hp).2.1
  · exact (hv.lookup hp).2.1

/-- Lookups with `.`, `..` and repeated slashes, a new directory, and a removal. -/
theorem dcache_coherent_dots :
    (vfsLookup ([VOp.lookup (cstr "//bin/./../etc/"), .mkdir (cstr "/home/x"), .stat (cstr "/etc/.."),
      .rmdir (cstr "/etc"), .lookup (cstr "/./..")].foldl vstep vfsInit) (cstr "/..")).2 = some 0 :=
  (dcache_coherent _ (Reach.foldl _ .init (by decide +kernel)) (cstr "/..")
    (fits_of_length (by decide))).trans (by decide +kernel)

/-- `/bin` is looked up, then `/etc` is removed. -/
def staleEntry : VState := [VOp.lookup (cstr "/bin"), .rmdir (cstr "/etc")].foldl vstep vfsInit

/-- The cache still has `/bin`, the walk no longer finds it. -/
theorem stale_entry_answers :
    Reach Any vstep vfsInit staleEntry ∧ (vfsLookup staleEntry (cstr "/bin")).2 = some 1 ∧
      uncachedLookup staleEntry (cstr "/bin") = none :=
  ⟨Reach.foldl _ .init ⟨trivial, trivial, trivial⟩, by decide +kernel, by decide +kernel⟩

end Kerneloid.Vfs.Coherence
