import Kerneloid.UnnamedFS.Namespace
import Kerneloid.Vfs.Path
import Kerneloid.Vfs.Types

/-! # Looking up a path

`vfs_lookup` with the component walk below it. A step of the walk finds an inode and refreshes its
vnode (`inode_to_vnode`), so a walk changes nothing but vnodes, and those only to what their inodes
say (`walkFrom_refreshed`). On a directory tree with a valid root vnode the walk is `inodeWalk`, a
fold over the components on the inode table alone (`vfsWalk_eq`).

The last part is about taking an inode `r` without children out of the tree: walks that did not come
by `r` go where they went, and those that did now fail (`inodeWalk_erase`). -/

namespace Kerneloid.Vfs.Walk

open UnnamedFS.Types UnnamedFS.Path UnnamedFS.Lookup UnnamedFS.Ops UnnamedFS.Namespace
open UnnamedFS.Slots Types Vfs.Path

variable {v v' : VState} {i : ℕ}

def inodeToVnode (v : VState) (i : ℕ) : VState × Option ℕ :=
  let n := v.fs.inodes i
  if 256 ≤ n.ino then (v, none)
  else
    ({ v with
        nodes := Function.update v.nodes n.ino
          { v.nodes n.ino with
            type := typeOf n, data := some i, id := n.ino, name := n.name.take 63 } },
      some n.ino)

def vopLookup (v : VState) (dir : ℕ) (name : CStr) : VState × Option ℕ :=
  if (v.nodes dir).type ≠ .dir then (v, none)
  else
    match (v.nodes dir).data with
    | none => (v, none)
    | some d =>
      if name = dotdot ∨ name = dot then (v, some dir)
      else
        match (List.range v.fs.sb.inodeCount).find? (isChild v.fs name (v.fs.inodes d).ino) with
        | none => (v, none)
        | some i => inodeToVnode v i

def lookupComponent (v : VState) (dir : ℕ) (name : CStr) : VState × Option ℕ :=
  if name = dot then (v, some dir)
  else if name = dotdot then
    match (v.nodes dir).data with
    | none => (v, some v.root)
    | some d =>
      if (v.fs.inodes d).ino = 0 then (v, some dir)
      else
        match (List.range v.fs.sb.inodeCount).find? fun i =>
          decide ((v.fs.inodes i).ino = (v.fs.inodes d).parent) with
        | some i => inodeToVnode v i
        | none => (v, some v.root)
  else vopLookup v dir name

/-- The component loop of `vfs_lookup`; a component of more than 63 characters ends it. -/
def walkFrom : VState → ℕ → List CStr → VState × Option ℕ
  | v, cur, [] => (v, some cur)
  | v, cur, c :: cs =>
    if 64 ≤ c.length then (v, none)
    else
      match lookupComponent v cur c with
      | (v, none) => (v, none)
      | (v, some nxt) => walkFrom v nxt cs

/-- The walk of `vfs_lookup` from the root, without the cache. -/
def vfsWalk (v : VState) (path : CStr) : VState × Option ℕ := walkFrom v v.root (components path)

def vfsLookup (v : VState) (path : CStr) : VState × Option ℕ :=
  if chars path = [] then (v, none)
  else
    let norm := pathNormalize path 256
    match dcacheLookup v norm with
    | (v, some node) => (v, some node)
    | (v, none) =>
      match vfsWalk v path with
      | (v, none) => (v, none)
      | (v, some node) => (dcacheInsert v norm node, some node)

/-! ### What a walk changes -/

/-- Vnode `n` as `inode_to_vnode` leaves it for inode `n`. -/
def vnodeOf (v : VState) (n : ℕ) : VNode :=
  { v.nodes n with
    type := typeOf (v.fs.inodes n), data := some n, id := n, name := (v.fs.inodes n).name.take 63 }

/-- From `v` to `v'` only vnodes changed, and those to what their inodes say. -/
structure Refreshed (v v' : VState) : Prop where
  rest : v' = { v with nodes := v'.nodes }
  node : ∀ n, v'.nodes n = v.nodes n ∨ (v.fs.Live n ∧ v'.nodes n = vnodeOf v n)

theorem Refreshed.refl (v : VState) : Refreshed v v := ⟨rfl, fun _ => Or.inl rfl⟩

theorem Refreshed.fs (h : Refreshed v v') : v'.fs = v.fs := by rw [h.rest]

theorem Refreshed.root (h : Refreshed v v') : v'.root = v.root := by rw [h.rest]

theorem Refreshed.trans {v'' : VState} (h : Refreshed v v') (h' : Refreshed v' v'') :
    Refreshed v v'' := by
  refine ⟨by rw [h'.rest, h.rest], fun n => ?_⟩
  rcases h'.node n with hn | ⟨hl, hn⟩
  · rw [hn]; exact h.node n
  · rw [h.fs] at hl
    refine Or.inr ⟨hl, ?_⟩
    rw [hn, vnodeOf, h.fs, vnodeOf]
    rcases h.node n with hn' | ⟨-, hn'⟩
    · rw [hn']
    · rw [hn', vnodeOf]

def refresh (v : VState) (i : ℕ) : VState :=
  { v with nodes := Function.update v.nodes i (vnodeOf v i) }

theorem inodeToVnode_live (h : Numbered v.fs) (hi : v.fs.Live i) :
    inodeToVnode v i = (refresh v i, some i) := by
  have hino := h.ino i hi
  have hlt := h.count_le
  have hi' := hi.1
  unfold inodeToVnode
  dsimp only
  rw [if_neg (by omega), hino]
  rfl

theorem refreshed_refresh (hi : v.fs.Live i) : Refreshed v (refresh v i) := by
  refine ⟨rfl, fun n => ?_⟩
  by_cases hn : n = i
  · subst hn; exact Or.inr ⟨hi, by simp [refresh]⟩
  · exact Or.inl (by simp [refresh, hn])

theorem find_ino_live {s : Fs} (h : Numbered s) {p : ℕ}
    (hf : ((List.range s.sb.inodeCount).find? fun i => decide ((s.inodes i).ino = p)) = some i) :
    s.Live i ∧ i = p := by
  obtain ⟨hp, hr, hmin⟩ := List.find?_range_eq_some.mp hf
  have hlt := List.mem_range.mp hr
  have hino : (s.inodes i).ino = p := by simpa using hp
  by_cases hl : (s.inodes i).isLive = true
  · exact ⟨⟨hlt, hl⟩, by rw [← hino, h.ino i ⟨hlt, hl⟩]⟩
  · -- a free slot carries 0, but slot 0 comes first
    have h0 := h.dead i hlt (Bool.eq_false_of_not_eq_true hl)
    have hroot := h.ino 0 h.root_live
    by_cases hi0 : i = 0
    · subst hi0; exact absurd h.root_live.2 hl
    · have := hmin 0 (by omega)
      simp only [Bool.not_eq_true', decide_eq_false_iff_not] at this
      omega

def childOf (s : Fs) (name : CStr) (i : ℕ) : Option ℕ :=
  (List.range s.sb.inodeCount).find? (isChild s name i)

theorem childOf_live {s : Fs} {name : CStr} {j : ℕ} (h : childOf s name i = some j) :
    s.Live j := by
  obtain ⟨hc, hr, -⟩ := List.find?_range_eq_some.mp h
  exact ⟨List.mem_range.mp hr, (isChild_iff.mp hc).1⟩

/-- What a lookup in `dir` can answer: nothing, `dir` or the root as they are, or the refreshed vnode
of an inode in use. -/
inductive Answers (v : VState) (dir : ℕ) : VState × Option ℕ → Prop
  | nothing : Answers v dir (v, none)
  | self : Answers v dir (v, some dir)
  | root : Answers v dir (v, some v.root)
  | found {i : ℕ} (hi : v.fs.Live i) : Answers v dir (refresh v i, some i)

theorem inodeToVnode_answers (h : Numbered v.fs) (hi : v.fs.Live i) (dir : ℕ) :
    Answers v dir (inodeToVnode v i) := by
  rw [inodeToVnode_live h hi]
  exact .found hi

theorem vopLookup_answers (h : Numbered v.fs) (dir : ℕ) (name : CStr) :
    Answers v dir (vopLookup v dir name) := by
  unfold vopLookup
  cases (v.nodes dir).data with
  | none =>
    rw [ite_self]
    exact .nothing
  | some d =>
    dsimp only
    split_ifs
    · exact .nothing
    · exact .self
    · cases hf : (List.range v.fs.sb.inodeCount).find? (isChild v.fs name (v.fs.inodes d).ino) with
      | none => exact .nothing
      | some i => exact inodeToVnode_answers h (childOf_live hf) dir

theorem lookupComponent_answers (h : Numbered v.fs) (dir : ℕ) (name : CStr) :
    Answers v dir (lookupComponent v dir name) := by
  unfold lookupComponent
  split_ifs
  · exact .self
  · cases (v.nodes dir).data with
    | none => exact .root
    | some d =>
      dsimp only
      split_ifs
      · exact .self
      · cases hf : (List.range v.fs.sb.inodeCount).find? fun i =>
          decide ((v.fs.inodes i).ino = (v.fs.inodes d).parent) with
        | none => exact .root
        | some i => exact inodeToVnode_answers h (find_ino_live h hf).1 dir
  · exact vopLookup_answers h dir name

theorem Answers.refreshed {dir : ℕ} {q : VState × Option ℕ} (h : Answers v dir q) :
    Refreshed v q.1 := by
  cases h with
  | found hi => exact refreshed_refresh hi
  | _ => exact .refl v

/-- **A walk changes nothing but vnodes**, and those to what their inodes say. -/
theorem walkFrom_refreshed : ∀ (cs : List CStr) {v : VState} {cur : ℕ}, Numbered v.fs →
    Refreshed v (walkFrom v cur cs).1
  | [], v, _, _ => .refl v
  | c :: cs, v, cur, h => by
    unfold walkFrom
    split_ifs
    · exact .refl v
    · have ha := lookupComponent_answers h cur c
      generalize lookupComponent v cur c = q at ha ⊢
      cases ha with
      | nothing => exact .refl v
      | self => exact walkFrom_refreshed cs h
      | root => exact walkFrom_refreshed cs h
      | found hi => exact (refreshed_refresh hi).trans (walkFrom_refreshed cs h)

theorem vfsWalk_refreshed (h : Numbered v.fs) (path : CStr) :
    Refreshed v (vfsWalk v path).1 := walkFrom_refreshed _ h

/-- **The rule for where a walk ends.** What refreshing keeps, and what holds of the vnode refreshed
last, holds there if it holds at the root and at the start. -/
theorem walkFrom_ends {P : VState → ℕ → Prop}
    (hkeep : ∀ v w n, Refreshed v w → P v n → P w n)
    (hnew : ∀ v i, v.fs.Live i → P (refresh v i) i) :
    ∀ (cs : List CStr) {v : VState} {cur n : ℕ}, Numbered v.fs → P v v.root → P v cur →
      (walkFrom v cur cs).2 = some n → P (walkFrom v cur cs).1 n
  | [], _, _, _, _, _, hcur, hn => by cases hn; exact hcur
  | c :: cs, v, cur, n, h, hroot, hcur, hn => by
    unfold walkFrom at hn ⊢
    by_cases hlen : 64 ≤ c.length
    · rw [if_pos hlen] at hn; cases hn
    rw [if_neg hlen] at hn ⊢
    have ha := lookupComponent_answers h cur c
    generalize lookupComponent v cur c = q at ha hn ⊢
    cases ha with
    | nothing => cases hn
    | self => exact walkFrom_ends hkeep hnew cs h hroot hcur hn
    | root => exact walkFrom_ends hkeep hnew cs h hroot hroot hn
    | found hi =>
      exact walkFrom_ends hkeep hnew cs h (hkeep _ _ _ (refreshed_refresh hi) hroot) (hnew _ _ hi) hn

/-! ### The walk on the inode table -/

/-- One component of the walk on a directory tree. The root is its own parent. -/
def inodeStep (s : Fs) (i : ℕ) (c : CStr) : Option ℕ :=
  if 64 ≤ c.length then none
  else if c = dot then some i
  else if c = dotdot then some (s.inodes i).parent
  else if (s.inodes i).isDir then childOf s c i
  else none

def inodeWalk (s : Fs) : ℕ → List CStr → Option ℕ
  | i, [] => some i
  | i, c :: cs => (inodeStep s i c).bind fun j => inodeWalk s j cs

theorem childOf_eq_some {s : Fs} (h : DirTree s) {name : CStr} {j : ℕ} :
    childOf s name i = some j ↔ s.Live j ∧ (s.inodes j).parent = i ∧ (s.inodes j).name = name := by
  have hfound : ∀ k, childOf s name i = some k →
      s.Live k ∧ (s.inodes k).parent = i ∧ (s.inodes k).name = name := fun k hk => by
    obtain ⟨hc, hr, -⟩ := List.find?_range_eq_some.mp hk
    obtain ⟨hl, hp, hn⟩ := isChild_iff.mp hc
    exact ⟨⟨List.mem_range.mp hr, hl⟩, hp, hn⟩
  refine ⟨hfound j, fun ⟨hl, hp, hn⟩ => ?_⟩
  cases hk : childOf s name i with
  | none =>
    have := List.find?_range_eq_none.mp hk j hl.1
    rw [isChild_iff.mpr ⟨hl.2, hp, hn⟩] at this
    exact absurd this (by simp)
  | some k =>
    obtain ⟨hl', hp', hn'⟩ := hfound k hk
    rw [h.unique k j hl' hl (by rw [parentOf, parentOf, hp, hp']) (by rw [hn, hn'])]

theorem inodeStep_live {s : Fs} (h : DirTree s) {j : ℕ} {c : CStr} (hi : s.Live i)
    (hs : inodeStep s i c = some j) : s.Live j := by
  unfold inodeStep at hs
  split_ifs at hs
  · cases hs; exact hi
  · cases hs; exact h.tree.parent_live hi
  · exact ((childOf_eq_some h).mp hs).1

theorem inodeWalk_live {s : Fs} (h : DirTree s) :
    ∀ (cs : List CStr) {i j : ℕ}, s.Live i → inodeWalk s i cs = some j → s.Live j
  | [], _, _, hi, hw => by cases hw; exact hi
  | c :: cs, i, j, hi, hw => by
    obtain ⟨k, hk, hw⟩ := Option.bind_eq_some_iff.mp hw
    exact inodeWalk_live h cs (inodeStep_live h hi hk) hw

/-- Inode `i` is in use and its vnode says what the inode says. -/
structure Accurate (v : VState) (i : ℕ) : Prop where
  live : v.fs.Live i
  type : (v.nodes i).type = typeOf (v.fs.inodes i)
  data : (v.nodes i).data = some i

theorem Accurate.refreshed (h : Accurate v i) (hr : Refreshed v v') : Accurate v' i := by
  refine ⟨by rw [hr.fs]; exact h.live, ?_, ?_⟩
  · rcases hr.node i with hn | ⟨-, hn⟩
    · rw [hn, hr.fs]; exact h.type
    · rw [hn, hr.fs]; rfl
  · rcases hr.node i with hn | ⟨-, hn⟩
    · rw [hn]; exact h.data
    · rw [hn]; rfl

theorem accurate_refresh (hi : v.fs.Live i) : Accurate (refresh v i) i :=
  ⟨hi, by simp [refresh, vnodeOf], by simp [refresh, vnodeOf]⟩

theorem typeOf_eq_dir {n : Inode} : typeOf n = .dir ↔ n.isDir = true := by
  unfold typeOf
  split_ifs with h <;> simp [h]

theorem lookupComponent_eq (h : DirTree v.fs) (ha : Accurate v i) {c : CStr}
    (hc : ¬ 64 ≤ c.length) : (lookupComponent v i c).2 = inodeStep v.fs i c := by
  have hnum := numbered_of_dirTree h
  have hino := h.ino i ha.live
  unfold lookupComponent inodeStep
  rw [if_neg hc]
  by_cases hdot : c = dot
  · rw [if_pos hdot, if_pos hdot]
  rw [if_neg hdot, if_neg hdot]
  by_cases hdd : c = dotdot
  · rw [if_pos hdd, if_pos hdd, ha.data]
    dsimp only
    by_cases h0 : (v.fs.inodes i).ino = 0
    · have hi0 : i = 0 := by rw [← hino, h0]
      have hpar : (v.fs.inodes i).parent = i := by rw [hi0]; exact h.tree.root_parent
      rw [if_pos h0, hpar]
    · rw [if_neg h0]
      have hpl := h.tree.parent_live ha.live
      cases hf : (List.range v.fs.sb.inodeCount).find? fun k =>
          decide ((v.fs.inodes k).ino = (v.fs.inodes i).parent) with
      | none =>
        have := List.find?_range_eq_none.mp hf _ hpl.1
        rw [h.ino _ hpl] at this
        simp at this
      | some k =>
        obtain ⟨hl, rfl⟩ := find_ino_live hnum hf
        dsimp only
        rw [inodeToVnode_live hnum hl]
  rw [if_neg hdd, if_neg hdd]
  unfold vopLookup
  rw [ha.type, ha.data]
  by_cases hd : (v.fs.inodes i).isDir = true
  · rw [if_neg (by rw [not_not]; exact typeOf_eq_dir.mpr hd), if_pos hd]
    dsimp only
    rw [if_neg (by rintro (h' | h'); exacts [hdd h', hdot h']), hino]
    unfold childOf
    cases hf : (List.range v.fs.sb.inodeCount).find? (isChild v.fs c i) with
    | none => rfl
    | some k =>
      dsimp only
      rw [inodeToVnode_live hnum (childOf_live hf)]
  · rw [if_pos (fun ht => hd (typeOf_eq_dir.mp ht)), if_neg hd]

theorem walkFrom_eq : ∀ (cs : List CStr) {v : VState} {i : ℕ}, DirTree v.fs → Accurate v v.root →
    Accurate v i → (walkFrom v i cs).2 = inodeWalk v.fs i cs
  | [], v, i, _, _, _ => rfl
  | c :: cs, v, i, h, hroot, hi => by
    unfold walkFrom inodeWalk
    by_cases hc : 64 ≤ c.length
    · rw [if_pos hc, inodeStep, if_pos hc]
      rfl
    · rw [if_neg hc, ← lookupComponent_eq h hi hc]
      have ha := lookupComponent_answers (numbered_of_dirTree h) i c
      generalize lookupComponent v i c = q at ha ⊢
      cases ha with
      | nothing => rfl
      | self => exact walkFrom_eq cs h hroot hi
      | root => exact walkFrom_eq cs h hroot hroot
      | found hl =>
        exact walkFrom_eq cs (v := refresh v _) h (hroot.refreshed (refreshed_refresh hl))
          (accurate_refresh hl)

/-- The root vnode stands for inode 0. -/
structure ValidRoot (v : VState) : Prop where
  root : v.root = 0
  type : (v.nodes 0).type = .dir
  data : (v.nodes 0).data = some 0

theorem ValidRoot.accurate (h : ValidRoot v) (ht : DirTree v.fs) : Accurate v 0 :=
  ⟨ht.tree.root_live, by rw [h.type]; exact (typeOf_eq_dir.mpr ht.root_dir).symm, h.data⟩

theorem ValidRoot.refreshed (h : ValidRoot v) (ht : DirTree v.fs)
    (hr : Refreshed v v') : ValidRoot v' := by
  have ha := (h.accurate ht).refreshed hr
  refine ⟨by rw [hr.root]; exact h.root, ?_, ha.data⟩
  rw [ha.type, hr.fs]
  exact typeOf_eq_dir.mpr ht.root_dir

theorem ValidRoot.walkFrom_eq (hr : ValidRoot v) (h : DirTree v.fs) (cs : List CStr) :
    (walkFrom v 0 cs).2 = inodeWalk v.fs 0 cs ∧
      ∀ j, inodeWalk v.fs 0 cs = some j → Accurate (walkFrom v 0 cs).1 j := by
  have ha := hr.accurate h
  have hroot : Accurate v v.root := by rw [hr.root]; exact ha
  have hwalk := Walk.walkFrom_eq cs h hroot ha
  refine ⟨hwalk, fun j hj => ?_⟩
  exact walkFrom_ends (fun _ _ _ hr ha => ha.refreshed hr) (fun _ _ => accurate_refresh) cs
    (numbered_of_dirTree h) hroot ha (hwalk.trans hj)

theorem vfsWalk_eq (h : DirTree v.fs) (hr : ValidRoot v) (path : CStr) :
    (vfsWalk v path).2 = inodeWalk v.fs 0 (components path) ∧
      ∀ j, inodeWalk v.fs 0 (components path) = some j → Accurate (vfsWalk v path).1 j := by
  unfold vfsWalk
  rw [hr.root]
  exact hr.walkFrom_eq h _

/-! ### Taking a leaf out of the tree -/

/-- The walk from `i` comes by `r`. -/
def Visits (s : Fs) (r : ℕ) : ℕ → List CStr → Prop
  | i, [] => i = r
  | i, c :: cs => i = r ∨ ∃ j, inodeStep s i c = some j ∧ Visits s r j cs

instance Visits.decidable (s : Fs) (r : ℕ) :
    ∀ (i : ℕ) (cs : List CStr), Decidable (Visits s r i cs)
  | i, [] => inferInstanceAs (Decidable (i = r))
  | i, c :: cs =>
    match h : inodeStep s i c with
    | none => decidable_of_iff (i = r) (by simp [Visits, h])
    | some j =>
      have := Visits.decidable s r j cs
      decidable_of_iff (i = r ∨ Visits s r j cs) (by simp [Visits, h])

section Erase
variable {s s' : Fs} {r : ℕ} (h : DirTree s) (hz : Zeroed s s' r)
  (hleaf : ∀ j, s.Live j → parentOf s j ≠ r)
include h hz hleaf

theorem inodeStep_erase (hi : s.Live i) (hne : i ≠ r) (c : CStr) :
    inodeStep s' i c = if inodeStep s i c = some r then none else inodeStep s i c := by
  have h' := h.erase hz hleaf
  unfold inodeStep
  rw [hz.other hne]
  by_cases hlen : 64 ≤ c.length
  · rw [if_pos hlen, if_pos hlen, if_neg (by simp)]
  rw [if_neg hlen, if_neg hlen]
  by_cases hdot : c = dot
  · rw [if_pos hdot, if_pos hdot, if_neg (by simpa using hne)]
  rw [if_neg hdot, if_neg hdot]
  by_cases hdd : c = dotdot
  · rw [if_pos hdd, if_pos hdd, if_neg (by simpa using hleaf i hi)]
  rw [if_neg hdd, if_neg hdd]
  by_cases hd : (s.inodes i).isDir = true
  · rw [if_pos hd, if_pos hd]
    split_ifs with hr
    · -- no other child has the name of `r`
      cases hj : childOf s' c i with
      | none => rfl
      | some j =>
        obtain ⟨hl, hp, hn⟩ := (childOf_eq_some h').mp hj
        obtain ⟨hlj, hjr⟩ := (hz.live j).mp hl
        rw [hz.other hjr] at hp hn
        have := (childOf_eq_some h).mpr ⟨hlj, hp, hn⟩
        rw [hr] at this
        exact absurd (Option.some.inj this).symm hjr
    · cases hj : childOf s c i with
      | none =>
        cases hj' : childOf s' c i with
        | none => rfl
        | some j =>
          obtain ⟨hl, hp, hn⟩ := (childOf_eq_some h').mp hj'
          obtain ⟨hlj, hjr⟩ := (hz.live j).mp hl
          rw [hz.other hjr] at hp hn
          rw [(childOf_eq_some h).mpr ⟨hlj, hp, hn⟩] at hj
          exact absurd hj (by simp)
      | some j =>
        obtain ⟨hl, hp, hn⟩ := (childOf_eq_some h).mp hj
        have hjr : j ≠ r := fun he => hr (by rw [hj, he])
        refine (childOf_eq_some h').mpr ⟨(hz.live j).mpr ⟨hl, hjr⟩, ?_, ?_⟩
        · rw [hz.other hjr]; exact hp
        · rw [hz.other hjr]; exact hn
  · rw [if_neg hd, if_neg hd, if_neg (by simp)]

/-- **Walks around `r` stay, walks by `r` end.** -/
theorem inodeWalk_erase : ∀ (cs : List CStr) {i : ℕ}, s.Live i → i ≠ r →
    (¬ Visits s r i cs → inodeWalk s' i cs = inodeWalk s i cs) ∧
      (Visits s r i cs → inodeWalk s' i cs = none)
  | [], _, _, hne => ⟨fun _ => rfl, fun hv => absurd hv hne⟩
  | c :: cs, i, hi, hne => by
    have hstep := inodeStep_erase h hz hleaf hi hne c
    unfold inodeWalk Visits
    rw [hstep]
    cases hs : inodeStep s i c with
    | none =>
      rw [if_neg (by simp)]
      exact ⟨fun _ => rfl, fun _ => rfl⟩
    | some j =>
      by_cases hj : j = r
      · subst hj
        rw [if_pos rfl]
        refine ⟨fun hn => absurd (Or.inr ⟨j, rfl, ?_⟩) hn, fun _ => rfl⟩
        cases cs <;> simp [Visits]
      · rw [if_neg (by simpa using hj)]
        obtain ⟨ih1, ih2⟩ := inodeWalk_erase cs (inodeStep_live h hi hs) hj
        refine ⟨fun hn => ih1 fun hv => hn (Or.inr ⟨j, rfl, hv⟩), ?_⟩
        rintro (hv | ⟨k, hk, hv⟩)
        · exact absurd hv hne
        · cases hk; exact ih2 hv

end Erase

end Kerneloid.Vfs.Walk
