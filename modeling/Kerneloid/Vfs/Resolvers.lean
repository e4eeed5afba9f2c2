import Kerneloid.UnnamedFS.Resolution
import Kerneloid.Vfs.Coherence

/-! # The two path resolvers

`vfs_lookup` and `find_inode_by_path` walk the same components with the same steps, but for one:
a component of 64 characters or more makes `vfs_lookup` fail, while `find_inode_by_path` cuts it to
63 characters and goes on (`inodeWalk_eq`). So the two agree on an absolute path of at most 255
characters exactly if it has no such component, or the walk of the cut components fails too
(`resolvers_agree`).

The trees are those that calls of both layers build. As long as nothing is removed, a vnode that
says it is a directory is right about it (`Built`), so what the VFS creates has its place in the
tree. -/

namespace Kerneloid.Vfs.Resolvers

open Lib.Runs UnnamedFS.Types UnnamedFS.Lookup UnnamedFS.Ops UnnamedFS.Effects UnnamedFS.Namespace
open UnnamedFS.Slots UnnamedFS.Components UnnamedFS.Resolution Types Vfs.Path Walk Write Ops Effects
open Removal Coherence

variable {s : Fs} {j : ℕ} {v v' w : VState}

/-! ### The steps -/

theorem inodeStep_eq (h : DirTree s) {i : ℕ} (c : CStr) :
    inodeStep s i c = if 64 ≤ c.length then none else refStep s i c := by
  unfold inodeStep refStep
  by_cases hlen : 64 ≤ c.length
  · rw [if_pos hlen, if_pos hlen]
  rw [if_neg hlen, if_neg hlen]
  by_cases hdot : c = dot
  · rw [if_pos hdot, if_pos hdot]
  rw [if_neg hdot, if_neg hdot]
  by_cases hdd : c = dotdot
  · rw [if_pos hdd, if_pos hdd]
    by_cases h0 : i = 0
    · rw [if_pos h0, h0]; exact congrArg some h.tree.root_parent
    · rw [if_neg h0]
  rw [if_neg hdd, if_neg hdd]
  have hiff : ∀ j, childOf s c i = some j ↔ uniqueChild s c i = some j := fun j => by
    rw [childOf_eq_some h, uniqueChild_eq_some h]
  by_cases hd : (s.inodes i).isDir = true
  · rw [if_pos hd]
    exact Option.ext hiff
  · -- a file has no children
    rw [if_neg hd]
    refine (Option.eq_none_iff_forall_ne_some.mpr fun j hj => ?_).symm
    obtain ⟨hl, hp, -⟩ := (uniqueChild_eq_some h).mp hj
    have := h.parent_dir j hl
    rw [parentOf, hp] at this
    exact hd this

/-- **The walk of the VFS** is the walk of the reference along components that are not too long;
with one that is, it fails. -/
theorem inodeWalk_eq (h : DirTree s) : ∀ (cs : List CStr) (i : ℕ),
    inodeWalk s i cs = if ∀ c ∈ cs, c.length < 64 then
      (cs.map (·.take 63)).foldlM (refStep s) i else none
  | [], i => by simp [inodeWalk]
  | c :: cs, i => by
    unfold inodeWalk
    rw [inodeStep_eq h]
    by_cases hc : c.length < 64
    · have htake : c.take 63 = c := List.take_of_length_le (by omega)
      rw [if_neg (by omega), List.map_cons, List.foldlM_cons, htake]
      have hall : (∀ d ∈ c :: cs, d.length < 64) ↔ ∀ d ∈ cs, d.length < 64 := by simp [hc]
      simp only [hall]
      cases hs : refStep s i c with
      | none => simp
      | some j => exact inodeWalk_eq h cs j
    · rw [if_pos (by omega), if_neg fun hall => hc (hall c List.mem_cons_self)]
      rfl

/-! ### Plain names -/

/-- A component that is a plain name. -/
def Plain (c : CStr) : Prop := c ≠ dot ∧ c ≠ dotdot

instance (c : CStr) : Decidable (Plain c) := by unfold Plain; infer_instance

theorem inodeWalk_append (s : Fs) : ∀ (cs ds : List CStr) (i : ℕ),
    inodeWalk s i (cs ++ ds) = (inodeWalk s i cs).bind fun j => inodeWalk s j ds
  | [], _, _ => rfl
  | c :: cs, ds, i => by
    rw [List.cons_append, inodeWalk, inodeWalk, Option.bind_assoc]
    exact Option.bind_congr fun j _ => inodeWalk_append s cs ds j

theorem inodeStep_plain (h : DirTree s) {i : ℕ} {c : CStr} (hc : Plain c) :
    inodeStep s i c = some j ↔ c.length < 64 ∧ childOf s c i = some j := by
  unfold inodeStep
  by_cases hlen : 64 ≤ c.length
  · rw [if_pos hlen]
    exact ⟨fun hj => absurd hj (by simp), fun hj => by omega⟩
  rw [if_neg hlen, if_neg hc.1, if_neg hc.2]
  constructor
  · intro hj
    split_ifs at hj
    exact ⟨by omega, hj⟩
  · rintro ⟨-, hj⟩
    obtain ⟨hl, hp, -⟩ := (childOf_eq_some h).mp hj
    have hd := h.parent_dir j hl
    rw [parentOf, hp] at hd
    rw [if_pos hd, hj]

theorem inodeWalk_concat (h : DirTree s) {cs : List CStr} {c : CStr} {t : ℕ}
    (hc : Plain c) : inodeWalk s 0 (cs ++ [c]) = some t ↔
      ∃ p, inodeWalk s 0 cs = some p ∧ c.length < 64 ∧ childOf s c p = some t := by
  rw [inodeWalk_append, Option.bind_eq_some_iff]
  refine exists_congr fun p => and_congr_right fun _ => ?_
  rw [inodeWalk, ← inodeStep_plain h hc]
  cases inodeStep s p c <;> rfl

/-! ### States that calls build -/

/-- The inode table is a tree, the root vnode is valid, and a vnode that says it is a directory is
right about it. -/
structure Built (v : VState) : Prop where
  tree : DirTree v.fs
  root : ValidRoot v
  dirs : ∀ n, (v.nodes n).type = .dir → Accurate v n

/-- From `v` to `v'` inodes in use stay in use and keep their kind, and vnodes stay or get what
their inodes say. -/
structure Grown (v v' : VState) : Prop where
  root : v'.root = v.root
  live : ∀ n, v.fs.Live n → v'.fs.Live n ∧ (v'.fs.inodes n).isDir = (v.fs.inodes n).isDir
  node : ∀ n, NodeKept v.fs n (v.nodes n) (v'.nodes n)

theorem Grown.accurate (hg : Grown v v') {n : ℕ} (ha : Accurate v n) : Accurate v' n := by
  obtain ⟨hl, hd⟩ := hg.live n ha.live
  have htype : typeOf (v'.fs.inodes n) = typeOf (v.fs.inodes n) := by rw [typeOf, hd, typeOf]
  rcases hg.node n with ⟨h1, h2⟩ | ⟨-, h1, h2⟩
  · exact ⟨hl, by rw [h1, htype]; exact ha.type, by rw [h2]; exact ha.data⟩
  · exact ⟨hl, by rw [h1, htype], h2⟩

theorem Built.grown (h : Built v) (hg : Grown v v') (ht : DirTree v'.fs) : Built v' := by
  have h0 := hg.accurate (h.root.accurate h.tree)
  refine ⟨ht, ⟨by rw [hg.root]; exact h.root.root, ?_, h0.data⟩, fun n hn => ?_⟩
  · rw [h0.type]; exact typeOf_eq_dir.mpr ht.root_dir
  · rcases hg.node n with ⟨h1, -⟩ | ⟨hl, h1, h2⟩
    · exact hg.accurate (h.dirs n (by rw [← h1]; exact hn))
    · obtain ⟨hl', hd⟩ := hg.live n hl
      exact ⟨hl', by rw [h1, typeOf, typeOf, hd], h2⟩

theorem Calm.grown (hc : Calm v w) : Grown v w :=
  ⟨hc.root, fun n hn => by rw [hc.fs]; exact ⟨hn, rfl⟩, hc.node⟩

theorem Steady.grown (hs : Steady v w) : Grown v w :=
  ⟨hs.root, fun n hn => by rw [hs.fs]; exact ⟨hn, rfl⟩, fun n => Or.inl ⟨hs.type n, hs.data n⟩⟩

theorem Built.calm (h : Built v) (hc : Calm v w) : Built w :=
  h.grown (Calm.grown hc) (by rw [hc.fs]; exact h.tree)

theorem Built.steady (h : Built v) (hs : Steady v w) : Built w :=
  h.grown (Steady.grown hs) (by rw [hs.fs]; exact h.tree)

theorem Built.fs (h : Built v) (hroot : v'.root = v.root) (hn : v'.nodes = v.nodes)
    (ht : DirTree v'.fs)
    (hl : ∀ n, v.fs.Live n → v'.fs.Live n ∧ (v'.fs.inodes n).isDir = (v.fs.inodes n).isDir) :
    Built v' :=
  h.grown ⟨hroot, hl, fun n => by rw [hn]; exact .refl _ _ _⟩ ht

theorem sameTree_kept {s' : Fs} (h : SameTree s s') (n : ℕ) (hn : s.Live n) :
    s'.Live n ∧ (s'.inodes n).isDir = (s.inodes n).isDir := ⟨(h.live n).mpr hn, h.isDir hn.1⟩

theorem addInode_kept {ic : InodeCache} {m : Inode} (hj : FreeSlot s j)
    (hm : m.isLive = true) (n : ℕ) (hn : s.Live n) :
    (addInode s ic j m).Live n ∧ ((addInode s ic j m).inodes n).isDir = (s.inodes n).isDir := by
  have hnj : n ≠ j := fun he => freeSlot_not_live hj (he ▸ hn)
  exact ⟨(addInode_live ic hj hm n).mpr (Or.inl hn), by simp [addInode, hnj]⟩

theorem Built.added {n d flags : ℕ} {name : CStr} (h : Built v) (hd : (v.nodes n).type = .dir)
    (hdata : (v.nodes n).data = some d) (hl : vopLookup v n name = (w, none)) (hw : Refreshed v w)
    (hj : FreeSlot v.fs j) (hlen : name.length < 64) (hf : flags = 1 ∨ flags = 2) :
    Built (addedState w j flags d name) := by
  have ha := h.dirs n hd
  have hdn : n = d := Option.some.inj (ha.data.symm.trans hdata)
  subst hdn
  have hfs : (addedState w j flags n name).fs = addInode v.fs v.fs.icache j
      ⟨j, 0, flags, n, 0, 0, name⟩ := addedState_fs h.tree ha hw hj hlen
  refine (h.calm (Refreshed.calm hw)).fs rfl rfl
    (addedState_tree h.tree ha hw hj hlen hf hd hl) fun m hm => ?_
  rw [hfs]
  rw [hw.fs] at hm ⊢
  exact addInode_kept hj (by rcases hf with rfl | rfl <;> rfl) m hm

theorem Built.mkdir (h : Built v) (path : CStr) : Built (vfsMkdir v path).1 := by
  have hnum := numbered_of_dirTree h.tree
  have hm := vfsMkdir_mkdir hnum path
  have hc1 := vfsLookup_calm hnum (splitLast (chars path)).1
  have hv1 := h.calm hc1
  have hc2 := vfsLookup_calm (numbered_of_dirTree hv1.tree) (chars path)
  have hv2 := hv1.calm hc2
  have hfs := hc2.fs.trans hc1.fs
  generalize vfsMkdir v path = q at hm ⊢
  cases hm with
  | early => exact h
  | noParent hlen => exact hv1
  | failed hlen h1 ht hw =>
    rw [h1] at hv2
    exact hv2.calm (Refreshed.calm hw)
  | made hlen h1 h2 ht hd hl hw hj hn =>
    rw [h1, h2] at hv2 hfs
    exact (hv2.added ht hd hl hw (by rw [hfs]; exact mkdirSlot_free hj) hn (Or.inr rfl)).calm
      (calm_caches _ _ _ _)

theorem Built.create (h : Built v) (dir : ℕ) (name : CStr) : Built (vopCreate v dir name).1 := by
  unfold vopCreate
  rcases vopNew_cases (numbered_of_dirTree h.tree) dir name 1 createSlot with
    ⟨w, hw, hm⟩ | ⟨w, d, j, hw, ht, hd, hl, hlt, hj, hm⟩
  · rw [hm]; exact h.calm (Refreshed.calm hw)
  · rw [hm]; exact h.added ht hd hl hw (createSlot_free hj) hlt (Or.inl rfl)

theorem vfsWrite_grown (v : VState) (fd : ℤ) (buf : ℕ → UInt8) (count : ℕ) :
    SameTree v.fs (vfsWrite v fd buf count).1.fs ∧ (vfsWrite v fd buf count).1.root = v.root ∧
      (vfsWrite v fd buf count).1.nodes = v.nodes := by
  have hself : SameTree v.fs v.fs := .of_eq rfl rfl fun _ _ => rfl
  unfold vfsWrite
  by_cases hfd : VState.badFd v fd
  · rw [if_pos hfd]; exact ⟨hself, rfl, rfl⟩
  rw [if_neg hfd]
  cases VState.fileInode v fd.toNat with
  | none => exact ⟨hself, rfl, rfl⟩
  | some i =>
    have hw := vopWrite_sameTree v.fs i (v.fileTable fd.toNat).offset buf count
    dsimp only
    generalize vopWrite v.fs i (v.fileTable fd.toNat).offset buf count = q at hw ⊢
    obtain ⟨s, o⟩ := q
    cases o with
    | none => exact ⟨hw, rfl, rfl⟩
    | some k =>
      dsimp only
      split_ifs
      · exact ⟨hw, rfl, rfl⟩
      · exact ⟨hw, rfl, rfl⟩

theorem Built.write (h : Built v) (fd : ℤ) (buf : ℕ → UInt8) (count : ℕ) :
    Built (vfsWrite v fd buf count).1 := by
  obtain ⟨hs, hroot, hn⟩ := vfsWrite_grown v fd buf count
  exact h.fs hroot hn (h.tree.congr hs) (sameTree_kept hs)

/-- The calls that take nothing away. -/
def Builds (_ : VState) : VOp → Prop
  | .unlink _ | .rmdir _ | .fs (.unlink _) | .fs (.rmdir _) => False
  | _ => True

theorem Built.call (h : Built v) {op : Op} (hop : Builds v (.fs op)) :
    Built { v with fs := step v.fs op } := by
  have he := step_effect v.fs op
  have ht := h.tree.effect he
  refine h.fs rfl rfl ht fun n hn => ?_
  revert he
  generalize step v.fs op = s'
  intro he
  cases he with
  | quiet ic => exact ⟨hn, rfl⟩
  | seek k off => exact ⟨hn, rfl⟩
  | closed k => exact ⟨hn, rfl⟩
  | opened ic hi hfind hk hu => exact ⟨hn, rfl⟩
  | created ic hj hpar hdir hf hnew _ =>
    exact addInode_kept hj (by rcases hf with rfl | rfl <;> rfl) n hn
  | unlinked ic hi hfind hdir => exact hop.elim
  | removed ic hi hfind hdir hempty => exact hop.elim
  | wrote hfd hdir hc hp => exact sameTree_kept (writeBytes_sameTree _ _ _ _ _) n hn

theorem Built.vstep (h : Built v) {op : VOp} (hop : Builds v op) : Built (vstep v op) := by
  have hnum := numbered_of_dirTree h.tree
  cases op with
  | lookup path => exact h.calm (vfsLookup_calm hnum path)
  | stat path => exact h.calm (vfsLookup_calm hnum path)
  | open_ path mode => exact (h.calm (vfsLookup_calm hnum path)).steady (vfsOpen_steady v path mode)
  | close fd => exact h.calm (vfsClose_files v fd).calm
  | read fd count => exact h.calm (vfsRead_files v fd count).calm
  | write fd buf count => exact h.write fd buf count
  | lseek fd offset whence => exact h.calm (vfsLseek_files v fd offset whence).calm
  | readdir fd size => exact h.calm (vfsReaddir_calm v fd size)
  | mkdir path => exact h.mkdir path
  | unlink path => exact hop.elim
  | rmdir path => exact hop.elim
  | create dir name => exact h.create dir name
  | fs op => exact h.call hop

theorem built_vfsInit : Built vfsInit := by
  refine ⟨dirTree_vfsInit, validRoot_vfsInit, fun n hn => ?_⟩
  have hn0 : n = 0 := by
    by_contra hne
    have hother : vfsInit.nodes n = ⟨n, .unknown, 0, none, []⟩ := Function.update_of_ne hne _ _
    rw [hother] at hn
    exact absurd hn (by simp)
  rw [hn0]
  exact validRoot_vfsInit.accurate dirTree_vfsInit

theorem built_reach (h : Reach Builds vstep vfsInit v) : Built v :=
  h.inv built_vfsInit fun _ _ hv => hv.vstep

/-- A state of the VFS with a populated file system: calls of UnnamedFS made it on some device and
the root vnode is valid, or calls of both layers made it from `vfs_init` and took nothing away. -/
def Populated (v : VState) : Prop :=
  (∃ d size s₀, formatMount d size = some s₀ ∧ Reach Any step s₀ v.fs ∧ ValidRoot v) ∨
    Reach Builds vstep vfsInit v

theorem Populated.tree (h : Populated v) : DirTree v.fs ∧ ValidRoot v := by
  rcases h with ⟨d, size, s₀, h0, hs, hr⟩ | h
  · exact ⟨namespace_reach h0 hs, hr⟩
  · exact ⟨(built_reach h).tree, (built_reach h).root⟩

/-! ### Agreement -/

/-- With an empty dentry cache both resolvers fail, or both succeed with the same inode. -/
def Agree (v : VState) (path : CStr) : Prop :=
  match (vfsLookup (dcacheFlush v) path).2 with
  | none => (findInodeByPath v.fs path).2 = none
  | some n => ∃ i, ((vfsLookup (dcacheFlush v) path).1.nodes n).data = some i ∧
      (findInodeByPath v.fs path).2 = some i

theorem agree_iff (ht : DirTree v.fs) (hr : ValidRoot v) {path : CStr} (hp : chars path ≠ []) :
    Agree v path ↔ (findInodeByPath v.fs path).2 = inodeWalk v.fs 0 (components path) := by
  have hlook := vfsLookup_flush_eq ht hr hp
  have hacc := (vfsWalk_eq (v := dcacheFlush v) ht (validRoot_flush hr) path).2
  unfold Agree
  rw [hlook]
  cases hw : inodeWalk v.fs 0 (components path) with
  | none => exact Iff.rfl
  | some n =>
    dsimp only
    rw [(vfsLookup_flush hp).2, (hacc n hw).data]
    constructor
    · rintro ⟨i, hi, hf⟩
      rw [hf, hi]
    · intro hf
      exact ⟨n, rfl, hf⟩

/-- **The two resolvers agree.** In every populated state and for every absolute path of at most 255
characters, `vfs_lookup` with an empty dentry cache and `find_inode_by_path` both fail or both give
the same inode, exactly if no component of the path has 64 characters or more, or the components
cut to 63 characters lead nowhere in the tree. -/
theorem resolvers_agree (v : VState) (h : Populated v) (path : CStr)
    (habs : path.head? = some slash) (hlen : (chars path).length ≤ 255) :
    Agree v path ↔ (∀ c ∈ components path, c.length < 64) ∨
      ((components path).map (·.take 63)).foldlM (refStep v.fs) 0 = none := by
  obtain ⟨ht, hr⟩ := h.tree
  have hp : chars path ≠ [] := by
    obtain ⟨cs, rfl⟩ := List.head?_eq_some_iff.mp habs
    have h0 : slash ≠ 0 := by decide
    simp [chars, h0]
  have hfind := findInodeByPath_eq ht path
  rw [walked_of_absolute habs hlen, ← components_eq] at hfind
  rw [agree_iff ht hr hp, inodeWalk_eq ht, hfind]
  by_cases hall : ∀ c ∈ components path, c.length < 64
  · rw [if_pos hall]
    exact ⟨fun _ => Or.inl hall, fun _ => rfl⟩
  · rw [if_neg hall]
    exact ⟨Or.inr, fun hor => hor.resolve_left hall⟩

/-- A directory and a file that both layers made. -/
theorem resolvers_agree_mixed :
    Agree ([VOp.mkdir (cstr "/home/x"), .create 5 (cstr "f"), .fs (.mkdir (cstr "/home/x/y"))].foldl
      vstep vfsInit) (cstr "/bin/..//home/x/f") :=
  (resolvers_agree _ (Or.inr (Reach.foldl [VOp.mkdir (cstr "/home/x"), .create 5 (cstr "f"),
    .fs (.mkdir (cstr "/home/x/y"))] .init ⟨trivial, trivial, trivial, trivial⟩)) _ (by decide)
    (by decide)).mpr (Or.inl (by decide))

def longName : VState := vstep vfsInit (.fs (.mkdir (slash :: List.replicate 63 97)))

/-- **A component of 64 characters** is too long for `vfs_lookup`; `find_inode_by_path` cuts it and
finds the directory. -/
theorem long_component_disagrees :
    Populated longName ∧
      (vfsLookup (dcacheFlush longName) (slash :: List.replicate 64 97)).2 = none ∧
      (findInodeByPath longName.fs (slash :: List.replicate 64 97)).2 = some 5 ∧
      ¬ Agree longName (slash :: List.replicate 64 97) := by
  have hlook : (vfsLookup (dcacheFlush longName) (slash :: List.replicate 64 97)).2 = none := by
    decide +kernel
  have hfind : (findInodeByPath longName.fs (slash :: List.replicate 64 97)).2 = some 5 := by
    decide +kernel
  refine ⟨Or.inr (.next _ .init trivial), hlook, hfind, ?_⟩
  unfold Agree
  rw [hlook, hfind]
  simp

end Kerneloid.Vfs.Resolvers
