import Kerneloid.UnnamedFS.Effects

/-! # The slots of the inode table

Only three kinds of effect touch the tree: a new inode in a free slot, a record zeroed (`Zeroed`),
and everything else, which leaves `ino`, `flags`, `parent` and `name` of every record alone
(`SameTree`). Where a path leads depends on these fields only (`findInodeByPath_congr`).

`Numbered` is what is left of the directory tree when calls of the VFS and of UnnamedFS are mixed. A
vnode can then stand for a directory that is gone, and an inode made in it may have no place in the
tree; but every slot in use still carries its number, and the root stays. -/

namespace Kerneloid.UnnamedFS.Slots

open Types UnnamedFS.Path Lookup Blocks Ops Effects

variable {s s' : Fs} {i j : ℕ}

/-- Two states with the same tree: the records of the table differ in size and extent at most. -/
structure SameTree (s s' : Fs) : Prop where
  mount : s'.mountValid = s.mountValid
  count : s'.sb.inodeCount = s.sb.inodeCount
  ino : ∀ i < s.sb.inodeCount, (s'.inodes i).ino = (s.inodes i).ino
  flags : ∀ i < s.sb.inodeCount, (s'.inodes i).flags = (s.inodes i).flags
  parent : ∀ i < s.sb.inodeCount, (s'.inodes i).parent = (s.inodes i).parent
  name : ∀ i < s.sb.inodeCount, (s'.inodes i).name = (s.inodes i).name

theorem SameTree.isDir (h : SameTree s s') {i : ℕ} (hi : i < s.sb.inodeCount) :
    (s'.inodes i).isDir = (s.inodes i).isDir := by
  rw [Inode.isDir, h.flags i hi, Inode.isDir]

theorem SameTree.isLive (h : SameTree s s') {i : ℕ} (hi : i < s.sb.inodeCount) :
    (s'.inodes i).isLive = (s.inodes i).isLive := by
  rw [Inode.isLive, h.flags i hi, Inode.isLive]

theorem SameTree.live (h : SameTree s s') (i : ℕ) : s'.Live i ↔ s.Live i := by
  unfold Fs.Live
  rw [h.count]
  exact and_congr_right fun hi => by rw [h.isLive hi]

theorem SameTree.trans {s'' : Fs} (h : SameTree s s') (h' : SameTree s' s'') : SameTree s s'' := by
  have hlt : ∀ i < s.sb.inodeCount, i < s'.sb.inodeCount := fun i hi => by rwa [h.count]
  exact ⟨h'.mount.trans h.mount, h'.count.trans h.count,
    fun i hi => (h'.ino i (hlt i hi)).trans (h.ino i hi),
    fun i hi => (h'.flags i (hlt i hi)).trans (h.flags i hi),
    fun i hi => (h'.parent i (hlt i hi)).trans (h.parent i hi),
    fun i hi => (h'.name i (hlt i hi)).trans (h.name i hi)⟩

theorem SameTree.of_eq (hm : s'.mountValid = s.mountValid)
    (hc : s'.sb.inodeCount = s.sb.inodeCount)
    (hi : ∀ i < s.sb.inodeCount, s'.inodes i = s.inodes i) : SameTree s s' := by
  refine ⟨hm, hc, ?_, ?_, ?_, ?_⟩ <;> intro i h <;> rw [hi i h]

theorem SameTree.of_update (k size first blocks : ℕ) (hm : s'.mountValid = s.mountValid)
    (hc : s'.sb.inodeCount = s.sb.inodeCount)
    (hi : s'.inodes = Function.update s.inodes k
      { s.inodes k with size := size, firstBlock := first, blocks := blocks }) : SameTree s s' := by
  refine ⟨hm, hc, ?_, ?_, ?_, ?_⟩ <;> intro i _ <;> rw [hi] <;> by_cases hik : i = k <;>
    simp [hik]

/-- The state `s'` is `s` with record `i` zeroed, as far as the tree is concerned. -/
structure Zeroed (s s' : Fs) (i : ℕ) : Prop where
  mount : s'.mountValid = s.mountValid
  count : s'.sb.inodeCount = s.sb.inodeCount
  inodes : s'.inodes = Function.update s.inodes i Inode.zero

theorem Zeroed.self (h : Zeroed s s' i) : s'.inodes i = Inode.zero := by
  rw [h.inodes, Function.update_self]

theorem Zeroed.other (h : Zeroed s s' i) (hj : j ≠ i) : s'.inodes j = s.inodes j := by
  rw [h.inodes, Function.update_of_ne hj]

theorem Zeroed.live (h : Zeroed s s' i) (j : ℕ) : s'.Live j ↔ s.Live j ∧ j ≠ i := by
  unfold Fs.Live
  rw [h.count]
  by_cases hj : j = i
  · subst hj; rw [h.self]; simp
  · rw [h.other hj]; simp [hj]

theorem unlinkInode_zeroed (s : Fs) (ic : InodeCache) (i : ℕ) :
    Zeroed s (unlinkInode { s with icache := ic } i) i := ⟨rfl, rfl, rfl⟩

theorem rmdirInode_zeroed (s : Fs) (ic : InodeCache) (i : ℕ) :
    Zeroed s (rmdirInode { s with icache := ic } i) i := ⟨rfl, rfl, rfl⟩

theorem freeSlot_not_live (h : FreeSlot s j) : ¬ s.Live j := by
  rintro ⟨h1, h2⟩
  rcases h with ⟨-, hd⟩ | ⟨rfl, -⟩
  · rw [hd] at h2; exact Bool.false_ne_true h2
  · omega

theorem freeSlot_le (h : FreeSlot s j) : j ≤ s.sb.inodeCount := by
  rcases h with ⟨h, -⟩ | ⟨h, -⟩ <;> omega

theorem addInode_live (ic : InodeCache) {n : Inode} (hj : FreeSlot s j)
    (hn : n.isLive = true) (i : ℕ) : (addInode s ic j n).Live i ↔ s.Live i ∨ i = j := by
  unfold addInode Fs.Live
  have hle := freeSlot_le hj
  by_cases hij : i = j
  · subst hij
    simp [hn]
  · simp only [Function.update_of_ne hij, hij, or_false, and_congr_left_iff]
    intro _
    omega

/-! ### Numbered slots -/

/-- Every slot in use carries its number, every free one 0, and slot 0 is a directory and its own
parent. -/
structure Numbered (s : Fs) : Prop where
  count_le : s.sb.inodeCount ≤ 256
  root_live : s.Live 0
  root_dir : (s.inodes 0).isDir = true
  root_parent : (s.inodes 0).parent = 0
  ino : ∀ i, s.Live i → (s.inodes i).ino = i
  dead : ∀ i < s.sb.inodeCount, (s.inodes i).isLive = false → (s.inodes i).ino = 0

theorem Numbered.congr (h : Numbered s) (hs : SameTree s s') : Numbered s' := by
  have hroot := h.root_live.1
  refine ⟨by rw [hs.count]; exact h.count_le, (hs.live 0).mpr h.root_live,
    by rw [hs.isDir hroot]; exact h.root_dir, by rw [hs.parent 0 hroot]; exact h.root_parent,
    fun i hi => ?_, fun i hi hd => ?_⟩
  · have hi := (hs.live i).mp hi
    rw [hs.ino i hi.1]
    exact h.ino i hi
  · rw [hs.count] at hi
    rw [hs.isLive hi] at hd
    rw [hs.ino i hi]
    exact h.dead i hi hd

theorem Numbered.insert (h : Numbered s) {ic : InodeCache} {j : ℕ} {n : Inode} (hj : FreeSlot s j)
    (hn : n.isLive = true) (hino : n.ino = j) : Numbered (addInode s ic j n) := by
  have hle := freeSlot_le hj
  have h0 : (0 : ℕ) ≠ j := fun he => freeSlot_not_live hj (he ▸ h.root_live)
  have hself : (addInode s ic j n).inodes j = n := by simp [addInode]
  have hother : ∀ i, i ≠ j → (addInode s ic j n).inodes i = s.inodes i := fun i hi => by
    simp [addInode, hi]
  refine ⟨?_, (addInode_live ic hj hn 0).mpr (Or.inl h.root_live), by rw [hother 0 h0]; exact
    h.root_dir, by rw [hother 0 h0]; exact h.root_parent, fun i hi => ?_, fun i hi hd => ?_⟩
  · have := h.count_le
    rcases hj with ⟨h1, -⟩ | ⟨h1, h2⟩ <;> simp only [addInode] <;> omega
  · by_cases hij : i = j
    · subst hij; rw [hself, hino]
    · rw [hother i hij]
      exact h.ino i (((addInode_live ic hj hn i).mp hi).resolve_right hij)
  · by_cases hij : i = j
    · subst hij
      rw [hself, hn] at hd
      exact absurd hd (by simp)
    · rw [hother i hij] at hd ⊢
      refine h.dead i ?_ hd
      simp only [addInode] at hi
      omega

theorem Numbered.erase (h : Numbered s) {r : ℕ} (hz : Zeroed s s' r) (hr : r ≠ 0) :
    Numbered s' := by
  refine ⟨by rw [hz.count]; exact h.count_le, (hz.live 0).mpr ⟨h.root_live, hr.symm⟩,
    by rw [hz.other hr.symm]; exact h.root_dir, by rw [hz.other hr.symm]; exact h.root_parent,
    fun i hi => ?_, fun i hi hd => ?_⟩
  · obtain ⟨hl, hne⟩ := (hz.live i).mp hi
    rw [hz.other hne]; exact h.ino i hl
  · by_cases hir : i = r
    · subst hir; rw [hz.self]; rfl
    · rw [hz.other hir] at hd ⊢
      exact h.dead i (by rw [← hz.count]; exact hi) hd

theorem Numbered.ne_root (h : Numbered s) {r : ℕ}
    (hleaf : (s.inodes r).isDir = true → ∀ j, s.Live j → (s.inodes j).parent ≠ r) : r ≠ 0 := by
  rintro rfl
  exact hleaf h.root_dir 0 h.root_live h.root_parent

theorem Numbered.reachable (h : Numbered s) {i : ℕ} (hi : Reachable s i) : s.Live i := by
  rcases hi.live_or_root with rfl | hl
  · exact h.root_live
  · exact hl

theorem writeBytes_sameTree (s : Fs) (fd : ℕ) (p : BlockPlan) (buf : ℕ → UInt8) (k : ℕ) :
    SameTree s (writeBytes s fd p buf k) := by
  refine ⟨rfl, rfl, ?_, ?_, ?_, ?_⟩ <;> intro i _ <;>
    by_cases hi : i = (s.fdEntries fd).ino <;> simp [writeBytes, BlockPlan.run, hi]

theorem Numbered.effect (h : Numbered s) {op : Op} (he : Effect s op s') : Numbered s' := by
  cases he with
  | quiet ic => exact h.congr (.of_eq rfl rfl fun _ _ => rfl)
  | seek k off => exact h.congr (.of_eq rfl rfl fun _ _ => rfl)
  | closed k => exact h.congr (.of_eq rfl rfl fun _ _ => rfl)
  | opened ic hi hfind hk hu => exact h.congr (.of_eq rfl rfl fun _ _ => rfl)
  | created ic hj hpar hdir hf hnew hop =>
    refine h.insert hj ?_ rfl
    rcases hf with rfl | rfl <;> rfl
  | unlinked ic hi hfind hdir =>
    refine h.erase (unlinkInode_zeroed s ic _) (h.ne_root fun hd => ?_)
    rw [hdir] at hd
    exact absurd hd (by simp)
  | removed ic hi hfind hdir hempty =>
    exact h.erase (rmdirInode_zeroed s ic _) (h.ne_root fun _ => hempty)
  | wrote hfd hdir hc hp => exact h.congr (writeBytes_sameTree _ _ _ _ _)

/-! ### The tree decides where a path leads -/

section Tree
variable (h : SameTree s s')
include h

theorem isChild_congr (hi : i < s.sb.inodeCount) (name : CStr) (parent : ℕ) :
    isChild s' name parent i = isChild s name parent i := by
  unfold isChild
  rw [h.isLive hi, h.parent i hi, h.name i hi]

theorem find_isChild_congr (name : CStr) (parent : ℕ) :
    (List.range s'.sb.inodeCount).find? (isChild s' name parent) =
      (List.range s.sb.inodeCount).find? (isChild s name parent) := by
  rw [h.count]
  exact List.find?_congr fun i hi => isChild_congr h (List.mem_range.mp hi) name parent

theorem hasChild_congr (i : ℕ) : Fs.hasChild s' i = Fs.hasChild s i := by
  unfold Fs.hasChild
  rw [h.count, Bool.eq_iff_iff, List.any_eq_true, List.any_eq_true]
  refine exists_congr fun j => and_congr_right fun hj => ?_
  have hlt := List.mem_range.mp hj
  rw [h.isLive hlt, h.parent j hlt]

theorem pathStep_congr (ic : InodeCache) {cur : ℕ} (hcur : cur < s.sb.inodeCount) (comp : CStr) :
    pathStep s' ic cur comp = pathStep s ic cur comp := by
  unfold pathStep findInodeByNameParent
  rw [h.parent cur hcur, h.mount, find_isChild_congr h, h.count]
  by_cases hi : ic.ino < s.sb.inodeCount
  · rw [isChild_congr h hi]
  · simp only [hi, false_and, and_false]

variable (hn : Numbered s)
include hn

theorem pathWalk_congr : ∀ (cs : CStr) (ic : InodeCache) {cur : ℕ} (comp : CStr),
    Reachable s cur → pathWalk s' ic cur comp cs = pathWalk s ic cur comp cs
  | [], ic, cur, comp, hcur => pathStep_congr h ic ((hn.reachable hcur).1) comp
  | c :: cs, ic, cur, comp, hcur => by
    unfold pathWalk
    rw [pathStep_congr h ic ((hn.reachable hcur).1)]
    by_cases hc : c = slash
    · rw [if_pos hc, if_pos hc]
      cases hp : pathStep s ic cur comp with
      | mk ic' o =>
        cases o with
        | none => rfl
        | some nxt =>
          exact pathWalk_congr cs ic' [] (pathStep_anchored hcur (by rw [hp]))
    · rw [if_neg hc, if_neg hc]
      exact pathWalk_congr cs ic _ hcur

theorem findInodeByPath_congr (hic : s'.icache = s.icache) (path : CStr) :
    findInodeByPath s' path = findInodeByPath s path := by
  have hwalk := fun cs => pathWalk_congr h hn cs s.icache [] .root
  unfold findInodeByPath
  simp only [h.mount, hic, hwalk]

end Tree

end Kerneloid.UnnamedFS.Slots
