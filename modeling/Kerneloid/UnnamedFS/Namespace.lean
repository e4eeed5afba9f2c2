import Kerneloid.Lib.Runs
import Kerneloid.UnnamedFS.Slots

/-! # The namespace

The inode table is a tree of directories and files: `DirTree s` is kept by every call
(`namespace_step`), so it holds in every state a mounted device reaches (`namespace_reach`). A call
puts a new inode into a free slot (`DirTree.insert`), zeroes a record that is nobody's parent
(`DirTree.erase`), or leaves the tree alone (`DirTree.congr`). -/

namespace Kerneloid.UnnamedFS.Namespace

open Lib.Forest Lib.Runs Types Bitmap Lookup Ops Effects Slots

variable {s s' : Fs} {i j size : ℕ} {d : Device}

/-- The parent link of the inode table. -/
abbrev parentOf (s : Fs) (i : ℕ) : ℕ := (s.inodes i).parent

/-- **The inode table is a directory tree.** -/
structure DirTree (s : Fs) : Prop where
  mount : s.mountValid = true
  count_le : s.sb.inodeCount ≤ 256
  tree : Rooted s.Live (parentOf s) 0
  root_dir : (s.inodes 0).isDir = true
  ino : ∀ i, s.Live i → (s.inodes i).ino = i
  dead : ∀ i < s.sb.inodeCount, (s.inodes i).isLive = false → (s.inodes i).ino = 0
  parent_dir : ∀ i, s.Live i → (s.inodes (parentOf s i)).isDir = true
  unique : ∀ i j, s.Live i → s.Live j → parentOf s i = parentOf s j →
    (s.inodes i).name = (s.inodes j).name → i = j

theorem numbered_of_dirTree (h : DirTree s) : Numbered s :=
  ⟨h.count_le, h.tree.root_live, h.root_dir, h.tree.root_parent, h.ino, h.dead⟩

theorem DirTree.congr (h : DirTree s) (hs : SameTree s s') : DirTree s' := by
  have hl : ∀ i, s'.Live i → s.Live i := fun i => (hs.live i).mp
  have hp : ∀ i, s.Live i → parentOf s' i = parentOf s i := fun i hi => hs.parent i hi.1
  have hn := (numbered_of_dirTree h).congr hs
  refine ⟨by rw [hs.mount]; exact h.mount, hn.count_le, ⟨hn.root_live, hn.root_parent, fun i hi =>
      (h.tree.anchored i (hl i hi)).mono fun j hj => ⟨(hs.live j).mpr hj, hp j hj⟩⟩,
    hn.root_dir, hn.ino, hn.dead, fun i hi => ?_, fun i j hi hj hpar hname => ?_⟩
  · rw [hp i (hl i hi), hs.isDir (h.tree.parent_live (hl i hi)).1]; exact h.parent_dir i (hl i hi)
  · rw [hp i (hl i hi), hp j (hl j hj)] at hpar
    rw [hs.name i (hl i hi).1, hs.name j (hl j hj).1] at hname
    exact h.unique i j (hl i hi) (hl j hj) hpar hname

/-! ### A new inode -/

theorem DirTree.insert (h : DirTree s) {ic : InodeCache} {n : Inode} (hj : FreeSlot s j)
    (hn : n.isLive = true) (hino : n.ino = j) (hpar : s.Live n.parent)
    (hdir : (s.inodes n.parent).isDir = true)
    (hnew : ∀ i, s.Live i → parentOf s i = n.parent → (s.inodes i).name ≠ n.name) :
    DirTree (addInode s ic j n) := by
  have hnl := freeSlot_not_live hj
  have hlive := addInode_live ic hj hn
  have hnum : Numbered (addInode s ic j n) := (numbered_of_dirTree h).insert hj hn hino
  have hself : (addInode s ic j n).inodes j = n := by simp [addInode]
  have hother : ∀ i, i ≠ j → (addInode s ic j n).inodes i = s.inodes i := fun i hi => by
    simp [addInode, hi]
  have hne : ∀ i, s.Live i → i ≠ j := fun i hi he => hnl (he ▸ hi)
  refine ⟨h.mount, hnum.count_le, ?_, hnum.root_dir, hnum.ino, hnum.dead, fun i hi => ?_, ?_⟩
  · refine h.tree.insert hnl hlive (fun i hi => ?_) ?_
    · exact congrArg Inode.parent (hother i hi)
    · rw [parentOf, hself]; exact hpar
  · rcases (hlive i).mp hi with hl | rfl
    · have hp := h.tree.parent_live hl
      rw [parentOf, hother i (hne i hl), hother _ (hne _ hp)]
      exact h.parent_dir i hl
    · rw [parentOf, hself, hother _ (hne _ hpar)]; exact hdir
  · -- two inodes of one name under one parent: the new one's name was free
    intro i k hi hk hpe hnm
    rcases (hlive i).mp hi with hl | rfl <;> rcases (hlive k).mp hk with hl' | rfl
    · rw [parentOf, parentOf, hother i (hne i hl), hother k (hne k hl')] at hpe
      rw [hother i (hne i hl), hother k (hne k hl')] at hnm
      exact h.unique i k hl hl' hpe hnm
    · rw [parentOf, parentOf, hother i (hne i hl), hself] at hpe
      rw [hother i (hne i hl), hself] at hnm
      exact absurd hnm (hnew i hl hpe)
    · rw [parentOf, parentOf, hother k (hne k hl'), hself] at hpe
      rw [hother k (hne k hl'), hself] at hnm
      exact absurd hnm.symm (hnew k hl' hpe.symm)
    · rfl

theorem DirTree.erase (h : DirTree s) (hz : Zeroed s s' i)
    (hleaf : ∀ j, s.Live j → parentOf s j ≠ i) : DirTree s' := by
  have hnum := numbered_of_dirTree h
  have hnum' := hnum.erase hz (hnum.ne_root fun _ => hleaf)
  refine ⟨by rw [hz.mount]; exact h.mount, hnum'.count_le, ?_, hnum'.root_dir, hnum'.ino, hnum'.dead,
    fun j hj => ?_, fun j k hj hk hp hn => ?_⟩
  · exact h.tree.erase hleaf hz.live fun j hj => congrArg Inode.parent (hz.other hj)
  · obtain ⟨hl, hne⟩ := (hz.live j).mp hj
    rw [parentOf, hz.other hne, hz.other (hleaf j hl)]
    exact h.parent_dir j hl
  · obtain ⟨hl, hne⟩ := (hz.live j).mp hj
    obtain ⟨hl', hne'⟩ := (hz.live k).mp hk
    rw [parentOf, parentOf, hz.other hne, hz.other hne'] at hp
    rw [hz.other hne, hz.other hne'] at hn
    exact h.unique j k hl hl' hp hn

theorem DirTree.file_leaf (h : DirTree s) (hd : (s.inodes i).isDir = false) :
    ∀ j, s.Live j → parentOf s j ≠ i := by
  intro j hj he
  have := h.parent_dir j hj
  rw [he, hd] at this
  exact Bool.false_ne_true this

/-! ### Every call keeps the tree -/

theorem reachable_live (h : DirTree s) (hi : Reachable s i) : s.Live i :=
  (numbered_of_dirTree h).reachable hi

theorem DirTree.effect (h : DirTree s) {op : Op} (he : Effect s op s') : DirTree s' := by
  cases he with
  | quiet ic => exact h.congr (.of_eq rfl rfl fun _ _ => rfl)
  | seek k off => exact h.congr (.of_eq rfl rfl fun _ _ => rfl)
  | closed k => exact h.congr (.of_eq rfl rfl fun _ _ => rfl)
  | opened ic hi hfind hk hu => exact h.congr (.of_eq rfl rfl fun _ _ => rfl)
  | created ic hj hpar hdir hf hnew hop =>
    refine h.insert hj ?_ rfl (reachable_live h hpar) hdir (hnew h.mount)
    rcases hf with rfl | rfl <;> rfl
  | unlinked ic hi hfind hdir => exact h.erase (unlinkInode_zeroed s ic _) (h.file_leaf hdir)
  | removed ic hi hfind hdir hempty => exact h.erase (rmdirInode_zeroed s ic _) hempty
  | wrote hfd hdir hc hp => exact h.congr (writeBytes_sameTree _ _ _ _ _)

theorem namespace_step (h : DirTree s) (op : Op) : DirTree (step s op) :=
  h.effect (step_effect s op)

/-! ### The initial tree -/

theorem formatMount_some (h : formatMount d size = some s) :
    4096 * 3 ≤ size ∧
      s.sb = ⟨magicNumber, 1, size / 4096, size / 4096 - 2, 1, 2⟩ ∧
      s.inodes = Function.update d.inodes 0 rootInode ∧ s.data = d.data ∧
      s.bitmapBlocks = min (size / 4096) 4096 ∧
      s.blockBitmap = bitmapRebuild (min (size / 4096) 4096) (bitmapInit (size / 4096)).2 1 s.inodes ∧
      s.fdEntries = (fun _ => ⟨0, 0, 0, false⟩) ∧ s.mountValid = true := by
  unfold formatMount unamedfsFormat at h
  split_ifs at h with hs
  · simp at h
  · simp only [Option.bind_some, unamedfsMount] at h
    rw [if_neg (by simp)] at h
    simp only [Option.some.injEq] at h
    subst h
    exact ⟨by omega, rfl, rfl, rfl, rfl, rfl, rfl, rfl⟩

theorem namespace_init (h : formatMount d size = some s) : DirTree s := by
  obtain ⟨-, hsb, hi, -, -, -, -, hm⟩ := formatMount_some h
  have h0 : s.inodes 0 = rootInode := by rw [hi, Function.update_self]
  have hlive : ∀ i, s.Live i → i = 0 := by
    rintro i ⟨hlt, -⟩
    rw [hsb] at hlt
    exact Nat.lt_one_iff.mp hlt
  have hl0 : s.Live 0 := ⟨by rw [hsb]; exact Nat.one_pos, by rw [h0]; rfl⟩
  refine ⟨hm, by rw [hsb]; norm_num, ⟨hl0, by rw [parentOf, h0]; rfl, ?_⟩, by rw [h0]; rfl, ?_, ?_,
    ?_, ?_⟩
  · intro i hil; rw [hlive i hil]; exact .root
  · intro i hil; rw [hlive i hil, h0]; rfl
  · intro i hlt hd
    rw [hsb] at hlt
    have hi0 : i = 0 := Nat.lt_one_iff.mp hlt
    rw [hi0, h0]; rfl
  · intro i hil; rw [hlive i hil, parentOf, h0]; exact congrArg Inode.isDir h0
  · intro i j hil hjl _ _; rw [hlive i hil, hlive j hjl]

theorem namespace_reach {s₀ : Fs} (h0 : formatMount d size = some s₀)
    (h : Reach Any step s₀ s) : DirTree s :=
  h.inv (namespace_init h0) fun _ op hs _ => namespace_step hs op

/-- **The namespace invariant.** In every state reached from a formatted and mounted device: inode 0
is in use, a directory and its own parent; every other inode in use carries its own number and lies
in a directory in use; the parent links of every inode in use lead to 0; and no two inodes in use
have the same parent and name. -/
theorem namespace_invariant (d : Device) (size : ℕ) (s₀ s : Fs) (h0 : formatMount d size = some s₀)
    (h : Reach Any step s₀ s) :
    (s.Live 0 ∧ (s.inodes 0).isDir = true ∧ (s.inodes 0).parent = 0) ∧
    (∀ i, s.Live i → i ≠ 0 → (s.inodes i).ino = i ∧ s.Live (s.inodes i).parent ∧
      (s.inodes (s.inodes i).parent).isDir = true) ∧
    (∀ i, s.Live i → ∃ n, (fun j => (s.inodes j).parent)^[n] i = 0) ∧
    (∀ i j, s.Live i → s.Live j → i ≠ j →
      ¬ ((s.inodes i).parent = (s.inodes j).parent ∧ (s.inodes i).name = (s.inodes j).name)) := by
  have hn := namespace_reach h0 h
  refine ⟨⟨hn.tree.root_live, hn.root_dir, hn.tree.root_parent⟩, fun i hi _ => ?_, fun i hi => ?_,
    fun i j hi hj hne he => hne (hn.unique i j hi hj he.1 he.2)⟩
  · exact ⟨hn.ino i hi, hn.tree.parent_live hi, hn.parent_dir i hi⟩
  · exact (hn.tree.anchored i hi).iterate

/-- A run that makes `/a` and `/a/b` and takes them away again in the wrong and the right order. -/
theorem namespace_invariant_small :
    let s := [.mkdir (cstr "/a"), .create (cstr "/a/b"), .rmdir (cstr "/a"), .unlink (cstr "/a/b"),
      .create (cstr "/c")].foldl step smallFs
    s.Live 2 ∧ ∃ n, (fun j => (s.inodes j).parent)^[n] 2 = 0 := by
  intro s
  have h := namespace_invariant zeroDevice (4096 * 5) smallFs s formatMount_small
    (Reach.foldl _ .init (Admits.any _))
  have hlive : s.Live 2 := by unfold s; decide +kernel
  exact ⟨hlive, h.2.2.1 2 hlive⟩

end Kerneloid.UnnamedFS.Namespace
