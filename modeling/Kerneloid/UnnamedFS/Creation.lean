import Kerneloid.UnnamedFS.Resolution

/-! # What a path makes, and what it names

`unamedfs_create` and `unamedfs_mkdir` cut the path at its last slash and put the new inode under
the directory before it; `find_inode_by_path` walks the components behind the first character. A
path names the inode it makes exactly if its last component is neither `.` nor `..` and it has a
slash, or, without one, starts with 64 equal characters
(`Nameable`, `create_then_resolve`). So the path `abc` makes an inode called `abc` in the root that
it does not name: the walk looks for `bc` (`create_relative_lost`). -/

namespace Kerneloid.UnnamedFS.Creation

open Lib.Bytes Lib.Runs Types UnnamedFS.Path Lookup Ops Effects Namespace Slots Alloc Components
open Resolution Layout Simulation

variable {dir : Bool} {path : CStr}

/-! ### Walks in a tree with a new inode -/

section New
variable {s : Fs} {ic : InodeCache} {j : ℕ} {n : Inode} (h : DirTree s)
  (h' : DirTree (addInode s ic j n)) (hj : FreeSlot s j) (hn : n.isLive = true)
include h h' hj hn

theorem refStep_add {i k : ℕ} {c : CStr} (hi : s.Live i) (hs : refStep s i c = some k) :
    refStep (addInode s ic j n) i c = some k := by
  have hne : ∀ i, s.Live i → i ≠ j := fun i hi he => freeSlot_not_live hj (he ▸ hi)
  have hother : ∀ i, s.Live i → (addInode s ic j n).inodes i = s.inodes i := fun i hi => by
    simp [addInode, hne i hi]
  unfold refStep at hs ⊢
  rw [hother i hi]
  split_ifs at hs ⊢ with hdot hdd
  · exact hs
  · exact hs
  · exact hs
  · obtain ⟨hl, hp, hname⟩ := (uniqueChild_eq_some h).mp hs
    refine (uniqueChild_eq_some h').mpr ⟨(addInode_live ic hj hn k).mpr (Or.inl hl), ?_, ?_⟩
    · rw [hother k hl]; exact hp
    · rw [hother k hl]; exact hname

theorem foldlM_refStep_add : ∀ (cs : List CStr) {i k : ℕ}, s.Live i →
    cs.foldlM (refStep s) i = some k → cs.foldlM (refStep (addInode s ic j n)) i = some k
  | [], _, _, _, hw => hw
  | c :: cs, i, k, hi, hw => by
    rw [List.foldlM_cons] at hw ⊢
    obtain ⟨m, hm, hw⟩ := Option.bind_eq_some_iff.mp hw
    rw [refStep_add h h' hj hn hi hm]
    exact foldlM_refStep_add cs (refStep_live h hi hm) hw

theorem refStep_new (hpar : s.Live n.parent) {c : CStr} :
    refStep (addInode s ic j n) n.parent c = some j ↔ c ≠ dot ∧ c ≠ dotdot ∧ c = n.name := by
  have hne : ∀ i, s.Live i → i ≠ j := fun i hi he => freeSlot_not_live hj (he ▸ hi)
  have hself : (addInode s ic j n).inodes j = n := by simp [addInode]
  have hother : (addInode s ic j n).inodes n.parent = s.inodes n.parent := by
    simp [addInode, hne _ hpar]
  unfold refStep
  rw [hother]
  by_cases hdot : c = dot
  · simpa [hdot] using hne _ hpar
  by_cases hdd : c = dotdot
  · have hup : (if n.parent = 0 then 0 else (s.inodes n.parent).parent) ≠ j := by
      split_ifs
      · exact hne 0 h.tree.root_live
      · exact hne _ (h.tree.parent_live hpar)
    rw [if_neg hdot, if_pos hdd, Option.some.injEq]
    exact ⟨fun he => absurd he hup, fun he => absurd hdd he.2.1⟩
  · rw [if_neg hdot, if_neg hdd, uniqueChild_eq_some h', hself]
    constructor
    · rintro ⟨-, -, hname⟩
      exact ⟨hdot, hdd, hname.symm⟩
    · rintro ⟨-, -, hname⟩
      exact ⟨(addInode_live ic hj hn j).mpr (Or.inr rfl), rfl, hname.symm⟩

omit h' in
theorem new_leaf (hpar : s.Live n.parent) :
    ∀ i, (addInode s ic j n).Live i → ((addInode s ic j n).inodes i).parent ≠ j := by
  have hne : ∀ i, s.Live i → i ≠ j := fun i hi he => freeSlot_not_live hj (he ▸ hi)
  intro i hi
  rcases (addInode_live ic hj hn i).mp hi with hl | rfl
  · have hother : (addInode s ic j n).inodes i = s.inodes i := by simp [addInode, hne i hl]
    rw [hother]
    exact hne _ (h.tree.parent_live hl)
  · have hself : (addInode s ic i n).inodes i = n := by simp [addInode]
    rw [hself]
    exact hne _ hpar

end New

/-! ### Making and taking away -/

/-- `unamedfs_mkdir` or `unamedfs_create`. -/
def makeCall (dir : Bool) (s : Fs) (path : CStr) : Fs × ℤ :=
  if dir then unamedfsMkdir s path else unamedfsCreate s path

/-- `unamedfs_rmdir` or `unamedfs_unlink`. -/
def takeCall (dir : Bool) (s : Fs) (path : CStr) : Fs × ℤ :=
  if dir then unamedfsRmdir s path else unamedfsUnlink s path

/-- The inode such a call puts into slot `j` under `par`. -/
def madeInode (dir : Bool) (path : CStr) (j par : ℕ) : Inode :=
  ⟨j, 0, if dir then 2 else 1, par, 0, 0, pathBasename (pathNormalize path 256) 64⟩

theorem madeInode_isLive (dir : Bool) (path : CStr) (j par : ℕ) :
    (madeInode dir path j par).isLive = true := by
  cases dir <;> rfl

theorem madeInode_isDir (dir : Bool) (path : CStr) (j par : ℕ) :
    (madeInode dir path j par).isDir = dir := by
  cases dir with
  | false => exact (by decide : (1).testBit 1 = false)
  | true => exact (by decide : (2).testBit 1 = true)

/-- The path names what it makes. -/
def Nameable (path : CStr) : Prop :=
  pathBasename (pathNormalize path 256) 64 ≠ dot ∧
    pathBasename (pathNormalize path 256) 64 ≠ dotdot ∧
    (slash ∈ pathNormalize path 256 ∨
      (pathNormalize path 256).tail.take 63 = pathBasename (pathNormalize path 256) 64)

instance (path : CStr) : Decidable (Nameable path) := by unfold Nameable; infer_instance

theorem makeCall_createInode {s : Fs} (hm : s.mountValid = true)
    (hret : (makeCall dir s path).2 = 0) :
    (createInode s (pathNormalize path 256) (if dir then 2 else 1)).2.isSome = true ∧
      (makeCall dir s path).1 =
        (createInode s (pathNormalize path 256) (if dir then 2 else 1)).1 := by
  cases dir with
  | false =>
    have hdef : makeCall false s path = unamedfsCreate s path := rfl
    rw [hdef] at hret ⊢
    unfold unamedfsCreate at hret
    dsimp only at hret
    split_ifs at hret with hsome
    exact ⟨hsome, rfl⟩
  | true =>
    have hdef : makeCall true s path = unamedfsMkdir s path := rfl
    rw [hdef] at hret ⊢
    unfold unamedfsMkdir at hret ⊢
    dsimp only at hret ⊢
    by_cases hroot : pathNormalize path 256 = [slash]
    · simp [hroot, hm] at hret
    · simp only [hm, Bool.true_eq_false, if_false, if_neg hroot] at hret ⊢
      split_ifs at hret with hsome
      exact ⟨hsome, rfl⟩

/-- **A call that makes something** puts a new inode under the directory part of the path, called by
its last component. -/
theorem makeCall_zero {s : Fs} (hm : s.mountValid = true) (hret : (makeCall dir s path).2 = 0) :
    ∃ ic j par, pathBasename (pathNormalize path 256) 64 ≠ [] ∧
      (findInodeByPath s (pathDirname (pathNormalize path 256))).2 = some par ∧ FreeSlot s j ∧
      (s.inodes par).isDir = true ∧ (∀ i, s.Live i → (s.inodes i).parent = par →
        (s.inodes i).name ≠ pathBasename (pathNormalize path 256) 64) ∧
      (makeCall dir s path).1 = addInode s ic j (madeInode dir path j par) := by
  obtain ⟨hsome, hfst⟩ := makeCall_createInode hm hret
  rcases createInode_cases s (pathNormalize path 256) (if dir then 2 else 1) with
    ⟨ic, hc⟩ | ⟨ic, j, par, hb, hfind, hj, hd, hnew, hc⟩
  · rw [hc] at hsome
    exact absurd hsome (by simp)
  · refine ⟨ic, j, par, hb, hfind, hj, hd, hnew hm, ?_⟩
    rw [hfst, hc]
    rfl

theorem takeCall_zero {s : Fs} (hm : s.mountValid = true) {j : ℕ}
    (hroot : pathNormalize path 256 ≠ [slash]) (hfind : (findInodeByPath s path).2 = some j)
    (hdir : (s.inodes j).isDir = dir) (hleaf : ∀ i, s.Live i → (s.inodes i).parent ≠ j) :
    (takeCall dir s path).2 = 0 ∧ Zeroed s (takeCall dir s path).1 j := by
  cases dir with
  | false =>
    unfold takeCall unamedfsUnlink
    dsimp only
    rw [if_neg (by simp), if_neg (by simp [hm]), if_neg hroot, findInodeByPath_norm, hfind]
    dsimp only
    rw [hdir, if_neg (by simp)]
    exact ⟨rfl, unlinkInode_zeroed s _ j⟩
  | true =>
    unfold takeCall unamedfsRmdir
    dsimp only
    rw [if_pos rfl, if_neg (by simp [hm]), if_neg hroot, findInodeByPath_norm, hfind]
    dsimp only
    have hempty : Fs.hasChild { s with icache := (findInodeByPath s path).1 } j = false :=
      hasChild_eq_false.mpr hleaf
    rw [hdir, if_neg (by simp), hempty, if_neg (by simp)]
    exact ⟨rfl, rmdirInode_zeroed s _ j⟩

theorem findInodeByPath_made {s : Fs} (h : DirTree s) {ic : InodeCache} {j par : ℕ}
    (hb : pathBasename (pathNormalize path 256) 64 ≠ [])
    (hfind : (findInodeByPath s (pathDirname (pathNormalize path 256))).2 = some par)
    (hj : FreeSlot s j) (h' : DirTree (addInode s ic j (madeInode dir path j par))) :
    (findInodeByPath (addInode s ic j (madeInode dir path j par)) path).2 = some j ↔
      Nameable path := by
  have hpar := reachable_live h (findInodeByPath_anchored hfind)
  have hn := madeInode_isLive dir path j par
  have hnew : ∀ c, refStep (addInode s ic j (madeInode dir path j par)) par c = some j ↔
      c ≠ dot ∧ c ≠ dotdot ∧ c = pathBasename (pathNormalize path 256) 64 := fun _ =>
    refStep_new h h' hj hn hpar
  rw [findInodeByPath_eq h] at hfind
  have hadd := foldlM_refStep_add h h' hj hn _ h.tree.root_live hfind
  rw [findInodeByPath_eq h']
  unfold Nameable
  rcases walked_split hb with ⟨hs, hdir, -, hw⟩ | ⟨hs, hw⟩
  · -- no slash: the directory is the root, and the walk starts at the second character
    rw [hdir] at hfind
    have hpar0 : 0 = par := Option.some.inj hfind
    subst hpar0
    have h0 : (0 : ℕ) ≠ j := fun he => freeSlot_not_live hj (he ▸ h.tree.root_live)
    rw [hw]
    by_cases ht : (pathNormalize path 256).tail = []
    · rw [if_pos ht, ht]
      constructor
      · intro he
        exact absurd (Option.some.inj he) h0
      · rintro ⟨-, -, hslash | htail⟩
        · exact absurd hslash hs
        · exact absurd htail.symm hb
    · rw [if_neg ht]
      simp only [List.foldlM_cons, List.foldlM_nil, bind_pure]
      rw [hnew]
      constructor
      · rintro ⟨h1, h2, h3⟩
        exact ⟨h3 ▸ h1, h3 ▸ h2, Or.inr h3⟩
      · rintro ⟨h1, h2, hslash | h3⟩
        · exact absurd hslash hs
        · exact ⟨h3 ▸ h1, h3 ▸ h2, h3⟩
  · rw [hw, List.foldlM_append, hadd]
    simp only [Option.bind_eq_bind, Option.bind_some, List.foldlM_cons, List.foldlM_nil, bind_pure]
    rw [hnew]
    constructor
    · rintro ⟨h1, h2, -⟩
      exact ⟨h1, h2, Or.inl hs⟩
    · rintro ⟨h1, h2, -⟩
      exact ⟨h1, h2, rfl⟩

/-! ### On the device -/

def makeBytes (dir : Bool) (b : ByteFs) (path : CStr) : ByteFs × ℤ :=
  if dir then b.unamedfsMkdir path else b.unamedfsCreate path

def takeBytes (dir : Bool) (b : ByteFs) (path : CStr) : ByteFs × ℤ :=
  if dir then b.unamedfsRmdir path else b.unamedfsUnlink path

theorem makeBytes_both {b : ByteFs} (hn : Numbered b.view) (dir : Bool) (path : CStr) :
    Both (makeBytes dir b path) (makeCall dir b.view path) := by
  cases dir with
  | false => exact create_both hn path
  | true => exact mkdir_both hn path

theorem takeBytes_both (dir : Bool) (b : ByteFs) (path : CStr) :
    Both (takeBytes dir b path) (takeCall dir b.view path) := by
  cases dir with
  | false => exact unlink_both b path
  | true => exact rmdir_both b path

theorem makeBytes_step (dir : Bool) (b : ByteFs) (path : CStr) :
    (makeBytes dir b path).1 = b.step (if dir then .mkdir path else .create path) := by
  cases dir <;> rfl

/-- **Create, then resolve.** In every state reached from a formatted and mounted device by calls
whose writes stay behind the inode table, a call of `unamedfs_create` or `unamedfs_mkdir` that
returns 0 adds one inode; afterwards the path leads to that inode, and `unamedfs_unlink` or
`unamedfs_rmdir` of the path returns 0 and removes it, exactly if the path names what it makes. -/
theorem create_then_resolve (m : Mem) (size : ℕ) (hsize : size < 2 ^ 32) (b₀ b : ByteFs)
    (h0 : formatMountBytes m size = some b₀) (h : Reach ByteFs.WriteFits ByteFs.step b₀ b)
    (dir : Bool) (path : CStr) (hret : (makeBytes dir b path).2 = 0) :
    ∃ j, ¬ b.view.Live j ∧ (∀ i, (makeBytes dir b path).1.view.Live i ↔ b.view.Live i ∨ i = j) ∧
      (((findInodeByPath (makeBytes dir b path).1.view path).2 = some j ∧
        (takeBytes dir (makeBytes dir b path).1 path).2 = 0 ∧
        ∀ i, (takeBytes dir (makeBytes dir b path).1 path).1.view.Live i ↔
          (makeBytes dir b path).1.view.Live i ∧ i ≠ j) ↔ Nameable path) := by
  obtain ⟨ht, -⟩ := invariants_reach hsize h0 h
  have hboth := makeBytes_both (numbered_of_dirTree ht) dir path
  have hct : DirTree (makeBytes dir b path).1.view := by
    rw [makeBytes_step]
    exact (invariants_reach hsize h0 (h.next _ (by cases dir <;> trivial))).1
  have htake := takeBytes_both dir (makeBytes dir b path).1 path
  obtain ⟨ic, j, par, hb, hfind, hj, hd, hfree, hcall⟩ :=
    makeCall_zero ht.mount (hboth.value ▸ hret)
  have hpar := reachable_live ht (findInodeByPath_anchored hfind)
  have hn := madeInode_isLive dir path j par
  have ht' : DirTree (addInode b.view ic j (madeInode dir path j par)) :=
    ht.insert hj hn rfl hpar hd hfree
  have hroot : pathNormalize path 256 ≠ [slash] := fun he => hb (by rw [he]; decide)
  have hmade := findInodeByPath_made ht hb hfind hj ht'
  have halike := hboth.state
  rw [hcall] at halike
  have hlive := addInode_live (s := b.view) ic hj hn
  rw [← findInodeByPath_congr halike.sameTree (numbered_of_dirTree ht') halike.icache] at hmade
  refine ⟨j, freeSlot_not_live hj, fun i => (halike.live i).trans (hlive i),
    fun hres => hmade.mp hres.1, fun hname => ?_⟩
  have hkind : ((makeBytes dir b path).1.view.inodes j).isDir = dir := by
    rw [halike.inode j ((hlive j).mpr (Or.inr rfl)).1]
    simp only [addInode, Function.update_self]
    exact madeInode_isDir dir path j par
  have hleaf : ∀ i, (makeBytes dir b path).1.view.Live i →
      ((makeBytes dir b path).1.view.inodes i).parent ≠ j := fun i hi => by
    have hi' := (halike.live i).mp hi
    rw [halike.inode i hi'.1]
    exact new_leaf ht hj hn hpar i hi'
  obtain ⟨hzero, hz⟩ := takeCall_zero hct.mount hroot (hmade.mpr hname) hkind hleaf
  exact ⟨hmade.mpr hname, htake.value.trans hzero, fun i => (htake.state.live i).trans (hz.live i)⟩

/-- The file `/a` of a device of six blocks is found and unlinked again. -/
theorem create_then_resolve_small :
    ∃ j, (findInodeByPath (makeBytes false sixBlocks (cstr "/a")).1.view (cstr "/a")).2 = some j ∧
      ¬ (takeBytes false (makeBytes false sixBlocks (cstr "/a")).1 (cstr "/a")).1.view.Live j :=
  have ⟨j, _, _, hiff⟩ := create_then_resolve _ (4096 * 6) (by decide) sixBlocks sixBlocks
    (Option.some_get _).symm .init false (cstr "/a") (by decide +kernel)
  have hres := hiff.mpr (by decide)
  ⟨j, hres.1, fun hj => ((hres.2.2 j).mp hj).2 rfl⟩

/-- **The path `abc` makes a file it does not name**, and so does `/..`: on a formatted and mounted
device `unamedfs_create` returns 0, but the first path leads nowhere and the second to the root, and
`unamedfs_unlink` of either fails. -/
theorem create_relative_lost :
    ((sixBlocks.unamedfsCreate (cstr "abc")).2 = 0 ∧
      (findInodeByPath (sixBlocks.unamedfsCreate (cstr "abc")).1.view (cstr "abc")).2 = none ∧
      ((sixBlocks.unamedfsCreate (cstr "abc")).1.unamedfsUnlink (cstr "abc")).2 = -1) ∧
    ((sixBlocks.unamedfsCreate (cstr "/..")).2 = 0 ∧
      (findInodeByPath (sixBlocks.unamedfsCreate (cstr "/..")).1.view (cstr "/..")).2 = some 0 ∧
      ((sixBlocks.unamedfsCreate (cstr "/..")).1.unamedfsUnlink (cstr "/..")).2 = -1) := by
  decide +kernel

end Kerneloid.UnnamedFS.Creation
