import Kerneloid.UnnamedFS.Ops

/-! # What a call can do

`Effect s op s'` lists everything a call can do to the state, with what held when it did it; every
invariant is proved against this list and never unfolds the operations (`step_effect`). -/

namespace Kerneloid.UnnamedFS.Effects

open Types UnnamedFS.Path Lookup Blocks Ops

variable {s : Fs} {op : Op}

/-- The state after a new inode was put into slot `j`. -/
def addInode (s : Fs) (ic : InodeCache) (j : ℕ) (n : Inode) : Fs :=
  { s with
    sb := { s.sb with inodeCount := max s.sb.inodeCount (j + 1) }
    inodes := Function.update s.inodes j n
    icache := ic }

/-- Slot `j` can take a new inode: not in use, or the next one of a table that is not full. -/
def FreeSlot (s : Fs) (j : ℕ) : Prop :=
  (j < s.sb.inodeCount ∧ (s.inodes j).isLive = false) ∨
    (j = s.sb.inodeCount ∧ s.sb.inodeCount < 256)

/-- **The effects of a call.** -/
inductive Effect (s : Fs) : Op → Fs → Prop
  | quiet {op : Op} (ic : InodeCache) : Effect s op { s with icache := ic }
  | seek {op : Op} (k off : ℕ) : Effect s op { s with
      fdEntries := Function.update s.fdEntries k { s.fdEntries k with offset := off } }
  | closed {op : Op} (k : ℕ) : Effect s op { s with
      fdEntries := Function.update s.fdEntries k
        { s.fdEntries k with used := false, offset := 0 } }
  | opened {path : CStr} {flags : ℤ} (ic : InodeCache) {k i : ℕ} (hi : Reachable s i)
      (hfind : (findInodeByPath s (pathNormalize path 256)).2 = some i) (hk : k < 64)
      (hu : (s.fdEntries k).used = false) :
      Effect s (.open_ path flags) { s with
        icache := ic, fdEntries := Function.update s.fdEntries k ⟨i, 0, flags, true⟩ }
  | created {op : Op} (ic : InodeCache) {j par flags : ℕ} {name : CStr} (hj : FreeSlot s j)
      (hpar : Reachable s par) (hdir : (s.inodes par).isDir = true) (hf : flags = 1 ∨ flags = 2)
      (hnew : s.mountValid = true → ∀ i, s.Live i → (s.inodes i).parent = par →
        (s.inodes i).name ≠ name)
      (hop : ∃ path, op = .create path ∨ op = .mkdir path) :
      Effect s op (addInode s ic j ⟨j, 0, flags, par, 0, 0, name⟩)
  | unlinked {path : CStr} (ic : InodeCache) {i : ℕ} (hi : Reachable s i)
      (hfind : (findInodeByPath s (pathNormalize path 256)).2 = some i)
      (hdir : (s.inodes i).isDir = false) :
      Effect s (.unlink path) (unlinkInode { s with icache := ic } i)
  | removed {path : CStr} (ic : InodeCache) {i : ℕ} (hi : Reachable s i)
      (hfind : (findInodeByPath s (pathNormalize path 256)).2 = some i)
      (hdir : (s.inodes i).isDir = true)
      (hempty : ∀ j, s.Live j → (s.inodes j).parent ≠ i) :
      Effect s (.rmdir path) (rmdirInode { s with icache := ic } i)
  | wrote {fd : ℤ} {buf : ℕ → UInt8} {count k : ℕ} {p : BlockPlan} (hfd : ¬ Fs.badFd s fd)
      (hdir : (s.inodes (s.fdEntries fd.toNat).ino).isDir = false) (hc : 0 < count)
      (hp : writePlan s (s.inodes (s.fdEntries fd.toNat).ino) (s.fdEntries fd.toNat).offset count =
        some (p, k)) :
      Effect s (.write fd buf count) (writeBytes s fd.toNat p buf k)

theorem Effect.same : Effect s op s := Effect.quiet s.icache

theorem not_badFd_used {fd : ℤ} (h : ¬ Fs.badFd s fd) : (s.fdEntries fd.toNat).used = true := by
  unfold Fs.badFd at h
  simp only [not_or] at h
  simpa using h.2.2

theorem fds_update {fds : ℕ → FdEntry} {m : ℕ} (h : ∀ k, (fds k).used = true → (fds k).ino < m)
    (j : ℕ) (e : FdEntry) (he : e.used = true → e.ino < m) :
    ∀ k, (Function.update fds j e k).used = true → (Function.update fds j e k).ino < m := by
  intro k
  by_cases hk : k = j
  · subst hk; rw [Function.update_self]; exact he
  · rw [Function.update_of_ne hk]; exact h k

theorem closeFds_used {fds : ℕ → FdEntry} {i k : ℕ} (h : (closeFds fds i k).used = true) :
    closeFds fds i k = fds k := by
  unfold closeFds at h ⊢
  split_ifs at h ⊢
  rfl

theorem Effect.fds {s' : Fs} (he : Effect s op s') (hpos : 0 < s.sb.inodeCount)
    (h : ∀ k, (s.fdEntries k).used = true → (s.fdEntries k).ino < s.sb.inodeCount) :
    ∀ k, (s'.fdEntries k).used = true → (s'.fdEntries k).ino < s.sb.inodeCount := by
  cases he with
  | quiet ic => exact h
  | seek k off => exact fds_update h _ _ (h k)
  | closed k => exact fds_update h _ _ fun hu => by simp at hu
  | opened ic hi hfind hk hu =>
    refine fds_update h _ _ fun _ => ?_
    rcases hi.live_or_root with rfl | hl
    · exact hpos
    · exact hl.1
  | created => exact h
  | unlinked ic hi hfind hdir =>
    intro k hk
    simp only [unlinkInode] at hk ⊢
    have he := closeFds_used hk
    rw [he] at hk ⊢
    exact h k hk
  | removed => exact h
  | @wrote fd buf count k p hfd hdir hc hp => exact fds_update h _ _ (h fd.toNat)

theorem hasChild_eq_false {i : ℕ} :
    Fs.hasChild s i = false ↔ ∀ j, s.Live j → (s.inodes j).parent ≠ i := by
  unfold Fs.hasChild Fs.Live
  simp only [List.any_eq_false, List.mem_range, Bool.and_eq_true, decide_eq_true_eq, not_and]
  constructor
  · intro h j hj; exact h j hj.1 hj.2
  · intro h j h1 h2; exact h j ⟨h1, h2⟩

theorem allocInodeSlot_cases (s : Fs) :
    allocInodeSlot s = (s, none) ∨ ∃ j, FreeSlot s j ∧ allocInodeSlot s =
      ({ s with sb := { s.sb with inodeCount := max s.sb.inodeCount (j + 1) } }, some j) := by
  unfold allocInodeSlot
  cases hf : (List.range s.sb.inodeCount).find? fun i => !(s.inodes i).isLive with
  | some j =>
    right
    obtain ⟨hl, hr, -⟩ := List.find?_range_eq_some.mp hf
    have hj := List.mem_range.mp hr
    refine ⟨j, Or.inl ⟨hj, by simpa using hl⟩, ?_⟩
    rw [max_eq_left (by omega)]
  | none =>
    dsimp only
    split_ifs with hfull
    · exact Or.inl rfl
    · right
      refine ⟨s.sb.inodeCount, Or.inr ⟨rfl, by omega⟩, ?_⟩
      rw [max_eq_right (by omega)]

/-- **`create_inode`**: nothing but the cache changes, or a new inode appears under a directory
in which its name was free. -/
theorem createInode_cases (s : Fs) (norm : CStr) (flags : ℕ) :
    (∃ ic, createInode s norm flags = ({ s with icache := ic }, none)) ∨
    ∃ ic j par, pathBasename norm 64 ≠ [] ∧ (findInodeByPath s (pathDirname norm)).2 = some par ∧
      FreeSlot s j ∧ (s.inodes par).isDir = true ∧
      (s.mountValid = true → ∀ i, s.Live i → (s.inodes i).parent = par →
        (s.inodes i).name ≠ pathBasename norm 64) ∧
      createInode s norm flags =
        (addInode s ic j ⟨j, 0, flags, par, 0, 0, pathBasename norm 64⟩, some j) := by
  unfold createInode
  dsimp only
  by_cases h1 : pathBasename norm 64 = []
  · rw [if_pos h1]; exact Or.inl ⟨s.icache, rfl⟩
  rw [if_neg h1]
  have hlen := pathBasename_length norm
  rw [if_neg (by omega)]
  cases hr : (findInodeByPath s (pathDirname norm)).2 with
  | none => exact Or.inl ⟨_, rfl⟩
  | some par =>
    dsimp only
    by_cases hd : (s.inodes par).isDir = false
    · rw [if_pos hd]; exact Or.inl ⟨_, rfl⟩
    rw [if_neg hd]
    set ic := (findInodeByPath s (pathDirname norm)).1
    set f := findInodeByNameParent { s with icache := ic } ic (pathBasename norm 64) par with hfdef
    cases hf : f.2 with
    | some i => exact Or.inl ⟨_, rfl⟩
    | none =>
      rw [if_neg (by simp)]
      have hnew : s.mountValid = true → ∀ i, s.Live i → (s.inodes i).parent = par →
          (s.inodes i).name ≠ pathBasename norm 64 := fun hm =>
        findInodeByNameParent_none (s := { s with icache := ic }) hm (by rw [← hfdef, hf])
      rcases allocInodeSlot_cases { s with icache := f.1 } with ha | ⟨j, hj, ha⟩
      · rw [ha]; exact Or.inl ⟨_, rfl⟩
      · rw [ha]
        refine Or.inr ⟨{ f.1 with valid := false }, j, par, h1, rfl, hj, by simpa using hd, hnew, ?_⟩
        rw [List.take_of_length_le hlen]
        rfl

theorem create_effect {norm : CStr} {flags : ℕ} (hf : flags = 1 ∨ flags = 2)
    (hop : ∃ path, op = .create path ∨ op = .mkdir path) :
    Effect s op (createInode s norm flags).1 := by
  rcases createInode_cases s norm flags with ⟨ic, h⟩ | ⟨ic, j, par, -, hfind, hj, hd, hn, h⟩
  · rw [h]; exact .quiet ic
  · rw [h]; exact .created ic hj (findInodeByPath_anchored hfind) hd hf hn hop

theorem open_effect (s : Fs) (path : CStr) (flags : ℤ) :
    Effect s (.open_ path flags) (unamedfsOpen s path flags).1 := by
  unfold unamedfsOpen
  dsimp only
  split_ifs with hm
  · exact .same
  · cases hr : (findInodeByPath s (pathNormalize path 256)).2 with
    | none => exact .quiet _
    | some i =>
      dsimp only
      cases hk : (List.range 64).find? fun k => !(s.fdEntries k).used with
      | none => exact .quiet _
      | some k =>
        obtain ⟨hu, hr', -⟩ := List.find?_range_eq_some.mp hk
        exact .opened _ (findInodeByPath_anchored hr) hr (List.mem_range.mp hr') (by simpa using hu)

theorem unlink_effect (s : Fs) (path : CStr) :
    Effect s (.unlink path) (unamedfsUnlink s path).1 := by
  unfold unamedfsUnlink
  dsimp only
  split_ifs with hm hn
  · exact .same
  · exact .same
  · cases hr : (findInodeByPath s (pathNormalize path 256)).2 with
    | none => exact .quiet _
    | some i =>
      dsimp only
      split_ifs with hd
      · exact .quiet _
      · exact .unlinked _ (findInodeByPath_anchored hr) hr (by simpa using hd)

theorem rmdir_effect (s : Fs) (path : CStr) : Effect s (.rmdir path) (unamedfsRmdir s path).1 := by
  unfold unamedfsRmdir
  dsimp only
  split_ifs with hm hn
  · exact .same
  · exact .same
  · cases hr : (findInodeByPath s (pathNormalize path 256)).2 with
    | none => exact .quiet _
    | some i =>
      dsimp only
      split_ifs with hd hc
      · exact .quiet _
      · exact .quiet _
      · exact .removed _ (findInodeByPath_anchored hr) hr (by simpa using hd)
          (hasChild_eq_false.mp (Bool.eq_false_of_not_eq_true hc))

theorem write_effect (s : Fs) (fd : ℤ) (buf : ℕ → UInt8) (count : ℕ) :
    Effect s (.write fd buf count) (unamedfsWrite s fd buf count).1 := by
  unfold unamedfsWrite
  dsimp only
  split_ifs with h1 h2 h3 h4
  · exact .same
  · exact .same
  · exact .same
  · exact .same
  · cases hp : writePlan s (s.inodes (s.fdEntries fd.toNat).ino) (s.fdEntries fd.toNat).offset
        count with
    | none => exact .same
    | some pk => exact .wrote h1 (by simpa using h3) (by omega) hp

theorem mkdir_effect (s : Fs) (path : CStr) : Effect s (.mkdir path) (unamedfsMkdir s path).1 := by
  unfold unamedfsMkdir
  by_cases hm : s.mountValid = false
  · rw [if_pos hm]; exact .same
  · rw [if_neg hm]
    dsimp only
    by_cases hn : pathNormalize path 256 = [slash]
    · rw [if_pos hn]; exact .same
    · rw [if_neg hn]; exact create_effect (Or.inr rfl) ⟨path, Or.inr rfl⟩

theorem close_effect (s : Fs) (fd : ℤ) : Effect s (.close fd) (unamedfsClose s fd).1 := by
  unfold unamedfsClose
  split_ifs
  · exact .same
  · exact .closed _

theorem read_effect (s : Fs) (fd : ℤ) (count : ℕ) :
    Effect s (.read fd count) (unamedfsRead s fd count).1 := by
  unfold unamedfsRead
  dsimp only
  split_ifs
  · exact .same
  · exact .same
  · exact .same
  · exact .seek _ _

theorem lseek_effect (s : Fs) (fd offset whence : ℤ) :
    Effect s (.lseek fd offset whence) (unamedfsLseek s fd offset whence).1 := by
  unfold unamedfsLseek
  dsimp only
  split_ifs with h1 h2
  · exact .same
  · exact .same
  · cases seekTarget s (s.fdEntries fd.toNat) offset whence with
    | none => exact .same
    | some newOff =>
      dsimp only
      split_ifs
      · exact .same
      · exact .seek _ _

/-- **Every call has one of the effects.** -/
theorem step_effect (s : Fs) (op : Op) : Effect s op (step s op) := by
  cases op with
  | create path => exact create_effect (Or.inl rfl) ⟨path, Or.inl rfl⟩
  | mkdir path => exact mkdir_effect s path
  | open_ path flags => exact open_effect s path flags
  | close fd => exact close_effect s fd
  | read fd count => exact read_effect s fd count
  | write fd buf count => exact write_effect s fd buf count
  | lseek fd offset whence => exact lseek_effect s fd offset whence
  | unlink path => exact unlink_effect s path
  | rmdir path => exact rmdir_effect s path

end Kerneloid.UnnamedFS.Effects
