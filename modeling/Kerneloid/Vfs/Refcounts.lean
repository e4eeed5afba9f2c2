import Kerneloid.Vfs.Effects

/-! # The reference counts of vnodes

`vfs_open` counts up the vnode it opens. `vfs_close` means to count it down again, but asks for the
vnode of the descriptor after `unnamedfs_vop_close` has cleared it, and so never does.

`Tally` keeps beside the state how many descriptors on each vnode were closed. In every run the
reference count of a vnode is the number of descriptors in use on it plus this number
(`tally_balanced`), so it is right exactly as long as no descriptor on the vnode was closed, up to a
wrap of the counter (`refcount_iff`). -/

namespace Kerneloid.Vfs.Refcounts

open UnnamedFS.Types UnnamedFS.Slots Lib.Runs Types Walk Ops Effects

/-- The descriptors in use that refer to vnode `n`. -/
def holders (v : VState) (n : ℕ) : Finset ℕ :=
  (Finset.range 64).filter fun k => v.fdUsed k = true ∧ (v.fileTable k).node = some n

/-- The state, and for each vnode the number of descriptors on it that were closed. -/
structure Tally where
  v : VState
  closed : ℕ → ℕ

/-- The closes after a `vfs_close`: one that does not fail counts for the vnode of the
descriptor. -/
def noteClose (g : Tally) (fd : ℤ) : ℕ → ℕ :=
  if VState.badFd g.v fd then g.closed
  else
    match (g.v.fileTable fd.toNat).node with
    | none => g.closed
    | some n => Function.update g.closed n (g.closed n + 1)

def tally (g : Tally) (op : VOp) : Tally :=
  { v := vstep g.v op
    closed :=
      match op with
      | .close fd => noteClose g fd
      | _ => g.closed }

/-- The calls are those of `vfs_open` and `vfs_close`, with any path and any descriptor. -/
def OpenClose (_ : Tally) : VOp → Prop
  | .open_ _ _ | .close _ => True
  | _ => False

instance (g : Tally) : ∀ op, Decidable (OpenClose g op)
  | .open_ _ _ | .close _ => isTrue trivial
  | .lookup _ | .stat _ | .read _ _ | .write _ _ _ | .lseek _ _ _ | .readdir _ _ | .mkdir _
  | .unlink _ | .rmdir _ | .create _ _ | .fs _ => isFalse id

/-- **The invariant**: a reference count is short of nothing but the closes. -/
structure Balanced (g : Tally) : Prop where
  numbered : Numbered g.v.fs
  count : ∀ n, (g.v.nodes n).refcount = ((holders g.v n).card + g.closed n) % 2 ^ 32

variable {v w : VState} {g : Tally} {n k : ℕ}

/-! ### The descriptors on a vnode -/

theorem mem_holders : k ∈ holders v n ↔
    k < 64 ∧ v.fdUsed k = true ∧ (v.fileTable k).node = some n := by
  unfold holders
  rw [Finset.mem_filter, Finset.mem_range]

theorem holders_glance (h : Glance v w) (n : ℕ) : holders w n = holders v n := by
  rw [h.rest]
  rfl

theorem refcount_glance (h : Glance v w) (n : ℕ) : (w.nodes n).refcount = (v.nodes n).refcount := by
  rcases h.node n with hn | ⟨-, hn⟩
  · rw [hn]
  · rw [hn, vnodeOf]

theorem holders_unused (hu : w.fdUsed k = false) (f : VFile) (n : ℕ) :
    holders { w with fileTable := Function.update w.fileTable k f } n = holders w n := by
  ext j
  rw [mem_holders, mem_holders]
  by_cases hj : j = k
  · subst hj
    simp [hu]
  · simp only [Function.update_of_ne hj]

theorem holders_opened_self (hk : k < 64) (mode : ℤ) :
    holders (openedState w n k mode) n = insert k (holders w n) := by
  ext j
  rw [Finset.mem_insert, mem_holders, mem_holders, openedState]
  by_cases hj : j = k
  · subst hj
    simp [hk]
  · simp only [Function.update_of_ne hj, hj, false_or]

theorem holders_opened_other (hu : w.fdUsed k = false) (mode : ℤ) {m : ℕ} (hm : m ≠ n) :
    holders (openedState w n k mode) m = holders w m := by
  ext j
  rw [mem_holders, mem_holders, openedState]
  by_cases hj : j = k
  · subst hj
    simp [hu, Ne.symm hm]
  · simp only [Function.update_of_ne hj]

theorem holders_closed {fd : ℤ} (hfd : ¬ VState.badFd v fd) (n : ℕ) :
    holders (vfsClose v fd).1 n = (holders v n).erase fd.toNat := by
  unfold vfsClose
  rw [if_neg hfd]
  ext j
  rw [Finset.mem_erase, mem_holders, mem_holders]
  by_cases hj : j = fd.toNat
  · subst hj
    simp
  · simp only [Function.update_of_ne hj, ne_eq, hj, not_false_eq_true, true_and]

theorem inUse {fd : ℤ} (hfd : ¬ VState.badFd v fd) : fd.toNat < 64 ∧ v.fdUsed fd.toNat = true := by
  unfold VState.badFd at hfd
  push Not at hfd
  obtain ⟨h0, h64, hu⟩ := hfd
  exact ⟨by omega, by simpa using hu⟩

/-! ### One call -/

theorem Balanced.open_ (h : Balanced g) (path : CStr) (mode : ℤ) :
    Balanced (tally g (.open_ path mode)) := by
  refine ⟨numbered_vstep h.numbered _, fun m => ?_⟩
  show ((vfsOpen g.v path mode).1.nodes m).refcount =
    ((holders (vfsOpen g.v path mode).1 m).card + g.closed m) % 2 ^ 32
  have hg := vfsLookup_glance h.numbered path
  have hlook : ((vfsLookup g.v path).1.nodes m).refcount =
      ((holders (vfsLookup g.v path).1 m).card + g.closed m) % 2 ^ 32 := by
    rw [refcount_glance hg, holders_glance hg]
    exact h.count m
  have ho := vfsOpen_opening g.v path mode
  generalize (vfsOpen g.v path mode).1 = v' at ho ⊢
  cases ho with
  | refused => exact hlook
  | unused hw hu f =>
    rw [hw] at hlook
    rw [holders_unused hu]
    exact hlook
  | @opened w n i k hl hd hk hu =>
    rw [hl] at hlook
    dsimp only at hlook
    by_cases hm : m = n
    · subst hm
      have hfresh : k ∉ holders w m := fun hmem => by
        have := (mem_holders.mp hmem).2.1
        rw [hu] at this
        exact Bool.false_ne_true this
      rw [holders_opened_self hk, Finset.card_insert_of_notMem hfresh]
      dsimp only [openedState]
      rw [Function.update_self, hlook]
      dsimp only
      omega
    · rw [holders_opened_other hu mode hm, ← hlook]
      dsimp only [openedState]
      rw [Function.update_of_ne hm]

theorem Balanced.close (h : Balanced g) (fd : ℤ) : Balanced (tally g (.close fd)) := by
  refine ⟨numbered_vstep h.numbered _, fun m => ?_⟩
  show ((vfsClose g.v fd).1.nodes m).refcount =
    ((holders (vfsClose g.v fd).1 m).card + noteClose g fd m) % 2 ^ 32
  have hnodes : (vfsClose g.v fd).1.nodes = g.v.nodes := by rw [(vfsClose_files g.v fd).rest]
  rw [hnodes, h.count m]
  unfold noteClose
  by_cases hfd : VState.badFd g.v fd
  · have hsame : (vfsClose g.v fd).1 = g.v := by
      unfold vfsClose
      rw [if_pos hfd]
    rw [if_pos hfd, hsame]
  · obtain ⟨hlt, hu⟩ := inUse hfd
    rw [if_neg hfd, holders_closed hfd]
    cases hn : (g.v.fileTable fd.toNat).node with
    | none =>
      have hout : fd.toNat ∉ holders g.v m := fun hmem => by
        rw [mem_holders, hn] at hmem
        exact Option.some_ne_none m hmem.2.2.symm
      rw [Finset.erase_eq_of_notMem hout]
    | some n =>
      dsimp only
      by_cases hm : m = n
      · subst hm
        -- the descriptor leaves the holders, and its close is noted
        have hin : fd.toNat ∈ holders g.v m := mem_holders.mpr ⟨hlt, hu, hn⟩
        have hpos := Finset.card_pos.mpr ⟨_, hin⟩
        rw [Function.update_self, Finset.card_erase_of_mem hin]
        congr 1
        omega
      · have hout : fd.toNat ∉ holders g.v m := fun hmem => by
          rw [mem_holders, hn] at hmem
          exact hm (Option.some.inj hmem.2.2).symm
        rw [Function.update_of_ne hm, Finset.erase_eq_of_notMem hout]

/-! ### Runs -/

def tallyInit : Tally := ⟨vfsInit, fun _ => 0⟩

theorem refcount_inodeToVnode (v : VState) (i n : ℕ) :
    ((inodeToVnode v i).1.nodes n).refcount = (v.nodes n).refcount := by
  unfold inodeToVnode
  dsimp only
  split_ifs
  · rfl
  · by_cases hn : n = (v.fs.inodes i).ino
    · subst hn
      dsimp only
      rw [Function.update_self]
    · dsimp only
      rw [Function.update_of_ne hn]

theorem balanced_init : Balanced tallyInit := by
  refine ⟨numbered_vfsInit, fun n => ?_⟩
  have hnone : holders tallyInit.v n = ∅ :=
    Finset.filter_false_of_mem fun k _ hk => Bool.false_ne_true hk.1
  have hzero : (vfsInit.nodes n).refcount = 0 := by
    unfold vfsInit
    dsimp only
    rw [refcount_inodeToVnode]
  rw [hnone]
  exact hzero

theorem tally_balanced (h : Reach OpenClose tally tallyInit g) : Balanced g := by
  refine h.inv balanced_init fun g op hg hop => ?_
  cases op with
  | open_ path mode => exact hg.open_ path mode
  | close fd => exact hg.close fd
  | lookup _ | stat _ | read _ _ | write _ _ _ | lseek _ _ _ | readdir _ _ | mkdir _ | unlink _
  | rmdir _ | create _ _ | fs _ => exact absurd hop id

/-- **When a reference count is right.** In every run of `vfs_open` and `vfs_close` the reference
count of a vnode is the number of descriptors in use on it if and only if no descriptor on it was
closed, or a multiple of `2 ^ 32` of them. -/
theorem refcount_iff {g : Tally} (h : Reach OpenClose tally tallyInit g) (n : ℕ) :
    (g.v.nodes n).refcount = (holders g.v n).card ↔ 2 ^ 32 ∣ g.closed n := by
  have hcount := (tally_balanced h).count n
  have hle : (holders g.v n).card ≤ 64 := by
    have := Finset.card_filter_le (Finset.range 64)
      fun k => g.v.fdUsed k = true ∧ (g.v.fileTable k).node = some n
    rwa [Finset.card_range] at this
  rw [hcount]
  constructor <;> intro hdvd <;> omega

def mixedCalls : List VOp :=
  [.open_ (cstr "/bin") 0, .open_ (cstr "/etc") 0, .open_ (cstr "/bin") 0, .close 1, .close 7]

theorem refcount_iff_mixed :
    ((mixedCalls.foldl tally tallyInit).v.nodes 1).refcount =
        (holders (mixedCalls.foldl tally tallyInit).v 1).card ∧
      (holders (mixedCalls.foldl tally tallyInit).v 1).card = 2 :=
  ⟨(refcount_iff (Reach.foldl mixedCalls .init (by decide +kernel)) 1).mpr (by decide +kernel),
    by decide +kernel⟩

/-- **A count that stays**: the root is opened and closed again. -/
theorem refcount_kept :
    ([VOp.open_ (cstr "/") 0, .close 0].foldl vstep vfsInit).fdUsed 0 = false ∧
      holders ([VOp.open_ (cstr "/") 0, .close 0].foldl vstep vfsInit) 0 = ∅ ∧
      (([VOp.open_ (cstr "/") 0, .close 0].foldl vstep vfsInit).nodes 0).refcount = 1 := by
  decide +kernel

end Kerneloid.Vfs.Refcounts
