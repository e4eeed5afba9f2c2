import Kerneloid.UnnamedFS.Content
import Kerneloid.Vfs.Removal

/-! # The copies of the two writes

`unamedfs_write` and `unnamedfs_vop_write` both end with one `lib_memcpy` into the file. `Copy` is
what it is given: the position, the length, and the blocks the file has at that time. The sums that
are meant to bound the copy are computed on 32 bits. `write_bounds` says exactly when the copy stays
inside the blocks, and `failed_write_untouched` exactly when a write that returns -1 has changed
nothing: a count of `2 ^ 32 - 1` that is copied is returned as -1.

What the arithmetic needs of the state is `Budget`: the blocks of all slots and the free ones are no
more than the device has. It holds in every run of both layers. -/

namespace Kerneloid.Vfs.Copies

open Lib.Bytes Lib.Runs UnnamedFS.Types UnnamedFS.Blocks UnnamedFS.Ops UnnamedFS.Effects
open UnnamedFS.Slots UnnamedFS.Alloc UnnamedFS.Content Types Write Ops Effects
open Removal

variable {s : Fs} {fd : ℤ} {c : Copy} {v w : VState} {s' : Fs}

/-- A copy of `len` bytes to the positions from `off` on of a file that has `blocks` blocks. -/
structure Copy where
  off : ℕ
  len : ℕ
  blocks : ℕ
  deriving DecidableEq

def Copy.Inside (c : Copy) : Prop := ∀ x, c.off ≤ x → x < c.off + c.len → x < c.blocks * 4096

theorem Copy.inside_iff (c : Copy) : c.Inside ↔ c.len = 0 ∨ c.off + c.len ≤ c.blocks * 4096 := by
  unfold Copy.Inside
  constructor
  · intro h
    by_cases h0 : c.len = 0
    · exact Or.inl h0
    · have := h (c.off + c.len - 1) (by omega) (by omega)
      right
      omega
  · intro h x h1 h2
    omega

/-- The copy of `unamedfs_write`, if it comes to one. -/
def unamedfsCopy (s : Fs) (fd : ℤ) (count : ℕ) : Option Copy :=
  let e := s.fdEntries fd.toNat
  let n := s.inodes e.ino
  if Fs.badFd s fd ∨ s.mountValid = false ∨ n.isDir = true ∨ count = 0 then none
  else (writePlan s n e.offset count).map fun pk => ⟨e.offset, pk.2, pk.1.count n⟩

/-- The copy of `unnamedfs_vop_write`, if it comes to one. -/
def vopCopy (s : Fs) (i off count : ℕ) : Option Copy :=
  if (s.inodes i).isDir then none
  else (vopPlan s (s.inodes i) off count).bind fun pk =>
    (vopClamp ((pk.1.run s i).inodes i) off pk.2).map fun k => ⟨off, k, pk.1.count (s.inodes i)⟩

/-- The copy of `vfs_write`, if it comes to one. -/
def vfsCopy (v : VState) (fd : ℤ) (count : ℕ) : Option Copy :=
  if VState.badFd v fd then none
  else (VState.fileInode v fd.toNat).bind fun i =>
    vopCopy v.fs i (v.fileTable fd.toNat).offset count

/-- The data area of `s'` is that of `s` after the copy `c` of `buf` into file `i`. -/
structure CopyInto (c : Copy) (i : ℕ) (buf : ℕ → UInt8) (s s' : Fs) : Prop where
  blocks : (s.inodes i).blocks = c.blocks
  data : s'.data = store s.data ((s.inodes i).firstBlock * 4096 + c.off) buf c.len

/-! ### `unamedfs_write` -/

theorem unamedfsWrite_none {count : ℕ} (h : unamedfsCopy s fd count = none)
    (buf : ℕ → UInt8) : (unamedfsWrite s fd buf count).1 = s := by
  unfold unamedfsCopy at h
  dsimp only at h
  unfold unamedfsWrite
  by_cases h1 : Fs.badFd s fd
  · rw [if_pos h1]
  by_cases h2 : s.mountValid = false
  · rw [if_neg h1, if_pos h2]
  rw [if_neg h1, if_neg h2]
  dsimp only
  split_ifs with h3 h4
  · rfl
  · rfl
  · rw [if_neg (by tauto), Option.map_eq_none_iff] at h
    rw [h]

theorem unamedfsWrite_some {count : ℕ}
    (h : unamedfsCopy s fd count = some c) (buf : ℕ → UInt8) :
    ∃ p, writePlan s (s.inodes (s.fdEntries fd.toNat).ino) (s.fdEntries fd.toNat).offset count =
        some (p, c.len) ∧ 0 < count ∧ c.off = (s.fdEntries fd.toNat).offset ∧
      c.blocks = p.count (s.inodes (s.fdEntries fd.toNat).ino) ∧
      CopyInto c (s.fdEntries fd.toNat).ino buf (p.run s (s.fdEntries fd.toNat).ino)
        (unamedfsWrite s fd buf count).1 ∧
      ((unamedfsWrite s fd buf count).1.fdEntries fd.toNat).offset = (c.off + c.len) % 2 ^ 32 ∧
      (unamedfsWrite s fd buf count).2 = toInt32 c.len := by
  unfold unamedfsCopy at h
  dsimp only at h
  split_ifs at h with h1
  simp only [not_or] at h1
  obtain ⟨⟨p, k⟩, hp, rfl⟩ := Option.map_eq_some_iff.mp h
  have hw : unamedfsWrite s fd buf count = (writeBytes s fd.toNat p buf k, toInt32 k) := by
    unfold unamedfsWrite
    rw [if_neg h1.1, if_neg h1.2.1]
    dsimp only
    rw [if_neg h1.2.2.1, if_neg h1.2.2.2, hp]
  rw [hw]
  refine ⟨p, hp, by omega, rfl, rfl, ⟨?_, ?_⟩, ?_, ?_⟩
  · simp [BlockPlan.run]
  · simp only [writeBytes]
  · simp only [writeBytes, Function.update_self]
  · dsimp only

/-- **The bound of `unamedfs_write`.** The copy leaves the blocks exactly if the end of the write,
rounded up, wraps and the first `ensure_blocks` does not fail. -/
theorem unamedfsCopy_inside {count : ℕ} (h : unamedfsCopy s fd count = some c) :
    c.len ≤ count ∧ (c.Inside ↔ c.off + count + 4095 < 2 ^ 32 ∨
      planBlocks s (s.inodes (s.fdEntries fd.toNat).ino) ((c.off + count) % 2 ^ 32) = none) := by
  obtain ⟨p, hp, hc, hoff, hblocks, -⟩ := unamedfsWrite_some h fun _ => 0
  obtain ⟨hplan, hle⟩ := writePlan_some hp
  have hpos := writePlan_pos hc hp
  refine ⟨hle, ?_⟩
  rw [c.inside_iff, hblocks, hplan.count_eq, hoff]
  generalize (s.fdEntries fd.toNat).offset = off at *
  generalize s.inodes (s.fdEntries fd.toNat).ino = n at *
  obtain ⟨hfirst, hk⟩ | ⟨hfirst, hmax, hk, -⟩ := writePlan_cases hp
  · rw [hfirst, hk]
    simp only [reduceCtorEq, or_false]
    unfold needBlocks
    split_ifs <;> omega
  · -- the count was cut to a number of whole blocks, which is at most `2 ^ 32 - 4096` bytes
    have hend : off + c.len + 4095 < 2 ^ 32 := by omega
    rw [Nat.mod_eq_of_lt (by omega), needBlocks_eq (by omega), hfirst]
    simp only [or_true, iff_true]
    right
    omega

/-! ### `unnamedfs_vop_write` -/

section Vop
variable {s : Fs} {i off count : ℕ} (hsmall : (s.inodes i).blocks + s.sb.freeBlocks < 256)
include hsmall

theorem vopPlanned_count {p : VopPlan} (hp : VopPlanned s (s.inodes i) p) :
    p.count (s.inodes i) < 256 := by
  have := hp.free (by omega)
  omega

/-- **The copy of `unnamedfs_vop_write`**: the whole count, if its end seems to fit, or what is left
of the blocks. -/
theorem vopCopy_cases (h : vopCopy s i off count = some c) :
    c.off = off ∧ c.blocks < 256 ∧
      ((c.len = count ∧ (off + count) % 2 ^ 32 ≤ c.blocks * 4096) ∨
        (c.len = c.blocks * 4096 - off ∧ off < c.blocks * 4096 ∧
          c.blocks * 4096 < (off + count) % 2 ^ 32)) := by
  unfold vopCopy at h
  split_ifs at h
  obtain ⟨⟨p, m⟩, hp, h⟩ := Option.bind_eq_some_iff.mp h
  obtain ⟨k, hk, rfl⟩ := Option.map_eq_some_iff.mp h
  obtain ⟨hplan, hcount⟩ := vopPlan_cases hsmall hp
  have hlt := vopPlanned_count hsmall hplan
  have hblocks : ((p.run s i).inodes i).blocks = p.count (s.inodes i) := by simp [VopPlan.run]
  refine ⟨rfl, hlt, ?_⟩
  dsimp only at hk ⊢
  unfold vopClamp at hk
  rw [hblocks] at hk
  dsimp only at hk
  rw [Nat.mod_eq_of_lt (show p.count (s.inodes i) * 4096 < 2 ^ 32 by omega)] at hk
  rcases hcount with ⟨rfl, hfit⟩ | ⟨rfl, hover, hm⟩
  · rw [if_neg (by omega)] at hk
    cases hk
    exact Or.inl ⟨rfl, hfit⟩
  · have hkeep : VopPlan.keep.count (s.inodes i) = (s.inodes i).blocks := rfl
    rw [hkeep] at hk ⊢
    split_ifs at hk with h1 h2
    · cases hk
      exact Or.inr ⟨rfl, by omega, hover⟩
    · cases hk
      exact Or.inr ⟨by omega, by omega, hover⟩

theorem vopCopy_le (h : vopCopy s i off count = some c) : c.len ≤ count := by
  obtain ⟨-, -, ⟨hl, -⟩ | ⟨hl, hin, hover⟩⟩ := vopCopy_cases hsmall h
  · exact hl.le
  · omega

theorem vopWrite_none (h : vopCopy s i off count = none) (buf : ℕ → UInt8) :
    vopWrite s i off buf count = (s, none) := by
  unfold vopCopy at h
  unfold vopWrite
  split_ifs at h ⊢
  · rfl
  · cases hp : vopPlan s (s.inodes i) off count with
    | none => rfl
    | some pm =>
      obtain ⟨p, m⟩ := pm
      rw [hp, Option.bind_some, Option.map_eq_none_iff] at h
      obtain ⟨hplan, hcount⟩ := vopPlan_cases hsmall hp
      have hlt := vopPlanned_count hsmall hplan
      have hkeep : p = .keep := by
        rcases hcount with ⟨rfl, hfit⟩ | ⟨hk, -⟩
        · have hblocks : ((p.run s i).inodes i).blocks = p.count (s.inodes i) := by
            simp [VopPlan.run]
          unfold vopClamp at h
          dsimp only at h
          rw [hblocks, Nat.mod_eq_of_lt (by omega), if_neg (by omega)] at h
          exact absurd h (by simp)
        · exact hk
      subst hkeep
      dsimp only at h ⊢
      rw [h, VopPlan.keep_run]

end Vop

theorem vopWrite_some {i off count : ℕ} (h : vopCopy s i off count = some c)
    (buf : ℕ → UInt8) : c.off = off ∧
      (∃ p : VopPlan, CopyInto c i buf (p.run s i) (vopWrite s i off buf count).1) ∧
      (vopWrite s i off buf count).2 = some c.len := by
  unfold vopCopy at h
  split_ifs at h with hd
  obtain ⟨⟨p, m⟩, hp, h⟩ := Option.bind_eq_some_iff.mp h
  obtain ⟨k, hk, rfl⟩ := Option.map_eq_some_iff.mp h
  rw [vopWrite_eq (by simpa using hd) hp, hk]
  exact ⟨rfl, ⟨p, by simp [VopPlan.run], rfl⟩, rfl⟩

/-- **The bound of `unnamedfs_vop_write`.** The copy leaves the blocks exactly if its end wraps. -/
theorem vopCopy_inside {i off count : ℕ}
    (hsmall : (s.inodes i).blocks + s.sb.freeBlocks < 256) (hoff : off < 2 ^ 32)
    (hcount : count < 2 ^ 32) (h : vopCopy s i off count = some c) :
    c.len ≤ count ∧ (c.Inside ↔ off + count < 2 ^ 32) := by
  refine ⟨vopCopy_le hsmall h, ?_⟩
  obtain ⟨ho, hlt, ⟨hl, hfit⟩ | ⟨hl, hin, hover⟩⟩ := vopCopy_cases hsmall h
  · rw [c.inside_iff, ho, hl]
    omega
  · rw [c.inside_iff, ho, hl]
    omega

/-! ### Blocks in runs of both layers -/

/-- **The blocks of all slots and the free ones fit on the device**, a small one, and descriptors
and vnodes refer to slots of the table. -/
structure Budget (v : VState) : Prop where
  numbered : Numbered v.fs
  small : v.fs.sb.totalBlocks ≤ 16
  room : v.fs.sb.freeBlocks + 2 + blocksUsed v.fs ≤ v.fs.sb.totalBlocks
  fds : ∀ k, (v.fs.fdEntries k).used = true → (v.fs.fdEntries k).ino < v.fs.sb.inodeCount
  nodes : ∀ n i, (v.nodes n).data = some i → i < v.fs.sb.inodeCount

theorem Budget.blocks_lt (h : Budget v) {i : ℕ} (hi : i < v.fs.sb.inodeCount) :
    (v.fs.inodes i).blocks + v.fs.sb.freeBlocks < 256 := by
  have := blocks_le_used hi
  have := h.room
  have := h.small
  omega

/-- What a call may do to the accounts of the file system. -/
structure Spends (s s' : Fs) : Prop where
  total : s'.sb.totalBlocks = s.sb.totalBlocks
  count : s.sb.inodeCount ≤ s'.sb.inodeCount
  room : s'.sb.freeBlocks + blocksUsed s' ≤ s.sb.freeBlocks + blocksUsed s
  fds : ∀ k, (s'.fdEntries k).used = true → (s'.fdEntries k).ino < s'.sb.inodeCount

theorem Budget.spends (h : Budget v) (hn : Numbered w.fs) (hs : Spends v.fs w.fs)
    (hnodes : ∀ n i, (w.nodes n).data = some i → i < w.fs.sb.inodeCount) : Budget w := by
  have hroom := h.room
  have hsp := hs.room
  exact ⟨hn, by rw [hs.total]; exact h.small, by rw [hs.total]; omega, hs.fds, hnodes⟩

theorem Spends.of_eq (hsb : s'.sb = s.sb) (hi : s'.inodes = s.inodes)
    (hfds : ∀ k, (s'.fdEntries k).used = true → (s'.fdEntries k).ino < s.sb.inodeCount) :
    Spends s s' := by
  have hsum : blocksUsed s' = blocksUsed s := by unfold blocksUsed; rw [hsb, hi]
  exact ⟨by rw [hsb], by rw [hsb], by rw [hsb, hsum], by rw [hsb]; exact hfds⟩

theorem Spends.of_change {i : ℕ} (hi : i < s.sb.inodeCount)
    (htotal : s'.sb.totalBlocks = s.sb.totalBlocks) (hcount : s'.sb.inodeCount = s.sb.inodeCount)
    (hother : ∀ j, j ≠ i → s'.inodes j = s.inodes j)
    (hfree : s'.sb.freeBlocks + (s'.inodes i).blocks ≤ s.sb.freeBlocks + (s.inodes i).blocks)
    (hfds : ∀ k, (s'.fdEntries k).used = true → (s'.fdEntries k).ino < s.sb.inodeCount) :
    Spends s s' := by
  have hsum := blocksUsed_change hcount hi hother
  exact ⟨htotal, hcount.ge, by omega, by rw [hcount]; exact hfds⟩

theorem Spends.insert {ic : InodeCache} {j : ℕ} {n : Inode} (hj : FreeSlot s j)
    (hn : n.blocks = 0)
    (hfds : ∀ k, (s.fdEntries k).used = true → (s.fdEntries k).ino < s.sb.inodeCount) :
    Spends s (addInode s ic j n) := by
  have hsum := addInode_blocksUsed ic hj hn
  refine ⟨rfl, le_max_left _ _, ?_, fun k hk => lt_of_lt_of_le (hfds k hk) (le_max_left _ _)⟩
  change s.sb.freeBlocks + _ ≤ _
  omega

theorem Budget.effect (h : Budget v) {op : Op} (he : Effect v.fs op s') : Spends v.fs s' := by
  have hn := h.numbered
  have hfds := he.fds hn.root_live.1 h.fds
  cases he with
  | quiet ic => exact .of_eq rfl rfl hfds
  | seek k off => exact .of_eq rfl rfl hfds
  | closed k => exact .of_eq rfl rfl hfds
  | opened ic hi hfind hk hu => exact .of_eq rfl rfl hfds
  | created ic hj hpar hdir hf hnew hop => exact .insert hj rfl h.fds
  | @unlinked path ic i hi hfind hdir =>
    have hz := unlinkInode_zeroed v.fs ic i
    refine .of_change (hn.reachable hi).1 rfl hz.count (fun j hj => hz.other hj) ?_ hfds
    rw [hz.self]
    simp only [unlinkInode, dropInode, Inode.zero]
    split_ifs <;> omega
  | @removed path ic i hi hfind hdir hempty =>
    have hz := rmdirInode_zeroed v.fs ic i
    refine .of_change (hn.reachable hi).1 rfl hz.count (fun j hj => hz.other hj) ?_ hfds
    rw [hz.self]
    exact Nat.mod_le _ _
  | @wrote fd buf count k p hfd hdir hc hp =>
    have hi := h.fds _ (not_badFd_used hfd)
    have hle := blocks_le_used hi
    have hroom := h.room
    refine .of_change hi rfl rfl (fun j hj => writeBytes_other _ _ _ _ _ hj) ?_ hfds
    rw [writeBytes_self]
    exact (Planned.free (writePlan_some hp).1 (by omega)).le

theorem budget_vopWrite (h : Budget v) {i : ℕ} (hi : i < v.fs.sb.inodeCount) (off : ℕ)
    (buf : ℕ → UInt8) (count : ℕ) : Spends v.fs (vopWrite v.fs i off buf count).1 := by
  rcases vopWrite_cases v.fs i off buf count with he | ⟨p, k, -, hp, hm⟩
  · rw [he]; exact .of_eq rfl rfl h.fds
  · have hsmall := h.blocks_lt hi
    refine .of_change hi hm.total hm.tree.count hm.other ?_ (by rw [hm.fds]; exact h.fds)
    rw [hm.free, hm.blocks]
    exact ((vopPlan_cases hsmall hp).1.free (by omega)).le

theorem Calm.nodes_lt (hc : Calm v w)
    (h : ∀ n i, (v.nodes n).data = some i → i < v.fs.sb.inodeCount) :
    ∀ n i, (w.nodes n).data = some i → i < w.fs.sb.inodeCount := by
  intro n i hi
  rw [hc.fs]
  rcases hc.node n with ⟨-, hd⟩ | ⟨hl, -, hd⟩
  · exact h n i (hd ▸ hi)
  · rw [hd] at hi
    cases hi
    exact hl.1

theorem Budget.calm (h : Budget v) (hc : Calm v w) : Budget w := by
  refine h.spends (by rw [hc.fs]; exact h.numbered) ?_ (Calm.nodes_lt hc h.nodes)
  rw [hc.fs]
  exact .of_eq rfl rfl h.fds

theorem removalTarget_lt (h : Numbered v.fs) {path : CStr} {t : ℕ}
    (ht : removalTarget v path = some t) : t < v.fs.sb.inodeCount := by
  obtain ⟨parent, -, ht⟩ := Option.bind_eq_some_iff.mp ht
  have hl := unlinkTarget_live ht
  rw [(lookParent_calm h path).fs] at hl
  exact hl.1

theorem budget_vstep (h : Budget v) (op : VOp) : Budget (vstep v op) := by
  have hn' := numbered_vstep h.numbered op
  have he := vstep_effect h.numbered op
  revert hn' he
  generalize vstep v op = v'
  intro hn' he
  cases he with
  | calm hc => exact h.calm hc
  | @opened _ _ w n _ k hl hw hd hk hu =>
    have hw' := h.calm hw
    refine hw'.spends hn' (.of_eq rfl rfl hw'.fds) fun m i hm => hw'.nodes m i ?_
    by_cases hmn : m = n
    · subst hmn; simpa [openedState] using hm
    · simpa [openedState, hmn] using hm
  | @wrote fd buf count i _ hfd hi hv =>
    obtain ⟨n, -, hdata⟩ := Option.bind_eq_some_iff.mp hi
    have hs := budget_vopWrite h (h.nodes n i hdata) (v.fileTable fd.toNat).offset buf count
    have hw : Budget { v with fs := (vopWrite v.fs i (v.fileTable fd.toNat).offset buf count).1 } :=
      h.spends (h.numbered.congr (vopWrite_sameTree _ _ _ _ _)) hs fun m j hm =>
        lt_of_lt_of_le (h.nodes m j hm) hs.count
    exact hw.calm hv
  | @added _ w _ j flags d name hw hj hf hv =>
    have hw' := h.calm hw
    rw [← hw.fs] at hj
    have hs : Spends w.fs (putInode w j (newInode w.fs j flags d name)).fs := .insert hj rfl hw'.fds
    have hput : Budget (putInode w j (newInode w.fs j flags d name)) :=
      hw'.spends (hw'.numbered.insert hj (newInode_isLive hf) rfl) hs fun m i hm =>
        lt_of_lt_of_le (hw'.nodes m i hm) hs.count
    exact hput.calm hv
  | tried hw ic =>
    have hw' := h.calm hw
    exact hw'.spends hn' (.of_eq rfl rfl hw'.fds) hw'.nodes
  | @removed _ _ _ _ w _ t r hop hrc hw ht hr hz =>
    have hw' := h.calm hw
    have hs := hw'.effect (step_effect w.fs (removeOp w.fs t))
    refine hw'.spends hn' hs fun m i hm => ?_
    rw [removedState_data] at hm
    refine lt_of_lt_of_le ?_ hs.count
    split_ifs at hm
    · cases hm
      rw [hw.fs]
      exact removalTarget_lt h.numbered ht
    · exact hw'.nodes m i hm
  | call he =>
    have hs := h.effect he
    exact h.spends hn' hs fun m i hm => lt_of_lt_of_le (h.nodes m i hm) hs.count

theorem budget_vfsInit : Budget vfsInit := by
  have hs : Sound vfsInit.fs :=
    sound_reach (by norm_num) formatMount_ramDisk (vfsInit_reach fun _ _ => trivial)
  refine ⟨numbered_vfsInit, by decide +kernel, hs.room, hs.fds, fun n i hi => ?_⟩
  by_cases h0 : n = 0
  · subst h0
    obtain rfl : 0 = i := Option.some.inj hi
    exact numbered_vfsInit.root_live.1
  · rw [vfsInit_node h0] at hi
    exact absurd hi (by simp)

theorem budget_reach (h : Reach Any vstep vfsInit v) : Budget v :=
  h.inv budget_vfsInit fun _ op hv _ => budget_vstep hv op

/-! ### Bounds -/

/-- **When a write stays inside its file.** For every state, descriptor and offset, and every state
that calls of both layers reach from `vfs_init`: a copy is never longer than asked for.
`unamedfs_write` copies inside the blocks of the file exactly if the end of the write does not wrap
when it is rounded up to blocks, or the first `ensure_blocks` fails; `unnamedfs_vop_write` exactly
if the end does not wrap. -/
theorem write_bounds (count : ℕ) (hcount : count < 2 ^ 32) :
    (∀ (s : Fs) (fd : ℤ) (c : Copy), unamedfsCopy s fd count = some c →
      c.off = (s.fdEntries fd.toNat).offset ∧ c.len ≤ count ∧
      (c.Inside ↔ (s.fdEntries fd.toNat).offset + count + 4095 < 2 ^ 32 ∨
        planBlocks s (s.inodes (s.fdEntries fd.toNat).ino)
          (((s.fdEntries fd.toNat).offset + count) % 2 ^ 32) = none)) ∧
    ∀ v, Reach Any vstep vfsInit v → ∀ i < v.fs.sb.inodeCount, ∀ off < 2 ^ 32, ∀ c : Copy,
      vopCopy v.fs i off count = some c →
      c.off = off ∧ c.len ≤ count ∧ (c.Inside ↔ off + count < 2 ^ 32) := by
  refine ⟨fun s fd c hc => ?_, fun v hv i hi off hoff c hc => ?_⟩
  · obtain ⟨-, -, -, hoff, -⟩ := unamedfsWrite_some hc fun _ => 0
    have h := unamedfsCopy_inside hc
    rw [hoff] at h
    exact ⟨hoff, h⟩
  · have hsmall := (budget_reach hv).blocks_lt hi
    exact ⟨(vopCopy_cases hsmall hc).1, vopCopy_inside hsmall hoff hcount hc⟩

def newFile : Fs := [Op.create (cstr "/a"), .open_ (cstr "/a") 0].foldl step smallFs

def newVfsFile : VState :=
  [VOp.create 0 (cstr "a"), .open_ (cstr "/a") 0, .lseek 0 1 0].foldl vstep vfsInit

theorem reach_newVfsFile : Reach Any vstep vfsInit newVfsFile :=
  Reach.foldl _ .init ⟨trivial, trivial, trivial, trivial⟩

/-- Five thousand bytes into a new file, through both layers. -/
theorem write_bounds_two_blocks :
    (⟨0, 5000, 2⟩ : Copy).Inside ∧ unamedfsCopy newFile 0 5000 = some ⟨0, 5000, 2⟩ ∧
      vopCopy newVfsFile.fs 5 0 5000 = some ⟨0, 5000, 2⟩ := by
  have hdev : unamedfsCopy newFile 0 5000 = some ⟨0, 5000, 2⟩ := by decide +kernel
  have hvfs : vopCopy newVfsFile.fs 5 0 5000 = some ⟨0, 5000, 2⟩ := by decide +kernel
  obtain ⟨-, -, hin⟩ := (write_bounds 5000 (by norm_num)).2 newVfsFile reach_newVfsFile 5
    (by decide +kernel) 0 (by norm_num) _ hvfs
  exact ⟨hin.mpr (by norm_num), hdev, hvfs⟩

/-- A write of `2 ^ 32 - 1` bytes is copied into a file without blocks, in both layers. -/
theorem copy_without_blocks :
    Reach Any step smallFs newFile ∧ unamedfsCopy newFile 0 (2 ^ 32 - 1) = some ⟨0, 2 ^ 32 - 1, 0⟩ ∧
      Reach Any vstep vfsInit newVfsFile ∧
      vfsCopy newVfsFile 0 (2 ^ 32 - 1) = some ⟨1, 2 ^ 32 - 1, 0⟩ ∧
      ∀ off, ¬ (⟨off, 2 ^ 32 - 1, 0⟩ : Copy).Inside := by
  refine ⟨Reach.foldl _ .init ⟨trivial, trivial, trivial⟩, by decide +kernel, reach_newVfsFile,
    by decide +kernel, fun off h => ?_⟩
  exact absurd (h off le_rfl (by norm_num)) (by norm_num)

/-! ### Failed writes -/

/-- Every inode record, `free_blocks`, the bitmap and the data area are as before. -/
structure Untouched (s s' : Fs) : Prop where
  inodes : s'.inodes = s.inodes
  free : s'.sb.freeBlocks = s.sb.freeBlocks
  bitmap : s'.blockBitmap = s.blockBitmap
  data : s'.data = s.data

theorem Untouched.refl (s : Fs) : Untouched s s := ⟨rfl, rfl, rfl, rfl⟩

/-- `unamedfs_write` has nowhere to write to: the descriptor is bad, nothing is mounted, the inode is
a directory, or there is no room. -/
def FsRefused (s : Fs) (fd : ℤ) (count : ℕ) : Prop :=
  Fs.badFd s fd ∨ s.mountValid = false ∨ (s.inodes (s.fdEntries fd.toNat).ino).isDir = true ∨
    writePlan s (s.inodes (s.fdEntries fd.toNat).ino) (s.fdEntries fd.toNat).offset count = none

/-- `vfs_write` has nowhere to write to: the descriptor is bad or without an inode, the inode is a
directory, or there is no room, also in the blocks the file then has. -/
def VfsRefused (v : VState) (fd : ℤ) (count : ℕ) : Prop :=
  VState.badFd v fd ∨ ∀ i ∈ VState.fileInode v fd.toNat, (v.fs.inodes i).isDir = true ∨
    ∀ pk ∈ vopPlan v.fs (v.fs.inodes i) (v.fileTable fd.toNat).offset count,
      vopClamp ((pk.1.run v.fs i).inodes i) (v.fileTable fd.toNat).offset pk.2 = none

theorem unamedfsCopy_eq_none {count : ℕ} (hc : count ≠ 0) :
    unamedfsCopy s fd count = none ↔ FsRefused s fd count := by
  unfold unamedfsCopy FsRefused
  dsimp only
  split_ifs with h
  · exact iff_of_true rfl (by tauto)
  · rw [Option.map_eq_none_iff]
    tauto

theorem vfsCopy_eq_none {count : ℕ} : vfsCopy v fd count = none ↔ VfsRefused v fd count := by
  unfold vfsCopy VfsRefused
  by_cases hfd : VState.badFd v fd
  · rw [if_pos hfd]
    exact iff_of_true rfl (Or.inl hfd)
  rw [if_neg hfd, or_iff_right hfd, Option.bind_eq_none_iff]
  refine forall₂_congr fun i _ => ?_
  unfold vopCopy
  split_ifs with hd
  · exact iff_of_true rfl (Or.inl hd)
  · rw [or_iff_right hd, Option.bind_eq_none_iff]
    exact forall₂_congr fun pk _ => Option.map_eq_none_iff

theorem eq_of_toInt32 {k : ℕ} (hk : k < 2 ^ 32) (h : toInt32 k = -1) : k = 2 ^ 32 - 1 := by
  unfold toInt32 at h
  rw [Int.bmod_def] at h
  split_ifs at h <;> omega

/-- A copy for which -1 is returned has `2 ^ 32 - 1` bytes, so that the offset is another one. -/
theorem moved_of_copy {P : Prop} {count off off' : ℕ} (hcount : count < 2 ^ 32)
    (hle : c.len ≤ count) (hret : toInt32 c.len = -1) (hoff : c.off = off)
    (hmoved : off' = (c.off + c.len) % 2 ^ 32) :
    (P ∧ off' = off) ↔ count < 2 ^ 32 - 1 ∨ some c = none := by
  have hlen := eq_of_toInt32 (by omega) hret
  refine iff_of_false (fun h => ?_) ?_
  · obtain ⟨-, hsame⟩ := h
    omega
  · rintro (h | h)
    · omega
    · cases h

theorem vfsWrite_none (h : Budget v) {count : ℕ}
    (hc : vfsCopy v fd count = none) (buf : ℕ → UInt8) : (vfsWrite v fd buf count).1 = v := by
  unfold vfsCopy at hc
  unfold vfsWrite
  split_ifs at hc ⊢
  · rfl
  · cases hi : VState.fileInode v fd.toNat with
    | none => rfl
    | some i =>
      obtain ⟨n, -, hdata⟩ := Option.bind_eq_some_iff.mp hi
      rw [hi, Option.bind_some] at hc
      dsimp only
      rw [vopWrite_none (h.blocks_lt (h.nodes n i hdata)) hc buf]

theorem vfsWrite_stored {buf : ℕ → UInt8} {count i k : ℕ}
    (hfd : ¬ VState.badFd v fd) (hi : VState.fileInode v fd.toNat = some i)
    (hw : vopWrite v.fs i (v.fileTable fd.toNat).offset buf count = (s, some k)) :
    ((vfsWrite v fd buf count).1.fileTable fd.toNat).offset =
        ((v.fileTable fd.toNat).offset + k) % 2 ^ 32 ∧
      (vfsWrite v fd buf count).2 = toInt32 k := by
  obtain ⟨w, r, hcall, hoff, hr⟩ : ∃ w r, vfsWrite v fd buf count = (w, r) ∧
      (w.fileTable fd.toNat).offset = ((v.fileTable fd.toNat).offset + k) % 2 ^ 32 ∧
      r = toInt32 k := by
    unfold vfsWrite
    rw [if_neg hfd, hi]
    dsimp only
    rw [hw]
    refine ⟨_, _, rfl, ?_, rfl⟩
    split_ifs <;> simp [VState.dropRdcache, VState.setOffset]
  rw [hcall]
  exact ⟨hoff, hr⟩

theorem vfsWrite_some {count : ℕ} (hc : vfsCopy v fd count = some c) (buf : ℕ → UInt8) :
    c.off = (v.fileTable fd.toNat).offset ∧
      ((vfsWrite v fd buf count).1.fileTable fd.toNat).offset = (c.off + c.len) % 2 ^ 32 ∧
      (vfsWrite v fd buf count).2 = toInt32 c.len := by
  unfold vfsCopy at hc
  split_ifs at hc with hfd
  obtain ⟨i, hi, hc⟩ := Option.bind_eq_some_iff.mp hc
  obtain ⟨hoff, -, hres⟩ := vopWrite_some hc buf
  rw [hoff]
  exact ⟨rfl, vfsWrite_stored hfd hi (Prod.ext rfl hres)⟩

theorem vfsCopy_le (h : Budget v) {count : ℕ}
    (hc : vfsCopy v fd count = some c) : c.len ≤ count := by
  unfold vfsCopy at hc
  split_ifs at hc
  obtain ⟨i, hi, hc⟩ := Option.bind_eq_some_iff.mp hc
  obtain ⟨n, -, hdata⟩ := Option.bind_eq_some_iff.mp hi
  exact vopCopy_le (h.blocks_lt (h.nodes n i hdata)) hc

/-- **When a failed write has changed nothing.** In every state `unamedfs_write`, and in every state
that calls of both layers reach from `vfs_init` also `vfs_write`, if it returns -1, has left all
inode records, `free_blocks`, the bitmap, the data area and the offset as they were exactly if the
count is less than `2 ^ 32 - 1` or the call has nowhere to write to. -/
theorem failed_write_untouched (count : ℕ) (hcount : count < 2 ^ 32) :
    (∀ (s : Fs) (fd : ℤ) (buf : ℕ → UInt8), (unamedfsWrite s fd buf count).2 = -1 →
      ((Untouched s (unamedfsWrite s fd buf count).1 ∧
          ((unamedfsWrite s fd buf count).1.fdEntries fd.toNat).offset =
            (s.fdEntries fd.toNat).offset) ↔
        count < 2 ^ 32 - 1 ∨ FsRefused s fd count)) ∧
    ∀ v, Reach Any vstep vfsInit v → ∀ (fd : ℤ) (buf : ℕ → UInt8),
      (vfsWrite v fd buf count).2 = -1 →
      ((Untouched v.fs (vfsWrite v fd buf count).1.fs ∧
          ((vfsWrite v fd buf count).1.fileTable fd.toNat).offset = (v.fileTable fd.toNat).offset) ↔
        count < 2 ^ 32 - 1 ∨ VfsRefused v fd count) := by
  refine ⟨fun s fd buf hret => ?_, fun v hv fd buf hret => ?_⟩
  · rw [← or_congr_right' fun h => unamedfsCopy_eq_none (by omega)]
    cases hc : unamedfsCopy s fd count with
    | none =>
      rw [unamedfsWrite_none hc buf]
      exact iff_of_true ⟨.refl s, rfl⟩ (Or.inr rfl)
    | some c =>
      obtain ⟨p, hp, -, hoff, -, -, hmoved, hres⟩ := unamedfsWrite_some hc buf
      have hle := (writePlan_some hp).2
      exact moved_of_copy hcount hle (hres.symm.trans hret) hoff hmoved
  · have hb := budget_reach hv
    rw [← vfsCopy_eq_none]
    cases hc : vfsCopy v fd count with
    | none =>
      rw [vfsWrite_none hb hc buf]
      exact iff_of_true ⟨.refl v.fs, rfl⟩ (Or.inr rfl)
    | some c =>
      obtain ⟨hoff, hmoved, hres⟩ := vfsWrite_some hc buf
      have hle := vfsCopy_le hb hc
      exact moved_of_copy hcount hle (hres.symm.trans hret) hoff hmoved

/-- A write that the VFS refuses: `/home` is a directory. -/
theorem failed_write_untouched_home :
    Untouched (vstep vfsInit (.open_ (cstr "/home") 0)).fs
      (vfsWrite (vstep vfsInit (.open_ (cstr "/home") 0)) 0 (fun _ => 7) 1).1.fs :=
  (((failed_write_untouched 1 (by norm_num)).2 (vstep vfsInit (.open_ (cstr "/home") 0))
    (.next (VOp.open_ (cstr "/home") 0) .init trivial) 0 (fun _ => 7) (by decide +kernel)).mpr
      (Or.inl (by norm_num))).1

/-- `2 ^ 32 - 1` bytes written: both calls return -1, and the offset has moved. -/
theorem failed_write_moves :
    Reach Any step smallFs newFile ∧ (unamedfsWrite newFile 0 (fun _ => 7) (2 ^ 32 - 1)).2 = -1 ∧
      (newFile.fdEntries 0).offset = 0 ∧
      ((unamedfsWrite newFile 0 (fun _ => 7) (2 ^ 32 - 1)).1.fdEntries 0).offset = 2 ^ 32 - 1 ∧
      Reach Any vstep vfsInit newVfsFile ∧
      (vfsWrite newVfsFile 0 (fun _ => 7) (2 ^ 32 - 1)).2 = -1 ∧
      (newVfsFile.fileTable 0).offset = 1 ∧
      ((vfsWrite newVfsFile 0 (fun _ => 7) (2 ^ 32 - 1)).1.fileTable 0).offset = 0 :=
  ⟨Reach.foldl _ .init ⟨trivial, trivial, trivial⟩, by decide +kernel, by decide +kernel,
    by decide +kernel, reach_newVfsFile, by decide +kernel, by decide +kernel, by decide +kernel⟩

end Kerneloid.Vfs.Copies
