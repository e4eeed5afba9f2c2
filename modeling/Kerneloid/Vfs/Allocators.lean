import Kerneloid.Vfs.Bytes

/-! # Two allocators

Blocks are given out by `ensure_blocks`, which goes by the bitmap, and by `unnamedfs_vop_write`,
which goes by the extents of the inodes in use and leaves the bitmap alone. Both parts of this module
are about runs of calls on the bytes of the device from the state after `vfs_init`, in which the
writes spare the inode records.

* `Agree`: the bitmap marks the reserved blocks and those of the inodes in use. It is kept by the
  calls of both layers as long as `vfs_write` allocates nothing and `unamedfs_write` writes to inodes
  in use only (`allocators_agree`).
* `Spaced`: the extents of the inodes in use are disjoint, lie inside the device and are counted by
  `free_blocks`. It is kept by the calls of the VFS as long as `vfs_write` writes to inodes in use
  and does not extend a file in place beyond the end of the device (`vfs_space`). The proof gives the
  state the bitmap that it should have, and uses what `Alloc` says of `ensure_blocks`. -/

namespace Kerneloid.Vfs.Allocators

open Lib.Ownership Lib.Runs UnnamedFS.Types UnnamedFS.Bitmap UnnamedFS.Blocks UnnamedFS.Ops
open UnnamedFS.Effects UnnamedFS.Slots UnnamedFS.Alloc UnnamedFS.Simulation
open Types Write Ops Effects Bytes

variable {s s' : Fs} {i : ℕ} {v : VState} {w : ByteVfs}

/-- Slot `i` is in use and owns block `b`. -/
def LiveOwns (s : Fs) (i b : ℕ) : Prop := s.Live i ∧ Covers (s.inodes i) b

/-- **The bitmap marks the reserved blocks and those of the inodes in use.** -/
structure Agree (s : Fs) : Prop where
  inside : ∀ i b, LiveOwns s i b → 2 ≤ b ∧ b < s.bitmapBlocks
  apart : ∀ i j b, LiveOwns s i b → LiveOwns s j b → i = j
  exact : Exact (LiveOwns s) (Marked s) (· < 2)

/-- **The inodes in use share the device**, whose blocks all have a place in `used`. -/
structure Spaced (s : Fs) : Prop where
  small : s.sb.totalBlocks ≤ 64
  inside : ∀ i b, LiveOwns s i b → 2 ≤ b ∧ b < s.sb.totalBlocks
  apart : ∀ i j b, LiveOwns s i b → LiveOwns s j b → i = j
  free : s.sb.freeBlocks + 2 + liveBlocks s = s.sb.totalBlocks

theorem Agree.vopUsed_eq (h : Agree s) (b : ℕ) : vopUsed s b = bit s.blockBitmap b :=
  Bool.eq_iff_iff.mpr (vopUsed_iff.trans (h.exact b).symm)

theorem Spaced.blocks_le (h : Spaced s) (hl : s.Live i) :
    s.sb.freeBlocks + 2 + (s.inodes i).blocks ≤ s.sb.totalBlocks := by
  have hle : (s.inodes i).blocks ≤ liveBlocks s :=
    Finset.single_le_sum (f := fun j => (s.inodes j).blocks) (fun _ _ => Nat.zero_le _)
      (Finset.mem_filter.mpr ⟨Finset.mem_range.mpr hl.1, hl.2⟩)
  have := h.free
  omega

theorem agree_of_tight (h : Tight s) (ha : Sound s) : Agree s := by
  refine ⟨fun i b hb => ?_, fun i j b hi hj => ha.owned.apart i j b ⟨hi.1.1, hi.2⟩ ⟨hj.1.1, hj.2⟩,
    h.marks⟩
  have hc := hb.2
  have := ha.range i hb.1.1 (by unfold Covers at hc; omega)
  unfold Covers at hc
  omega

theorem spaced_of_tight (h : Tight s) (ha : Sound s) (hsmall : s.sb.totalBlocks ≤ 64) :
    Spaced s := by
  have hagree := agree_of_tight h ha
  refine ⟨hsmall, fun i b hb => ?_, hagree.apart, by rw [h.liveBlocks_eq]; exact h.full⟩
  have hin := hagree.inside i b hb
  have hsize := ha.size_eq
  omega

theorem sound_vfsInit : Sound vfsInit.fs :=
  sound_reach (by norm_num) formatMount_ramDisk (vfsInit_reach fun _ _ => trivial)

theorem tight_vfsInit : Tight vfsInit.fs :=
  tight_reach (by norm_num) formatMount_ramDisk (vfsInit_reach fun _ _ => trivial)

/-! ### Runs without growth -/

/-- The guard: `vfs_write` takes no branch that allocates, and `unamedfs_write` writes to inodes in
use. -/
def NoGrowth (v : VState) : VOp → Prop
  | .write fd _ count => ¬ VState.badFd v fd → ∀ i ∈ VState.fileInode v fd.toNat,
      (v.fs.inodes i).isDir = false →
      ∀ pk ∈ vopPlan v.fs (v.fs.inodes i) (v.fileTable fd.toNat).offset count, pk.1 = .keep
  | .fs op => WritesLive v.fs op
  | _ => True

instance (v : VState) : ∀ op, Decidable (NoGrowth v op)
  | .write .. => by unfold NoGrowth; infer_instance
  | .fs op => inferInstanceAs (Decidable (WritesLive v.fs op))
  | .lookup _ | .stat _ | .open_ .. | .close _ | .read .. | .lseek .. | .readdir .. | .mkdir _
  | .unlink _ | .rmdir _ | .create .. => isTrue trivial

theorem keep_sameSpace (hm : VopMoves s s' i .keep) : SameSpace s s' := by
  refine ⟨hm.total, hm.free, hm.tree.count, hm.bitmap, hm.size, fun j _ => ?_, fun j _ => ?_,
    fun j hj => hm.tree.isLive hj⟩
  all_goals by_cases hji : j = i
  · rw [hji]; exact hm.first
  · rw [hm.other j hji]
  · rw [hji]; exact hm.blocks
  · rw [hm.other j hji]

theorem tight_vstep (ht : Tight v.fs) (hs : Sound v.fs) (hn : Numbered v.fs) {op : VOp}
    (hok : NoGrowth v op) : Sound (vstep v op).fs ∧ Tight (vstep v op).fs := by
  have he := vstep_effect hn op
  revert he
  generalize vstep v op = v'
  intro he
  cases he with
  | calm hc => rw [hc.fs]; exact ⟨hs, ht⟩
  | opened hl hw hd hk hu => dsimp only [openedState]; rw [hw.fs]; exact ⟨hs, ht⟩
  | @wrote fd buf count i _ hfd hi hv =>
    rw [hv.fs]
    dsimp only
    rcases vopWrite_cases v.fs i (v.fileTable fd.toNat).offset buf count with he | ⟨p, k, hd, hp, hm⟩
    · rw [he]; exact ⟨hs, ht⟩
    · have hkeep : p = .keep := hok hfd i hi hd (p, k) hp
      subst hkeep
      exact ⟨hs.congr (keep_sameSpace hm) (by rw [hm.fds]; exact hs.fds), ht.congr (keep_sameSpace hm)⟩
  | added hw hj hf hv =>
    rw [hv.fs, putInode_fs, hw.fs]
    exact ⟨hs.insert hj rfl, ht.insert hj rfl⟩
  | tried hw ic =>
    dsimp only
    rw [hw.fs]
    exact ⟨hs.congr (sameSpace_statics _ _ ic) hs.fds, ht.congr (sameSpace_statics _ _ ic)⟩
  | @removed _ _ _ _ w _ t _ hop hrc hw ht' hr hz =>
    change Sound (step w.fs (removeOp w.fs t)) ∧ Tight (step w.fs (removeOp w.fs t))
    rw [hw.fs]
    have he := step_effect v.fs (removeOp v.fs t)
    refine ⟨hs.effect hn he, ht.effect hs hn ?_ he⟩
    unfold removeOp
    split_ifs <;> exact trivial
  | call he => exact ⟨hs.effect hn he, ht.effect hs hn hok he⟩

/-- **The two allocators agree.** In every state reached from `vfs_init` by calls of both layers in
which the writes spare the inode records, `vfs_write` allocates nothing and `unamedfs_write` goes to
inodes in use: the bitmap marks blocks 0 and 1 and the blocks of the inodes in use, no block has two
owners, and `unnamedfs_vop_write` takes for used what the bitmap marks. -/
theorem allocators_agree (w : ByteVfs) (h : Reach (Sparing NoGrowth) ByteVfs.step initBytes w) :
    (∀ b, bit w.vfs.fs.blockBitmap b = true ↔ b < 2 ∨ InLiveExtent w.vfs.fs b) ∧
    (∀ i j b, w.vfs.fs.Live i → w.vfs.fs.Live j → Covers (w.vfs.fs.inodes i) b →
      Covers (w.vfs.fs.inodes j) b → i = j) ∧
    ∀ b, vopUsed w.vfs.fs b = bit w.vfs.fs.blockBitmap b := by
  obtain ⟨-, hs, ht⟩ := reach_inv (I := fun v => Numbered v.fs ∧ Sound v.fs ∧ Tight v.fs)
    (fun _ hv => hv.1)
    (fun _ _ ha hv => ⟨hv.1.congr ha.sameTree, ha.sound hv.2.1, hv.2.2.congr ha.sameSpace⟩)
    (fun _ _ _ hv => hv.2.1) ⟨numbered_vfsInit, sound_vfsInit, tight_vfsInit⟩
    (fun _ op hok hv => ⟨numbered_vstep hv.1 op, tight_vstep hv.2.2 hv.2.1 hv.1 hok⟩) h
  have ha := agree_of_tight ht hs
  exact ⟨ha.exact, fun i j b hi hj hci hcj => ha.apart i j b ⟨hi, hci⟩ ⟨hj, hcj⟩, ha.vopUsed_eq⟩

/-- A file written by `unamedfs_write` behind the table and overwritten by `vfs_write`. -/
theorem allocators_agree_overwrite :
    bit ([VOp.fs (.create (cstr "/f")), .fs (.open_ (cstr "/f") 0), .fs (.lseek 0 12336 0),
      .fs (.write 0 (fun _ => 7) 2), .open_ (cstr "/f") 0, .write 0 (fun _ => 8) 1].foldl
      ByteVfs.step initBytes).vfs.fs.blockBitmap 2 = true :=
  ((allocators_agree _ (Reach.foldl _ .init (by decide +kernel))).1 2).mpr
    (Or.inr ⟨5, by decide +kernel, by decide +kernel⟩)

def vfsFile : ByteVfs :=
  [VOp.create 0 (cstr "f"), .open_ (cstr "/f") 0, .write 0 (fun _ => 7) 1].foldl ByteVfs.step
    initBytes

/-- Its block 2 is not marked in the bitmap. -/
theorem vfs_block_unmarked :
    Reach Any ByteVfs.step initBytes vfsFile ∧ InLiveExtent vfsFile.vfs.fs 2 ∧
      bit vfsFile.vfs.fs.blockBitmap 2 = false :=
  ⟨Reach.foldl _ .init (Admits.any _), ⟨5, by decide +kernel, by decide +kernel⟩,
    by decide +kernel⟩

/-! ### Growth through the VFS -/

/-- The branch extends a file in place beyond the end of the device. -/
def Overruns (s : Fs) (n : Inode) : VopPlan → Prop
  | .extend need _ => s.sb.totalBlocks < n.firstBlock + need
  | _ => False

instance (s : Fs) (n : Inode) : ∀ p, Decidable (Overruns s n p)
  | .extend .. => inferInstanceAs (Decidable (_ < _))
  | .keep | .fresh .. | .relocate .. => isFalse id

/-- The bitmap `bm` accounts for the blocks of `s`, whatever its own bitmap says. -/
structure Accounts (s : Fs) (bm : BlockBitmap) : Prop where
  small : s.sb.totalBlocks ≤ 64
  sound : Sound { s with blockBitmap := bm }
  tight : Tight { s with blockBitmap := bm }

theorem Accounts.vopUsed_eq {bm : BlockBitmap} (h : Accounts s bm) (b : ℕ) :
    vopUsed s b = bit bm b :=
  (agree_of_tight h.tight h.sound).vopUsed_eq b

theorem Accounts.size {bm : BlockBitmap} (h : Accounts s bm) :
    s.bitmapBlocks = s.sb.totalBlocks := by
  have hsmall := h.small
  have hsize : s.bitmapBlocks = min s.sb.totalBlocks 4096 := h.sound.size_eq
  omega

section Growth
variable {bm : BlockBitmap} (h : Accounts s bm) {p : VopPlan} (hi : i < s.sb.inodeCount)
  (hp : VopPlanned s (s.inodes i) p)
include h hi hp

theorem planned_range (hend : ¬ Overruns s (s.inodes i) p) (hc : 0 < p.count (s.inodes i)) :
    2 ≤ p.first (s.inodes i) ∧ p.first (s.inodes i) + p.count (s.inodes i) ≤ s.bitmapBlocks := by
  have hrange := h.sound.range i hi
  have hsize := h.size
  cases hp with
  | keep => exact hrange hc
  | fresh h0 hf h2 ht hr => simp only [VopPlan.first, VopPlan.count]; omega
  | extend h0 hn hf hr =>
    simp only [Overruns] at hend
    exact ⟨(hrange h0).1, by simp only [VopPlan.first, VopPlan.count]; omega⟩
  | relocate hn hf h2 ht hr => simp only [VopPlan.first, VopPlan.count]; omega

theorem planned_fresh (hend : ¬ Overruns s (s.inodes i) p) {b : ℕ} (h1 : p.first (s.inodes i) ≤ b)
    (h2 : b < p.first (s.inodes i) + p.count (s.inodes i)) :
    Covers (s.inodes i) b ∨ bit bm b = false := by
  have hrange := planned_range h hi hp hend (by omega)
  have hsmall := h.small
  have hsize := h.size
  rw [← h.vopUsed_eq]
  cases hp with
  | keep => exact Or.inl ⟨h1, h2⟩
  | fresh h0 hf h2' ht hr => exact Or.inr (vopFreeRun_unused hr h1 h2 (by omega))
  | extend h0 hn hf hr =>
    simp only [VopPlan.first, VopPlan.count] at h1 h2 hrange
    by_cases hold : b < (s.inodes i).firstBlock + (s.inodes i).blocks
    · exact Or.inl ⟨h1, hold⟩
    · exact Or.inr (vopFreeRun_unused hr (by omega) (by omega) (by omega))
  | relocate hn hf h2' ht hr => exact Or.inr (vopFreeRun_unused hr h1 h2 (by omega))

theorem planned_moves (hend : ¬ Overruns s (s.inodes i) p) (hm : VopMoves s s' i p) :
    ∃ bm', Moves { s with blockBitmap := bm } { s' with blockBitmap := bm' } i := by
  refine ⟨bitmapMarkRange s.bitmapBlocks (bitmapMarkRange s.bitmapBlocks bm (s.inodes i).firstBlock
    (s.inodes i).blocks false) (p.first (s.inodes i)) (p.count (s.inodes i)) true,
    hi, hm.total, hm.tree.count, hm.size, hm.other, fun hc => ?_, fun b hc => ?_, fun b => ?_, ?_⟩
  · dsimp only at hc ⊢
    rw [hm.blocks] at hc
    rw [hm.first, hm.blocks]
    exact planned_range h hi hp hend hc
  · unfold Covers at hc
    dsimp only at hc
    rw [hm.first, hm.blocks] at hc
    exact (planned_fresh h hi hp hend hc.1 hc.2).imp id fun hb => by simp [Marked, hb]
  · have hin := planned_range h hi hp hend
    have hold := h.sound.range i hi
    unfold Marked Covers
    dsimp only at hold ⊢
    rw [hm.first, hm.blocks, bit_bitmapMarkRange, bit_bitmapMarkRange]
    split_ifs with hb hb'
    · exact iff_of_true rfl (Or.inl ⟨hb.1, hb.2.1⟩)
    · refine iff_of_false (by simp) ?_
      omega
    · refine ⟨fun hmark => Or.inr ⟨hmark, by omega⟩, ?_⟩
      rintro (hnew | ⟨hmark, -⟩)
      · omega
      · exact hmark
  · dsimp only
    rw [hm.free, hm.blocks]
    have hroom := h.sound.room
    have hsmall := h.small
    exact hp.free (by dsimp only at hroom; omega)

end Growth

theorem accounts_effect {bm : BlockBitmap} (h : Accounts s bm) (hn : Numbered s) {op : Op}
    (hop : ∀ fd buf count, op ≠ .write fd buf count) (he : Effect s op s') :
    ∃ bm', Accounts s' bm' := by
  have hfds := he.fds hn.root_live.1 h.sound.fds
  have hsame : ∀ fds ic, SameSpace { s with blockBitmap := bm }
      { s with blockBitmap := bm, fdEntries := fds, icache := ic } :=
    sameSpace_statics { s with blockBitmap := bm }
  cases he with
  | quiet ic => exact ⟨bm, h.small, h.sound.congr (hsame _ _) hfds, h.tight.congr (hsame _ _)⟩
  | seek k off => exact ⟨bm, h.small, h.sound.congr (hsame _ _) hfds, h.tight.congr (hsame _ _)⟩
  | closed k => exact ⟨bm, h.small, h.sound.congr (hsame _ _) hfds, h.tight.congr (hsame _ _)⟩
  | opened ic hi hfind hk hu =>
    exact ⟨bm, h.small, h.sound.congr (hsame _ _) hfds, h.tight.congr (hsame _ _)⟩
  | created ic hj hpar hdir hf hnew hop =>
    exact ⟨bm, h.small, h.sound.insert hj rfl, h.tight.insert hj rfl⟩
  | @unlinked _ ic i hi hfind hdir =>
    have hm := h.sound.unlink_moves (hn.reachable hi).1 ic
    refine ⟨_, h.small, h.sound.moves hm hfds, h.tight.moves h.sound hm fun _ => ?_⟩
    rw [(unlinkInode_zeroed _ ic i).self]; rfl
  | @removed _ ic i hi hfind hdir hempty =>
    have hm := h.sound.rmdir_moves (hn.reachable hi).1 ic
    refine ⟨_, h.small, h.sound.moves hm hfds, h.tight.moves h.sound hm fun _ => ?_⟩
    rw [(rmdirInode_zeroed _ ic i).self]; rfl
  | wrote hfd hdir hc hp => exact absurd rfl (hop _ _ _)

/-- The guard: `vfs_write` goes to an inode in use and does not extend it in place beyond the end of
the device; the calls are those of the VFS. -/
def GrowsInside (v : VState) : VOp → Prop
  | .write fd _ count => ¬ VState.badFd v fd → ∀ i ∈ VState.fileInode v fd.toNat, v.fs.Live i ∧
      ∀ pk ∈ vopPlan v.fs (v.fs.inodes i) (v.fileTable fd.toNat).offset count,
        ¬ Overruns v.fs (v.fs.inodes i) pk.1
  | .fs _ => False
  | _ => True

instance (v : VState) : ∀ op, Decidable (GrowsInside v op)
  | .write .. => by unfold GrowsInside; infer_instance
  | .fs _ => isFalse id
  | .lookup _ | .stat _ | .open_ .. | .close _ | .read .. | .lseek .. | .readdir .. | .mkdir _
  | .unlink _ | .rmdir _ | .create .. => isTrue trivial

theorem accounts_vstep {bm : BlockBitmap} (h : Accounts v.fs bm) (hn : Numbered v.fs)
    {op : VOp} (hok : GrowsInside v op) : ∃ bm', Accounts (vstep v op).fs bm' := by
  have he := vstep_effect hn op
  revert he
  generalize vstep v op = v'
  intro he
  cases he with
  | calm hc => rw [hc.fs]; exact ⟨bm, h⟩
  | opened hl hw hd hk hu => dsimp only [openedState]; rw [hw.fs]; exact ⟨bm, h⟩
  | @wrote fd buf count i _ hfd hi hv =>
    rw [hv.fs]
    obtain ⟨hl, hend⟩ := hok hfd i hi
    dsimp only
    rcases vopWrite_cases v.fs i (v.fileTable fd.toNat).offset buf count with he | ⟨p, k, -, hp, hm⟩
    · rw [he]; exact ⟨bm, h⟩
    · have hle := h.sound.blocks_le hl.1
      have hsmall := h.small
      obtain ⟨bm', hmoves⟩ := planned_moves h hl.1
        (vopPlan_cases (by dsimp only at hle; omega) hp).1 (hend (p, k) hp) hm
      refine ⟨bm', by rw [hm.total]; exact hsmall, h.sound.moves hmoves ?_,
        h.tight.moves h.sound hmoves fun hd => ?_⟩
      · dsimp only; rw [hm.fds]; exact h.sound.fds
      · dsimp only at hd
        rw [hm.tree.isLive hl.1, hl.2] at hd
        exact absurd hd (by simp)
  | added hw hj hf hv =>
    rw [hv.fs, putInode_fs, hw.fs]
    exact ⟨bm, h.small, h.sound.insert hj rfl, h.tight.insert hj rfl⟩
  | tried hw ic =>
    dsimp only
    rw [hw.fs]
    exact ⟨bm, h.small, h.sound.congr (sameSpace_statics _ _ ic) h.sound.fds,
      h.tight.congr (sameSpace_statics _ _ ic)⟩
  | @removed _ _ _ _ w _ t _ hop hrc hw ht hr hz =>
    change ∃ bm', Accounts (step w.fs (removeOp w.fs t)) bm'
    rw [hw.fs]
    refine accounts_effect h hn (fun fd buf count => ?_) (step_effect v.fs (removeOp v.fs t))
    unfold removeOp
    split_ifs <;> simp
  | call he => exact absurd hok id

/-- **Allocation through the VFS.** In every state reached from `vfs_init` by calls of the VFS in
which `vfs_write` spares the inode records, goes to inodes in use and extends none in place beyond the
end of the device: the extents of the inodes in use are disjoint and inside `[2, total_blocks)`, and
`free_blocks` is what they leave. -/
theorem vfs_space (w : ByteVfs) (h : Reach (Sparing GrowsInside) ByteVfs.step initBytes w) :
    Spaced w.vfs.fs := by
  have halike : ∀ (v : VState) s, Alike s v.fs → (Numbered v.fs ∧ ∃ bm, Accounts v.fs bm) →
      Numbered s ∧ ∃ bm, Accounts s bm := by
    rintro v s ha ⟨hn, bm, hsmall, hs, ht⟩
    have hsame : SameSpace { v.fs with blockBitmap := bm } { s with blockBitmap := bm } :=
      .of_eq ha.sb ha.inode rfl ha.size
    exact ⟨hn.congr ha.sameTree, bm, by rw [ha.sb]; exact hsmall,
      hs.congr hsame (by dsimp only; rw [ha.fds]; exact hs.fds), ht.congr hsame⟩
  obtain ⟨-, bm, hsmall, hs, ht⟩ := reach_inv
    (I := fun v => Numbered v.fs ∧ ∃ bm, Accounts v.fs bm) (fun _ hv => hv.1) halike
    (fun _ _ hok _ => absurd hok id)
    ⟨numbered_vfsInit, _, by decide +kernel, sound_vfsInit, tight_vfsInit⟩
    (fun v op hok ⟨hn, bm, hv⟩ => ⟨numbered_vstep hn op, accounts_vstep hv hn hok⟩) h
  obtain ⟨hsmall, hin, hapart, hfree⟩ := spaced_of_tight ht hs hsmall
  exact ⟨hsmall, hin, hapart, hfree⟩

/-- A run that grows two files in turn, so that the first one is relocated. -/
theorem vfs_space_relocate : Spaced
    ([VOp.create 0 (cstr "a"), .create 0 (cstr "b"), .open_ (cstr "/a") 0, .open_ (cstr "/b") 0,
      .write 0 (fun _ => 7) 1, .write 1 (fun _ => 8) 1, .lseek 0 4096 0,
      .write 0 (fun _ => 7) 1].foldl ByteVfs.step initBytes).vfs.fs :=
  vfs_space _ (Reach.foldl _ .init (by decide +kernel))

/-- File `a` gets blocks 2 to 14 and `b` the last one, by writes of no bytes; after `a` is removed,
`b` is extended. -/
def extendedBeyond : ByteVfs :=
  [VOp.create 0 (cstr "a"), .create 0 (cstr "b"), .open_ (cstr "/a") 0, .open_ (cstr "/b") 0,
    .lseek 0 (13 * 4096) 0, .write 0 (fun _ => 0) 0, .lseek 1 1 0, .write 1 (fun _ => 0) 0,
    .unlink (cstr "/a"), .lseek 1 4097 0, .write 1 (fun _ => 0) 0].foldl ByteVfs.step initBytes

/-- The extent of `b` is then `[15, 17)` on a device of 16 blocks. -/
theorem extent_beyond_device :
    Reach Any ByteVfs.step initBytes extendedBeyond ∧ ¬ Spaced extendedBeyond.vfs.fs := by
  refine ⟨Reach.foldl _ .init (Admits.any _), fun h => ?_⟩
  have hin := (h.inside 6 16 ⟨by decide +kernel, by decide +kernel⟩).2
  exact absurd hin (by decide +kernel)

end Kerneloid.Vfs.Allocators
