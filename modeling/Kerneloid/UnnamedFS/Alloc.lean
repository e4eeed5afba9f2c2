import Kerneloid.Lib.Ownership
import Kerneloid.UnnamedFS.Namespace

/-! # Block accounting

The extent of an inode is `[first_block, first_block + blocks)`. `Sound s` holds in every state a
mounted device reaches (`alloc_reach`): the extents of all slots lie in the bitmap, are marked in it
and do not overlap, and `free_blocks` promises no more blocks than there are.

`Tight s` is the full accounting: nothing else is marked and `free_blocks` is exact. A write through
a descriptor whose slot is no longer in use breaks it: `unamedfs_rmdir` leaves the descriptors of
the directory open, and a write through one of them allocates blocks for a free slot. Runs without
such writes keep it (`tight_reach`). -/

namespace Kerneloid.UnnamedFS.Alloc

open Lib.Ownership Lib.Runs Types Bitmap Blocks Ops Effects Namespace Slots

variable {s : Fs} {s' : Fs} {i j size : ℕ} {n : Inode} {d : Device}

/-- Block `b` is in the inode's extent. -/
def Covers (n : Inode) (b : ℕ) : Prop := n.firstBlock ≤ b ∧ b < n.firstBlock + n.blocks

instance (n : Inode) (b : ℕ) : Decidable (Covers n b) := by unfold Covers; infer_instance

/-- Slot `i` of the inode table owns block `b`. -/
def SlotOwns (s : Fs) (i b : ℕ) : Prop := i < s.sb.inodeCount ∧ Covers (s.inodes i) b

def Marked (s : Fs) (b : ℕ) : Prop := bit s.blockBitmap b = true

/-- The blocks of all slots. -/
def blocksUsed (s : Fs) : ℕ := ∑ i ∈ Finset.range s.sb.inodeCount, (s.inodes i).blocks

/-- **The allocator is safe.** -/
structure Sound (s : Fs) : Prop where
  total_ge : 3 ≤ s.sb.totalBlocks
  total_lt : s.sb.totalBlocks < 2 ^ 20
  size_eq : s.bitmapBlocks = min s.sb.totalBlocks 4096
  range : ∀ i < s.sb.inodeCount, 0 < (s.inodes i).blocks →
    2 ≤ (s.inodes i).firstBlock ∧ (s.inodes i).firstBlock + (s.inodes i).blocks ≤ s.bitmapBlocks
  owned : Owned (SlotOwns s) (Marked s)
  reserved : ∀ b < 2, Marked s b
  beyond : ∀ b, s.bitmapBlocks ≤ b → ¬ Marked s b
  room : s.sb.freeBlocks + 2 + blocksUsed s ≤ s.sb.totalBlocks
  fds : ∀ k, (s.fdEntries k).used = true → (s.fdEntries k).ino < s.sb.inodeCount

/-- **The accounting is exact.** -/
structure Tight (s : Fs) : Prop where
  dead : ∀ i < s.sb.inodeCount, (s.inodes i).isLive = false → (s.inodes i).blocks = 0
  exact : Exact (SlotOwns s) (Marked s) (· < 2)
  full : s.sb.freeBlocks + 2 + blocksUsed s = s.sb.totalBlocks

/-! ### One record's extent changes -/

/-- From `s` to `s'` the extent of slot `i` changes, and bitmap and free counter with it. -/
structure Moves (s s' : Fs) (i : ℕ) : Prop where
  slot : i < s.sb.inodeCount
  total : s'.sb.totalBlocks = s.sb.totalBlocks
  count : s'.sb.inodeCount = s.sb.inodeCount
  size : s'.bitmapBlocks = s.bitmapBlocks
  other : ∀ j, j ≠ i → s'.inodes j = s.inodes j
  range : 0 < (s'.inodes i).blocks → 2 ≤ (s'.inodes i).firstBlock ∧
    (s'.inodes i).firstBlock + (s'.inodes i).blocks ≤ s.bitmapBlocks
  fresh : ∀ b, Covers (s'.inodes i) b → Covers (s.inodes i) b ∨ ¬ Marked s b
  marks : ∀ b, Marked s' b ↔ Covers (s'.inodes i) b ∨ (Marked s b ∧ ¬ Covers (s.inodes i) b)
  free : s'.sb.freeBlocks + (s'.inodes i).blocks = s.sb.freeBlocks + (s.inodes i).blocks

theorem Moves.slotOwns_other (m : Moves s s' i) (j : ℕ) (hj : j ≠ i) (b : ℕ) :
    SlotOwns s' j b ↔ SlotOwns s j b := by
  unfold SlotOwns
  rw [m.count, m.other j hj]

theorem Moves.slotOwns_self (m : Moves s s' i) (b : ℕ) :
    SlotOwns s' i b ↔ Covers (s'.inodes i) b :=
  ⟨fun h => h.2, fun h => ⟨by rw [m.count]; exact m.slot, h⟩⟩

theorem blocksUsed_change (hc : s'.sb.inodeCount = s.sb.inodeCount)
    (hi : i < s.sb.inodeCount) (hother : ∀ j, j ≠ i → s'.inodes j = s.inodes j) :
    blocksUsed s' + (s.inodes i).blocks = blocksUsed s + (s'.inodes i).blocks := by
  unfold blocksUsed
  rw [hc]
  exact sum_change (fun j => (s.inodes j).blocks) (fun j => (s'.inodes j).blocks)
    (Finset.mem_range.mpr hi) fun j _ hj => by rw [hother j hj]

theorem blocks_le_used (hi : i < s.sb.inodeCount) : (s.inodes i).blocks ≤ blocksUsed s :=
  Finset.single_le_sum (f := fun j => (s.inodes j).blocks) (fun _ _ => Nat.zero_le _)
    (Finset.mem_range.mpr hi)

theorem Sound.moves (h : Sound s) (m : Moves s s' i)
    (hfds : ∀ k, (s'.fdEntries k).used = true → (s'.fdEntries k).ino < s.sb.inodeCount) :
    Sound s' := by
  have hsum := blocksUsed_change m.count m.slot m.other
  have hfree := m.free
  have hroom := h.room
  refine ⟨by rw [m.total]; exact h.total_ge, by rw [m.total]; exact h.total_lt,
    by rw [m.size, m.total]; exact h.size_eq, fun j hj hb => ?_, ?_, fun b hb => ?_,
    fun b hb hm => ?_, by rw [m.total]; omega, by rw [m.count]; exact hfds⟩
  · by_cases hji : j = i
    · subst hji; rw [m.size]; exact m.range hb
    · rw [m.count] at hj
      rw [m.other j hji] at hb ⊢
      rw [m.size]
      exact h.range j hj hb
  · refine h.owned.change m.slotOwns_other (fun b hb => ?_) fun b hb => (m.marks b).mpr ?_
    · rcases m.fresh b ((m.slotOwns_self b).mp hb) with hc | hc
      · exact Or.inl ⟨m.slot, hc⟩
      · exact Or.inr hc
    · rcases hb with hb | ⟨hb, hn⟩
      · exact Or.inl ((m.slotOwns_self b).mp hb)
      · exact Or.inr ⟨hb, fun hc => hn ⟨m.slot, hc⟩⟩
  · refine (m.marks b).mpr (Or.inr ⟨h.reserved b hb, fun hc => ?_⟩)
    have := h.range i m.slot (by unfold Covers at hc; omega)
    unfold Covers at hc
    omega
  · rw [m.size] at hb
    rcases (m.marks b).mp hm with hc | ⟨hm', -⟩
    · have := m.range (by unfold Covers at hc; omega)
      unfold Covers at hc
      omega
    · exact h.beyond b hb hm'

theorem Sound.not_covers (h : Sound s) {b : ℕ} (m : Moves s s' i)
    (hj : j < s.sb.inodeCount) (hne : j ≠ i) (hb : Covers (s.inodes j) b) :
    ¬ Covers (s'.inodes i) b := by
  intro hc
  rcases m.fresh b hc with hold | hfree
  · exact hne (h.owned.apart j i b ⟨hj, hb⟩ ⟨m.slot, hold⟩)
  · exact hfree (h.owned.marked j b ⟨hj, hb⟩)

theorem Tight.moves (h : Tight s) (ha : Sound s) (m : Moves s s' i)
    (hi : (s'.inodes i).isLive = false → (s'.inodes i).blocks = 0) : Tight s' := by
  have hsum := blocksUsed_change m.count m.slot m.other
  have hfree := m.free
  have hfull := h.full
  refine ⟨fun j hj hd => ?_, ?_, by rw [m.total]; omega⟩
  · by_cases hji : j = i
    · subst hji; exact hi hd
    · rw [m.count] at hj
      rw [m.other j hji] at hd ⊢
      exact h.dead j hj hd
  · refine h.exact.change ha.owned (fun b hb hc => ?_) m.slotOwns_other fun b => ?_
    · have := ha.range i m.slot (by have := hc.2; unfold Covers at this; omega)
      have := hc.2
      unfold Covers at this
      omega
    · rw [m.marks b, m.slotOwns_self b]
      have : SlotOwns s i b ↔ Covers (s.inodes i) b := ⟨fun hc => hc.2, fun hc => ⟨m.slot, hc⟩⟩
      rw [this]

/-! ### The branches of `ensure_blocks` -/

section Plan
variable {s : Fs} {ino : Inode} {need : ℕ} {p : BlockPlan} (hp : Planned s ino need p)
  (hmark : ∀ b, Covers ino b → Marked s b)
  (hrange : 0 < ino.blocks → 2 ≤ ino.firstBlock ∧ ino.firstBlock + ino.blocks ≤ s.bitmapBlocks)
include hp

theorem Planned.fresh_blocks (b : ℕ) (hb : p.first ino ≤ b) (hb' : b < p.first ino + p.count ino) :
    Covers ino b ∨ ¬ Marked s b := by
  unfold Covers Marked
  cases hp with
  | keep h => exact Or.inl ⟨hb, hb'⟩
  | shrink h =>
    simp only [BlockPlan.first, BlockPlan.count] at hb hb'
    split_ifs at hb hb'
    · omega
    · exact Or.inl ⟨hb, by omega⟩
  | fresh h0 hn hf h2 hr => right; rw [hr.2 b hb hb']; simp
  | extend h0 hn hf hr =>
    simp only [BlockPlan.first, BlockPlan.count] at hb hb'
    by_cases hlt : b < ino.firstBlock + ino.blocks
    · exact Or.inl ⟨hb, hlt⟩
    · right; rw [hr.2 b (by omega) (by omega)]; simp
  | relocate h0 hn hf h2 hr => right; rw [hr.2 b hb hb']; simp

include hrange

theorem Planned.range (hc : 0 < p.count ino) :
    2 ≤ p.first ino ∧ p.first ino + p.count ino ≤ s.bitmapBlocks := by
  cases hp with
  | keep h => exact hrange hc
  | shrink h =>
    simp only [BlockPlan.first, BlockPlan.count] at hc ⊢
    rw [if_neg (by omega)]
    have := hrange (by omega)
    omega
  | fresh h0 hn hf h2 hr => exact ⟨h2, hr.1⟩
  | extend h0 hn hf hr =>
    have := hrange h0
    have := hr.1
    simp only [BlockPlan.first, BlockPlan.count]
    omega
  | relocate h0 hn hf h2 hr => exact ⟨h2, hr.1⟩

include hmark

theorem Planned.marks (b : ℕ) :
    bit (p.bitmap s.bitmapBlocks s.blockBitmap ino) b = true ↔
      (p.first ino ≤ b ∧ b < p.first ino + p.count ino) ∨ (Marked s b ∧ ¬ Covers ino b) := by
  have hm := hmark b
  unfold Covers Marked at *
  cases hp with
  | keep h =>
    simp only [BlockPlan.bitmap, BlockPlan.first, BlockPlan.count]
    tauto
  | shrink h =>
    have hr := hrange (by omega)
    simp only [BlockPlan.bitmap, BlockPlan.first, BlockPlan.count, bit_bitmapMarkRange]
    by_cases hc : ino.firstBlock ≤ b ∧ b < ino.firstBlock + ino.blocks
    · -- inside the old extent the first `need` blocks stay
      simp only [hc, hm hc, and_self, not_true_eq_false, and_false, or_false]
      split_ifs <;> simp <;> omega
    · rw [if_neg (by omega)]
      simp only [hc, not_false_eq_true, and_true]
      constructor
      · exact Or.inr
      · rintro (h' | h')
        · split_ifs at h' <;> omega
        · exact h'
  | fresh h0 hn hf h2 hr =>
    simp only [BlockPlan.bitmap, BlockPlan.first, BlockPlan.count, bit_bitmapMarkRange]
    have := hr.1
    have hnc : ¬ (ino.firstBlock ≤ b ∧ b < ino.firstBlock + ino.blocks) := by omega
    simp only [hnc, not_false_eq_true, and_true]
    split_ifs with hb
    · simp [hb]
    · constructor
      · exact Or.inr
      · rintro (h' | h')
        · omega
        · exact h'
  | extend h0 hn hf hr =>
    simp only [BlockPlan.bitmap, BlockPlan.first, BlockPlan.count, bit_bitmapMarkRange]
    have := hr.1
    split_ifs with hb
    · simp only [true_iff]; left; omega
    · by_cases hc : ino.firstBlock ≤ b ∧ b < ino.firstBlock + ino.blocks
      · simp only [hm hc, true_iff]; left; omega
      · simp only [hc, not_false_eq_true, and_true]
        constructor
        · exact Or.inr
        · rintro (h' | h')
          · omega
          · exact h'
  | relocate h0 hn hf h2 hr =>
    simp only [BlockPlan.bitmap, BlockPlan.first, BlockPlan.count, bit_bitmapMarkRange]
    have := hr.1
    have := hrange h0
    split_ifs with hb hb'
    · simp [hb]
    · simp only [false_iff]; omega
    · have hnc : ¬ (ino.firstBlock ≤ b ∧ b < ino.firstBlock + ino.blocks) := by omega
      simp only [hnc, not_false_eq_true, and_true]
      constructor
      · exact Or.inr
      · rintro (h' | h')
        · omega
        · exact h'

end Plan

/-! ### A write -/

theorem Planned.free {ino : Inode} {need : ℕ} {p : BlockPlan} (hp : Planned s ino need p)
    (hroom : s.sb.freeBlocks + ino.blocks ≤ s.sb.totalBlocks) :
    p.free s.sb ino + p.count ino = s.sb.freeBlocks + ino.blocks := by
  cases hp with
  | keep h => rfl
  | shrink h =>
    simp only [BlockPlan.free, BlockPlan.count]
    rw [if_pos (by omega)]
    omega
  | fresh h0 hn hf h2 hr => simp only [BlockPlan.free, BlockPlan.count]; omega
  | extend h0 hn hf hr => simp only [BlockPlan.free, BlockPlan.count]; omega
  | relocate h0 hn hf h2 hr => simp only [BlockPlan.free, BlockPlan.count]; omega

theorem Sound.marked (h : Sound s) (hi : i < s.sb.inodeCount) :
    ∀ b, Covers (s.inodes i) b → Marked s b := fun b hb => h.owned.marked i b ⟨hi, hb⟩

theorem Sound.blocks_le (h : Sound s) (hi : i < s.sb.inodeCount) :
    s.sb.freeBlocks + 2 + (s.inodes i).blocks ≤ s.sb.totalBlocks := by
  have := blocks_le_used hi
  have := h.room
  omega

theorem writeBytes_self (s : Fs) (fd : ℕ) (p : BlockPlan) (buf : ℕ → UInt8) (k : ℕ) :
    (writeBytes s fd p buf k).inodes (s.fdEntries fd).ino =
      { s.inodes (s.fdEntries fd).ino with
        size := max (s.inodes (s.fdEntries fd).ino).size (((s.fdEntries fd).offset + k) % 2 ^ 32)
        firstBlock := p.first (s.inodes (s.fdEntries fd).ino)
        blocks := p.count (s.inodes (s.fdEntries fd).ino) } := by
  simp [writeBytes, BlockPlan.run]

theorem writeBytes_other (s : Fs) (fd : ℕ) (p : BlockPlan) (buf : ℕ → UInt8) (k : ℕ)
    (hj : j ≠ (s.fdEntries fd).ino) : (writeBytes s fd p buf k).inodes j = s.inodes j := by
  simp [writeBytes, BlockPlan.run, hj]

theorem Sound.write_moves (h : Sound s) {fd need : ℕ} {p : BlockPlan}
    (hi : (s.fdEntries fd).ino < s.sb.inodeCount)
    (hp : Planned s (s.inodes (s.fdEntries fd).ino) need p) (buf : ℕ → UInt8) (k : ℕ) :
    Moves s (writeBytes s fd p buf k) (s.fdEntries fd).ino := by
  have hself := writeBytes_self s fd p buf k
  have hb := h.blocks_le hi
  refine ⟨hi, rfl, rfl, rfl, fun j hj => writeBytes_other s fd p buf k hj, fun hc => ?_,
    fun b hc => ?_, fun b => ?_, ?_⟩
  · rw [hself] at hc ⊢
    exact Planned.range hp (h.range _ hi) hc
  · rw [hself] at hc
    exact Planned.fresh_blocks hp b hc.1 hc.2
  · rw [hself]
    exact Planned.marks hp (h.marked hi) (h.range _ hi) b
  · rw [hself]
    exact Planned.free hp (by omega)

/-! ### Removal -/

theorem Sound.drop_moves (h : Sound s) (hi : i < s.sb.inodeCount)
    (htotal : s'.sb.totalBlocks = s.sb.totalBlocks) (hcount : s'.sb.inodeCount = s.sb.inodeCount)
    (hnb : s'.bitmapBlocks = s.bitmapBlocks)
    (hinodes : s'.inodes = Function.update s.inodes i .zero)
    (hbm : s'.blockBitmap = bitmapMarkRange s.bitmapBlocks s.blockBitmap (s.inodes i).firstBlock
      (s.inodes i).blocks false)
    (hfree : s'.sb.freeBlocks = s.sb.freeBlocks + (s.inodes i).blocks) :
    Moves s s' i := by
  have hself : s'.inodes i = .zero := by rw [hinodes, Function.update_self]
  have hnone : ∀ b, ¬ Covers Inode.zero b := fun b hc => Nat.not_lt_zero _ hc.2
  refine ⟨hi, htotal, hcount, hnb, fun j hj => by rw [hinodes, Function.update_of_ne hj],
    fun hc => ?_, fun b hc => ?_, fun b => ?_, ?_⟩
  · rw [hself] at hc; exact absurd hc (Nat.lt_irrefl 0)
  · rw [hself] at hc; exact absurd hc (hnone b)
  · rw [hself, Marked, hbm, bit_bitmapMarkRange]
    simp only [hnone, false_or]
    have hr := h.range i hi
    unfold Covers Marked
    split_ifs with hc
    · simp only [false_iff, not_and]; omega
    · exact ⟨fun hb => ⟨hb, by omega⟩, fun hb => hb.1⟩
  · rw [hself, hfree]; rfl

theorem Sound.unlink_moves (h : Sound s) (hi : i < s.sb.inodeCount)
    (ic : InodeCache) : Moves s (unlinkInode { s with icache := ic } i) i := by
  have hb := h.blocks_le hi
  refine h.drop_moves hi rfl rfl rfl rfl rfl ?_
  simp only [unlinkInode, dropInode]
  rw [if_pos (by omega)]

theorem Sound.rmdir_moves (h : Sound s) (hi : i < s.sb.inodeCount)
    (ic : InodeCache) : Moves s (rmdirInode { s with icache := ic } i) i := by
  have hb := h.blocks_le hi
  have ht := h.total_lt
  have hlt : s.sb.freeBlocks + (s.inodes i).blocks < 2 ^ 32 := by omega
  exact h.drop_moves hi rfl rfl rfl rfl rfl (Nat.mod_eq_of_lt hlt)

/-! ### A new inode -/

theorem addInode_slotOwns (ic : InodeCache) (hj : FreeSlot s j)
    (hn : n.blocks = 0) (i b : ℕ) : SlotOwns (addInode s ic j n) i b ↔ SlotOwns s i b ∧ i ≠ j := by
  have hle := freeSlot_le hj
  unfold SlotOwns Covers addInode
  by_cases hij : i = j
  · subst hij
    simp only [Function.update_self, hn]
    omega
  · simp only [Function.update_of_ne hij]
    omega

theorem addInode_blocksUsed (ic : InodeCache) (hj : FreeSlot s j)
    (hn : n.blocks = 0) : blocksUsed (addInode s ic j n) +
      (if j < s.sb.inodeCount then (s.inodes j).blocks else 0) = blocksUsed s := by
  unfold blocksUsed addInode
  dsimp only
  rcases hj with ⟨hlt, -⟩ | ⟨rfl, -⟩
  · rw [if_pos hlt, max_eq_left (by omega)]
    have := sum_change (S := Finset.range s.sb.inodeCount) (i := j) (fun i => (s.inodes i).blocks)
      (fun i => (Function.update s.inodes j n i).blocks) (Finset.mem_range.mpr hlt)
      fun i _ hij => by rw [Function.update_of_ne hij]
    rw [this, Function.update_self, hn, Nat.add_zero]
  · rw [if_neg (Nat.lt_irrefl _), max_eq_right (by omega), Finset.sum_range_succ,
      Function.update_self, hn, Nat.add_zero]
    refine Finset.sum_congr rfl fun i hi => ?_
    rw [Function.update_of_ne (Finset.mem_range.mp hi).ne]

theorem Sound.insert (h : Sound s) {ic : InodeCache}
    (hj : FreeSlot s j) (hn : n.blocks = 0) : Sound (addInode s ic j n) := by
  have hown := addInode_slotOwns ic hj hn
  have hsum := addInode_blocksUsed ic hj hn
  have hle := freeSlot_le hj
  have hroom := h.room
  refine ⟨h.total_ge, h.total_lt, h.size_eq, fun i hi hb => ?_,
    h.owned.mono fun i b hb => ((hown i b).mp hb).1, h.reserved, h.beyond, ?_, fun k hk => ?_⟩
  · by_cases hij : i = j
    · subst hij
      simp only [addInode, Function.update_self] at hb
      omega
    · simp only [addInode, Function.update_of_ne hij] at hi hb ⊢
      exact h.range i (by omega) hb
  · change s.sb.freeBlocks + 2 + _ ≤ s.sb.totalBlocks
    omega
  · have := h.fds k hk
    simp only [addInode]
    omega

theorem Tight.insert (h : Tight s) {ic : InodeCache}
    (hj : FreeSlot s j) (hn : n.blocks = 0) : Tight (addInode s ic j n) := by
  -- the slot taken had no blocks, so nothing is lost with its old record
  have hslot : j < s.sb.inodeCount → (s.inodes j).blocks = 0 := fun hlt => by
    rcases hj with ⟨-, hd⟩ | ⟨rfl, -⟩
    · exact h.dead j hlt hd
    · omega
  have hown : ∀ i b, SlotOwns (addInode s ic j n) i b ↔ SlotOwns s i b := fun i b => by
    rw [addInode_slotOwns ic hj hn]
    refine ⟨fun hb => hb.1, fun hb => ⟨hb, ?_⟩⟩
    rintro rfl
    have hb0 := hslot hb.1
    have hc := hb.2
    unfold Covers at hc
    omega
  have hsum := addInode_blocksUsed ic hj hn
  have hfull := h.full
  have hle := freeSlot_le hj
  refine ⟨fun i hi hd => ?_, fun b => ?_, ?_⟩
  · by_cases hij : i = j
    · subst hij; simp only [addInode, Function.update_self]; exact hn
    · simp only [addInode, Function.update_of_ne hij] at hi hd ⊢
      exact h.dead i (by omega) hd
  · simp only [hown]; exact h.exact b
  · change s.sb.freeBlocks + 2 + _ = s.sb.totalBlocks
    split_ifs at hsum with hlt
    · have := hslot hlt; omega
    · omega

/-! ### Every call -/

/-- The two states have the same extents, bitmap and free counter. -/
structure SameSpace (s s' : Fs) : Prop where
  total : s'.sb.totalBlocks = s.sb.totalBlocks
  free : s'.sb.freeBlocks = s.sb.freeBlocks
  count : s'.sb.inodeCount = s.sb.inodeCount
  bitmap : s'.blockBitmap = s.blockBitmap
  size : s'.bitmapBlocks = s.bitmapBlocks
  first : ∀ i < s.sb.inodeCount, (s'.inodes i).firstBlock = (s.inodes i).firstBlock
  blocks : ∀ i < s.sb.inodeCount, (s'.inodes i).blocks = (s.inodes i).blocks
  isLive : ∀ i < s.sb.inodeCount, (s'.inodes i).isLive = (s.inodes i).isLive

section SameSpace
variable {s : Fs} (hs : SameSpace s s')
include hs

theorem SameSpace.covers (hi : i < s.sb.inodeCount) (b : ℕ) :
    Covers (s'.inodes i) b ↔ Covers (s.inodes i) b := by
  unfold Covers
  rw [hs.first i hi, hs.blocks i hi]

theorem SameSpace.slotOwns : SlotOwns s' = SlotOwns s := by
  funext i b
  unfold SlotOwns
  rw [hs.count]
  exact propext (and_congr_right fun hi => hs.covers hi b)

theorem SameSpace.marked : Marked s' = Marked s := by
  funext b
  rw [Marked, hs.bitmap, Marked]

theorem SameSpace.blocksUsed : blocksUsed s' = blocksUsed s := by
  unfold Alloc.blocksUsed
  rw [hs.count]
  exact Finset.sum_congr rfl fun i hi => hs.blocks i (Finset.mem_range.mp hi)

theorem Sound.congr (h : Sound s)
    (hfds : ∀ k, (s'.fdEntries k).used = true → (s'.fdEntries k).ino < s.sb.inodeCount) :
    Sound s' := by
  refine ⟨?_, ?_, ?_, fun i hi hb => ?_, ?_, ?_, ?_, ?_, ?_⟩
  · rw [hs.total]; exact h.total_ge
  · rw [hs.total]; exact h.total_lt
  · rw [hs.size, hs.total]; exact h.size_eq
  · rw [hs.count] at hi
    rw [hs.blocks i hi] at hb ⊢
    rw [hs.first i hi, hs.size]
    exact h.range i hi hb
  · rw [hs.slotOwns, hs.marked]; exact h.owned
  · rw [hs.marked]; exact h.reserved
  · rw [hs.size, hs.marked]; exact h.beyond
  · rw [hs.free, hs.total, hs.blocksUsed]; exact h.room
  · rw [hs.count]; exact hfds

theorem Tight.congr (h : Tight s) : Tight s' := by
  refine ⟨fun i hi hd => ?_, ?_, ?_⟩
  · rw [hs.count] at hi
    rw [hs.isLive i hi] at hd
    rw [hs.blocks i hi]
    exact h.dead i hi hd
  · rw [hs.slotOwns, hs.marked]; exact h.exact
  · rw [hs.free, hs.total, hs.blocksUsed]; exact h.full

end SameSpace

theorem SameSpace.of_eq (hsb : s'.sb = s.sb)
    (hi : ∀ i < s.sb.inodeCount, s'.inodes i = s.inodes i) (hbm : s'.blockBitmap = s.blockBitmap)
    (hnb : s'.bitmapBlocks = s.bitmapBlocks) : SameSpace s s' :=
  ⟨by rw [hsb], by rw [hsb], by rw [hsb], hbm, hnb, fun i h => by rw [hi i h],
    fun i h => by rw [hi i h], fun i h => by rw [hi i h]⟩

theorem sameSpace_statics (s : Fs) (fds : ℕ → FdEntry) (ic : InodeCache) :
    SameSpace s { s with fdEntries := fds, icache := ic } :=
  .of_eq rfl (fun _ _ => rfl) rfl rfl

theorem Sound.effect (h : Sound s) (hn : Numbered s) {op : Op} (he : Effect s op s') :
    Sound s' := by
  have hfds := he.fds hn.root_live.1 h.fds
  cases he with
  | quiet ic => exact h.congr (sameSpace_statics s _ _) hfds
  | seek k off => exact h.congr (sameSpace_statics s _ _) hfds
  | closed k => exact h.congr (sameSpace_statics s _ _) hfds
  | opened ic hi hfind hk hu => exact h.congr (sameSpace_statics s _ _) hfds
  | created ic hj hpar hdir hf hnew hop => exact h.insert hj rfl
  | unlinked ic hi hfind hdir => exact h.moves (h.unlink_moves (hn.reachable hi).1 ic) hfds
  | removed ic hi hfind hdir hempty =>
    exact h.moves (h.rmdir_moves (hn.reachable hi).1 ic) hfds
  | @wrote fd buf count k p hfd hdir hc hp =>
    have hi := h.fds _ (not_badFd_used hfd)
    exact h.moves (h.write_moves hi (writePlan_some hp).1 buf k) hfds

/-- The guard of exact accounting: a write goes through a descriptor whose inode is in use. -/
def WritesLive (s : Fs) : Op → Prop
  | .write fd _ _ => ¬ Fs.badFd s fd → s.Live (s.fdEntries fd.toNat).ino
  | _ => True

instance (s : Fs) (op : Op) : Decidable (WritesLive s op) :=
  match op with
  | .write fd _ _ =>
    inferInstanceAs (Decidable (¬ Fs.badFd s fd → s.Live (s.fdEntries fd.toNat).ino))
  | .create _ | .mkdir _ | .open_ _ _ | .close _ | .read _ _ | .lseek _ _ _ | .unlink _
  | .rmdir _ => isTrue trivial

theorem Tight.effect (h : Tight s) (ha : Sound s) (hn : Numbered s) {op : Op}
    (hok : WritesLive s op) (he : Effect s op s') : Tight s' := by
  cases he with
  | quiet ic => exact h.congr (sameSpace_statics s _ _)
  | seek k off => exact h.congr (sameSpace_statics s _ _)
  | closed k => exact h.congr (sameSpace_statics s _ _)
  | opened ic hi hfind hk hu => exact h.congr (sameSpace_statics s _ _)
  | created ic hj hpar hdir hf hnew hop => exact h.insert hj rfl
  | @unlinked path ic i hi hfind hdir =>
    refine h.moves ha (ha.unlink_moves (hn.reachable hi).1 ic) fun _ => ?_
    rw [(unlinkInode_zeroed s ic i).self]; rfl
  | @removed path ic i hi hfind hdir hempty =>
    refine h.moves ha (ha.rmdir_moves (hn.reachable hi).1 ic) fun _ => ?_
    rw [(rmdirInode_zeroed s ic i).self]; rfl
  | @wrote fd buf count k p hfd hdir hc hp =>
    have hl := hok hfd
    refine h.moves ha (ha.write_moves hl.1 (writePlan_some hp).1 buf k) fun hd => ?_
    rw [(writeBytes_sameTree s fd.toNat p buf k).isLive hl.1, hl.2] at hd
    exact absurd hd (by simp)

/-! ### Runs -/

theorem alloc_init (hsize : size < 2 ^ 32)
    (h : formatMount d size = some s) : Sound s ∧ Tight s := by
  obtain ⟨hge, hsb, hi, -, hnb, hbm, hfd, -⟩ := formatMount_some h
  have h0 : s.inodes 0 = rootInode := by rw [hi, Function.update_self]
  have hnone : ∀ i b, ¬ SlotOwns s i b := by
    rintro i b ⟨hlt, hc⟩
    rw [hsb] at hlt
    rw [Nat.lt_one_iff.mp hlt, h0] at hc
    exact Nat.not_lt_zero _ hc.2
  have hmark : ∀ b, Marked s b ↔ b < 2 := by
    intro b
    unfold Marked
    rw [hbm, bit_bitmapRebuild, bit_bitmapInit, decide_eq_true_eq]
    constructor
    · rintro (hb | ⟨i, hlt, -, h1, h2, -⟩)
      · exact hb.1
      · exact absurd ⟨by rw [hsb]; exact hlt, h1, h2⟩ (hnone i b)
    · intro hb; left; omega
  have hsum : blocksUsed s = 0 := by
    unfold blocksUsed
    rw [hsb, Finset.sum_range_one, h0]
    rfl
  have hused : ∀ k, (s.fdEntries k).used = false := fun k => by rw [hfd]
  refine ⟨⟨?_, ?_, ?_, fun i hlt hb => ?_, ⟨fun i b hb => absurd hb (hnone i b),
    fun i j b hb => absurd hb (hnone i b)⟩, fun b hb => (hmark b).mpr hb, fun b hb hm => ?_, ?_,
    fun k hk => ?_⟩, fun i hlt hd => ?_, fun b => ?_, ?_⟩
  · rw [hsb]; dsimp only; omega
  · rw [hsb]; dsimp only; omega
  · rw [hnb, hsb]
  · rw [hsb] at hlt
    rw [Nat.lt_one_iff.mp hlt, h0] at hb
    exact absurd hb (Nat.lt_irrefl 0)
  · rw [hmark] at hm; omega
  · rw [hsum, hsb]; dsimp only; omega
  · rw [hused] at hk; exact absurd hk (by simp)
  · rw [hsb] at hlt
    rw [Nat.lt_one_iff.mp hlt, h0]; rfl
  · rw [hmark]
    exact ⟨Or.inl, fun hb => hb.elim id fun ⟨i, hi⟩ => absurd hi (hnone i b)⟩
  · rw [hsum, hsb]; dsimp only; omega

theorem sound_reach {s₀ s : Fs} (hsize : size < 2 ^ 32)
    (h0 : formatMount d size = some s₀) (h : Reach Any step s₀ s) : Sound s := by
  have hinv : DirTree s ∧ Sound s :=
    h.inv (I := fun s => DirTree s ∧ Sound s) ⟨namespace_init h0, (alloc_init hsize h0).1⟩
      fun s op hs _ =>
        ⟨namespace_step hs.1 op, hs.2.effect (numbered_of_dirTree hs.1) (step_effect s op)⟩
  exact hinv.2

theorem tight_reach {s₀ s : Fs} (hsize : size < 2 ^ 32)
    (h0 : formatMount d size = some s₀) (h : Reach WritesLive step s₀ s) : Tight s := by
  have hinv : (DirTree s ∧ Sound s) ∧ Tight s :=
    h.inv (I := fun s => (DirTree s ∧ Sound s) ∧ Tight s)
      ⟨⟨namespace_init h0, (alloc_init hsize h0).1⟩, (alloc_init hsize h0).2⟩
      fun s op hs hok =>
        have hn := numbered_of_dirTree hs.1.1
        ⟨⟨namespace_step hs.1.1 op, hs.1.2.effect hn (step_effect s op)⟩,
          hs.2.effect hs.1.2 hn hok (step_effect s op)⟩
  exact hinv.2

/-! ### Block accounting -/

/-- Block `b` lies in the extent of an inode in use. -/
def InLiveExtent (s : Fs) (b : ℕ) : Prop := ∃ i, s.Live i ∧ Covers (s.inodes i) b

/-- The blocks of the inodes in use. -/
def liveBlocks (s : Fs) : ℕ :=
  ∑ i ∈ Finset.range s.sb.inodeCount with (s.inodes i).isLive = true, (s.inodes i).blocks

/-- The bitmap that a mount builds from the device: `bitmap_init`, then `bitmap_rebuild`. -/
def remountBitmap (d : Device) : BlockBitmap :=
  let b := bitmapInit d.sb.totalBlocks
  bitmapRebuild b.1 b.2 d.sb.inodeCount d.inodes

/-- **Inode table, bitmap and free counter agree.** -/
structure Accounted (s : Fs) : Prop where
  apart : ∀ i j b, s.Live i → s.Live j → Covers (s.inodes i) b → Covers (s.inodes j) b → i = j
  range : ∀ i, s.Live i → 0 < (s.inodes i).blocks → 2 ≤ (s.inodes i).firstBlock ∧
    (s.inodes i).firstBlock + (s.inodes i).blocks ≤ min s.sb.totalBlocks 4096
  marks : ∀ b, bit s.blockBitmap b = true ↔ b < 2 ∨ InLiveExtent s b
  free : s.sb.freeBlocks + 2 + liveBlocks s = s.sb.totalBlocks
  remount : remountBitmap s.toDevice = s.blockBitmap

theorem Tight.slotOwns_live (h : Tight s) {b : ℕ} :
    SlotOwns s i b ↔ s.Live i ∧ Covers (s.inodes i) b := by
  refine ⟨fun hb => ⟨⟨hb.1, ?_⟩, hb.2⟩, fun hb => ⟨hb.1.1, hb.2⟩⟩
  by_contra hd
  have h0 := h.dead i hb.1 (Bool.eq_false_of_not_eq_true hd)
  have hc := hb.2
  unfold Covers at hc
  omega

theorem Tight.marks (h : Tight s) (b : ℕ) :
    bit s.blockBitmap b = true ↔ b < 2 ∨ InLiveExtent s b := by
  have hb := h.exact b
  simp only [h.slotOwns_live] at hb
  exact hb

theorem Tight.liveBlocks_eq (h : Tight s) : liveBlocks s = blocksUsed s := by
  unfold liveBlocks blocksUsed
  refine Finset.sum_filter_of_ne fun i hi hb => ?_
  by_contra hd
  exact hb (h.dead i (Finset.mem_range.mp hi) (Bool.eq_false_of_not_eq_true hd))

theorem Tight.remount (h : Tight s) (ha : Sound s) :
    remountBitmap s.toDevice = s.blockBitmap := by
  refine bitmap_ext fun b => Bool.eq_iff_iff.mpr ?_
  have hge := ha.total_ge
  have hnb := ha.size_eq
  unfold remountBitmap
  rw [h.marks b, bit_bitmapRebuild, bit_bitmapInit, decide_eq_true_eq, bitmapInit_fst]
  constructor
  · rintro (hb | ⟨i, hlt, hl, h1, h2, -⟩)
    · exact Or.inl hb.1
    · exact Or.inr ⟨i, ⟨hlt, hl⟩, h1, h2⟩
  · rintro (hb | ⟨i, hl, hc⟩)
    · left; omega
    · have := ha.range i hl.1 (by unfold Covers at hc; omega)
      exact Or.inr ⟨i, hl.1, hl.2, hc.1, hc.2, by unfold Covers at hc; omega⟩

theorem Tight.accounted (h : Tight s) (ha : Sound s) : Accounted s := by
  refine ⟨fun i j b hi hj hci hcj => ha.owned.apart i j b ⟨hi.1, hci⟩ ⟨hj.1, hcj⟩,
    fun i hi hb => ?_, h.marks, ?_, h.remount ha⟩
  · rw [← ha.size_eq]; exact ha.range i hi.1 hb
  · rw [h.liveBlocks_eq]; exact h.full

/-- **Block accounting.** In every state reached from a formatted and mounted device by calls whose
writes go to inodes in use: the extents of the inodes in use are disjoint and inside the bitmap, the
bitmap marks exactly them and the first two blocks, `free_blocks` counts what is left, and a new
mount would build the same bitmap. -/
theorem block_accounting (d : Device) (size : ℕ) (hsize : size < 2 ^ 32) (s₀ s : Fs)
    (h0 : formatMount d size = some s₀) (h : Reach WritesLive step s₀ s) : Accounted s :=
  (tight_reach hsize h0 h).accounted
    (sound_reach hsize h0 (h.mono fun _ _ _ => trivial))

/-- A run with a write: `/a` is created, opened and written. -/
theorem block_accounting_small : Accounted
    ([.create (cstr "/a"), .open_ (cstr "/a") 0, .write 0 (fun _ => 7) 1].foldl step smallFs) :=
  block_accounting zeroDevice (4096 * 5) (by norm_num) smallFs _ formatMount_small
    (Reach.foldl _ .init (by decide +kernel))

/-- The calls of a write through a descriptor that `unamedfs_rmdir` left open. -/
def staleWrite : List Op :=
  [.mkdir (cstr "/d"), .open_ (cstr "/d") 0, .rmdir (cstr "/d"), .write 0 (fun _ => 7) 1]

/-- The last write gives block 2 to the freed slot 1: the block is marked and belongs to no inode
in use. -/
theorem stale_write_unaccounted :
    Reach Any step smallFs (staleWrite.foldl step smallFs) ∧
      ¬ Accounted (staleWrite.foldl step smallFs) := by
  refine ⟨Reach.foldl _ .init ⟨trivial, trivial, trivial, trivial, trivial⟩, fun h => ?_⟩
  have hnone : ∀ i < (staleWrite.foldl step smallFs).sb.inodeCount,
      (staleWrite.foldl step smallFs).Live i →
        ¬ Covers ((staleWrite.foldl step smallFs).inodes i) 2 := by decide +kernel
  rcases (h.marks 2).mp (by decide +kernel) with h2 | ⟨i, hl, hc⟩
  · exact absurd h2 (Nat.lt_irrefl 2)
  · exact hnone i hl.1 hl hc

end Kerneloid.UnnamedFS.Alloc
