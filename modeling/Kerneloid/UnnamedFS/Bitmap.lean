import Kerneloid.UnnamedFS.Types

/-! # The block bitmap

`bitmap_set`, `bitmap_clear`, `bitmap_test`, `bitmap_mark_range`, `bitmap_find_contiguous`,
`bitmap_init` and `bitmap_rebuild` over the byte array `block_bitmap`, whose bit `b & 7` of byte
`b >> 3` stands for block `b`. Everything else about the bitmap goes through the bit view `bit`:
`bit_bitmapMarkRange` says what marking a range does, and `bitmapFindContiguous_eq_some`,
`bitmapFindContiguous_eq_none` that the search returns the first run of free blocks. -/

namespace Kerneloid.UnnamedFS.Bitmap

open Types

variable {bm : BlockBitmap} {n nb : ℕ}

abbrev BlockBitmap := ℕ → BitVec 8

def bit (bm : BlockBitmap) (b : ℕ) : Bool := (bm (b / 8)).getLsbD (b % 8)

/-- `bitmap_set`; `nb` is `bitmap_blocks`. -/
def bitmapSet (nb : ℕ) (bm : BlockBitmap) (b : ℕ) : BlockBitmap :=
  if b < nb then Function.update bm (b / 8) (bm (b / 8) ||| 1#8 <<< (b % 8)) else bm

def bitmapClear (nb : ℕ) (bm : BlockBitmap) (b : ℕ) : BlockBitmap :=
  if b < nb then Function.update bm (b / 8) (bm (b / 8) &&& ~~~(1#8 <<< (b % 8))) else bm

/-- `bitmap_test`: blocks beyond the bitmap count as used. -/
def bitmapTest (nb : ℕ) (bm : BlockBitmap) (b : ℕ) : Bool := if nb ≤ b then true else bit bm b

def bitmapMarkRange (nb : ℕ) (bm : BlockBitmap) (first n : ℕ) (used : Bool) : BlockBitmap :=
  (List.range n).foldl (fun bm i =>
    if used then bitmapSet nb bm (first + i) else bitmapClear nb bm (first + i)) bm

/-- The outer loop of `bitmap_find_contiguous`: the first used block of the window at `start` moves
the window past it. Each round moves `start` up, so `nb` rounds are enough. -/
def findFrom (nb : ℕ) (bm : BlockBitmap) (n : ℕ) : ℕ → ℕ → Option ℕ
  | 0, _ => none
  | fuel + 1, start =>
    if start + n ≤ nb then
      match (List.range n).find? fun j => bitmapTest nb bm (start + j) with
      | none => some start
      | some j => findFrom nb bm n fuel (start + (j + 1))
    else none

/-- `bitmap_find_contiguous`: the first block found, `none` for `-1`. -/
def bitmapFindContiguous (nb : ℕ) (bm : BlockBitmap) (n : ℕ) : Option ℕ :=
  if n = 0 then some 0 else if nb < n then none else findFrom nb bm n nb 2

/-- `bitmap_init`: `bitmap_blocks` and the cleared bitmap with blocks 0 and 1 reserved. -/
def bitmapInit (totalBlocks : ℕ) : ℕ × BlockBitmap :=
  let nb := min totalBlocks 4096
  let bm : BlockBitmap := fun _ => 0#8
  let bm := if 0 < nb then bitmapSet nb bm 0 else bm
  (nb, if 1 < nb then bitmapSet nb bm 1 else bm)

/-- `bitmap_rebuild`: the extents of all inodes in use are marked. -/
def bitmapRebuild (nb : ℕ) (bm : BlockBitmap) (inodeCount : ℕ) (inodes : ℕ → Inode) :
    BlockBitmap :=
  (List.range inodeCount).foldl (fun bm i =>
    let ino := inodes i
    if ino.isLive = false then bm
    else if ino.blocks = 0 then bm
    else bitmapMarkRange nb bm ino.firstBlock ino.blocks true) bm

/-! ### The bit view -/

theorem bitmap_ext {bm' : BlockBitmap} (h : ∀ b, bit bm b = bit bm' b) : bm = bm' := by
  funext k
  refine BitVec.eq_of_getLsbD_eq fun i hi => ?_
  have := h (8 * k + i)
  unfold bit at this
  rwa [show (8 * k + i) / 8 = k by omega, show (8 * k + i) % 8 = i by omega] at this

theorem bit_update (bm : BlockBitmap) (b c : ℕ) (w : BitVec 8) :
    bit (Function.update bm (b / 8) w) c =
      if c / 8 = b / 8 then w.getLsbD (c % 8) else bit bm c := by
  unfold bit
  by_cases h : c / 8 = b / 8
  · rw [if_pos h, h, Function.update_self]
  · rw [if_neg h, Function.update_of_ne h]

theorem getLsbD_one_shift {i j : ℕ} (hi : i < 8) : (1#8 <<< j).getLsbD i = decide (i = j) := by
  rw [BitVec.getLsbD_shiftLeft, BitVec.getLsbD_one]
  by_cases h : i = j
  · simp [h]; omega
  · simp [h]; omega

theorem bit_update_bit (bm : BlockBitmap) (b c : ℕ) {v : Bool} {w : BitVec 8}
    (hw : ∀ i < 8, w.getLsbD i = if i = b % 8 then v else (bm (b / 8)).getLsbD i) :
    bit (Function.update bm (b / 8) w) c = if c = b then v else bit bm c := by
  rw [bit_update]
  by_cases hc : c / 8 = b / 8
  · rw [if_pos hc, hw (c % 8) (by omega), ← hc]
    exact if_congr (by omega) rfl rfl
  · rw [if_neg hc, if_neg (by rintro rfl; exact hc rfl)]

theorem bit_bitmapSet (nb : ℕ) (bm : BlockBitmap) (b c : ℕ) :
    bit (bitmapSet nb bm b) c = if c = b ∧ b < nb then true else bit bm c := by
  unfold bitmapSet
  by_cases hb : b < nb
  · rw [if_pos hb, bit_update_bit bm b c (v := true)]
    · simp [hb]
    · intro i hi
      rw [BitVec.getLsbD_or, getLsbD_one_shift hi]
      by_cases h : i = b % 8 <;> simp [h]
  · rw [if_neg hb, if_neg (by tauto)]

theorem bit_bitmapClear (nb : ℕ) (bm : BlockBitmap) (b c : ℕ) :
    bit (bitmapClear nb bm b) c = if c = b ∧ b < nb then false else bit bm c := by
  unfold bitmapClear
  by_cases hb : b < nb
  · rw [if_pos hb, bit_update_bit bm b c (v := false)]
    · simp [hb]
    · intro i hi
      rw [BitVec.getLsbD_and, BitVec.getLsbD_not, getLsbD_one_shift hi]
      by_cases h : i = b % 8 <;> simp [h, hi]
  · rw [if_neg hb, if_neg (by tauto)]

/-- **Marking a range** sets or clears exactly the bits of the range that the bitmap has. -/
theorem bit_bitmapMarkRange (nb : ℕ) (bm : BlockBitmap) (first n : ℕ) (used : Bool) (c : ℕ) :
    bit (bitmapMarkRange nb bm first n used) c =
      if first ≤ c ∧ c < first + n ∧ c < nb then used else bit bm c := by
  unfold bitmapMarkRange
  induction n with
  | zero => rw [if_neg (by omega)]; rfl
  | succ n ih =>
    rw [List.range_succ, List.foldl_append, List.foldl_cons, List.foldl_nil]
    have hstep : ∀ bm', bit (if used then bitmapSet nb bm' (first + n)
        else bitmapClear nb bm' (first + n)) c =
        if c = first + n ∧ first + n < nb then used else bit bm' c := by
      intro bm'
      cases used
      · simpa using bit_bitmapClear nb bm' (first + n) c
      · simpa using bit_bitmapSet nb bm' (first + n) c
    rw [hstep, ih]
    by_cases hc : c = first + n
    · subst hc
      by_cases hn : first + n < nb
      · rw [if_pos ⟨rfl, hn⟩, if_pos (by omega)]
      · rw [if_neg (by omega), if_neg (by omega), if_neg (by omega)]
    · rw [if_neg (by omega)]
      by_cases hr : first ≤ c ∧ c < first + n ∧ c < nb
      · rw [if_pos hr, if_pos (by omega)]
      · rw [if_neg hr, if_neg (by omega)]

theorem bitmapTest_eq_false {b : ℕ} : bitmapTest nb bm b = false ↔ b < nb ∧ bit bm b = false := by
  unfold bitmapTest
  by_cases h : nb ≤ b
  · rw [if_pos h]; simp; omega
  · rw [if_neg h]
    exact ⟨fun hb => ⟨by omega, hb⟩, fun hb => hb.2⟩

/-! ### The search for free blocks -/

/-- The window `[s, s + n)` lies in the bitmap and is free. -/
def FreeRun (nb : ℕ) (bm : BlockBitmap) (n s : ℕ) : Prop :=
  s + n ≤ nb ∧ ∀ b, s ≤ b → b < s + n → bit bm b = false

theorem window_eq_none {s : ℕ} (hs : s + n ≤ nb) :
    ((List.range n).find? fun j => bitmapTest nb bm (s + j)) = none ↔ FreeRun nb bm n s := by
  rw [List.find?_range_eq_none]
  simp only [Bool.not_eq_true', bitmapTest_eq_false]
  constructor
  · intro h
    refine ⟨hs, fun b h1 h2 => ?_⟩
    have := (h (b - s) (by omega)).2
    rwa [show s + (b - s) = b by omega] at this
  · rintro ⟨-, h⟩ j hj
    exact ⟨by omega, h _ (by omega) (by omega)⟩

theorem findFrom_spec (nb : ℕ) (bm : BlockBitmap) (hn : 0 < n) :
    ∀ (fuel start : ℕ), nb < start + fuel →
      match findFrom nb bm n fuel start with
      | some s => start ≤ s ∧ FreeRun nb bm n s ∧ ∀ t, start ≤ t → t < s → ¬ FreeRun nb bm n t
      | none => ∀ t, start ≤ t → ¬ FreeRun nb bm n t
  | 0, start, hf => by
    intro t ht hrun
    have := hrun.1
    omega
  | fuel + 1, start, hf => by
    unfold findFrom
    by_cases hs : start + n ≤ nb
    · rw [if_pos hs]
      cases hw : (List.range n).find? fun j => bitmapTest nb bm (start + j) with
      | none => exact ⟨le_rfl, (window_eq_none hs).mp hw, fun t h1 h2 => by omega⟩
      | some j =>
        obtain ⟨hj, hjn, -⟩ := List.find?_range_eq_some.mp hw
        have hjn' : j < n := List.mem_range.mp hjn
        -- block `start + j` is used, so no window that contains it is free
        have hskip : ∀ t, start ≤ t → t < start + (j + 1) → ¬ FreeRun nb bm n t := by
          intro t h1 h2 hrun
          have hb := hrun.2 (start + j) (by omega) (by omega)
          have hnb := hrun.1
          have : bitmapTest nb bm (start + j) = false := bitmapTest_eq_false.mpr ⟨by omega, hb⟩
          rw [this] at hj
          exact Bool.false_ne_true hj
        have ih := findFrom_spec nb bm hn fuel (start + (j + 1)) (by omega)
        dsimp only
        cases hr : findFrom nb bm n fuel (start + (j + 1)) with
        | none =>
          rw [hr] at ih
          intro t ht
          by_cases hlt : t < start + (j + 1)
          · exact hskip t ht hlt
          · exact ih t (by omega)
        | some s =>
          rw [hr] at ih
          obtain ⟨h1, h2, h3⟩ := ih
          refine ⟨by omega, h2, fun t ht hts => ?_⟩
          by_cases hlt : t < start + (j + 1)
          · exact hskip t ht hlt
          · exact h3 t (by omega) hts
    · rw [if_neg hs]
      intro t ht hrun
      have := hrun.1
      omega

theorem bitmapFindContiguous_eq_some {s : ℕ} (hn : 0 < n)
    (h : bitmapFindContiguous nb bm n = some s) :
    2 ≤ s ∧ FreeRun nb bm n s ∧ ∀ t, 2 ≤ t → t < s → ¬ FreeRun nb bm n t := by
  unfold bitmapFindContiguous at h
  rw [if_neg (by omega)] at h
  split_ifs at h
  have := findFrom_spec nb bm hn nb 2 (by omega)
  rwa [h] at this

theorem bitmapFindContiguous_eq_none (hn : 0 < n)
    (h : bitmapFindContiguous nb bm n = none) : ∀ t, 2 ≤ t → ¬ FreeRun nb bm n t := by
  unfold bitmapFindContiguous at h
  rw [if_neg (by omega)] at h
  split_ifs at h with hnb
  · intro t _ hrun
    have := hrun.1
    omega
  · have := findFrom_spec nb bm hn nb 2 (by omega)
    rwa [h] at this

/-! ### Mounting -/

theorem bitmapInit_fst (total : ℕ) : (bitmapInit total).1 = min total 4096 := rfl

theorem bit_bitmapInit (total b : ℕ) :
    bit (bitmapInit total).2 b = decide (b < 2 ∧ b < min total 4096) := by
  have h0 : bit (fun _ => 0#8) b = false := by simp [bit]
  unfold bitmapInit
  dsimp only
  by_cases h1 : 0 < min total 4096
  · rw [if_pos h1]
    by_cases h2 : 1 < min total 4096
    · rw [if_pos h2, bit_bitmapSet, bit_bitmapSet, h0]
      by_cases hb1 : b = 1
      · rw [if_pos ⟨hb1, h2⟩]; symm; rw [decide_eq_true_eq]; omega
      · rw [if_neg (by tauto)]
        by_cases hb0 : b = 0
        · rw [if_pos ⟨hb0, h1⟩]; symm; rw [decide_eq_true_eq]; omega
        · rw [if_neg (by tauto)]; symm; rw [decide_eq_false_iff_not]; omega
    · rw [if_neg h2, bit_bitmapSet, h0]
      by_cases hb0 : b = 0
      · rw [if_pos ⟨hb0, h1⟩]; symm; rw [decide_eq_true_eq]; omega
      · rw [if_neg (by tauto)]; symm; rw [decide_eq_false_iff_not]; omega
  · rw [if_neg h1, if_neg (by omega), h0]; symm; rw [decide_eq_false_iff_not]; omega

theorem bit_bitmapRebuild (nb : ℕ) (bm : BlockBitmap) (count : ℕ) (inodes : ℕ → Inode) (b : ℕ) :
    bit (bitmapRebuild nb bm count inodes) b = true ↔ bit bm b = true ∨
      ∃ i < count, (inodes i).isLive = true ∧ (inodes i).firstBlock ≤ b ∧
        b < (inodes i).firstBlock + (inodes i).blocks ∧ b < nb := by
  unfold bitmapRebuild
  induction count with
  | zero => simp
  | succ count ih =>
    rw [List.range_succ, List.foldl_append, List.foldl_cons, List.foldl_nil]
    have hsplit : (∃ i < count + 1, (inodes i).isLive = true ∧ (inodes i).firstBlock ≤ b ∧
        b < (inodes i).firstBlock + (inodes i).blocks ∧ b < nb) ↔
        (∃ i < count, (inodes i).isLive = true ∧ (inodes i).firstBlock ≤ b ∧
          b < (inodes i).firstBlock + (inodes i).blocks ∧ b < nb) ∨
        ((inodes count).isLive = true ∧ (inodes count).firstBlock ≤ b ∧
          b < (inodes count).firstBlock + (inodes count).blocks ∧ b < nb) := by
      rw [Nat.exists_lt_succ_right]
    rw [hsplit, ← or_assoc, ← ih]
    by_cases hl : (inodes count).isLive = false
    · rw [if_pos hl]; simp [hl]
    · rw [if_neg hl]
      have hl' : (inodes count).isLive = true := by simpa using hl
      by_cases hb : (inodes count).blocks = 0
      · rw [if_pos hb]
        simp only [hb]
        constructor
        · exact Or.inl
        · rintro (h | h)
          · exact h
          · omega
      · rw [if_neg hb, bit_bitmapMarkRange]
        split_ifs with hr
        · simp [hl', hr]
        · constructor
          · exact Or.inl
          · rintro (h | h)
            · exact h
            · exact absurd h.2 hr

end Kerneloid.UnnamedFS.Bitmap
