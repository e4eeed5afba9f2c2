import Kerneloid.Lib.DigitalLine

/-! # Lines

`vga_draw_line` of `vbox_vga.c`, as the drawing calls it makes. Horizontal and vertical lines are
left to `vga_draw_hline` and `vga_draw_vline`; all others are drawn by a loop that ends only if both
coordinates meet the end point in one turn. The coordinates are 16 bits wide and wrap. The error is
an `int`, and stays far from its bounds (`err_fits`).

The loop makes the turns of the digital line, in one of four directions: the coordinate after `i`
steps from `a` towards `b` is `along a b i` (`turn_penAt`). -/

namespace Kerneloid.Vga.Line

open Lib.DigitalLine

/-! ### The code -/

/-- A call of `vga_draw_pixel`, `vga_draw_hline` or `vga_draw_vline`. -/
inductive Draw
  | pixel (x y : UInt16)
  | hline (x y w : UInt16)
  | vline (x y h : UInt16)
  deriving DecidableEq

/-- `(b > a) ? (b - a) : (a - b)`. -/
def span (a b : UInt16) : ℕ := if a < b then b.toNat - a.toNat else a.toNat - b.toNat

/-- `(a < b) ? 1 : -1`, as it is added to a coordinate. -/
def direction (a b : UInt16) : UInt16 := if a < b then 1 else -1

/-- `x0`, `y0` and `err` in the loop. -/
structure Pen where
  x0 : UInt16
  y0 : UInt16
  err : ℤ

def Pen.turn (dx dy : ℤ) (sx sy : UInt16) (p : Pen) : Pen :=
  let e2 := 2 * p.err
  let p := if e2 > -dy then { p with err := p.err - dy, x0 := p.x0 + sx } else p
  if e2 < dx then { p with err := p.err + dx, y0 := p.y0 + sy } else p

def lineLoop (x1 y1 : UInt16) (dx dy : ℤ) (sx sy : UInt16) : ℕ → Pen → Option (List Draw)
  | 0, _ => none
  | fuel + 1, p =>
    if p.x0 = x1 ∧ p.y0 = y1 then some [.pixel p.x0 p.y0]
    else (lineLoop x1 y1 dx dy sx sy fuel (p.turn dx dy sx sy)).map (.pixel p.x0 p.y0 :: ·)

def vgaDrawLine (fuel : ℕ) (x0 y0 x1 y1 : UInt16) : Option (List Draw) :=
  if x0 = x1 then
    some [.vline x0 (if y0 < y1 then y0 else y1) (if y0 < y1 then y1 - y0 + 1 else y0 - y1 + 1)]
  else if y0 = y1 then
    some [.hline (if x0 < x1 then x0 else x1) y0 (if x0 < x1 then x1 - x0 + 1 else x0 - x1 + 1)]
  else
    let dx : ℤ := span x0 x1
    let dy : ℤ := span y0 y1
    lineLoop x1 y1 dx dy (direction x0 x1) (direction y0 y1) fuel ⟨x0, y0, dx - dy⟩

/-! ### One coordinate -/

/-- The coordinate after `i` steps from `a` towards `b`. -/
def along (a b : UInt16) (i : ℕ) : UInt16 :=
  if a < b then a + UInt16.ofNat i else a - UInt16.ofNat i

variable {a b : UInt16} {i i' : ℕ}

theorem span_pos (h : a ≠ b) : 0 < span a b := by
  have hne : a.toNat ≠ b.toNat := fun e => h (UInt16.toNat_inj.mp e)
  unfold span
  split_ifs with hlt
  · have := UInt16.lt_iff_toNat_lt.mp hlt
    omega
  · have := UInt16.lt_iff_toNat_lt.not.mp hlt
    omega

/-- **No wrap**: up to the end, the coordinate is what it would be in the integers. -/
theorem toNat_along (hi : i ≤ span a b) :
    (along a b i).toNat = if a < b then a.toNat + i else a.toNat - i := by
  have ha := a.toNat_lt
  have hb := b.toNat_lt
  unfold span at hi
  unfold along
  split_ifs at hi ⊢ with h
  · have hlt := UInt16.lt_iff_toNat_lt.mp h
    rw [UInt16.toNat_add, UInt16.toNat_ofNat']
    omega
  · have hof : (UInt16.ofNat i).toNat = i := by
      rw [UInt16.toNat_ofNat']
      omega
    rw [UInt16.toNat_sub_of_le _ _ (UInt16.le_iff_toNat_le.mpr (by omega)), hof]

theorem along_zero (a b : UInt16) : along a b 0 = a := by
  refine UInt16.toNat_inj.mp ?_
  rw [toNat_along (Nat.zero_le _)]
  split_ifs <;> omega

theorem along_succ (hi : i + 1 ≤ span a b) : along a b i + direction a b = along a b (i + 1) := by
  have ha := a.toNat_lt
  have hb := b.toNat_lt
  refine UInt16.toNat_inj.mp ?_
  rw [UInt16.toNat_add, toNat_along hi, toNat_along (by omega)]
  unfold span at hi
  unfold direction
  split_ifs at hi ⊢ with h
  · have hlt := UInt16.lt_iff_toNat_lt.mp h
    have hone : (1 : UInt16).toNat = 1 := rfl
    omega
  · have hneg : (-1 : UInt16).toNat = 65535 := rfl
    omega

theorem along_eq_end (hi : i ≤ span a b) : along a b i = b ↔ i = span a b := by
  rw [← UInt16.toNat_inj, toNat_along hi]
  unfold span at hi ⊢
  split_ifs at hi ⊢ with h
  · have hlt := UInt16.lt_iff_toNat_lt.mp h
    omega
  · have hle := UInt16.lt_iff_toNat_lt.not.mp h
    omega

theorem along_between (hi : i ≤ span a b) :
    min a.toNat b.toNat ≤ (along a b i).toNat ∧ (along a b i).toNat ≤ max a.toNat b.toNat := by
  rw [toNat_along hi]
  unfold span at hi
  split_ifs at hi ⊢ with h
  · have hlt := UInt16.lt_iff_toNat_lt.mp h
    omega
  · have hle := UInt16.lt_iff_toNat_lt.not.mp h
    omega

theorem span_along (hi : i ≤ i') (hi' : i' ≤ span a b) :
    span (along a b i) (along a b i') = i' - i := by
  have h₁ := toNat_along (hi.trans hi')
  have h₂ := toNat_along hi'
  unfold span at hi' ⊢
  simp only [UInt16.lt_iff_toNat_lt] at h₁ h₂ hi' ⊢
  split_ifs at h₁ h₂ hi' ⊢ <;> omega

/-! ### The loop -/

section Loop
variable {x0 y0 x1 y1 : UInt16}

/-- The state of the loop at a point of the digital line. -/
def penAt (x0 y0 x1 y1 : UInt16) (w : Walk) : Pen := ⟨along x0 x1 w.i, along y0 y1 w.j, w.err⟩

def pointAt (x0 y0 x1 y1 : UInt16) (k : ℕ) : UInt16 × UInt16 :=
  let w := walk (span x0 x1) (span y0 y1) k
  (along x0 x1 w.i, along y0 y1 w.j)

theorem turn_penAt {w : Walk} (hi : (turn (span x0 x1) (span y0 y1) w).i ≤ span x0 x1)
    (hj : (turn (span x0 x1) (span y0 y1) w).j ≤ span y0 y1) :
    (penAt x0 y0 x1 y1 w).turn (span x0 x1) (span y0 y1) (direction x0 x1) (direction y0 y1) =
      penAt x0 y0 x1 y1 (turn (span x0 x1) (span y0 y1) w) := by
  unfold turn at hi hj ⊢
  unfold Pen.turn penAt
  dsimp only at hi hj ⊢
  split_ifs at hi hj ⊢ with h₁ h₂ h₂
  · rw [along_succ hi, along_succ hj]
  · rw [along_succ hj, sub_zero]
  · rw [along_succ hi, add_zero]
  · rw [sub_zero, add_zero]

theorem penAt_end (hx : x0 ≠ x1) (hy : y0 ≠ y1) {k : ℕ} (hk : k ≤ max (span x0 x1) (span y0 y1)) :
    (penAt x0 y0 x1 y1 (walk (span x0 x1) (span y0 y1) k)).x0 = x1 ∧
        (penAt x0 y0 x1 y1 (walk (span x0 x1) (span y0 y1) k)).y0 = y1 ↔
      k = max (span x0 x1) (span y0 y1) := by
  obtain ⟨hi, hj, hend⟩ := walk_spec (span_pos hx) (span_pos hy) hk
  rw [← hend]
  exact and_congr (along_eq_end hi) (along_eq_end hj)

theorem lineLoop_from (hx : x0 ≠ x1) (hy : y0 ≠ y1) (m : ℕ) {k fuel : ℕ}
    (hk : k + m = max (span x0 x1) (span y0 y1)) (hfuel : m < fuel) :
    lineLoop x1 y1 (span x0 x1) (span y0 y1) (direction x0 x1) (direction y0 y1) fuel
        (penAt x0 y0 x1 y1 (walk (span x0 x1) (span y0 y1) k)) =
      some (((List.range' k (m + 1)).map (pointAt x0 y0 x1 y1)).map fun p => .pixel p.1 p.2) := by
  have hend := penAt_end hx hy (by omega : k ≤ _)
  induction m generalizing k fuel with
  | zero =>
    match fuel, hfuel with
    | fuel + 1, _ =>
      unfold lineLoop
      exact if_pos (hend.mpr hk)
  | succ m ih =>
    match fuel, hfuel with
    | fuel + 1, hfuel =>
      obtain ⟨hi, hj, -⟩ := walk_spec (span_pos hx) (span_pos hy) (by omega : k + 1 ≤ _)
      have hleft : m < fuel := by omega
      have hnext := ih (k := k + 1) (by omega) hleft (penAt_end hx hy (by omega))
      rw [walk_succ] at hi hj
      unfold lineLoop
      rw [if_neg (hend.not.mpr (by omega)), turn_penAt hi hj, ← walk_succ, hnext]
      rfl

/-- The distances between consecutive points: at most one in each coordinate, and one in the longer
direction. -/
structure Adjacent (x0 y0 x1 y1 : UInt16) (p q : UInt16 × UInt16) : Prop where
  x : span p.1 q.1 ≤ 1
  y : span p.2 q.2 ≤ 1
  wide : span y0 y1 ≤ span x0 x1 → span p.1 q.1 = 1
  high : span x0 x1 ≤ span y0 y1 → span p.2 q.2 = 1

/-- **A line from `(x0, y0)` to `(x1, y1)`.** -/
structure IsLine (x0 y0 x1 y1 : UInt16) (points : List (UInt16 × UInt16)) : Prop where
  length : points.length = max (span x0 x1) (span y0 y1) + 1
  first : points.head? = some (x0, y0)
  last : points.getLast? = some (x1, y1)
  inside : ∀ p ∈ points,
    (min x0.toNat x1.toNat ≤ p.1.toNat ∧ p.1.toNat ≤ max x0.toNat x1.toNat) ∧
      (min y0.toNat y1.toNat ≤ p.2.toNat ∧ p.2.toNat ≤ max y0.toNat y1.toNat)
  adjacent : points.IsChain (Adjacent x0 y0 x1 y1)

theorem pointAt_adjacent (hx : x0 ≠ x1) (hy : y0 ≠ y1) {k : ℕ}
    (hk : k < max (span x0 x1) (span y0 y1)) :
    Adjacent x0 y0 x1 y1 (pointAt x0 y0 x1 y1 k) (pointAt x0 y0 x1 y1 (k + 1)) := by
  obtain ⟨hi', hj', -⟩ := walk_spec (span_pos hx) (span_pos hy) hk
  obtain ⟨hstepx, hstepy⟩ := walk_step (span x0 x1) (span y0 y1) k
  have hlong := walk_long (span_pos hx) (span_pos hy) k
  have hlong' := walk_long (span_pos hx) (span_pos hy) (k + 1)
  have hspanx : span (pointAt x0 y0 x1 y1 k).1 (pointAt x0 y0 x1 y1 (k + 1)).1 = _ :=
    span_along (by omega) hi'
  have hspany : span (pointAt x0 y0 x1 y1 k).2 (pointAt x0 y0 x1 y1 (k + 1)).2 = _ :=
    span_along (by omega) hj'
  refine ⟨?_, ?_, fun hd => ?_, fun hd => ?_⟩
  · rw [hspanx]
    omega
  · rw [hspany]
    omega
  · rw [hspanx, hlong.1 hd, hlong'.1 hd]
    omega
  · rw [hspany, hlong.2 hd, hlong'.2 hd]
    omega

theorem isLine_pointAt (hx : x0 ≠ x1) (hy : y0 ≠ y1) :
    IsLine x0 y0 x1 y1
      ((List.range (max (span x0 x1) (span y0 y1) + 1)).map (pointAt x0 y0 x1 y1)) := by
  have hspec := fun {k : ℕ} (hk : k ≤ max (span x0 x1) (span y0 y1)) =>
    walk_spec (span_pos hx) (span_pos hy) hk
  refine ⟨by rw [List.length_map, List.length_range], ?_, ?_, ?_, ?_⟩
  · rw [List.head?_map, List.head?_range, if_neg (by omega)]
    show some (along x0 x1 0, along y0 y1 0) = _
    rw [along_zero, along_zero]
  · rw [List.getLast?_map, List.getLast?_range, if_neg (by omega), Nat.add_sub_cancel]
    obtain ⟨hi, hj, hend⟩ := hspec le_rfl
    obtain ⟨hi', hj'⟩ := hend.mpr rfl
    show some (along x0 x1 _, along y0 y1 _) = _
    rw [(along_eq_end hi).mpr hi', (along_eq_end hj).mpr hj']
  · intro p hp
    obtain ⟨k, hk, rfl⟩ := List.mem_map.mp hp
    obtain ⟨hi, hj, -⟩ := hspec (Nat.lt_succ_iff.mp (List.mem_range.mp hk))
    exact ⟨along_between hi, along_between hj⟩
  · rw [List.isChain_map, List.isChain_range_succ]
    exact fun k hk => pointAt_adjacent hx hy hk

/-- **The line is drawn.** For all end points that differ in both coordinates the loop ends, after
as many turns as the longer distance says: it plots the first end point first and the second one
last, stays in the rectangle they span, and goes on by at most one in each coordinate and by one in
the longer direction. -/
theorem line_drawn (x0 y0 x1 y1 : UInt16) (hx : x0 ≠ x1) (hy : y0 ≠ y1) (fuel : ℕ)
    (hfuel : max (span x0 x1) (span y0 y1) < fuel) :
    ∃ points, IsLine x0 y0 x1 y1 points ∧
      vgaDrawLine fuel x0 y0 x1 y1 = some (points.map fun p => .pixel p.1 p.2) := by
  refine ⟨_, isLine_pointAt hx hy, ?_⟩
  have hloop := lineLoop_from hx hy (max (span x0 x1) (span y0 y1)) (k := 0) (by omega) hfuel
  have hpen : penAt x0 y0 x1 y1 (walk (span x0 x1) (span y0 y1) 0) =
      ⟨x0, y0, (span x0 x1 : ℤ) - span y0 y1⟩ := by
    show (⟨along x0 x1 0, along y0 y1 0, _⟩ : Pen) = _
    rw [along_zero, along_zero]
    rfl
  unfold vgaDrawLine
  rw [if_neg hx, if_neg hy]
  dsimp only
  rw [← hpen, hloop, List.range_eq_range']

theorem err_fits (hx : x0 ≠ x1) (hy : y0 ≠ y1) (k : ℕ) :
    |2 * (penAt x0 y0 x1 y1 (walk (span x0 x1) (span y0 y1) k)).err| < 2 ^ 31 := by
  have herr := walk_err (span_pos hx) (span_pos hy) k
  have hspan : ∀ a b : UInt16, span a b < 65536 := by
    intro a b
    have ha := a.toNat_lt
    have hb := b.toNat_lt
    unfold span
    split_ifs <;> omega
  have h₁ := hspan x0 x1
  have h₂ := hspan y0 y1
  show |2 * (walk (span x0 x1) (span y0 y1) k).err| < 2 ^ 31
  omega

/-- A steep line downwards. -/
theorem line_drawn_steep :
    vgaDrawLine 6 3 0 1 5 =
        some [.pixel 3 0, .pixel 3 1, .pixel 2 2, .pixel 2 3, .pixel 1 4, .pixel 1 5] ∧
      ∃ points, IsLine 3 0 1 5 points ∧
        vgaDrawLine 6 3 0 1 5 = some (points.map fun p => .pixel p.1 p.2) :=
  ⟨by decide +kernel, line_drawn 3 0 1 5 (by decide) (by decide) 6 (by decide)⟩

end Loop

end Kerneloid.Vga.Line
