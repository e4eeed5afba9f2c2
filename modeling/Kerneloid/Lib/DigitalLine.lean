import Mathlib.Logic.Function.Iterate
import Mathlib.Tactic

/-! # Digital lines

Bresenham's walk from one corner of a grid to the opposite one, `dx` steps to the right and `dy`
steps up. A turn goes right, up or both, as the error term says; the error after `i` steps to the
right and `j` steps up is `(j + 1) * dx - (i + 1) * dy`.

If the grid is at least as wide as high, twice the error stays strictly between `-dy` and
`3 * dx - 2 * dy` (`Near`). The lower bound makes every turn go right; the two together leave one
height for each end, so that the walk reaches its corner, in `dx` turns (`walk_spec`). Grids that
are higher than wide are these with the axes exchanged (`walk_swap`). -/

namespace Kerneloid.Lib.DigitalLine

/-- The steps made to the right and up, and the error. -/
@[ext]
structure Walk where
  i : ℕ
  j : ℕ
  err : ℤ

def turn (dx dy : ℕ) (w : Walk) : Walk where
  i := if -(dy : ℤ) < 2 * w.err then w.i + 1 else w.i
  j := if 2 * w.err < dx then w.j + 1 else w.j
  err := w.err - (if -(dy : ℤ) < 2 * w.err then (dy : ℤ) else 0) +
    (if 2 * w.err < dx then (dx : ℤ) else 0)

/-- **The walk**, after `k` turns. -/
def walk (dx dy k : ℕ) : Walk := (turn dx dy)^[k] ⟨0, 0, dx - dy⟩

variable {dx dy k : ℕ} {w : Walk}

theorem walk_succ (dx dy k : ℕ) : walk dx dy (k + 1) = turn dx dy (walk dx dy k) :=
  Function.iterate_succ_apply' ..

/-! ### The axes exchanged -/

/-- The walk in the grid with the axes exchanged. -/
def Walk.swap (w : Walk) : Walk := ⟨w.j, w.i, -w.err⟩

theorem turn_swap (dx dy : ℕ) (w : Walk) : turn dy dx w.swap = (turn dx dy w).swap := by
  have hright : -(dx : ℤ) < 2 * -w.err ↔ 2 * w.err < dx := by omega
  have hup : 2 * -w.err < (dy : ℤ) ↔ -(dy : ℤ) < 2 * w.err := by omega
  unfold turn Walk.swap
  simp only [hright, hup]
  ext
  · rfl
  · rfl
  · dsimp only
    split_ifs <;> ring

theorem walk_swap (dx dy k : ℕ) : walk dy dx k = (walk dx dy k).swap := by
  induction k with
  | zero =>
    ext
    · rfl
    · rfl
    · show (dy : ℤ) - dx = -(dx - dy)
      ring
  | succ k ih => rw [walk_succ, walk_succ, ih, turn_swap]

/-! ### Wide grids -/

/-- **The error is small.** -/
structure Near (dx dy : ℕ) (w : Walk) : Prop where
  err : w.err = (w.j + 1) * dx - (w.i + 1) * dy
  low : -(dy : ℤ) < 2 * w.err
  high : 2 * w.err < 3 * dx - 2 * dy

theorem Near.turn (hd : dy ≤ dx) (h : Near dx dy w) :
    Near dx dy (turn dx dy w) ∧ (turn dx dy w).i = w.i + 1 := by
  obtain ⟨herr, hlow, hhigh⟩ := h
  unfold DigitalLine.turn
  rw [if_pos hlow, if_pos hlow]
  refine ⟨?_, rfl⟩
  split_ifs with hup
  · refine ⟨?_, ?_, ?_⟩
    · show w.err - dy + dx = ((w.j + 1 : ℕ) + 1) * dx - ((w.i + 1 : ℕ) + 1) * dy
      rw [herr]
      push_cast
      ring
    · show -(dy : ℤ) < 2 * (w.err - dy + dx)
      omega
    · show 2 * (w.err - dy + dx) < _
      omega
  · -- without a step up the error was at least `dx / 2`, which is out of reach if `dx = dy`
    refine ⟨?_, ?_, ?_⟩
    · show w.err - dy + 0 = (w.j + 1) * dx - ((w.i + 1 : ℕ) + 1) * dy
      rw [herr]
      push_cast
      ring
    · show -(dy : ℤ) < 2 * (w.err - dy + 0)
      omega
    · show 2 * (w.err - dy + 0) < _
      omega

theorem walk_near (hy : 0 < dy) (hd : dy ≤ dx) (k : ℕ) :
    Near dx dy (walk dx dy k) ∧ (walk dx dy k).i = k := by
  induction k with
  | zero =>
    refine ⟨⟨?_, ?_, ?_⟩, rfl⟩
    · show (dx : ℤ) - dy = (0 + 1) * dx - (0 + 1) * dy
      ring
    · show -(dy : ℤ) < 2 * (dx - dy)
      omega
    · show 2 * ((dx : ℤ) - dy) < 3 * dx - 2 * dy
      omega
  | succ k ih =>
    obtain ⟨hnear, hi⟩ := ih.1.turn hd
    rw [walk_succ]
    exact ⟨hnear, by rw [hi, ih.2]⟩

theorem walk_height (hy : 0 < dy) (hd : dy ≤ dx) (hk : k ≤ dx) :
    (walk dx dy k).j ≤ dy ∧ (k = dx → (walk dx dy k).j = dy) := by
  obtain ⟨⟨herr, hlow, hhigh⟩, hi⟩ := walk_near hy hd k
  rw [hi] at herr
  generalize (walk dx dy k).j = j at herr ⊢
  rw [herr] at hlow hhigh
  have hkd : (k : ℤ) * dy ≤ dx * dy := by
    exact_mod_cast Nat.mul_le_mul_right dy hk
  have hpos : (0 : ℤ) < dx := by omega
  have hj : j ≤ dy := by
    by_contra hlt
    have hmul : ((dy : ℤ) + 2) * dx ≤ (j + 1) * dx :=
      mul_le_mul_of_nonneg_right (by omega) hpos.le
    nlinarith
  refine ⟨hj, fun hend => ?_⟩
  subst hend
  by_contra hne
  have hmul : ((j : ℤ) + 1) * k ≤ dy * k := mul_le_mul_of_nonneg_right (by omega) hpos.le
  nlinarith

/-! ### All grids -/

/-- **The walk reaches its corner.** As long as there are turns left it is inside the grid, and it
is at the corner exactly if there are none. -/
theorem walk_spec (hx : 0 < dx) (hy : 0 < dy) (hk : k ≤ max dx dy) :
    (walk dx dy k).i ≤ dx ∧ (walk dx dy k).j ≤ dy ∧
      ((walk dx dy k).i = dx ∧ (walk dx dy k).j = dy ↔ k = max dx dy) := by
  rcases le_total dy dx with hd | hd
  · rw [max_eq_left hd] at hk ⊢
    have hi := (walk_near hy hd k).2
    obtain ⟨hj, hend⟩ := walk_height hy hd hk
    exact ⟨hi.le.trans hk, hj, fun h => hi.symm.trans h.1, fun h => ⟨hi.trans h, hend h⟩⟩
  · rw [max_eq_right hd] at hk ⊢
    have hi := (walk_near hx hd k).2
    obtain ⟨hj, hend⟩ := walk_height hx hd hk
    rw [walk_swap] at hi hj hend
    exact ⟨hj, hi.le.trans hk, fun h => hi.symm.trans h.2, fun h => ⟨hend h, hi.trans h⟩⟩

theorem walk_step (dx dy k : ℕ) :
    ((walk dx dy (k + 1)).i = (walk dx dy k).i ∨
        (walk dx dy (k + 1)).i = (walk dx dy k).i + 1) ∧
      ((walk dx dy (k + 1)).j = (walk dx dy k).j ∨
        (walk dx dy (k + 1)).j = (walk dx dy k).j + 1) := by
  rw [walk_succ]
  unfold turn
  dsimp only
  constructor
  · split_ifs
    · exact Or.inr rfl
    · exact Or.inl rfl
  · split_ifs
    · exact Or.inr rfl
    · exact Or.inl rfl

theorem walk_long (hx : 0 < dx) (hy : 0 < dy) (k : ℕ) :
    (dy ≤ dx → (walk dx dy k).i = k) ∧ (dx ≤ dy → (walk dx dy k).j = k) := by
  refine ⟨fun hd => (walk_near hy hd k).2, fun hd => ?_⟩
  have hi := (walk_near hx hd k).2
  rwa [walk_swap] at hi

theorem walk_err (hx : 0 < dx) (hy : 0 < dy) (k : ℕ) :
    |2 * (walk dx dy k).err| ≤ 3 * max (dx : ℤ) dy := by
  rw [abs_le]
  rcases le_total dy dx with hd | hd
  · obtain ⟨-, hlow, hhigh⟩ := (walk_near hy hd k).1
    constructor <;> omega
  · obtain ⟨-, hlow, hhigh⟩ := (walk_near hx hd k).1
    rw [walk_swap] at hlow hhigh
    have herr : (walk dx dy k).swap.err = -(walk dx dy k).err := rfl
    constructor <;> omega

end Kerneloid.Lib.DigitalLine
