import Mathlib.Tactic

/-! # A text with a cursor

A text is a list of lines, and a cursor stands between two characters of a line or at an end of it.
The zipper has the lines above the cursor, nearest first, the two parts of its line, and the lines
below, so that a cursor outside the text cannot be written down. Lines have at most `cols`
characters, and a line is only split while there are fewer than `rows` lines. -/

namespace Kerneloid.Lib.TextZipper

/-- A text with a cursor. -/
structure Zipper (α : Type) where
  above : List (List α)
  left : List α
  right : List α
  below : List (List α)

variable {α : Type} {cols rows : ℕ}

namespace Zipper

def line (z : Zipper α) : List α := z.left ++ z.right

def lines (z : Zipper α) : List (List α) := z.above.reverse ++ z.line :: z.below

/-- The cursor at column `x` of the line `l`, or at its end. -/
def at_ (above : List (List α)) (l : List α) (x : ℕ) (below : List (List α)) : Zipper α :=
  ⟨above, l.take x, l.drop x, below⟩

def insert (cols : ℕ) (z : Zipper α) (a : α) : Zipper α :=
  if z.line.length < cols then { z with left := z.left ++ [a] } else z

/-- The character before the cursor is removed, or the line is put at the end of the one before. -/
def erase (cols : ℕ) (z : Zipper α) : Zipper α :=
  if z.left ≠ [] then { z with left := z.left.dropLast }
  else
    match z.above with
    | [] => z
    | p :: ps => if p.length + z.right.length < cols then ⟨ps, p, z.right, z.below⟩ else z

def split (rows : ℕ) (z : Zipper α) : Zipper α :=
  if z.lines.length < rows then ⟨z.left :: z.above, [], z.right, z.below⟩ else z

def up (z : Zipper α) : Zipper α :=
  match z.above with
  | [] => z
  | l :: ls => at_ ls l z.left.length (z.line :: z.below)

def down (z : Zipper α) : Zipper α :=
  match z.below with
  | [] => z
  | l :: ls => at_ (z.line :: z.above) l z.left.length ls

def back (z : Zipper α) : Zipper α :=
  match z.left.getLast?, z.above with
  | some a, _ => { z with left := z.left.dropLast, right := a :: z.right }
  | none, l :: ls => ⟨ls, l, [], z.line :: z.below⟩
  | none, [] => z

def forth (z : Zipper α) : Zipper α :=
  match z.right, z.below with
  | a :: r, _ => { z with left := z.left ++ [a], right := r }
  | [], l :: ls => ⟨z.line :: z.above, [], l, ls⟩
  | [], [] => z

theorem length_lines (z : Zipper α) : z.lines.length = z.above.length + 1 + z.below.length := by
  simp [lines]
  omega

/-- Splitting a line and joining it again is the identity, unless the line is full: then it stays
split. -/
theorem erase_split (z : Zipper α) (h : z.lines.length < rows) :
    (z.split rows).erase cols =
      if z.line.length < cols then z else ⟨z.left :: z.above, [], z.right, z.below⟩ := by
  unfold split erase
  rw [if_pos h]
  simp only [ne_eq, not_true_eq_false, if_false]
  unfold line
  rw [List.length_append]

end Zipper

end Kerneloid.Lib.TextZipper
