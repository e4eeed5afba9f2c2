import Kerneloid.Editor.Rows
import Kerneloid.Lib.TextZipper

/-! # The text in the table

`Shows ed z` says that the editor shows the text and the cursor `z`: the rows of the table hold its
lines, and the coordinates are those of its cursor. Every operation of the editor is the operation
of the zipper (`insertChar_shows`, `backspace_shows`, `newline_shows`, …). -/

namespace Kerneloid.Editor.Tables

open Lib.Arrays Lib.TextZipper UnnamedFS.Types Ops Rows

/-! ### Rows that hold lines -/

variable {t t' : ℕ → Row} {i j n : ℕ} {l : CStr} {ls ls' : List CStr}

theorem copyRow_returns (hi : i < maxLines) (hj : j < maxLines) (h : Spells (t j) l) :
    ∃ d, copyRow t i j = some (Function.update t i d) ∧ Spells d l := by
  obtain ⟨d, hd, hl⟩ := h.strcpy (t i)
  refine ⟨d, ?_, hl⟩
  unfold copyRow
  rw [readAt_natCast hi, readAt_natCast hj]
  simp only [Option.bind_eq_bind, Option.bind_some, hd]
  exact writeAt_natCast hi

theorem shiftUp_returns {y : ℕ} (h : Stored Spells t (y + 1) ls)
    (hlen : y + 1 + ls.length ≤ maxLines) :
    ∃ t', shiftUp t y (y + 1 + ls.length : ℕ) = some t' ∧ (∀ i < y, t' i = t i) ∧
      Stored Spells t' y ls := by
  have hturns : ((y + 1 + ls.length : ℕ) : ℤ) - 1 = y + ls.length := by omega
  -- after `k` turns the first `k` lines are in place, and the rows from `y + k` on are as before
  obtain ⟨t', ht', habove, -, hmoved⟩ := upFrom_returns
    (f := fun lines i => copyRow lines i (i + 1))
    (fun k t' => (∀ i < y, t' i = t i) ∧ (∀ i, y + k ≤ i → t' i = t i) ∧
      ∀ i < k, ∀ l, Spells (t (y + 1 + i)) l → Spells (t' (y + i)) l)
    hturns (s := t) ⟨fun _ _ => rfl, fun _ _ => rfl, nofun⟩ (by
      rintro k hk s ⟨habove, hrest, hmoved⟩
      obtain ⟨l, hl⟩ : ∃ l, ls[k]? = some l := ⟨_, List.getElem?_eq_getElem hk⟩
      have hnext : s (y + k + 1) = t (y + 1 + k) := by
        rw [hrest _ (by omega), add_right_comm]
      obtain ⟨d, hd, hspells⟩ := copyRow_returns (t := s) (i := y + k) (j := y + k + 1)
        (by omega) (by omega) (hnext ▸ h k l hl)
      refine ⟨_, by push_cast at hd ⊢; exact hd, fun i hi => ?_, fun i hi => ?_,
        fun i hi l' hl' => ?_⟩
      · rw [Function.update_of_ne (by omega), habove i hi]
      · rw [Function.update_of_ne (by omega), hrest i (by omega)]
      · rcases (Nat.lt_succ_iff.mp hi).eq_or_lt with rfl | hlt
        · rw [Function.update_self, hl'.unique (h i l hl)]
          exact hspells
        · rw [Function.update_of_ne (by omega)]
          exact hmoved i hlt l' hl')
  exact ⟨t', ht', habove, h.moved hmoved⟩

theorem shiftDown_returns {y : ℕ} (h : Stored Spells t (y + 1) ls)
    (hlen : y + 1 + ls.length < maxLines) :
    ∃ t', shiftDown t (y + 1 + ls.length : ℕ) y = some t' ∧ (∀ i ≤ y, t' i = t i) ∧
      Stored Spells t' (y + 2) ls := by
  have hturns : ((y + 1 + ls.length : ℕ) : ℤ) = (y + 1 : ℤ) + ls.length := by omega
  -- after `k` turns the last `k` lines are in place, and the rows before them are as before
  obtain ⟨t', ht', habove, hmoved⟩ := downFrom_returns
    (f := fun lines i => copyRow lines i (i - 1))
    (fun k t' => (∀ i, i + k ≤ y + 1 + ls.length → t' i = t i) ∧
      ∀ i < ls.length, ls.length ≤ i + k → ∀ l, Spells (t (y + 1 + i)) l →
        Spells (t' (y + 2 + i)) l)
    hturns (by omega) (s := t) ⟨fun _ _ => rfl, fun _ h₁ h₂ => by omega⟩ (by
      rintro k hk s ⟨hrest, hmoved⟩
      obtain ⟨m, hm⟩ : ∃ m, ls.length = m + (k + 1) := ⟨ls.length - (k + 1), by omega⟩
      obtain ⟨l, hl⟩ : ∃ l, ls[m]? = some l := ⟨_, List.getElem?_eq_getElem (by omega)⟩
      have hnext : s (y + 1 + m) = t (y + 1 + m) := hrest _ (by omega)
      obtain ⟨d, hd, hspells⟩ := copyRow_returns (t := s) (i := y + 2 + m) (j := y + 1 + m)
        (by omega) (by omega) (hnext ▸ h m l hl)
      have hi : y + 1 + ls.length - k = y + 2 + m := by omega
      have hj : ((y + 2 + m : ℕ) : ℤ) - 1 = (y + 1 + m : ℕ) := by omega
      refine ⟨_, by rw [hi, hj]; exact hd, fun i hi => ?_, fun i hi hk' l' hl' => ?_⟩
      · rw [Function.update_of_ne (by omega), hrest i (by omega)]
      · by_cases e : i = m
        · subst e
          rw [Function.update_self, hl'.unique (h i l hl)]
          exact hspells
        · rw [Function.update_of_ne (by omega)]
          exact hmoved i hi (by omega) l' hl')
  exact ⟨t', ht', fun i hi => habove i (by omega), h.moved fun k hk => hmoved k hk (by omega)⟩

/-! ### The text and the cursor -/

/-- **The editor shows `z`.** -/
structure Shows (ed : EditorState) (z : Zipper UInt8) : Prop where
  count : ed.lineCount = z.lines.length
  y : ed.cursorY = z.above.length
  x : ed.cursorX = z.left.length
  fits : z.lines.length ≤ maxLines
  above : Stored Spells ed.lines 0 z.above.reverse
  line : Spells (ed.lines z.above.length) z.line
  below : Stored Spells ed.lines (z.above.length + 1) z.below

variable {ed : EditorState} {z : Zipper UInt8} {c : UInt8}

theorem shows_mk {above below : List CStr} {left right : CStr}
    (hcount : ed.lineCount = (above.length + 1 + below.length : ℕ))
    (hfits : above.length + 1 + below.length ≤ maxLines) (hy : ed.cursorY = above.length)
    (hx : ed.cursorX = left.length) (habove : Stored Spells ed.lines 0 above.reverse)
    (hline : Spells (ed.lines above.length) (left ++ right))
    (hbelow : Stored Spells ed.lines (above.length + 1) below) :
    Shows ed ⟨above, left, right, below⟩ := by
  have hlen := Zipper.length_lines ⟨above, left, right, below⟩
  exact ⟨by rw [hlen]; exact hcount, hy, hx, by rw [hlen]; exact hfits, habove, hline, hbelow⟩

theorem Shows.size (h : Shows ed z) :
    ed.lineCount = (z.above.length + 1 + z.below.length : ℕ) ∧
      z.above.length + 1 + z.below.length ≤ maxLines := by
  rw [← z.length_lines]
  exact ⟨h.count, h.fits⟩

theorem Shows.table (h : Shows ed z) : Stored Spells ed.lines 0 z.lines := by
  unfold Zipper.lines
  rw [stored_append, stored_cons, zero_add, List.length_reverse]
  exact ⟨h.above, h.line, h.below⟩

theorem Shows.lt (h : Shows ed z) : z.above.length < maxLines := by
  have hfits := h.size.2
  omega

theorem Shows.readLine (h : Shows ed z) :
    readAt maxLines ed.lines ed.cursorY = some (ed.lines z.above.length) := by
  rw [h.y]
  exact readAt_natCast h.lt

theorem Shows.writeLine (h : Shows ed z) (row : Row) :
    writeAt maxLines ed.lines ed.cursorY row =
      some (Function.update ed.lines z.above.length row) := by
  rw [h.y]
  exact writeAt_natCast h.lt

theorem Shows.prev {l left right : CStr} {ls below : List CStr}
    (h : Shows ed ⟨l :: ls, left, right, below⟩) :
    ed.cursorY - 1 = ls.length ∧
      readAt maxLines ed.lines (ed.cursorY - 1) = some (ed.lines ls.length) ∧
      Stored Spells ed.lines 0 ls.reverse ∧ Spells (ed.lines ls.length) l ∧
      Stored Spells ed.lines (ls.length + 1) ((left ++ right) :: below) := by
  have habove := h.above
  rw [List.reverse_cons, stored_append, stored_cons, zero_add, List.length_reverse] at habove
  have hy : ed.cursorY = (ls.length + 1 : ℕ) := h.y
  have hlt : ls.length + 1 < maxLines := h.lt
  have hy' : ed.cursorY - 1 = ls.length := by omega
  refine ⟨hy', ?_, habove.1, habove.2.1, stored_cons.mpr ⟨h.line, h.below⟩⟩
  rw [hy']
  exact readAt_natCast (by omega)

theorem Shows.next {l left right : CStr} {ls above : List CStr}
    (h : Shows ed ⟨above, left, right, l :: ls⟩) :
    ed.cursorY + 1 = (above.length + 1 : ℕ) ∧
      readAt maxLines ed.lines (ed.cursorY + 1) = some (ed.lines (above.length + 1)) ∧
      Stored Spells ed.lines 0 ((left ++ right) :: above).reverse ∧
      Spells (ed.lines (above.length + 1)) l ∧
      Stored Spells ed.lines (above.length + 1 + 1) ls := by
  have hbelow := h.below
  rw [stored_cons] at hbelow
  have hy : ed.cursorY + 1 = (above.length + 1 : ℕ) := by
    rw [h.y]
    rfl
  have hfits : above.length + 1 + (ls.length + 1) ≤ maxLines := h.size.2
  refine ⟨hy, ?_, ?_, hbelow.1, hbelow.2⟩
  · rw [hy]
    exact readAt_natCast (by omega)
  · rw [List.reverse_cons, stored_append, stored_cons, zero_add, List.length_reverse]
    exact ⟨h.above, h.line, stored_nil⟩

theorem Shows.setLine (h : Shows ed z) {row : Row} {u v : CStr} (hrow : Spells row (u ++ v)) :
    Shows
      { ed with
        lines := Function.update ed.lines z.above.length row, cursorX := u.length,
        modified := true }
      ⟨z.above, u, v, z.below⟩ := by
  refine shows_mk h.size.1 h.size.2 h.y rfl ?_ ?_ ?_
  · refine h.above.congr fun k hk => Function.update_of_ne ?_ _ _
    rw [List.length_reverse] at hk
    omega
  · dsimp only
    rw [Function.update_self]
    exact hrow
  · exact h.below.congr fun k _ => Function.update_of_ne (by omega) _ _

theorem insertChar_shows (h : Shows ed z) (hc : c ≠ 0) :
    ∃ ed', editorInsertChar ed c = some ed' ∧ Shows ed' (z.insert (maxCols - 1) c) := by
  have hcount := h.size.1
  have hy := h.y
  unfold editorInsertChar Zipper.insert
  rw [if_neg (by omega)]
  simp only [h.readLine, h.line.strlen, Option.bind_eq_bind, Option.bind_some]
  by_cases hfull : z.line.length < maxCols - 1
  · obtain ⟨row₁, row₂, hshift, hput, hrow⟩ := h.line.insert hfull hc
    rw [if_neg (by omega), if_pos hfull, h.x]
    simp only [Zipper.line] at hshift ⊢
    simp only [hshift, hput, Option.bind_some, h.writeLine]
    refine ⟨_, rfl, ?_⟩
    have hz := h.setLine (u := z.left ++ [c]) (v := z.right) (by simpa using hrow)
    simpa using hz
  · rw [if_pos (by omega), if_neg hfull]
    exact ⟨ed, rfl, h⟩

theorem mergeLines_shows {p : CStr} {ps below : List CStr} {right : CStr}
    (h : Shows ed ⟨p :: ps, [], right, below⟩) :
    ∃ ed', mergeLines ed = some ed' ∧
      Shows ed' (if p.length + right.length < maxCols - 1 then ⟨ps, p, right, below⟩
        else ⟨p :: ps, [], right, below⟩) := by
  obtain ⟨hcount, hfits⟩ := h.size
  dsimp only [List.length_cons] at hcount hfits
  have hy : ed.cursorY = (ps.length + 1 : ℕ) := h.y
  obtain ⟨hy', hread, habove, hprev, hrest⟩ := h.prev
  rw [List.nil_append, stored_cons] at hrest
  obtain ⟨hline, hbelow⟩ := hrest
  unfold mergeLines
  simp only [hread, h.readLine, List.length_cons, hprev.strlen, hline.strlen, Option.bind_eq_bind,
    Option.bind_some]
  split_ifs with hlen
  · obtain ⟨row, hjoin, hrow⟩ := hprev.join hline (by omega)
    have hrows : Stored Spells (Function.update ed.lines ps.length row) (ps.length + 1 + 1) below :=
      hbelow.congr fun k _ => Function.update_of_ne (by omega) _ _
    obtain ⟨t', hup, hkept, hmoved⟩ := shiftUp_returns hrows (by omega)
    have hput : writeAt maxLines ed.lines (ed.cursorY - 1) row =
        some (Function.update ed.lines ps.length row) := by
      rw [hy']
      exact writeAt_natCast (by omega)
    rw [← hy, ← hcount] at hup
    simp only [hjoin, hput, hup, Option.bind_some]
    refine ⟨_, rfl, shows_mk ?_ (by omega) hy' rfl ?_ ?_ hmoved⟩
    · dsimp only
      omega
    · refine habove.congr fun k hk => ?_
      rw [List.length_reverse] at hk
      dsimp only
      rw [hkept _ (by omega), Function.update_of_ne (by omega)]
    · dsimp only
      rw [hkept _ (by omega), Function.update_self]
      exact hrow
  · exact ⟨ed, rfl, h⟩

theorem backspace_shows (h : Shows ed z) :
    ∃ ed', editorBackspace ed = some ed' ∧ Shows ed' (z.erase (maxCols - 1)) := by
  obtain ⟨above, left, right, below⟩ := z
  have hx := h.x
  have hy := h.y
  unfold editorBackspace Zipper.erase
  dsimp only at hx hy ⊢
  rcases List.eq_nil_or_concat' left with rfl | ⟨u, a, rfl⟩
  · rw [if_neg (by simp [hx])]
    simp only [ne_eq, not_true_eq_false, if_false]
    cases above with
    | nil =>
      rw [if_neg (by simp [hy])]
      exact ⟨ed, rfl, h⟩
    | cons p ps =>
      rw [if_pos (by rw [hy, List.length_cons]; omega)]
      exact mergeLines_shows h
  · have hx' : ed.cursorX = (u.length + 1 : ℕ) := by simpa using hx
    have hline : Spells (ed.lines above.length) (u ++ a :: right) := by
      simpa [Zipper.line] using h.line
    obtain ⟨row, hshift, hrow⟩ := hline.erase
    rw [if_pos (by omega), if_pos (by simp)]
    simp only [h.readLine, hline.strlen, hx', hshift, h.writeLine, Option.bind_eq_bind,
      Option.bind_some]
    refine ⟨_, rfl, ?_⟩
    simpa using h.setLine hrow

theorem newline_shows (h : Shows ed z) :
    ∃ ed', editorNewline ed = some ed' ∧ Shows ed' (z.split (maxLines - 1)) := by
  obtain ⟨hcount, hfits⟩ := h.size
  have hlen := z.length_lines
  have hy : ed.cursorY + 1 = (z.above.length + 1 : ℕ) := by
    rw [h.y]
    rfl
  unfold editorNewline Zipper.split
  split_ifs with hrefused hroom hroom
  · omega
  · exact ⟨ed, rfl, h⟩
  · obtain ⟨cur, new, hsplit, hcur, hnew⟩ := h.line.split
    have hrows : Stored Spells (Function.update ed.lines z.above.length cur) (z.above.length + 1)
        z.below := h.below.congr fun k _ => Function.update_of_ne (by omega) _ _
    obtain ⟨t', hdown, hkept, hmoved⟩ := shiftDown_returns hrows (by omega)
    obtain ⟨next, hnext, hspells⟩ := hnew.strcpy (t' (z.above.length + 1))
    have hread : readAt maxLines t' (ed.cursorY + 1) = some (t' (z.above.length + 1)) := by
      rw [hy]
      exact readAt_natCast (by omega)
    have hput : writeAt maxLines t' (ed.cursorY + 1) next =
        some (Function.update t' (z.above.length + 1) next) := by
      rw [hy]
      exact writeAt_natCast (by omega)
    rw [← h.x] at hsplit
    rw [← hcount, ← h.y] at hdown
    simp only [h.readLine, h.line.strlen, Zipper.line, hsplit, h.writeLine, hdown, hread, hnext,
      hput, Option.bind_eq_bind, Option.bind_some]
    refine ⟨_, rfl, shows_mk ?_ ?_ hy rfl ?_ ?_ ?_⟩
    · dsimp only [List.length_cons]
      omega
    · rw [List.length_cons]
      omega
    · rw [List.reverse_cons, stored_append, stored_cons, zero_add, List.length_reverse]
      refine ⟨h.above.congr fun k hk => ?_, ?_, stored_nil⟩
      · rw [List.length_reverse] at hk
        dsimp only
        rw [Function.update_of_ne (by omega), hkept _ (by omega), Function.update_of_ne (by omega)]
      · dsimp only
        rw [Function.update_of_ne (by omega), hkept _ le_rfl, Function.update_self]
        exact hcur
    · dsimp only [List.length_cons]
      rw [Function.update_self]
      exact hspells
    · exact hmoved.congr fun k _ => Function.update_of_ne (by omega) _ _
  · omega

/-! ### Moving the cursor -/

theorem clamp_eq (l : CStr) (x : ℕ) :
    (if (x : ℤ) > l.length then (l.length : ℤ) else x) = (l.take x).length := by
  rw [List.length_take]
  split_ifs <;> omega

theorem toRow_shows {y : ℤ} {x : ℕ} {l : CStr} {above below : List CStr}
    (hcount : ed.lineCount = (above.length + 1 + below.length : ℕ))
    (hfits : above.length + 1 + below.length ≤ maxLines) (hy : y = above.length)
    (hx : ed.cursorX = x) (habove : Stored Spells ed.lines 0 above.reverse)
    (hline : Spells (ed.lines above.length) l)
    (hbelow : Stored Spells ed.lines (above.length + 1) below) :
    ∃ ed', toRow ed y = some ed' ∧ Shows ed' ⟨above, l.take x, l.drop x, below⟩ := by
  have hread : readAt maxLines ed.lines y = some (ed.lines above.length) := by
    rw [hy]
    exact readAt_natCast (by omega)
  unfold toRow
  simp only [hread, hline.strlen, Option.bind_eq_bind, Option.bind_some]
  refine ⟨_, rfl, shows_mk hcount hfits hy ?_ habove ?_ hbelow⟩
  · dsimp only
    rw [hx]
    exact clamp_eq l x
  · rw [List.take_append_drop]
    exact hline

theorem up_shows (h : Shows ed z) (hy : ed.cursorY > 0) :
    ∃ ed', toRow ed (ed.cursorY - 1) = some ed' ∧ Shows ed' z.up := by
  obtain ⟨above, left, right, below⟩ := z
  obtain ⟨hcount, hfits⟩ := h.size
  have hy₀ := h.y
  cases above with
  | nil =>
    dsimp only [List.length_nil] at hy₀
    omega
  | cons l ls =>
    obtain ⟨hy', -, habove, hline, hbelow⟩ := h.prev
    dsimp only [List.length_cons] at hcount hfits
    refine toRow_shows ?_ ?_ hy' h.x habove hline hbelow
    · dsimp only [List.length_cons]
      omega
    · dsimp only [List.length_cons]
      omega

theorem down_shows (h : Shows ed z) (hy : ed.cursorY < ed.lineCount - 1) :
    ∃ ed', toRow ed (ed.cursorY + 1) = some ed' ∧ Shows ed' z.down := by
  obtain ⟨above, left, right, below⟩ := z
  obtain ⟨hcount, hfits⟩ := h.size
  have hy₀ := h.y
  cases below with
  | nil =>
    dsimp only [List.length_nil] at hcount hy₀
    omega
  | cons l ls =>
    obtain ⟨hy', -, habove, hline, hbelow⟩ := h.next
    dsimp only [List.length_cons] at hcount hfits
    refine toRow_shows ?_ ?_ hy' h.x habove hline hbelow
    · rw [List.length_cons]
      omega
    · rw [List.length_cons]
      omega

theorem up_top (h : Shows ed z) (hy : ed.cursorY ≤ 0) : z.up = z := by
  have hlen : z.above = [] := by
    rw [← List.length_eq_zero_iff]
    have hy' := h.y
    omega
  unfold Zipper.up
  rw [hlen]

theorem down_bottom (h : Shows ed z) (hy : ed.lineCount - 1 ≤ ed.cursorY) : z.down = z := by
  have hlen : z.below = [] := by
    rw [← List.length_eq_zero_iff]
    have hy' := h.y
    have hcount := h.size.1
    omega
  unfold Zipper.down
  rw [hlen]

theorem left_shows (h : Shows ed z) : ∃ ed', left ed = some ed' ∧ Shows ed' z.back := by
  obtain ⟨above, u, right, below⟩ := z
  have hx := h.x
  have hy := h.y
  obtain ⟨hcount, hfits⟩ := h.size
  unfold left Zipper.back
  dsimp only at hx hy ⊢
  rcases List.eq_nil_or_concat' u with rfl | ⟨u, a, rfl⟩
  · rw [if_neg (by simp [hx])]
    cases above with
    | nil =>
      rw [if_neg (by simp [hy])]
      exact ⟨ed, rfl, h⟩
    | cons l ls =>
      obtain ⟨hy', hread, habove, hline, hbelow⟩ := h.prev
      rw [if_pos (by rw [hy, List.length_cons]; omega)]
      simp only [hread, hline.strlen, Option.bind_eq_bind, Option.bind_some]
      refine ⟨_, rfl, shows_mk ?_ ?_ hy' rfl habove ?_ hbelow⟩
      · simp only [List.length_cons] at hcount ⊢
        omega
      · simp only [List.length_cons] at hfits ⊢
        omega
      · rw [List.append_nil]
        exact hline
  · have hx' : ed.cursorX = (u.length + 1 : ℕ) := by simpa using hx
    rw [if_pos (by omega)]
    refine ⟨_, rfl, ?_⟩
    simp only [List.getLast?_concat, List.dropLast_concat]
    refine shows_mk hcount hfits hy ?_ h.above ?_ h.below
    · dsimp only
      omega
    · simpa [Zipper.line] using h.line

theorem right_shows (h : Shows ed z) : ∃ ed', right ed = some ed' ∧ Shows ed' z.forth := by
  obtain ⟨above, u, v, below⟩ := z
  have hx := h.x
  have hy := h.y
  obtain ⟨hcount, hfits⟩ := h.size
  unfold right Zipper.forth
  simp only [h.readLine, h.line.strlen, Option.bind_eq_bind, Option.bind_some, Zipper.line,
    List.length_append]
  dsimp only at hx hy hcount hfits ⊢
  cases v with
  | cons a v =>
    rw [if_pos (by rw [hx, List.length_cons]; omega)]
    refine ⟨_, rfl, shows_mk hcount hfits hy ?_ h.above ?_ h.below⟩
    · simp [hx]
    · simpa [Zipper.line] using h.line
  | nil =>
    rw [if_neg (by rw [hx, List.length_nil]; omega)]
    cases below with
    | nil =>
      rw [if_neg (by rw [hcount, hy, List.length_nil]; omega)]
      exact ⟨ed, rfl, h⟩
    | cons l ls =>
      obtain ⟨hy', hread, habove, hline, hbelow⟩ := h.next
      rw [if_pos (by rw [hcount, hy, List.length_cons]; omega)]
      refine ⟨_, rfl, shows_mk ?_ ?_ hy' rfl habove hline hbelow⟩
      · simp only [List.length_cons] at hcount ⊢
        omega
      · simp only [List.length_cons] at hfits ⊢
        omega

end Kerneloid.Editor.Tables
