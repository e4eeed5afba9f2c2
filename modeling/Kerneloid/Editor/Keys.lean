import Kerneloid.Editor.Codec

/-! # The editor at its keys

`editor_run` reads a key, changes the text, moves the window and draws. `press` is what a key does
to the text and the cursor; the editor refines it (`key_refines`): whatever the key, no index is out
of range, and the window keeps the cursor in view. So the invariant of the editor holds for every
sequence of keys (`keys_keep_invariant`).

Enter and Backspace undo each other, unless the line is full (`enter_backspace`). -/

namespace Kerneloid.Editor.Keys

open Lib.Arrays Lib.Runs Lib.TextZipper UnnamedFS.Types Vfs.Types Vfs.Ops Vfs.Bytes Ops Rows Tables
open Codec

/-- The cursor is inside the visible window. -/
structure Window (ed : EditorState) : Prop where
  rows : 0 ≤ ed.scrollY ∧ ed.scrollY ≤ ed.cursorY ∧ ed.cursorY < ed.scrollY + viewRows
  cols : 0 ≤ ed.scrollX ∧ ed.scrollX ≤ ed.cursorX ∧ ed.cursorX < ed.scrollX + viewCols

/-- **The invariant of the editor.** -/
structure Invariant (ed : EditorState) : Prop where
  count : 1 ≤ ed.lineCount ∧ ed.lineCount ≤ maxLines
  row : 0 ≤ ed.cursorY ∧ ed.cursorY < ed.lineCount
  ends : ∀ i : ℕ, i < ed.lineCount → ∃ j < maxCols, ed.lines i j = 0
  col : 0 ≤ ed.cursorX ∧ ed.cursorX ≤ (rowText (ed.lines ed.cursorY.toNat)).length
  window : Window ed

def text (ed : EditorState) : List CStr :=
  (List.range ed.lineCount.toNat).map fun i => rowText (ed.lines i)

variable {ed : EditorState} {z : Zipper UInt8} {s : Session} {i : ℕ} {c : UInt8}

/-! ### The invariant and the zipper -/

theorem Shows.rowText (h : Shows ed z) (hi : i < z.lines.length) :
    rowText (ed.lines i) = z.lines[i] := by
  have hrow := h.table i _ (List.getElem?_eq_getElem hi)
  rw [zero_add] at hrow
  exact hrow.rowText_eq

theorem Shows.text (h : Shows ed z) : text ed = z.lines := by
  have hcount : ed.lineCount.toNat = z.lines.length := by
    rw [h.count, Int.toNat_natCast]
  refine List.ext_getElem ?_ fun i hi hi' => ?_
  · simp [Keys.text, hcount]
  · simp [Keys.text, Shows.rowText h hi']

theorem Shows.invariant (h : Shows ed z) (hw : Window ed) : Invariant ed := by
  obtain ⟨hcount, hfits⟩ := h.size
  have hy := h.y
  have hx := h.x
  refine ⟨by omega, by omega, ?_, ?_, hw⟩
  · intro i hi
    have hlen : i < z.lines.length := by
      have hc := h.count
      omega
    have hrow := h.table i _ (List.getElem?_eq_getElem hlen)
    rw [zero_add] at hrow
    exact ⟨_, hrow.fits, hrow.stop⟩
  · rw [hy, Int.toNat_natCast, h.line.rowText_eq, hx, Zipper.line, List.length_append]
    omega

theorem stored_rowText {t : ℕ → Row} {m : ℕ} (h : ∀ k < m, ∃ j < maxCols, t (i + k) j = 0) :
    Stored Spells t i ((List.range m).map fun k => rowText (t (i + k))) := by
  intro k l hl
  obtain ⟨hk, rfl⟩ := List.getElem?_eq_some_iff.mp hl
  rw [List.length_map, List.length_range] at hk
  rw [List.getElem_map, List.getElem_range]
  exact spells_rowText (h k hk)

theorem Invariant.shows (h : Invariant ed) : ∃ z, Shows ed z := by
  obtain ⟨⟨hpos, hmax⟩, ⟨hy, hy'⟩, hends, ⟨hx, hx'⟩, -⟩ := h
  obtain ⟨y, hyn⟩ := Int.eq_ofNat_of_zero_le hy
  obtain ⟨x, hxn⟩ := Int.eq_ofNat_of_zero_le hx
  obtain ⟨n, hn⟩ := Int.eq_ofNat_of_zero_le (by omega : 0 ≤ ed.lineCount)
  rw [hyn, Int.toNat_natCast, hxn] at hx'
  refine ⟨⟨((List.range y).map fun k => rowText (ed.lines (0 + k))).reverse,
    (rowText (ed.lines y)).take x, (rowText (ed.lines y)).drop x,
    (List.range (n - y - 1)).map fun k => rowText (ed.lines (y + 1 + k))⟩,
    shows_mk ?_ ?_ ?_ ?_ ?_ ?_ ?_⟩
  · simp only [List.length_reverse, List.length_map, List.length_range]
    omega
  · simp only [List.length_reverse, List.length_map, List.length_range]
    omega
  · simpa using hyn
  · rw [List.length_take, hxn]
    omega
  · rw [List.reverse_reverse]
    exact stored_rowText fun k hk => hends _ (by omega)
  · rw [List.take_append_drop, List.length_reverse, List.length_map, List.length_range]
    exact spells_rowText (hends y (by omega))
  · rw [List.length_reverse, List.length_map, List.length_range]
    exact stored_rowText fun k hk => hends _ (by omega)

theorem init_invariant (filename : Option CStr) : Invariant (editorInit filename) where
  count := (by decide : (1 : ℤ) ≤ 1 ∧ (1 : ℤ) ≤ maxLines)
  row := (by decide : (0 : ℤ) ≤ 0 ∧ (0 : ℤ) < 1)
  ends _ _ := ⟨0, by decide, rfl⟩
  col := ⟨le_rfl, Int.natCast_nonneg _⟩
  window := ⟨(by decide : (0 : ℤ) ≤ 0 ∧ (0 : ℤ) ≤ 0 ∧ (0 : ℤ) < 0 + viewRows),
    (by decide : (0 : ℤ) ≤ 0 ∧ (0 : ℤ) ≤ 0 ∧ (0 : ℤ) < 0 + viewCols)⟩

theorem Loaded.invariant {bs : List UInt8} (h : Loaded ed (pieces bs))
    (hcount : bs.count 10 < maxLines) : Invariant ed := by
  obtain ⟨hx, hy, hsy, hsx⟩ := h.start
  have hlen : (pieces bs).length = bs.count 10 + 1 := by
    rw [pieces, List.length_map, length_split]
  have hc := h.count
  refine ⟨by omega, by omega, fun i _ => ⟨maxCols - 1, by decide, ?_⟩, by omega, ?_, ?_⟩
  · rw [h.bytes, List.getD_eq_default]
    by_cases hi : i < (pieces bs).length
    · rw [List.getD_eq_getElem _ _ hi]
      simp [pieces]
    · rw [List.getD_eq_default _ _ (not_lt.mp hi)]
      exact Nat.zero_le _
  · rw [hsy, hy]
    decide
  · rw [hsx, hx]
    decide

theorem load_invariant {v v' : VState} {filename : Option CStr} {path : CStr}
    (h : editorLoad v (editorInit filename) path = some (v', ed)) : Invariant ed := by
  obtain ⟨w, hload⟩ := editorLoad_eq v filename path
  rw [hload] at h
  by_cases hcount : (bytesRead v path).count 10 < maxLines
  · obtain ⟨ed', hed', hl⟩ := loadBytes_returns filename hcount
    rw [hed'] at h
    cases h
    exact Loaded.invariant hl hcount
  · rw [loadBytes_fails filename (not_lt.mp hcount)] at h
    cases h

/-! ### Drawing -/

theorem digits_returns : ∀ (slots n : ℕ) (out : CStr), n < 10 ^ slots →
    ∃ out', digits slots n out = some out'
  | slots, 0, out, _ => ⟨out, by unfold digits; rfl⟩
  | 0, n + 1, _, h => by
    rw [pow_zero] at h
    omega
  | slots + 1, n + 1, out, h => by
    unfold digits
    refine digits_returns slots _ _ ?_
    rw [pow_succ] at h
    omega

theorem number_returns (n : ℤ) : ∃ out, number n = some out := by
  unfold number
  split_ifs
  · exact ⟨_, rfl⟩
  · refine digits_returns 12 _ _ ?_
    have h32 : (n % 2 ^ 32).toNat < 2 ^ 32 := by omega
    exact h32.trans (by decide)

theorem margin_returns (ed : EditorState) (i : ℤ) : ∃ out, margin ed i = some out := by
  obtain ⟨out, hout⟩ := number_returns (i + 1)
  unfold margin
  rw [hout]
  by_cases h : ed.showLineNumbers = true
  · rw [if_pos h]
    exact ⟨_, rfl⟩
  · rw [if_neg h]
    exact ⟨_, rfl⟩

theorem drawRow_returns (h : Shows ed z) (hx : 0 ≤ ed.scrollX) {i : ℤ} (hi : 0 ≤ i)
    (hi' : i < ed.lineCount) : ∃ out, drawRow ed i = some out := by
  obtain ⟨n, rfl⟩ := Int.eq_ofNat_of_zero_le hi
  have hcount := h.count
  have hfits := h.fits
  have hn : n < z.lines.length := by omega
  have hrow := h.table n _ (List.getElem?_eq_getElem hn)
  rw [zero_add] at hrow
  have hlen := hrow.fits
  obtain ⟨pre, hpre⟩ := margin_returns ed n
  have hread : readAt maxLines ed.lines (n : ℕ) = some (ed.lines n) := readAt_natCast (by omega)
  unfold drawRow
  simp only [hpre, hread, hrow.strlen, Option.bind_eq_bind, Option.bind_some]
  generalize hsx : (if ed.scrollX > (z.lines[n].length : ℤ) then _ else _) = sx
  have hpos : 0 ≤ sx := by
    rw [← hsx]
    split_ifs <;> omega
  obtain ⟨part, hpart⟩ := mapM_returns (f := readAt maxCols (ed.lines n))
    (l := upFrom sx (min (z.lines[n].length : ℤ) (sx + viewCols))) fun c hc => by
      rw [mem_upFrom] at hc
      obtain ⟨m, rfl⟩ := Int.eq_ofNat_of_zero_le (hpos.trans hc.1)
      exact ⟨_, readAt_natCast (by omega)⟩
  rw [hpart]
  exact ⟨_, rfl⟩

theorem drawing_returns (h : Shows ed z) (hw : Window ed) : ∃ out, drawing ed = some out := by
  have hle : drawEnd ed ≤ ed.lineCount := by
    unfold drawEnd
    split_ifs <;> omega
  obtain ⟨rows, hrows⟩ := mapM_returns (f := drawRow ed) (l := upFrom ed.scrollY (drawEnd ed))
    fun i hi => by
      rw [mem_upFrom] at hi
      exact drawRow_returns h hw.cols.1 (hw.rows.1.trans hi.1) (hi.2.trans_le hle)
  obtain ⟨y, hy⟩ := number_returns (ed.cursorY + 1)
  obtain ⟨x, hx⟩ := number_returns (ed.cursorX + 1)
  obtain ⟨n, hn⟩ := number_returns ed.lineCount
  unfold drawing
  rw [hrows, hy, hx, hn]
  exact ⟨_, rfl⟩

theorem draw_returns (h : Shows s.ed z) (hw : Window s.ed) :
    ∃ out, editorDraw s = some { s with screen := out } := by
  obtain ⟨out, hout⟩ := drawing_returns h hw
  unfold editorDraw
  rw [hout]
  exact ⟨out, rfl⟩

/-! ### One key -/

/-- What a key does to the text and the cursor. -/
def press (z : Zipper UInt8) (c : UInt8) : Zipper UInt8 :=
  if c = 1 then z.up
  else if c = 2 then z.down
  else if c = 3 then z.back
  else if c = 4 then z.forth
  else if c = 8 then z.erase (maxCols - 1)
  else if c = 10 ∨ c = 13 then z.split (maxLines - 1)
  else if 32 ≤ c ∧ c < 127 then z.insert (maxCols - 1) c
  else if c = 9 then (List.replicate 4 32).foldl (Zipper.insert (maxCols - 1)) z
  else z

theorem scroll_follows {x start size : ℤ} (hx : 0 ≤ x) (hsize : 0 < size) :
    let s := if x < start then x else start
    let s' := if x ≥ s + size then x - size + 1 else s
    0 ≤ (if s' < 0 then 0 else s') ∧ (if s' < 0 then 0 else s') ≤ x ∧
      x < (if s' < 0 then 0 else s') + size := by
  intro s s'
  have hs : s ≤ x := by
    dsimp only [s]
    split_ifs <;> omega
  have hs' : s' ≤ x ∧ x < s' + size := by
    dsimp only [s']
    split_ifs <;> omega
  split_ifs <;> omega

theorem ensureScroll_window (hy : 0 ≤ ed.cursorY) (hx : 0 ≤ ed.cursorX) :
    Window (editorEnsureScroll ed) :=
  ⟨scroll_follows hy (by decide), scroll_follows hx (by decide)⟩

theorem ensureScroll_shows (h : Shows ed z) : Shows (editorEnsureScroll ed) z :=
  ⟨h.count, h.y, h.x, h.fits, h.above, h.line, h.below⟩

/-- What holds of the editor after a key. -/
def After (s' : Session) (z : Zipper UInt8) : Prop := Shows s'.ed z ∧ Window s'.ed

theorem edit_returns {f : EditorState → Option EditorState}
    (hf : ∃ ed', f s.ed = some ed' ∧ Shows ed' z) : ∃ s', s.edit f = some s' ∧ After s' z := by
  obtain ⟨ed', hed', h⟩ := hf
  have hy := h.y
  have hx := h.x
  have hshows := ensureScroll_shows h
  have hwindow : Window (editorEnsureScroll ed') := ensureScroll_window (by omega) (by omega)
  unfold Session.edit
  simp only [hed', Option.bind_eq_bind, Option.bind_some]
  obtain ⟨out, hout⟩ := draw_returns (s := { s with ed := editorEnsureScroll ed' }) hshows hwindow
  exact ⟨_, hout, hshows, hwindow⟩

theorem save_returns (h : Shows s.ed z) :
    ∃ v b out r, editorSave s =
      some ({ s with vfs := v, ed := { s.ed with modified := b }, screen := out }, r) := by
  unfold editorSave
  split_ifs
  · exact ⟨_, _, _, _, rfl⟩
  · rw [buildBuffer_eq h]
    simp only [Option.bind_eq_bind, Option.bind_some]
    split_ifs
    · exact ⟨_, _, _, _, rfl⟩
    · exact ⟨_, _, _, _, rfl⟩
    · exact ⟨_, _, _, _, rfl⟩

theorem insertChars_shows (hc : c ≠ 0) : ∀ (n : ℕ) {ed : EditorState} {z : Zipper UInt8},
    Shows ed z → ∃ ed', (List.replicate n c).foldlM editorInsertChar ed = some ed' ∧
      Shows ed' ((List.replicate n c).foldl (Zipper.insert (maxCols - 1)) z)
  | 0, ed, z, h => ⟨ed, rfl, h⟩
  | n + 1, ed, z, h => by
    obtain ⟨ed', hed', h'⟩ := insertChar_shows h hc
    obtain ⟨ed'', hed'', h''⟩ := insertChars_shows hc n h'
    refine ⟨ed'', ?_, h''⟩
    rw [List.replicate_succ, List.foldlM_cons, hed']
    exact hed''

theorem press_control {c : UInt8} (h : c = 0 ∨ c = 0x13 ∨ c = 0x11) : press z c = z := by
  rcases h with rfl | rfl | rfl <;> rfl

theorem saveKey_returns (h : Shows s.ed z) (hw : Window s.ed) :
    ∃ s', saveKey s = some s' ∧ After s' z := by
  obtain ⟨v, b, out, r, hsave⟩ := save_returns h
  unfold saveKey
  rw [hsave]
  simp only [Option.bind_eq_bind, Option.bind_some]
  have hshows : Shows { s.ed with modified := b } z :=
    ⟨h.count, h.y, h.x, h.fits, h.above, h.line, h.below⟩
  have hwindow : Window { s.ed with modified := b } := ⟨hw.rows, hw.cols⟩
  obtain ⟨out', hdraw⟩ := draw_returns (s := Session.println
    { s with vfs := v, ed := { s.ed with modified := b }, screen := out }
    (if r = 0 then cstr "Saved." else cstr "Save failed.")) hshows hwindow
  exact ⟨_, hdraw, hshows, hwindow⟩

theorem editKey_refines (h : Shows s.ed z) (hw : Window s.ed) (c : UInt8) :
    ∃ s', editKey s c = some s' ∧ After s' (press z c) := by
  unfold editKey
  by_cases h0 : c = 0
  · rw [if_pos h0, press_control (Or.inl h0)]
    exact ⟨s, rfl, h, hw⟩
  rw [if_neg h0]
  by_cases hsave : c = 0x13
  · rw [if_pos hsave, press_control (Or.inr (Or.inl hsave))]
    exact saveKey_returns h hw
  rw [if_neg hsave]
  by_cases hquit : c = 0x11
  · rw [if_pos hquit, press_control (Or.inr (Or.inr hquit))]
    by_cases hmod : s.ed.modified = true
    · rw [if_pos hmod]
      exact ⟨_, rfl, h, hw⟩
    · rw [if_neg hmod]
      exact ⟨_, rfl, h, hw⟩
  rw [if_neg hquit]
  unfold press
  by_cases h1 : c = 1
  · rw [if_pos h1, if_pos h1]
    by_cases hy : s.ed.cursorY > 0
    · rw [if_pos hy]
      exact edit_returns (up_shows h hy)
    · rw [if_neg hy, up_top h (not_lt.mp hy)]
      exact ⟨s, rfl, h, hw⟩
  rw [if_neg h1, if_neg h1]
  by_cases h2 : c = 2
  · rw [if_pos h2, if_pos h2]
    by_cases hy : s.ed.cursorY < s.ed.lineCount - 1
    · rw [if_pos hy]
      exact edit_returns (down_shows h hy)
    · rw [if_neg hy, down_bottom h (not_lt.mp hy)]
      exact ⟨s, rfl, h, hw⟩
  rw [if_neg h2, if_neg h2]
  split_ifs with h3 h4 h8 hn hc h9
  · exact edit_returns (left_shows h)
  · exact edit_returns (right_shows h)
  · exact edit_returns (backspace_shows h)
  · exact edit_returns (newline_shows h)
  · exact edit_returns (insertChar_shows h h0)
  · exact edit_returns (insertChars_shows (by decide) 4 h)
  · exact ⟨s, rfl, h, hw⟩

/-- **The editor refines the text with its cursor**, whatever the key. -/
theorem key_refines (h : Shows s.ed z) (hw : Window s.ed) (c : UInt8) :
    ∃ s', key s c = some s' ∧ After s' (if s.mode = .editing then press z c else z) := by
  unfold key
  cases hmode : s.mode with
  | editing =>
    rw [if_pos rfl]
    exact editKey_refines h hw c
  | done => exact ⟨s, rfl, h, hw⟩
  | asking =>
    rw [if_neg nofun]
    dsimp only
    unfold answerKey
    split_ifs
    · exact ⟨s, rfl, h, hw⟩
    · exact ⟨_, rfl, h, hw⟩
    · obtain ⟨v, b, out, r, hsave⟩ := save_returns h
      rw [hsave]
      exact ⟨_, rfl, ⟨h.count, h.y, h.x, h.fits, h.above, h.line, h.below⟩, ⟨hw.rows, hw.cols⟩⟩
    · obtain ⟨out, hdraw⟩ := draw_returns (s := { s with mode := .editing }) h hw
      exact ⟨_, hdraw, h, hw⟩

/-! ### All keys -/

theorem run_invariant (w : ByteVfs) (h : Invariant ed) {st : Option Session}
    (hrun : Reach (Lifted Any) (lift key) (editorRun w ed) st) :
    ∃ s, st = some s ∧ Invariant s.ed := by
  refine hrun.returns (I := fun s => Invariant s.ed) ?_ ?_
  · obtain ⟨z, hz⟩ := h.shows
    obtain ⟨out, hdraw⟩ := draw_returns (s := ⟨w, ed, .editing, []⟩) hz h.window
    exact ⟨_, hdraw, h⟩
  · intro s c hs _
    obtain ⟨z, hz⟩ := hs.shows
    obtain ⟨s', hs', hz', hw'⟩ := key_refines hz hs.window c
    exact ⟨s', hs', Shows.invariant hz' hw'⟩

theorem open_invariant {w : ByteVfs} {path : Option CStr} (hopen : editorOpen w path ≠ none)
    {st : Option Session} (hrun : Reach (Lifted Any) (lift key) (editorOpen w path) st) :
    ∃ s, st = some s ∧ Invariant s.ed := by
  unfold editorOpen at hopen hrun
  split_ifs at hopen hrun with hname
  · cases hload : editorLoad w.vfs (editorInit path) (path.getD []) with
    | none =>
      rw [hload] at hopen
      exact absurd rfl hopen
    | some r =>
      rw [hload] at hrun
      exact run_invariant _ (load_invariant hload) hrun
  · exact run_invariant w (init_invariant path) hrun

/-- An editor that `editor_run` may be given: a fresh one, one that was loaded, or any that
satisfies the invariant. -/
inductive Ready : EditorState → Prop
  | init (filename : Option CStr) : Ready (editorInit filename)
  | loaded {v v' : VState} {filename : Option CStr} {path : CStr} {ed : EditorState}
      (h : editorLoad v (editorInit filename) path = some (v', ed)) : Ready ed
  | other {ed : EditorState} (h : Invariant ed) : Ready ed

/-- **The invariant holds for every sequence of keys**, and no index is out of range: `editor_run`
returns from each of them. -/
theorem keys_keep_invariant (w : ByteVfs) (h : Ready ed) {st : Option Session}
    (hrun : Reach (Lifted Any) (lift key) (editorRun w ed) st) :
    ∃ s, st = some s ∧ Invariant s.ed := by
  cases h with
  | init filename => exact run_invariant w (init_invariant filename) hrun
  | loaded hload => exact run_invariant w (load_invariant hload) hrun
  | other hed => exact run_invariant w hed hrun

/-- Some text with a tab, the four arrows, Backspace, a save and a question not answered. -/
def someKeys : List UInt8 := [97, 98, 10, 99, 9, 1, 2, 3, 4, 8, 8, 0x13, 0x11, 97, 13]

theorem keys_keep_invariant_some :
    ∃ s, someKeys.foldl (lift key) (editorRun initBytes (editorInit (some (cstr "/a")))) = some s ∧
      Invariant s.ed :=
  keys_keep_invariant initBytes (.init _)
    (Reach.foldl someKeys .init (Admits.always someKeys _ fun _ _ _ => trivial))

/-! ### Enter and Backspace -/

/-- The text and the cursor of two editors are the same. -/
structure SameText (ed ed' : EditorState) : Prop where
  count : ed'.lineCount = ed.lineCount
  lines : text ed' = text ed
  x : ed'.cursorX = ed.cursorX
  y : ed'.cursorY = ed.cursorY

/-- **Enter, then Backspace.** Where `editor_newline` is not refused, `editor_backspace` undoes it
exactly if the line is not full. -/
theorem enter_backspace (h : Invariant ed) (hroom : ed.lineCount < maxLines - 1) :
    ∃ ed₁ ed₂, editorNewline ed = some ed₁ ∧ editorBackspace ed₁ = some ed₂ ∧
      (SameText ed ed₂ ↔ (rowText (ed.lines ed.cursorY.toNat)).length < maxCols - 1) := by
  obtain ⟨z, hz⟩ := h.shows
  have hlines : z.lines.length < maxLines - 1 := by
    have hcount := hz.count
    have hmax : maxLines = 256 := rfl
    omega
  have hrow : rowText (ed.lines ed.cursorY.toNat) = z.line := by
    rw [hz.y, Int.toNat_natCast]
    exact hz.line.rowText_eq
  obtain ⟨ed₁, hed₁, hz₁⟩ := newline_shows hz
  obtain ⟨ed₂, hed₂, hz₂⟩ := backspace_shows hz₁
  refine ⟨ed₁, ed₂, hed₁, hed₂, ?_⟩
  rw [hrow]
  rw [z.erase_split hlines] at hz₂
  split_ifs at hz₂ with hlen
  · refine iff_of_true ⟨?_, ?_, ?_, ?_⟩ hlen
    · rw [hz₂.count, hz.count]
    · rw [Shows.text hz₂, Shows.text hz]
    · rw [hz₂.x, hz.x]
    · rw [hz₂.y, hz.y]
  · refine iff_of_false (fun hsame => ?_) hlen
    have hy := hsame.y
    rw [hz₂.y, hz.y, List.length_cons] at hy
    omega

theorem enter_backspace_init :
    ∃ ed₁ ed₂, editorNewline (editorInit none) = some ed₁ ∧ editorBackspace ed₁ = some ed₂ ∧
      (SameText (editorInit none) ed₂ ↔
        (rowText ((editorInit none).lines (editorInit none).cursorY.toNat)).length < maxCols - 1) :=
  enter_backspace (init_invariant none) (by decide)

/-- A line of 255 characters, with the cursor behind it. -/
def fullLine : EditorState :=
  { editorInit none with
    lines := fun i j => if i = 0 ∧ j < 255 then 97 else 0, cursorX := 255, scrollX := 180 }

/-- **A full line stays split.** -/
theorem full_line_split : Invariant fullLine ∧
    (do let ed ← editorBackspace (← editorNewline fullLine)
        return (ed.lineCount, ed.cursorY, ed.cursorX)) = some (2, 1, 0) := by
  refine ⟨⟨by decide, by decide, fun i _ => ⟨255, by decide, ?_⟩, ?_, by decide, by decide⟩, ?_⟩
  · exact if_neg fun hlt => lt_irrefl 255 hlt.2
  · decide +kernel
  · decide +kernel

end Kerneloid.Editor.Keys
