import Kerneloid.Editor.Tables
import Kerneloid.Vfs.Contents

/-! # The text and its bytes

`editor_load` cuts the bytes of a file into lines, and `editor_save` puts the lines back together.
`pieces` and `joined` are the two functions without the arrays. `editor_load` delivers the pieces
exactly as long as there are fewer than 256 newlines (`loadBytes_returns`, `loadBytes_fails`);
`editor_save` delivers the joined lines as far as its buffer goes (`buildBuffer_eq`). -/

namespace Kerneloid.Editor.Codec

open Lib.Arrays Lib.TextZipper UnnamedFS.Types Vfs.Types Vfs.Ops Vfs.Contents Ops Rows Tables

/-- The lines joined by newlines. -/
def joined (ls : List CStr) : List UInt8 := [10].intercalate ls

/-- The newline-separated pieces, without carriage returns. -/
def split (bytes : List UInt8) : List CStr := (bytes.filter (· ≠ 13)).splitOn 10

/-- The pieces, each cut to what a row holds. -/
def pieces (bytes : List UInt8) : List CStr := (split bytes).map (·.take (maxCols - 1))

/-! ### Splitting -/

theorem split_return (bs : List UInt8) : split (13 :: bs) = split bs := rfl

theorem split_newline (bs : List UInt8) : split (10 :: bs) = [] :: split bs := by
  have hkeep : (10 :: bs).filter (· ≠ 13) = 10 :: bs.filter (· ≠ 13) := rfl
  unfold split
  rw [hkeep]
  exact List.splitOnP_cons_eq_if_modifyHead _ _

theorem split_char {c : UInt8} (hr : c ≠ 13) (hn : c ≠ 10) (bs : List UInt8) :
    split (c :: bs) = (split bs).modifyHead (c :: ·) := by
  unfold split
  rw [List.filter_cons_of_pos (by simpa using hr)]
  refine (List.splitOnP_cons_eq_if_modifyHead _ _).trans (if_neg ?_)
  simpa using hn

theorem length_split : ∀ bs : List UInt8, (split bs).length = bs.count 10 + 1
  | [] => rfl
  | c :: bs => by
    by_cases hr : c = 13
    · subst hr
      rw [split_return, length_split bs, List.count_cons_of_ne (by decide)]
    · by_cases hn : c = 10
      · subst hn
        rw [split_newline, List.length_cons, length_split bs, List.count_cons_self]
      · rw [split_char hr hn, List.length_modifyHead, length_split bs, List.count_cons_of_ne hn]

/-! ### Loading -/

/-- What the loop of `editor_load` has read: the lines `done`, and `cur` of the current one. The
table was zero before. -/
structure Parsed (p : Parse) (done : List CStr) (cur : CStr) : Prop where
  line : p.line = done.length
  col : p.col = cur.length
  room : done.length < maxLines
  fits : cur.length ≤ maxCols - 1
  bytes : ∀ i j, p.lines i j = ((done ++ [cur]).getD i []).getD j 0

variable {p : Parse} {done : List CStr} {cur : CStr} {c : UInt8} {t : ℕ → Row} {i j : ℕ}

theorem putByte_natCast (hi : i < maxLines) (hj : j < maxCols) :
    putByte t i j c = some (Function.update t i (Function.update (t i) j c)) := by
  unfold putByte
  simp only [readAt_natCast hi, writeAt_natCast hj, writeAt_natCast hi, Option.bind_eq_bind,
    Option.bind_some]

theorem Parsed.stop (h : Parsed p done cur) : putByte p.lines p.line p.col 0 = some p.lines := by
  have hfits := h.fits
  have hcols : maxCols = 256 := rfl
  rw [h.line, h.col, putByte_natCast h.room (by omega)]
  have hzero : p.lines done.length cur.length = 0 := by
    rw [h.bytes, List.getD_append_right _ _ _ _ le_rfl]
    simp
  rw [← hzero, Function.update_eq_self, Function.update_eq_self]

theorem getD_snoc {α : Type} (l : List α) (a d : α) (i : ℕ) :
    (l ++ [a]).getD i d = if i = l.length then a else l.getD i d := by
  rcases lt_trichotomy i l.length with h | rfl | h
  · rw [List.getD_append _ _ _ _ h, if_neg h.ne]
  · rw [List.getD_append_right _ _ _ _ le_rfl, if_pos rfl, Nat.sub_self, List.getD_cons_zero]
  · rw [List.getD_eq_default _ _ (by simpa using h), if_neg h.ne', List.getD_eq_default _ _ h.le]

theorem Parsed.newline (h : Parsed p done cur) (hroom : done.length + 1 < maxLines) :
    Parsed ⟨p.lines, p.line + 1, 0⟩ (done ++ [cur]) [] := by
  refine ⟨?_, rfl, by simpa using hroom, Nat.zero_le _, fun i j => ?_⟩
  · rw [h.line]
    simp
  · dsimp only
    rw [h.bytes, getD_snoc (done ++ [cur])]
    split_ifs with hi
    · rw [List.getD_eq_default (done ++ [cur]) _ hi.ge]
    · rfl

theorem Parsed.char (h : Parsed p done cur) (hroom : cur.length < maxCols - 1) (c : UInt8) :
    ∃ t, putByte p.lines p.line p.col c = some t ∧
      Parsed ⟨t, p.line, p.col + 1⟩ done (cur ++ [c]) := by
  rw [h.line, h.col, putByte_natCast h.room (by omega)]
  refine ⟨_, rfl, rfl, by simp, h.room, by simpa using hroom, fun i j => ?_⟩
  dsimp only
  rw [getD_snoc]
  by_cases hi : i = done.length
  · rw [if_pos hi, getD_snoc, hi, Function.update_self, Function.update_apply, h.bytes, getD_snoc,
      if_pos rfl]
  · rw [if_neg hi, Function.update_of_ne hi, h.bytes, getD_snoc, if_neg hi]

/-- The lines so far, with `full` of the current one, and the pieces of what is left. -/
def linesOf (done : List CStr) (full : CStr) (bs : List UInt8) : List CStr :=
  done ++ ((split bs).modifyHead (full ++ ·)).map (·.take (maxCols - 1))

theorem linesOf_newline (done : List CStr) (full : CStr) (bs : List UInt8) :
    linesOf (done ++ [full.take (maxCols - 1)]) [] bs = linesOf done full (10 :: bs) := by
  have hid : (split bs).modifyHead ([] ++ ·) = split bs := List.modifyHead_id ▸ rfl
  unfold linesOf
  rw [split_newline, hid, List.modifyHead_cons, List.map_cons, List.append_nil, List.append_assoc]
  rfl

theorem linesOf_char (hr : c ≠ 13) (hn : c ≠ 10) (done : List CStr) (full : CStr)
    (bs : List UInt8) : linesOf done (full ++ [c]) bs = linesOf done full (c :: bs) := by
  unfold linesOf
  rw [split_char hr hn, List.modifyHead_modifyHead]
  congr 3
  funext l
  simp

/-- **One turn of the loop of `editor_load`**: a carriage return, a newline, the newline at which
the loop is left, or a character, for which there may be no room. -/
theorem loadLoop_cons (h : Parsed p done cur) (c : UInt8) (bs : List UInt8) :
    (c = 13 ∧ loadLoop (c :: bs) p = loadLoop bs p) ∨
      (c = 10 ∧ done.length + 1 < maxLines ∧
        ∃ p', loadLoop (c :: bs) p = loadLoop bs p' ∧ Parsed p' (done ++ [cur]) []) ∨
      (c = 10 ∧ done.length + 1 = maxLines ∧
        ∃ p', loadLoop (c :: bs) p = some p' ∧ p'.line = maxLines ∧ p'.col = 0) ∨
      (c ≠ 13 ∧ c ≠ 10 ∧ ∃ p', loadLoop (c :: bs) p = loadLoop bs p' ∧
        Parsed p' done ((cur ++ [c]).take (maxCols - 1))) := by
  have hline := h.line
  have hcol := h.col
  have hroom := h.room
  have hfits := h.fits
  rw [loadLoop]
  by_cases hr : c = 13
  · rw [if_pos hr]
    exact Or.inl ⟨hr, rfl⟩
  rw [if_neg hr]
  by_cases hn : c = 10
  · rw [if_pos hn, h.stop]
    simp only [Option.bind_eq_bind, Option.bind_some]
    by_cases hlast : done.length + 1 < maxLines
    · rw [if_neg (by omega)]
      exact Or.inr (Or.inl ⟨hn, hlast, _, rfl, h.newline hlast⟩)
    · rw [if_pos (by omega)]
      exact Or.inr (Or.inr (Or.inl ⟨hn, by omega, _, rfl, by dsimp only; omega, rfl⟩))
  rw [if_neg hn]
  refine Or.inr (Or.inr (Or.inr ⟨hr, hn, ?_⟩))
  by_cases hlt : cur.length < maxCols - 1
  · obtain ⟨t, ht, hp⟩ := h.char hlt c
    rw [if_pos (by omega), ht, List.take_of_length_le (by simpa using hlt)]
    exact ⟨_, rfl, hp⟩
  · rw [if_neg (by omega), List.take_append_of_le_length (not_lt.mp hlt),
      List.take_of_length_le hfits]
    exact ⟨p, rfl, h⟩

theorem take_take_snoc (full : CStr) (c : UInt8) (n : ℕ) :
    (full.take n ++ [c]).take n = (full ++ [c]).take n := by
  rcases le_or_gt full.length n with hle | hlt
  · rw [List.take_of_length_le hle]
  · rw [List.take_append_of_le_length hlt.le, List.take_append_of_le_length (by simp; omega),
      List.take_take, min_self]

theorem loadLoop_returns : ∀ (bs : List UInt8) {p : Parse} {done : List CStr} {full : CStr},
    Parsed p done (full.take (maxCols - 1)) → done.length + bs.count 10 < maxLines →
      ∃ p' done' cur', loadLoop bs p = some p' ∧ Parsed p' done' cur' ∧
        done' ++ [cur'] = linesOf done full bs
  | [], p, done, full, h, _ => by
    refine ⟨p, done, _, rfl, h, ?_⟩
    simp [linesOf, split]
  | c :: bs, p, done, full, h, hcount => by
    rcases loadLoop_cons h c bs with
      ⟨rfl, he⟩ | ⟨rfl, -, p', he, hp⟩ | ⟨rfl, hlast, -⟩ | ⟨hr, hn, p', he, hp⟩
    · rw [List.count_cons_of_ne (by decide)] at hcount
      rw [he]
      exact loadLoop_returns bs h hcount
    · rw [List.count_cons_self] at hcount
      rw [he, ← linesOf_newline]
      refine loadLoop_returns bs (List.take_nil (i := maxCols - 1) ▸ hp) ?_
      rw [List.length_append, List.length_singleton]
      omega
    · rw [List.count_cons_self] at hcount
      omega
    · rw [List.count_cons_of_ne hn] at hcount
      rw [take_take_snoc] at hp
      rw [he, ← linesOf_char hr hn]
      exact loadLoop_returns bs hp hcount

theorem loadLoop_breaks : ∀ (bs : List UInt8) {p : Parse} {done : List CStr} {cur : CStr},
    Parsed p done cur → maxLines ≤ done.length + bs.count 10 →
      ∃ p', loadLoop bs p = some p' ∧ p'.line = maxLines ∧ p'.col = 0
  | [], p, done, cur, h, hcount => by
    have hroom := h.room
    rw [List.count_nil] at hcount
    omega
  | c :: bs, p, done, cur, h, hcount => by
    rcases loadLoop_cons h c bs with
      ⟨rfl, he⟩ | ⟨rfl, -, p', he, hp⟩ | ⟨-, -, hstop⟩ | ⟨-, hn, p', he, hp⟩
    · rw [List.count_cons_of_ne (by decide)] at hcount
      rw [he]
      exact loadLoop_breaks bs h hcount
    · rw [List.count_cons_self] at hcount
      rw [he]
      refine loadLoop_breaks bs hp ?_
      rw [List.length_append, List.length_singleton]
      omega
    · exact hstop
    · rw [List.count_cons_of_ne hn] at hcount
      rw [he]
      exact loadLoop_breaks bs hp hcount

theorem parsed_start (filename : Option CStr) :
    Parsed ⟨(editorInit filename).lines, 0, 0⟩ [] [] := by
  refine ⟨rfl, rfl, by decide, by decide, fun i j => ?_⟩
  rw [List.nil_append]
  cases i <;> rfl

theorem Parsed.loadEnd (h : Parsed p done cur) (n : ℤ) :
    loadEnd n p = some (p.lines, ((done ++ [cur]).length : ℤ)) := by
  have hline := h.line
  have hroom := h.room
  have hend : endLast p = some (p.lines, p.line + 1) := by
    unfold endLast
    rw [h.stop]
    rfl
  have hcount : loadCount n p = some (p.lines, p.line + 1) := by
    unfold loadCount
    split_ifs with hzero hstart hmid
    · obtain ⟨hl, hc⟩ := hstart
      have hstop := h.stop
      rw [hl, hc] at hstop
      rw [hstop, hl]
      rfl
    · exact hend
    · rfl
    · exact hend
  unfold Ops.loadEnd
  rw [hcount]
  simp only [Option.bind_eq_bind, Option.bind_some]
  rw [if_neg (by omega), if_neg (by omega), hline, List.length_append]
  rfl

/-- The editor after `editor_load` on a fresh editor, if the lines are `ls`. -/
structure Loaded (ed : EditorState) (ls : List CStr) : Prop where
  count : ed.lineCount = ls.length
  bytes : ∀ i j, ed.lines i j = (ls.getD i []).getD j 0
  start : ed.cursorX = 0 ∧ ed.cursorY = 0 ∧ ed.scrollY = 0 ∧ ed.scrollX = 0

theorem loadBytes_returns (filename : Option CStr) {bs : List UInt8} (h : bs.count 10 < maxLines) :
    ∃ ed, loadBytes (editorInit filename) bs = some ed ∧ Loaded ed (pieces bs) := by
  have hstart : Parsed ⟨(editorInit filename).lines, 0, 0⟩ [] (([] : CStr).take (maxCols - 1)) :=
    parsed_start filename
  obtain ⟨p, done, cur, hloop, hp, hlines⟩ := loadLoop_returns bs hstart (by simpa using h)
  have hpieces : done ++ [cur] = pieces bs := by
    rw [hlines, linesOf, List.nil_append]
    exact congrArg _ (congrFun List.modifyHead_id _)
  unfold loadBytes
  rw [hloop]
  simp only [Option.bind_eq_bind, Option.bind_some, hp.loadEnd, hpieces]
  refine ⟨_, rfl, rfl, ?_, rfl, rfl, rfl, rfl⟩
  intro i j
  rw [← hpieces]
  exact hp.bytes i j

theorem loadBytes_fails (filename : Option CStr) {bs : List UInt8} (h : maxLines ≤ bs.count 10) :
    loadBytes (editorInit filename) bs = none := by
  obtain ⟨p, hloop, hline, hcol⟩ := loadLoop_breaks bs (parsed_start filename) (by simpa using h)
  have hne : (bs.length : ℤ) ≠ 0 := by
    have hcount := List.count_le_length (a := (10 : UInt8)) (l := bs)
    have hlines : maxLines = 256 := rfl
    omega
  have hend : endLast p = none := by
    unfold endLast putByte readAt
    rw [hline, if_neg (by simp)]
    rfl
  have hcount : loadCount bs.length p = none := by
    unfold loadCount
    rw [if_neg hne, if_neg (by rw [hline, hcol]; simp), hend]
  unfold loadBytes Ops.loadEnd
  rw [hloop]
  simp only [Option.bind_eq_bind, Option.bind_some, hcount, Option.bind_none]

/-! ### Loading a file -/

/-- The bytes that `editor_load` reads. -/
def bytesRead (v : VState) (path : CStr) : List UInt8 :=
  if (vfsOpen v path 1).2 < 0 then []
  else (vfsRead (vfsOpen v path 1).1 (vfsOpen v path 1).2 (maxFile - 1)).2.2

theorem readLength_bytes (v : VState) (fd : ℤ) :
    (vfsRead v fd (maxFile - 1)).2.2.take (readLength (vfsRead v fd (maxFile - 1)).2.1).toNat =
      (vfsRead v fd (maxFile - 1)).2.2 := by
  have hmax : maxFile = 4096 := rfl
  rcases vfsRead_length v fd (by decide : maxFile - 1 < 2 ^ 31) with ⟨-, hnil⟩ | ⟨hn, hle⟩
  · rw [hnil, List.take_nil]
  · have hlen : readLength (vfsRead v fd (maxFile - 1)).2.1 =
        (vfsRead v fd (maxFile - 1)).2.2.length := by
      unfold readLength
      dsimp only
      rw [hn, if_neg (by omega), if_neg (by omega)]
    rw [hlen, Int.toNat_natCast, List.take_length]

theorem editorLoad_eq (v : VState) (filename : Option CStr) (path : CStr) :
    ∃ v', editorLoad v (editorInit filename) path =
      (loadBytes (editorInit filename) (bytesRead v path)).map fun ed => (v', ed) := by
  unfold editorLoad bytesRead
  dsimp only
  by_cases hopen : (vfsOpen v path 1).2 < 0
  · have hstop : putByte (editorInit filename).lines 0 0 0 = some (editorInit filename).lines :=
      (parsed_start filename).stop
    have hempty : loadBytes (editorInit filename) [] = some (editorInit filename) := by
      unfold loadBytes loadLoop
      simp only [Option.bind_eq_bind, Option.bind_some, (parsed_start filename).loadEnd]
      rfl
    rw [if_pos hopen, if_pos hopen, hstop, hempty]
    exact ⟨_, rfl⟩
  · rw [if_neg hopen, if_neg hopen, readLength_bytes]
    exact ⟨_, (Option.map_eq_bind).symm⟩

/-! ### Saving -/

/-- The lines joined as far as the buffer of `editor_save` goes, after `out`. -/
def packed : List CStr → List UInt8 → List UInt8
  | [], out => out
  | l :: ls, out =>
    if out.length + l.length + 1 ≥ maxFile then out
    else if ls = [] then out ++ l else packed ls (out ++ l ++ [10])

theorem joined_cons {l : CStr} {ls : List CStr} (h : ls ≠ []) :
    joined (l :: ls) = l ++ 10 :: joined ls := by
  obtain ⟨l', ls, rfl⟩ := List.exists_cons_of_ne_nil h
  simp [joined, List.intercalate, List.intersperse]

theorem joined_singleton (l : CStr) : joined [l] = l := by
  simp [joined, List.intercalate]

theorem packed_prefix : ∀ (ls : List CStr) (out : List UInt8), packed ls out <+: out ++ joined ls
  | [], out => by simp [packed, joined]
  | l :: ls, out => by
    unfold packed
    split_ifs with hfull hlast
    · exact List.prefix_append _ _
    · rw [hlast, joined_singleton]
    · have h := packed_prefix ls (out ++ l ++ [10])
      rw [joined_cons hlast]
      simpa using h

theorem packed_eq : ∀ (ls : List CStr) (out : List UInt8),
    (out ++ joined ls).length + 1 < maxFile → packed ls out = out ++ joined ls
  | [], out, _ => by simp [packed, joined]
  | l :: ls, out, h => by
    have hlen : out.length + l.length + 1 < maxFile := by
      by_cases hlast : ls = []
      · rw [hlast, joined_singleton, List.length_append] at h
        exact h
      · rw [joined_cons hlast] at h
        simp only [List.length_append, List.length_cons] at h
        omega
    unfold packed
    rw [if_neg (by omega)]
    split_ifs with hlast
    · rw [hlast, joined_singleton]
    · rw [joined_cons hlast] at h ⊢
      rw [packed_eq ls]
      · simp
      · simpa using h

variable {ed : EditorState} {z : Zipper UInt8}

theorem buildLoop_eq : ∀ (ls : List CStr) {i : ℕ} (out : List UInt8), Stored Spells ed.lines i ls →
    ed.lineCount = (i + ls.length : ℕ) → i + ls.length ≤ maxLines →
      buildLoop ed (upFrom i ed.lineCount) out = some (packed ls out)
  | [], i, out, _, hcount, _ => by
    have hnone : upFrom i ed.lineCount = [] := by
      rw [hcount]
      simp [upFrom]
    rw [hnone]
    rfl
  | l :: ls, i, out, h, hcount, hfits => by
    rw [List.length_cons] at hcount hfits
    obtain ⟨hline, hrest⟩ := stored_cons.mp h
    have hread : readAt maxLines ed.lines (i : ℕ) = some (ed.lines i) := readAt_natCast (by omega)
    have hnext : (i : ℤ) + 1 = (i + 1 : ℕ) := rfl
    have ih := fun out => buildLoop_eq ls out hrest (by omega) (by omega)
    rw [upFrom_cons (by omega), hnext]
    unfold buildLoop packed
    simp only [hread, hline.strlen, hline.map_range, Option.bind_eq_bind, Option.bind_some]
    by_cases hfull : out.length + l.length + 1 ≥ maxFile
    · rw [if_pos hfull, if_pos hfull]
      rfl
    · have hput : emit out l = some (out ++ l) := if_pos (by omega)
      have hsep : emit (out ++ l) [10] = some (out ++ l ++ [10]) :=
        if_pos (by simp only [List.length_append, List.length_singleton]; omega)
      rw [if_neg hfull, if_neg hfull, hput]
      simp only [Option.bind_some]
      by_cases hlast : ls = []
      · rw [if_neg (by rw [hcount, hlast, List.length_nil]; omega), if_pos hlast, ih, hlast]
        rfl
      · have hpos : 0 < ls.length := List.length_pos_of_ne_nil hlast
        rw [if_pos (by omega), if_neg hlast, if_neg (by rw [List.length_append]; omega), hsep]
        exact ih _

theorem buildBuffer_eq (h : Shows ed z) : buildBuffer ed = some (packed z.lines []) :=
  buildLoop_eq z.lines [] h.table (by simpa using h.count) (by simpa using h.fits)

end Kerneloid.Editor.Codec
