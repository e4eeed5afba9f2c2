import Kerneloid.Lib.Arrays
import Kerneloid.Vfs.Bytes

/-! # The editor

`editor.c`. The text is a table of 256 rows of 256 bytes, each row a C string. The rows and every
other array are read and written through checked indices: a function that returns has used indices
in range only. A pointer to a row is a copy of it that is put back.

The editor runs beside the VFS: `Session` has both, with the text printed since the screen was
cleared and whether `editor_run` waits for a key, for the answer to its question, or has returned.
`key` is what `editor_run` does with one character. The numbers of the source are `int`, here
integers; none of them gets large. -/

namespace Kerneloid.Editor.Ops

open Lib.Arrays UnnamedFS.Types Vfs.Types Vfs.Ops Vfs.Bytes

def maxLines : ℕ := 256

def maxCols : ℕ := 256

def maxFile : ℕ := 4096

def viewRows : ℕ := 20

def viewCols : ℕ := 76

abbrev Row := ℕ → UInt8

/-- `struct editor_state`; `filename` is the string in the field. -/
structure EditorState where
  lines : ℕ → Row
  lineCount : ℤ
  cursorX : ℤ
  cursorY : ℤ
  scrollY : ℤ
  scrollX : ℤ
  filename : CStr
  modified : Bool
  showLineNumbers : Bool

/-! ### Strings in rows -/

/-- The loop of `ed_strlen` at byte `j`, with `n` bytes of the row left. -/
def strlenFrom (row : Row) : ℕ → ℕ → Option ℕ
  | 0, _ => none
  | n + 1, j => if row j = 0 then some j else strlenFrom row n (j + 1)

def edStrlen (row : Row) : Option ℕ := strlenFrom row maxCols 0

/-- The loop of `ed_strcpy` at byte `j`, with `n` bytes of the rows left. -/
def strcpyFrom (src : Row) : ℕ → ℕ → Row → Option Row
  | 0, _, _ => none
  | n + 1, j, d =>
    let d := Function.update d j (src j)
    if src j = 0 then some d else strcpyFrom src n (j + 1) d

def edStrcpy (d src : Row) : Option Row := strcpyFrom src maxCols 0 d

/-! ### Init and load -/

def editorInit (filename : Option CStr) : EditorState where
  lines := fun _ _ => 0
  lineCount := 1
  cursorX := 0
  cursorY := 0
  scrollY := 0
  scrollX := 0
  filename := (filename.getD []).take 255
  modified := false
  showLineNumbers := true

/-- `lines[i][j] = c`. -/
def putByte (lines : ℕ → Row) (i j : ℤ) (c : UInt8) : Option (ℕ → Row) := do
  writeAt maxLines lines i (← writeAt maxCols (← readAt maxLines lines i) j c)

/-- The table and the variables `line` and `col` of `editor_load`. -/
structure Parse where
  lines : ℕ → Row
  line : ℤ
  col : ℤ

/-- The loop of `editor_load` over the bytes read. -/
def loadLoop : List UInt8 → Parse → Option Parse
  | [], p => some p
  | c :: cs, p =>
    if c = 13 then loadLoop cs p
    else if c = 10 then do
      let lines ← putByte p.lines p.line p.col 0
      let p : Parse := ⟨lines, p.line + 1, 0⟩
      if p.line ≥ maxLines then return p
      loadLoop cs p
    else if p.col < maxCols - 1 then do
      let lines ← putByte p.lines p.line p.col c
      loadLoop cs ⟨lines, p.line, p.col + 1⟩
    else loadLoop cs p

/-- The last row is ended at `line` and `col`, and the rows are counted. -/
def endLast (p : Parse) : Option ((ℕ → Row) × ℤ) := do
  return (← putByte p.lines p.line p.col 0, p.line + 1)

/-- The two branches that follow the loop of `editor_load`, where `line_count` is 0; `n` is the
number of bytes read. -/
def loadCount (n : ℤ) (p : Parse) : Option ((ℕ → Row) × ℤ) :=
  if n = 0 then
    if p.line = 0 ∧ p.col = 0 then do return (← putByte p.lines 0 0 0, 1)
    else endLast p
  else if (p.col > 0 ∨ p.line = 0) ∧ p.line < maxLines ∧ p.line + 1 ≠ 0 then
    some (p.lines, p.line + 1)
  else endLast p

/-- What follows the loop of `editor_load`: the table and `line_count`. -/
def loadEnd (n : ℤ) (p : Parse) : Option ((ℕ → Row) × ℤ) := do
  let (lines, count) ← loadCount n p
  if count = 0 then return (← putByte lines 0 0 0, 1)
  return (lines, if count > maxLines then (maxLines : ℤ) else count)

/-- `editor_load` with the bytes `bytes` read. -/
def loadBytes (ed : EditorState) (bytes : List UInt8) : Option EditorState := do
  let p ← loadLoop bytes ⟨ed.lines, 0, 0⟩
  let (lines, count) ← loadEnd bytes.length p
  return { ed with
    lines := lines, lineCount := count, cursorX := 0, cursorY := 0, scrollY := 0,
    modified := false }

/-- What `editor_load` takes `n` for, the answer of `vfs_read`. -/
def readLength (n : ℤ) : ℤ :=
  let n := if n < 0 then 0 else n
  if n > maxFile - 1 then maxFile - 1 else n

/-- `editor_load`, which always returns 0. -/
def editorLoad (v : VState) (ed : EditorState) (path : CStr) : Option (VState × EditorState) :=
  match vfsOpen v path 1 with
  | (v, fd) =>
    if fd < 0 then do
      return (v, { ed with lines := ← putByte ed.lines 0 0 0, lineCount := 1 })
    else
      match vfsRead v fd (maxFile - 1) with
      | (v, n, bytes) => do
        return ((vfsClose v fd).1, ← loadBytes ed (bytes.take (readLength n).toNat))

/-! ### The screen -/

inductive Mode
  | editing
  | asking
  | done
  deriving DecidableEq

/-- The editor in `editor_run`. -/
structure Session where
  vfs : ByteVfs
  ed : EditorState
  mode : Mode
  screen : CStr

def Session.print (s : Session) (text : CStr) : Session := { s with screen := s.screen ++ text }

def Session.println (s : Session) (text : CStr) : Session := s.print (text ++ [10])

/-- The digits of `n`, which are put into a buffer with `slots` bytes left, before `text`. -/
def digits : ℕ → ℕ → CStr → Option CStr
  | _, 0, text => some text
  | 0, _ + 1, _ => none
  | slots + 1, n + 1, text =>
    digits slots ((n + 1) / 10) ((48 + UInt8.ofNat ((n + 1) % 10)) :: text)

/-- The text of `n` as a `uint32_t`. -/
def number (n : ℤ) : Option CStr :=
  if (n % 2 ^ 32).toNat = 0 then some [48] else digits 12 (n % 2 ^ 32).toNat []

/-- The line number at the start of a row of the screen. -/
def margin (ed : EditorState) (i : ℤ) : Option CStr :=
  if ed.showLineNumbers then do
    let pad := if i + 1 < 10 then cstr "  " else if i + 1 < 100 then cstr " " else []
    return pad ++ (← number (i + 1)) ++ cstr "| "
  else some []

/-- Row `i` of the text on the screen. -/
def drawRow (ed : EditorState) (i : ℤ) : Option CStr := do
  let pre ← margin ed i
  let line ← readAt maxLines ed.lines i
  let len ← edStrlen line
  let sx := if ed.scrollX > len then (len : ℤ) else ed.scrollX
  let part ← (upFrom sx (min len (sx + viewCols))).mapM (readAt maxCols line)
  return pre ++ part ++ [10]

def drawEnd (ed : EditorState) : ℤ :=
  if ed.scrollY + viewRows > ed.lineCount then ed.lineCount else ed.scrollY + viewRows

def drawing (ed : EditorState) : Option CStr := do
  let name := if ed.filename.head?.getD 0 ≠ 0 then ed.filename else cstr "[No Name]"
  let rows ← (upFrom ed.scrollY (drawEnd ed)).mapM (drawRow ed)
  return cstr "=== Tinx Editor (Ctrl+S save, Ctrl+Q quit) ===\n" ++ cstr "File: " ++ name ++
    (if ed.modified then cstr " *" else []) ++ cstr "  Line " ++ (← number (ed.cursorY + 1)) ++
    cstr "/" ++ (← number ed.lineCount) ++ cstr "\n" ++
    cstr "----------------------------------------\n" ++ rows.flatten ++
    List.replicate (viewRows - (drawEnd ed - ed.scrollY)).toNat 10 ++
    cstr "----------------------------------------\n" ++ cstr "Row " ++
    (← number (ed.cursorY + 1)) ++ cstr " Col " ++ (← number (ed.cursorX + 1)) ++
    (if ed.modified then cstr " [modified]" else []) ++ cstr "\n"

def editorDraw (s : Session) : Option Session := do
  return { s with screen := ← drawing s.ed }

/-! ### Save -/

/-- Bytes put at the end of `out[EDITOR_MAX_FILE]`. -/
def emit (out bytes : List UInt8) : Option (List UInt8) :=
  if out.length + bytes.length ≤ maxFile then some (out ++ bytes) else none

/-- The loop of `editor_save` over the rows; `out` is what has been put into the buffer, so that
`pos` is its length. -/
def buildLoop (ed : EditorState) : List ℤ → List UInt8 → Option (List UInt8)
  | [], out => some out
  | i :: is, out => do
    let line ← readAt maxLines ed.lines i
    let len ← edStrlen line
    if out.length + len + 1 ≥ maxFile then return out
    let out ← emit out ((List.range len).map line)
    if i < ed.lineCount - 1 then
      if out.length + 1 ≥ maxFile then return out
      buildLoop ed is (← emit out [10])
    else buildLoop ed is out

def buildBuffer (ed : EditorState) : Option (List UInt8) := buildLoop ed (upFrom 0 ed.lineCount) []

def editorSave (s : Session) : Option (Session × ℤ) :=
  if s.ed.filename.head?.getD 0 = 0 then some (s, -1)
  else do
    let out ← buildBuffer s.ed
    match vfsOpen s.vfs.vfs s.ed.filename 3 with
    | (v, fd) =>
      if fd < 0 then
        return ({ s with vfs := onDevice s.vfs.dev v }.println
          (cstr "editor: cannot open " ++ s.ed.filename), -1)
      let v := (vfsLseek v fd 0 0).1
      let (w, r) := vfsWriteBytes (onDevice s.vfs.dev v) fd (fun j => out.getD j 0) out.length
      let w := onDevice w.dev (vfsClose w.vfs fd).1
      if r < 0 then return ({ s with vfs := w }, -1)
      return ({ s with vfs := w, ed := { s.ed with modified := false } }, 0)

/-! ### Editing -/

def editorEnsureScroll (ed : EditorState) : EditorState :=
  let sy := if ed.cursorY < ed.scrollY then ed.cursorY else ed.scrollY
  let sy := if ed.cursorY ≥ sy + viewRows then ed.cursorY - viewRows + 1 else sy
  let sx := if ed.cursorX < ed.scrollX then ed.cursorX else ed.scrollX
  let sx := if ed.cursorX ≥ sx + viewCols then ed.cursorX - viewCols + 1 else sx
  { ed with scrollY := if sy < 0 then 0 else sy, scrollX := if sx < 0 then 0 else sx }

/-- The loop of `editor_insert_char`: the bytes from the cursor on move to the right. -/
def shiftRight (line : Row) (len x : ℤ) : Option Row :=
  (downFrom len (x - 1)).foldlM
    (fun line i => do writeAt maxCols line (i + 1) (← readAt maxCols line i)) line

def editorInsertChar (ed : EditorState) (c : UInt8) : Option EditorState :=
  if ed.cursorY < 0 ∨ ed.cursorY ≥ ed.lineCount then some ed
  else do
    let line ← readAt maxLines ed.lines ed.cursorY
    let len ← edStrlen line
    if len ≥ maxCols - 1 then return ed
    let line ← shiftRight line len ed.cursorX
    let line ← writeAt maxCols line ed.cursorX c
    return { ed with
      lines := ← writeAt maxLines ed.lines ed.cursorY line
      cursorX := ed.cursorX + 1
      modified := true }

/-- The first loop of `editor_backspace`: the bytes from the cursor on move to the left. -/
def shiftLeft (line : Row) (x len : ℤ) : Option Row :=
  (upFrom (x - 1) len).foldlM
    (fun line i => do writeAt maxCols line i (← readAt maxCols line (i + 1))) line

/-- The second loop of `editor_backspace`: the current line is put at the end of the previous one.
-/
def joinRows (prev cur : Row) (plen clen : ℕ) : Option Row :=
  (upFrom 0 (clen + 1)).foldlM
    (fun prev i => do writeAt maxCols prev (plen + i) (← readAt maxCols cur i)) prev

def copyRow (lines : ℕ → Row) (i j : ℤ) : Option (ℕ → Row) := do
  writeAt maxLines lines i (← edStrcpy (← readAt maxLines lines i) (← readAt maxLines lines j))

/-- The third loop of `editor_backspace`: the lines from `y` on move up. -/
def shiftUp (lines : ℕ → Row) (y count : ℤ) : Option (ℕ → Row) :=
  (upFrom y (count - 1)).foldlM (fun lines i => copyRow lines i (i + 1)) lines

/-- The second branch of `editor_backspace`: the current line is merged with the previous one. -/
def mergeLines (ed : EditorState) : Option EditorState := do
  let prev ← readAt maxLines ed.lines (ed.cursorY - 1)
  let cur ← readAt maxLines ed.lines ed.cursorY
  let plen ← edStrlen prev
  let clen ← edStrlen cur
  if plen + clen < maxCols - 1 then
    let prev ← joinRows prev cur plen clen
    let lines ← writeAt maxLines ed.lines (ed.cursorY - 1) prev
    return { ed with
      lines := ← shiftUp lines ed.cursorY ed.lineCount
      lineCount := ed.lineCount - 1
      cursorY := ed.cursorY - 1
      cursorX := plen
      modified := true }
  else return ed

def editorBackspace (ed : EditorState) : Option EditorState :=
  if ed.cursorX > 0 then do
    let line ← readAt maxLines ed.lines ed.cursorY
    let len ← edStrlen line
    let line ← shiftLeft line ed.cursorX len
    return { ed with
      lines := ← writeAt maxLines ed.lines ed.cursorY line
      cursorX := ed.cursorX - 1
      modified := true }
  else if ed.cursorY > 0 then mergeLines ed
  else some ed

/-- The part of `cur` from the cursor on, in `new_line`. The other bytes of the local array, of
which only the first is set, are not read. -/
def restOf (cur : Row) (x len : ℤ) : Option Row := do
  let new ← (upFrom 0 (len - x)).foldlM
    (fun new i => do writeAt maxCols new i (← readAt maxCols cur (x + i))) fun _ => 0
  writeAt maxCols new (len - x) 0

/-- The current line cut off at the cursor, and what is to be the next one. -/
def splitRow (cur : Row) (x len : ℤ) : Option (Row × Row) :=
  if x < len then do
    let new ← restOf cur x len
    return (← writeAt maxCols cur x 0, new)
  else some (cur, fun _ => 0)

/-- The loop of `editor_newline`: the lines after `y` move down. -/
def shiftDown (lines : ℕ → Row) (count y : ℤ) : Option (ℕ → Row) :=
  (downFrom count (y + 1)).foldlM (fun lines i => copyRow lines i (i - 1)) lines

def editorNewline (ed : EditorState) : Option EditorState :=
  if ed.lineCount ≥ maxLines - 1 then some ed
  else do
    let cur ← readAt maxLines ed.lines ed.cursorY
    let len ← edStrlen cur
    let (cur, new) ← splitRow cur ed.cursorX len
    let lines ← writeAt maxLines ed.lines ed.cursorY cur
    let lines ← shiftDown lines ed.lineCount ed.cursorY
    let next ← edStrcpy (← readAt maxLines lines (ed.cursorY + 1)) new
    return { ed with
      lines := ← writeAt maxLines lines (ed.cursorY + 1) next
      lineCount := ed.lineCount + 1
      cursorY := ed.cursorY + 1
      cursorX := 0
      modified := true }

/-! ### Keys -/

/-- The cursor in row `y`, not behind its end. -/
def toRow (ed : EditorState) (y : ℤ) : Option EditorState := do
  let len ← edStrlen (← readAt maxLines ed.lines y)
  return { ed with cursorY := y, cursorX := if ed.cursorX > len then (len : ℤ) else ed.cursorX }

def left (ed : EditorState) : Option EditorState :=
  if ed.cursorX > 0 then some { ed with cursorX := ed.cursorX - 1 }
  else if ed.cursorY > 0 then do
    let len ← edStrlen (← readAt maxLines ed.lines (ed.cursorY - 1))
    return { ed with cursorY := ed.cursorY - 1, cursorX := len }
  else some ed

def right (ed : EditorState) : Option EditorState := do
  let len ← edStrlen (← readAt maxLines ed.lines ed.cursorY)
  if ed.cursorX < len then return { ed with cursorX := ed.cursorX + 1 }
  else if ed.cursorY < ed.lineCount - 1 then
    return { ed with cursorY := ed.cursorY + 1, cursorX := 0 }
  else return ed

/-- A key that changes the editor, after which the window moves and the text is drawn. -/
def Session.edit (s : Session) (f : EditorState → Option EditorState) : Option Session := do
  editorDraw { s with ed := editorEnsureScroll (← f s.ed) }

def saveKey (s : Session) : Option Session := do
  let (s, r) ← editorSave s
  editorDraw (s.println (if r = 0 then cstr "Saved." else cstr "Save failed."))

/-- What `editor_run` does with the character `c`. -/
def editKey (s : Session) (c : UInt8) : Option Session :=
  if c = 0 then some s
  else if c = 0x13 then saveKey s
  else if c = 0x11 then
    if s.ed.modified then
      some { s.println (cstr ("Unsaved changes! Press Ctrl+Q again to quit without save, " ++
        "or Ctrl+S to save.")) with mode := .asking }
    else some { s with mode := .done, screen := [] }
  else if c = 1 then
    if s.ed.cursorY > 0 then s.edit fun ed => toRow ed (ed.cursorY - 1) else some s
  else if c = 2 then
    if s.ed.cursorY < s.ed.lineCount - 1 then s.edit fun ed => toRow ed (ed.cursorY + 1) else some s
  else if c = 3 then s.edit left
  else if c = 4 then s.edit right
  else if c = 8 then s.edit editorBackspace
  else if c = 10 ∨ c = 13 then s.edit editorNewline
  else if 32 ≤ c ∧ c < 127 then s.edit fun ed => editorInsertChar ed c
  else if c = 9 then s.edit fun ed => (List.replicate 4 32).foldlM editorInsertChar ed
  else some s

def answerKey (s : Session) (c : UInt8) : Option Session :=
  if c = 0 then some s
  else if c = 0x11 then some { s with mode := .done, screen := [] }
  else if c = 0x13 then do
    let (s, _) ← editorSave s
    return { s with mode := .done, screen := [] }
  else editorDraw { s with mode := .editing }

def key (s : Session) (c : UInt8) : Option Session :=
  match s.mode with
  | .editing => editKey s c
  | .asking => answerKey s c
  | .done => some s

def editorRun (w : ByteVfs) (ed : EditorState) : Option Session := editorDraw ⟨w, ed, .editing, []⟩

/-- `editor_open` up to the first key. -/
def editorOpen (w : ByteVfs) (path : Option CStr) : Option Session :=
  if (path.getD []).head?.getD 0 ≠ 0 then do
    let (v, ed) ← editorLoad w.vfs (editorInit path) (path.getD [])
    editorRun (onDevice w.dev v) ed
  else editorRun w (editorInit path)

end Kerneloid.Editor.Ops
