import Kerneloid.Editor.Keys

/-! # The editor and its files

`editor_load` is in bounds exactly if fewer than 256 newlines are among the bytes it reads
(`load_in_bounds`). What it loads and what `editor_save` writes are inverse to each other on texts
within the limits (`text_codec`). The file itself is not truncated by `editor_save`: if the write
spares the inode records, it has the text of the editor exactly if what it had behind the bytes
written is the rest of that text (`save_writes`). -/

namespace Kerneloid.Editor.Files

open Lib.Arrays Lib.Runs Lib.TextZipper UnnamedFS.Types Vfs.Types Vfs.Ops Vfs.Effects Vfs.Copies
open Vfs.Bytes Vfs.Contents Ops Rows Tables Codec Keys

variable {v : VState} {ed : EditorState} {s s' : Session} {path : CStr} {b : List UInt8}
  {ls : List CStr}

/-! ### Loading -/

theorem bytesRead_readBack (v : VState) (path : CStr) :
    bytesRead v path = ((readBack v path).getD []).take (maxFile - 1) := by
  by_cases hopen : (vfsOpen v path 1).2 < 0
  · unfold bytesRead readBack
    rw [if_pos hopen]
    dsimp only
    rw [if_pos hopen]
    rfl
  unfold bytesRead
  rw [if_neg hopen]
  rcases vfsRead_readBack hopen (by decide : maxFile - 1 < 2 ^ 31) with
    ⟨hnone, hr⟩ | ⟨content, hsome, hr⟩
  · rw [hnone, hr]
    rfl
  · rw [hsome, hr]
    rfl

/-- **When `editor_load` stays in bounds.** -/
theorem load_in_bounds (v : VState) (filename : Option CStr) (path : CStr) :
    let bytes := ((readBack v path).getD []).take (maxFile - 1)
    (∃ v' ed, editorLoad v (editorInit filename) path = some (v', ed) ∧
        1 ≤ ed.lineCount ∧ ed.lineCount ≤ maxLines ∧ Loaded ed (pieces bytes)) ↔
      bytes.count 10 < maxLines := by
  dsimp only
  rw [← bytesRead_readBack]
  obtain ⟨v', hload⟩ := editorLoad_eq v filename path
  rw [hload]
  constructor
  · rintro ⟨w, ed, hed, -⟩
    by_contra hcount
    rw [loadBytes_fails filename (not_lt.mp hcount)] at hed
    cases hed
  · intro hcount
    obtain ⟨ed, hed, hl⟩ := loadBytes_returns filename hcount
    obtain ⟨hpos, hmax⟩ := (Loaded.invariant hl hcount).count
    rw [hed]
    exact ⟨v', ed, rfl, hpos, hmax, hl⟩

def withFile (b : List UInt8) : VState := (making (cstr "a") b).foldl vstep vfsInit

/-- **256 newlines.** The terminator of the last line is put into row 256. -/
theorem newlines_overflow : readBack (withFile (List.replicate 256 10)) (cstr "/a") =
      some (List.replicate 256 10) ∧
    (editorLoad (withFile (List.replicate 256 10)) (editorInit none) (cstr "/a")).isNone =
      true := by
  refine ⟨?_, ?_⟩ <;> decide +kernel

/-! ### The codec -/

/-- The lines of the editor are `ls`. -/
structure Holds (ed : EditorState) (ls : List CStr) : Prop where
  count : ed.lineCount = ls.length
  rows : Stored Spells ed.lines 0 ls

/-- Lines that the editor can keep and write. -/
structure Fits (ls : List CStr) : Prop where
  some : ls ≠ []
  lines : ls.length ≤ maxLines
  line : ∀ l ∈ ls, l.length < maxCols ∧ 0 ∉ l ∧ 13 ∉ l ∧ 10 ∉ l
  bytes : (joined ls).length + 1 < maxFile

/-- Bytes that the editor can read and keep. -/
structure Codable (b : List UInt8) : Prop where
  bytes : b.length + 1 < maxFile
  nul : 0 ∉ b
  ret : 13 ∉ b
  lines : (b.splitOn 10).length ≤ maxLines
  line : ∀ l ∈ b.splitOn 10, l.length < maxCols

theorem mem_joined {x : UInt8} : ∀ {ls : List CStr}, x ≠ 10 → (x ∈ joined ls ↔ ∃ l ∈ ls, x ∈ l)
  | [], _ => by simp [joined]
  | l :: ls, hx => by
    by_cases hlast : ls = []
    · subst hlast
      simp [joined_singleton]
    · rw [joined_cons hlast, List.mem_append, List.mem_cons, mem_joined hx]
      simp [hx]

theorem Fits.codable (h : Fits ls) : Codable (joined ls) ∧ (joined ls).splitOn 10 = ls := by
  have hsplit : (joined ls).splitOn 10 = ls :=
    List.splitOn_intercalate 10 (fun l hl => (h.line l hl).2.2.2) h.some
  refine ⟨⟨h.bytes, ?_, ?_, by rw [hsplit]; exact h.lines, ?_⟩, hsplit⟩
  · rw [mem_joined (by decide)]
    rintro ⟨l, hl, hx⟩
    exact (h.line l hl).2.1 hx
  · rw [mem_joined (by decide)]
    rintro ⟨l, hl, hx⟩
    exact (h.line l hl).2.2.1 hx
  · rw [hsplit]
    exact fun l hl => (h.line l hl).1

theorem Codable.split (h : Codable b) : split b = b.splitOn 10 := by
  have hkeep : ∀ c ∈ b, decide (c ≠ 13) = true := by
    intro c hc
    exact decide_eq_true fun e => h.ret (e ▸ hc)
  unfold Codec.split
  rw [List.filter_eq_self.mpr hkeep]

theorem Codable.pieces (h : Codable b) : pieces b = b.splitOn 10 := by
  unfold Codec.pieces
  rw [h.split]
  refine (List.map_congr_left fun l hl => ?_).trans (List.map_id _)
  exact List.take_of_length_le (Nat.le_sub_one_of_lt (h.line l hl))

theorem Holds.buildBuffer (h : Holds ed ls) (hlines : ls.length ≤ maxLines)
    (hbytes : (joined ls).length + 1 < maxFile) : buildBuffer ed = some (joined ls) := by
  have hloop := buildLoop_eq ls [] h.rows (by simpa using h.count) (by simpa using hlines)
  rw [packed_eq ls [] hbytes, List.nil_append] at hloop
  exact hloop

theorem Loaded.holds (h : Loaded ed ls) (hline : ∀ l ∈ ls, l.length < maxCols ∧ 0 ∉ l) :
    Holds ed ls := by
  refine ⟨h.count, fun k l hl => ?_⟩
  obtain ⟨hk, rfl⟩ := List.getElem?_eq_some_iff.mp hl
  obtain ⟨hlen, hnul⟩ := hline _ (List.getElem_mem hk)
  refine ⟨hlen, hnul, fun j _ => ?_⟩
  rw [zero_add, h.bytes, List.getD_eq_getElem _ _ hk]

theorem load_holds (hb : Codable b) (h : readBack v path = some b) (filename : Option CStr) :
    ∃ v' ed, editorLoad v (editorInit filename) path = some (v', ed) ∧
      Holds ed (b.splitOn 10) := by
  have hread : bytesRead v path = b := by
    rw [bytesRead_readBack, h, Option.getD_some]
    exact List.take_of_length_le (Nat.le_sub_one_of_lt (Nat.lt_of_succ_lt hb.bytes))
  have hcount : b.count 10 < maxLines := by
    have hlen := hb.lines
    rw [← hb.split, length_split] at hlen
    exact hlen
  obtain ⟨v', hload⟩ := editorLoad_eq v filename path
  obtain ⟨ed, hed, hl⟩ := loadBytes_returns filename hcount
  rw [hload, hread, hed]
  rw [hb.pieces] at hl
  have hjoin : joined (b.splitOn 10) = b := List.intercalate_splitOn 10
  refine ⟨v', ed, rfl, Loaded.holds hl fun l hmem => ⟨hb.line l hmem, fun hnul => hb.nul ?_⟩⟩
  rw [← hjoin]
  exact (mem_joined (by decide)).mpr ⟨l, hmem, hnul⟩

/-- **The codec of the editor.** Bytes that are loaded and put into the buffer of `editor_save` are
the same again, and lines that are put into the buffer are loaded from it. -/
theorem text_codec (v : VState) (filename : Option CStr) (path : CStr) :
    (∀ b, Codable b → readBack v path = some b →
      ∃ v' ed, editorLoad v (editorInit filename) path = some (v', ed) ∧
        buildBuffer ed = some b) ∧
    ∀ ls ed, Fits ls → Holds ed ls →
      buildBuffer ed = some (joined ls) ∧ (readBack v path = some (joined ls) →
        ∃ v' ed', editorLoad v (editorInit filename) path = some (v', ed') ∧ Holds ed' ls) := by
  refine ⟨fun b hb h => ?_, fun ls ed hfits hed => ?_⟩
  · obtain ⟨v', ed, hload, hed⟩ := load_holds hb h filename
    have hjoin : joined (b.splitOn 10) = b := List.intercalate_splitOn 10
    have hbuf := hed.buildBuffer hb.lines (by rw [hjoin]; exact hb.bytes)
    rw [hjoin] at hbuf
    exact ⟨v', ed, hload, hbuf⟩
  · obtain ⟨hb, hsplit⟩ := hfits.codable
    refine ⟨hed.buildBuffer hfits.lines hfits.bytes, fun h => ?_⟩
    have hload := load_holds hb h filename
    rwa [hsplit] at hload

def oneLetter : EditorState :=
  { editorInit (some (cstr "/a")) with lines := fun i j => if i = 0 ∧ j = 0 then 97 else 0 }

theorem oneLetter_holds : Holds oneLetter [cstr "a"] := by
  refine ⟨rfl, stored_cons.mpr ⟨⟨by decide, by decide, ?_⟩, stored_nil⟩⟩
  decide

theorem text_codec_empty_line :
    (∃ v' ed, editorLoad (withFile (cstr "a\n\nb\n")) (editorInit none) (cstr "/a") =
      some (v', ed) ∧ buildBuffer ed = some (cstr "a\n\nb\n")) ∧
    ∃ v' ed, editorLoad (withFile (cstr "a")) (editorInit none) (cstr "/a") = some (v', ed) ∧
      Holds ed [cstr "a"] :=
  ⟨(text_codec _ none _).1 _ ⟨by decide, by decide, by decide, by decide, by decide⟩
      (by decide +kernel),
    ((text_codec _ none _).2 _ _ ⟨by decide, by decide, by decide, by decide⟩ oneLetter_holds).2
      (by decide +kernel)⟩

/-! ### Saving -/

theorem packed_length : ∀ (ls : List CStr) (out : List UInt8), out.length < maxFile →
    (packed ls out).length < maxFile
  | [], _, h => h
  | l :: ls, out, h => by
    unfold packed
    split_ifs with hfull hlast
    · exact h
    · rw [List.length_append]
      omega
    · refine packed_length ls _ ?_
      rw [List.length_append, List.length_append, List.length_singleton]
      omega

theorem save_overwrites {z : Zipper UInt8} (hb : Budget s.vfs.vfs) (h : Shows s.ed z)
    (hsave : editorSave s = some (s', 0)) : let d := vfsOpen s.vfs.vfs s.ed.filename 3
    let out := packed z.lines []
    let o := overwrite (onDevice s.vfs.dev d.1) d.2 (fun j => out.getD j 0) out.length
    ¬ d.2 < 0 ∧ (onDevice s.vfs.dev d.1).vfs = d.1 ∧ ¬ o.2 < 0 ∧ s'.vfs = o.1 := by
  have hvfs : (onDevice s.vfs.dev (vfsOpen s.vfs.vfs s.ed.filename 3).1).vfs = _ :=
    onDevice_vfs ((vfsOpen_fs hb.numbered s.ed.filename 3).trans s.vfs.fs_eq)
  unfold editorSave at hsave
  unfold overwrite
  dsimp only
  rw [hvfs]
  rw [buildBuffer_eq h] at hsave
  simp only [Option.bind_eq_bind, Option.bind_some] at hsave
  split_ifs at hsave with hname hopen hwrite
  · cases hsave
  · cases hsave
  · cases hsave
  · cases hsave
    exact ⟨hopen, rfl, hwrite, rfl⟩

/-- **What a save leaves in the file.** In every run of the VFS whose writes spare the inode records,
a file that is saved without meeting them has the text of the editor exactly if what it had behind
the bytes written is the rest of the text. -/
theorem save_writes (hv : Reach (Sparing VfsCall) ByteVfs.step initBytes s.vfs) (h : Invariant s.ed)
    (hsave : editorSave s = some (s', 0)) :
    ∃ i, fileAt s.vfs.vfs s.ed.filename = some i ∧
      (StartSpares s.vfs.dev i (packed (text s.ed) []).length →
        (readBack s'.vfs.vfs s.ed.filename = some (joined (text s.ed)) ↔
          behind s.vfs.vfs.fs i (packed (text s.ed) []).length =
            (joined (text s.ed)).drop (packed (text s.ed) []).length)) := by
  obtain ⟨z, hz⟩ := h.shows
  rw [Shows.text hz]
  have hb := budget_bytes hv
  obtain ⟨hopen, hdev, hwrite, hvfs⟩ := save_overwrites hb hz hsave
  obtain ⟨i, hi⟩ := vfsOpen_opened hopen
  refine ⟨i, hi.fileAt, fun hok => ?_⟩
  have hlen := packed_length z.lines [] (by decide)
  have hb' : Budget (vfsOpen s.vfs.vfs s.ed.filename 3).1 := budget_vstep hb (.open_ s.ed.filename 3)
  rw [← hdev] at hi hb'
  have hread := readBack_overwrite hb.numbered hi hb' hlen.le hok hwrite
  rw [map_range_getD rfl fun _ _ => rfl, hdev, vfsOpen_fs hb.numbered] at hread
  obtain ⟨rest, hrest⟩ := packed_prefix z.lines []
  rw [List.nil_append] at hrest
  rw [hvfs, hread, ← hrest, List.drop_left]
  simp

theorem rest_of_short {f : Fs} {i : ℕ} (hfits : (joined ls).length + 1 < maxFile)
    (hsize : (f.inodes i).size ≤ (joined ls).length) :
    behind f i (packed ls []).length = (joined ls).drop (packed ls []).length := by
  rw [packed_eq ls [] hfits, List.nil_append, behind_nil hsize, List.drop_length]

theorem oneLetter_invariant : Invariant oneLetter := by
  refine ⟨by decide, by decide, fun i _ => ⟨1, by decide, ?_⟩, ?_, by decide, by decide⟩
  · exact if_neg fun h => Nat.one_ne_zero h.2
  · exact ⟨le_rfl, Int.natCast_nonneg _⟩

def editing (b : List UInt8) : Session :=
  ⟨(making (cstr "a") b).foldl ByteVfs.step initBytes, oneLetter, .editing, []⟩

theorem save_writes_empty : ∃ s', editorSave (editing []) = some (s', 0) ∧
    readBack s'.vfs.vfs (cstr "/a") = some (cstr "a") := by
  have hzero : (editorSave (editing [])).map (·.2) = some 0 := by decide +kernel
  obtain ⟨⟨s', r⟩, hs', rfl⟩ := Option.map_eq_some_iff.mp hzero
  have htext : text oneLetter = [cstr "a"] := by decide +kernel
  have hfile : fileAt (editing []).vfs.vfs (cstr "/a") = some 5 := by decide +kernel
  obtain ⟨i, hi, hright⟩ := save_writes (Reach.foldl _ .init (by decide +kernel))
    oneLetter_invariant hs'
  cases hfile.symm.trans hi
  change StartSpares _ _ (packed (text oneLetter) []).length → (readBack _ _ =
    some (joined (text oneLetter)) ↔ _) at hright
  rw [htext] at hright
  exact ⟨s', hs', (hright (by decide +kernel)).mpr (rest_of_short (by decide) (by decide +kernel))⟩

/-- **A longer file keeps its end.** -/
theorem longer_file_kept : Invariant oneLetter ∧ joined (text oneLetter) = cstr "a" ∧
    (editorSave (editing (cstr "long"))).map (fun o => (readBack o.1.vfs.vfs (cstr "/a"), o.2)) =
      some (some (cstr "aong"), 0) := by
  refine ⟨oneLetter_invariant, ?_, ?_⟩
  · decide +kernel
  · decide +kernel

end Kerneloid.Editor.Files
