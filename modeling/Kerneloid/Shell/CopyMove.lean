import Kerneloid.Lib.Arrays
import Kerneloid.Shell.Commands
import Kerneloid.Vfs.Contents
import Kerneloid.Vfs.Names

/-! # Copying and moving

`cmd_cp` reads at most 512 bytes and writes them at the start of the destination, which is not cut.
If the write spares the inode records, the destination has the content of the source exactly if what
it has behind the bytes written is the rest of the source. `cmd_mv` then removes the source, whatever
it is: the same holds after it if the removal, made before the copy, would leave the destination
where it is (`MoveSpares`). Both are `copy_move`. -/

namespace Kerneloid.Shell.CopyMove

open Lib.Arrays Lib.Runs UnnamedFS.Types UnnamedFS.Path UnnamedFS.Blocks UnnamedFS.Slots
open UnnamedFS.Content UnnamedFS.Layout UnnamedFS.Simulation Vfs.Types Vfs.Path Vfs.Walk Vfs.Write
open Vfs.Ops Vfs.Effects Vfs.Copies Vfs.Bytes Vfs.Contents Vfs.Names Commands

variable {i : ℕ} {content : List UInt8}

variable {v : VState} {s : ShellState} {a b path arg : CStr} {mode : ℤ}

/-! ### The files -/

/-- The path under which a file is opened at last, and the state at that time. -/
def choice (v : VState) (path arg : CStr) (mode : ℤ) : VState × CStr :=
  if (vfsOpen v path mode).2 < 0 then ((vfsOpen v path mode).1, arg) else (v, path)

def source (s : ShellState) (a : CStr) : VState × CStr := choice s.vfs.vfs (s.path a) a 1

def opened (s : ShellState) (a : CStr) : VState × ℤ := vfsOpen (source s a).1 (source s a).2 1

def afterRead (s : ShellState) (a : CStr) : VState :=
  (vfsClose (vfsRead (opened s a).1 (opened s a).2 512).1 (opened s a).2).1

def target (s : ShellState) (a b : CStr) : VState × CStr := choice (afterRead s a) (s.path b) b 3

/-- The state when `cmd_cp` has opened the destination, and the descriptor. -/
def dest (s : ShellState) (a b : CStr) : ByteVfs × ℤ :=
  let d := vfsOpen (target s a b).1 (target s a b).2 3
  ((s.put d.1).vfs, d.2)

theorem openEither_eq (v : VState) (path arg : CStr) (mode : ℤ) :
    ((openEither v path arg mode).1, (openEither v path arg mode).2.1) =
      vfsOpen (choice v path arg mode).1 (choice v path arg mode).2 mode := by
  unfold openEither choice
  dsimp only
  by_cases h : (vfsOpen v path mode).2 < 0
  · rw [if_pos h, if_pos h]
  · rw [if_neg h, if_neg h]

/-! ### The states in between -/

/-- A state with the file system of the shell. -/
structure Along (s : ShellState) (v : VState) : Prop where
  budget : Budget v
  fs : v.fs = s.vfs.dev.view

theorem along (s : ShellState) (h : Budget s.vfs.vfs) : Along s s.vfs.vfs := ⟨h, s.vfs.fs_eq⟩

theorem put_vfs (h : Along s v) : (s.put v).vfs.vfs = v := onDevice_vfs h.fs

theorem Along.open_ (h : Along s v) (path : CStr) (mode : ℤ) : Along s (vfsOpen v path mode).1 :=
  ⟨budget_vstep h.budget (.open_ path mode),
    (vfsOpen_fs h.budget.numbered path mode).trans h.fs⟩

theorem Along.choice (h : Along s v) (path arg : CStr) (mode : ℤ) :
    Along s (choice v path arg mode).1 := by
  unfold CopyMove.choice
  split_ifs
  · exact h.open_ path mode
  · exact h

theorem Along.files (h : Along s v) (op : VOp) (ho : FilesOnly v (vstep v op)) :
    Along s (vstep v op) := by
  refine ⟨budget_vstep h.budget op, ?_⟩
  rw [ho.rest]
  exact h.fs

section Along
variable (h : Budget s.vfs.vfs)
include h

theorem along_afterRead (a : CStr) : Along s (afterRead s a) := by
  have hopen : Along s (opened s a).1 := ((along s h).choice (s.path a) a 1).open_ _ _
  have hread := hopen.files (.read (opened s a).2 512) (vfsRead_files _ _ _)
  exact hread.files (.close (opened s a).2) (vfsClose_files _ _)

theorem along_target (a b : CStr) : Along s (target s a b).1 :=
  (along_afterRead h a).choice (s.path b) b 3

theorem dest_vfs (a b : CStr) :
    (dest s a b).1.vfs = (vfsOpen (target s a b).1 (target s a b).2 3).1 :=
  put_vfs ((along_target h a b).open_ (target s a b).2 3)

theorem dest_budget (a b : CStr) : Budget (dest s a b).1.vfs := by
  rw [dest_vfs h]
  exact ((along_target h a b).open_ (target s a b).2 3).budget

theorem copyFile_zero (hcp : (copyFile s a b).2 = 0) :
    let r := vfsRead (opened s a).1 (opened s a).2 512
    let d := dest s a b
    let o := overwrite d.1 d.2 (fun j => r.2.2.getD j 0) r.2.1.toNat
    ¬ (opened s a).2 < 0 ∧ ¬ r.2.1 < 0 ∧ ¬ d.2 < 0 ∧ ¬ o.2 < 0 ∧ (copyFile s a b).1.vfs = o.1 := by
  have hput : (s.put (vfsOpen (target s a b).1 (target s a b).2 3).1).vfs.vfs = _ := dest_vfs h a b
  have hsrc : _ = opened s a := openEither_eq s.vfs.vfs (s.path a) a 1
  have hdst : _ = vfsOpen (target s a b).1 (target s a b).2 3 :=
    openEither_eq (afterRead s a) (s.path b) b 3
  unfold afterRead at hdst
  unfold dest overwrite
  dsimp only
  rw [hput]
  rw [← hsrc] at hdst ⊢
  rw [← hdst]
  unfold copyFile at hcp ⊢
  generalize openEither s.vfs.vfs (s.path a) a 1 = x at hcp ⊢
  dsimp only at hcp ⊢
  split_ifs at hcp ⊢ with h₁ h₂ h₃ h₄
  · exact absurd hcp one_ne_zero
  · exact absurd hcp one_ne_zero
  · exact absurd hcp one_ne_zero
  · exact absurd hcp one_ne_zero
  · exact ⟨h₁, h₂, h₃, h₄, rfl⟩

end Along

theorem source_read (hopen : ¬ (opened s a).2 < 0)
    (hn : ¬ (vfsRead (opened s a).1 (opened s a).2 512).2.1 < 0) :
    ∃ content, readBack (source s a).1 (source s a).2 = some content ∧
      (vfsRead (opened s a).1 (opened s a).2 512).2 =
        (((content.take 512).length : ℤ), content.take 512) := by
  rcases vfsRead_readBack hopen (by decide : 512 < 2 ^ 31) with ⟨-, hr⟩ | hread
  · unfold opened at hn
    rw [hr] at hn
    exact absurd (by decide : (-1 : ℤ) < 0) hn
  · exact hread

/-! ### The copy -/

/-- The rest of `content` is in file `i` already, behind the bytes that are copied. -/
def HasRest (f : Fs) (i : ℕ) (content : List UInt8) : Prop :=
  behind f i (content.take 512).length = content.drop 512

theorem hasRest_of_short {f : Fs} (hlen : content.length ≤ 512)
    (hsize : (f.inodes i).size ≤ content.length) : HasRest f i content := by
  unfold HasRest
  rw [List.take_of_length_le hlen, List.drop_of_length_le hlen, behind_nil hsize]

theorem hasRest_iff {f : Fs} :
    content.take 512 ++ behind f i (content.take 512).length = content ↔ HasRest f i content := by
  have hsplit : content.take 512 ++ content.drop 512 = content := List.take_append_drop 512 content
  unfold HasRest
  constructor
  · intro heq
    exact List.append_cancel_left (heq.trans hsplit.symm)
  · intro hrest
    rw [hrest, hsplit]

def copied (s : ShellState) (a b : CStr) (content : List UInt8) : ByteVfs × ℤ :=
  overwrite (dest s a b).1 (dest s a b).2 (fun j => (content.take 512).getD j 0)
    (content.take 512).length

theorem copyFile_copied (h : Budget s.vfs.vfs) (hcp : (copyFile s a b).2 = 0) :
    ∃ content i, readBack (source s a).1 (source s a).2 = some content ∧
      fileAt (target s a b).1 (target s a b).2 = some i ∧
      Opened (target s a b).1 (target s a b).2 3 (dest s a b).1.vfs (dest s a b).2 i ∧
      ¬ (copied s a b content).2 < 0 ∧ (copyFile s a b).1.vfs = (copied s a b content).1 := by
  obtain ⟨hopen, hn, hdst, hwrite, hvfs⟩ := copyFile_zero h hcp
  obtain ⟨content, hcontent, hr⟩ := source_read hopen hn
  obtain ⟨i, hi⟩ := vfsOpen_opened hdst
  rw [hr, Int.toNat_natCast] at hwrite hvfs
  refine ⟨content, i, hcontent, hi.fileAt, ?_, hwrite, hvfs⟩
  rw [dest_vfs h]
  exact hi

/-! ### The removal -/

/-- The removals of `cmd_mv`, without the device. -/
def removed (v : VState) (path arg : CStr) : VState :=
  if (vfsUnlink v path).2 = 0 then (vfsUnlink v path).1
  else (vfsUnlink (vfsUnlink v path).1 arg).1

/-- The removals of `cmd_mv` spare file `i`: if they were made in `w`, before a copy of `count`
bytes, `dst` would lead to `i`; and the records they clear are apart from its bytes afterwards. -/
def MoveSpares (w : ByteVfs) (path arg dst : CStr) (i count : ℕ) : Prop :=
  let f := w.vfs.fs
  let v := removed w.vfs path arg
  fileAt v dst = some i ∧ v.fs.Live i ∧
    ∀ r < f.sb.inodeCount, f.Live r → ¬ v.fs.Live r → ∀ pk ∈ vopPlan f (f.inodes i) 0 count,
      inodeAddr r + 4104 ≤ blockAddr (pk.1.first (f.inodes i)) ∨
        blockAddr (pk.1.first (f.inodes i)) + max (f.inodes i).size count ≤ inodeAddr r

instance (w : ByteVfs) (path arg dst : CStr) (i count : ℕ) :
    Decidable (MoveSpares w path arg dst i count) := by unfold MoveSpares; infer_instance

theorem removeSource_vfs (s : ShellState) (a : CStr) : (removeSource s a).vfs =
    if (vfsUnlink s.vfs.vfs (s.path a)).2 = 0 then s.vfs.step (.unlink (s.path a))
    else (s.vfs.step (.unlink (s.path a))).step (.unlink a) := by
  unfold removeSource ShellState.unlink
  dsimp only
  split_ifs
  · rfl
  · rfl
  · rfl

theorem removeSource_names {d : VState} (hd : SameNames d s.vfs.vfs) (hb : Budget d)
    (hic : s.vfs.vfs.fs.icache = d.fs.icache) (a : CStr) :
    SameNames (removed d (s.path a) a) (removeSource s a).vfs.vfs ∧
      Keeps s.vfs (removeSource s a).vfs := by
  obtain ⟨hrc, hnames, hfail⟩ := hd.step hb.nodes hb.numbered hic (s.path a)
  have hkeeps := unlink_keeps (hb.numbered.congr hd.tree) (s.path a)
  have hb₁ : Budget (vfsUnlink d (s.path a)).1 := budget_vstep hb (.unlink (s.path a))
  rw [removeSource_vfs, hrc]
  unfold removed
  split_ifs with hz
  · exact ⟨hnames, hkeeps⟩
  · obtain ⟨-, hnames₂, -⟩ := hnames.step hb₁.nodes hb₁.numbered (hfail hz) a
    exact ⟨hnames₂, hkeeps.trans (unlink_keeps (hb₁.numbered.congr hnames.tree) a)⟩

theorem vopWrite_icache (f : Fs) (i off : ℕ) (buf : ℕ → UInt8) (count : ℕ) :
    (vopWrite f i off buf count).1.icache = f.icache := by
  unfold vopWrite
  split_ifs
  · rfl
  · cases vopPlan f (f.inodes i) off count with
    | none => rfl
    | some pk =>
      dsimp only
      cases vopClamp ((pk.1.run f i).inodes i) off pk.2 with
      | none => rfl
      | some k => rfl

theorem overwritten_names {w u : ByteVfs} {fd : ℤ} {buf : ℕ → UInt8} {count : ℕ}
    (h : Overwritten w u fd i buf count) :
    SameNames w.vfs u.vfs ∧ u.vfs.fs.icache = w.vfs.fs.icache := by
  obtain ⟨rd, used, ft, -, hrest⟩ := h.rest
  refine ⟨⟨?_, (vopWrite_sameTree _ _ _ _ _).trans h.alike.sameTree⟩,
    h.alike.icache.trans (vopWrite_icache _ _ _ _ _)⟩
  rw [hrest]
  rfl

theorem moved_readBack {w : ByteVfs} {fd : ℤ} {buf : ℕ → UInt8} {count : ℕ} {dst : CStr}
    (h : Overwritten w s.vfs fd i buf count) (hfd : fd.toNat < 64) (hb : Budget w.vfs)
    (hs : MoveSpares w (s.path a) a dst i count) :
    readBack (removeSource s a).vfs.vfs dst = some (fileContent s.vfs.vfs.fs i) := by
  obtain ⟨hlead, hlive, hfar⟩ := hs
  obtain ⟨hnames, hic⟩ := overwritten_names h
  obtain ⟨hmoved, hkeeps⟩ := removeSource_names hnames hb hic a
  have hb' : Budget (removed w.vfs (s.path a) a) := by
    unfold removed
    split_ifs
    · exact budget_vstep hb (.unlink (s.path a))
    · exact budget_vstep (budget_vstep hb (.unlink (s.path a))) (.unlink a)
  -- the lookup of the destination, as before the copy
  obtain ⟨n, hn, hdata⟩ := Option.bind_eq_some_iff.mp hlead
  obtain ⟨hlook, hres, hfs⟩ := hmoved.lookup hb'.nodes hb'.numbered dst
  have hnode := (congrArg (fun x : VState => (x.nodes n).data) hlook.rest).trans hdata
  have hfree : (vfsLookup (removeSource s a).vfs.vfs dst).1.fdUsed fd.toNat = false := by
    obtain ⟨rd, used, ft, hused, hrest⟩ := h.rest
    have hkept := hkeeps.fds fd.toNat (by rw [hrest]; exact hused)
    refine Bool.eq_false_iff.mpr fun hu => ?_
    rw [((vfsLookup_calm (hb'.numbered.congr hmoved.tree) dst).fds _ hu).1] at hkept
    cases hkept
  obtain ⟨hopened, hofs⟩ := vfsOpen_found (Prod.ext rfl (hres.trans hn)) hnode ⟨_, hfd, hfree⟩ 1
  -- its record and its bytes
  have hinode := hkeeps.inode i ((hmoved.tree.live i).mpr hlive)
  obtain ⟨pk, hpk, hfirst, hsize⟩ := h.extent
  have hcontent : fileContent (removeSource s a).vfs.vfs.fs i = fileContent s.vfs.vfs.fs i := by
    unfold fileContent
    rw [hinode]
    refine List.map_congr_left fun j hj => hkeeps.data _ fun r hr hr' => ?_
    have hrlive := (hnames.tree.live r).mp hr
    have hapart := hfar r hrlive.1 hrlive (fun h => hr' ((hmoved.tree.live r).mpr h)) pk hpk
    have hlt := List.mem_range.mp hj
    rw [← hfirst, ← hsize] at hapart
    unfold copyLen at hlt
    unfold InRange
    unfold blockAddr at hapart
    omega
  rw [hfs] at hofs
  rw [readBack_opened hopened (by rw [hofs, hinode]; exact h.file)
    (by rw [hofs, hinode]; exact h.len), hofs, hcontent]

theorem copyFile_path (s : ShellState) (a b arg : CStr) :
    (copyFile s a b).1.path arg = s.path arg := by
  have hcwd : (copyFile s a b).1.cwd = s.cwd := by
    unfold copyFile
    dsimp only
    split_ifs <;> rfl
  unfold ShellState.path
  rw [hcwd]

/-- **Copying and moving.** In every run of the VFS whose writes spare the inode records: if `cmd_cp`
returns 0 and its own write spares them, the destination has the content of the source exactly if
what it had behind the bytes copied is the rest of it. So it is after `cmd_mv`, if the removal of
the source spares the destination. -/
theorem copy_move (hv : Reach (Sparing VfsCall) ByteVfs.step initBytes s.vfs) (name : CStr)
    (more : List CStr) (hcp : (cmdCp s (name :: a :: b :: more)).2 = 0) :
    let cp := (cmdCp s (name :: a :: b :: more)).1
    let mv := cmdMv s (name :: a :: b :: more)
    let dst := (target s a b).2
    ∃ content i, readBack (source s a).1 (source s a).2 = some content ∧
      fileAt (target s a b).1 dst = some i ∧ mv.2 = 0 ∧
      (StartSpares s.vfs.dev i (content.take 512).length →
        (readBack cp.vfs.vfs dst = some content ↔ HasRest s.vfs.vfs.fs i content) ∧
        (MoveSpares (dest s a b).1 (s.path a) a dst i (content.take 512).length →
          (readBack mv.1.vfs.vfs dst = some content ↔ HasRest s.vfs.vfs.fs i content))) := by
  have hb := budget_bytes hv
  obtain ⟨content, i, hcontent, hlead, hopen, hwrite, hvfs⟩ := copyFile_copied hb hcp
  have hmv : cmdMv s (name :: a :: b :: more) = (removeSource (copyFile s a b).1 a, 0) :=
    if_neg (not_not.mpr hcp)
  have hcount : (content.take 512).length ≤ 4096 := by
    rw [List.length_take]
    omega
  dsimp only
  rw [hmv]
  refine ⟨content, i, hcontent, hlead, rfl, fun hok => ?_⟩
  have hdest := dest_budget hb a b
  have hover := hopen.overwrite hdest hcount hok hwrite
  change Overwritten _ (copied s a b content).1 _ _ _ _ at hover
  rw [← hvfs] at hover
  have hback := readBack_overwrite (along_target hb a b).budget.numbered hopen hdest hcount hok hwrite
  have hfs : (dest s a b).1.vfs.fs = s.vfs.vfs.fs := (dest s a b).1.fs_eq.trans s.vfs.fs_eq.symm
  have hbytes := hover.bytes
  rw [map_range_getD rfl fun _ _ => rfl, hfs] at hback hbytes
  refine ⟨?_, fun hs => ?_⟩
  · change readBack (copyFile s a b).1.vfs.vfs _ = _ ↔ _
    rw [hvfs, copied, hback, Option.some_inj, hasRest_iff]
  · have hfd : (dest s a b).2.toNat < 64 := by
      have hgood := hopen.spec.1
      unfold VState.badFd at hgood
      omega
    rw [moved_readBack hover hfd hdest (by rw [copyFile_path]; exact hs), hbytes, Option.some_inj,
      hasRest_iff]

/-- A shell in the root directory, after calls that make the files `/a` and `/b`. -/
def withFiles (x y : List UInt8) (before : List VOp) : ShellState :=
  ⟨(before ++ making (cstr "a") x ++ making (cstr "b") y).foldl ByteVfs.step initBytes,
    some (cstr "/"), []⟩

def short : ShellState := withFiles (cstr "xyz") [] []

/-- `cp a b` and `mv a b`. -/
theorem copy_move_short :
    readBack (cmdCp short [cstr "cp", cstr "a", cstr "b"]).1.vfs.vfs (cstr "/b") =
        some (cstr "xyz") ∧
      readBack (cmdMv short [cstr "cp", cstr "a", cstr "b"]).1.vfs.vfs (cstr "/b") =
        some (cstr "xyz") := by
  have hsource : readBack (source short (cstr "a")).1 (source short (cstr "a")).2 =
      some (cstr "xyz") := by decide +kernel
  have hdst : (target short (cstr "a") (cstr "b")).2 = cstr "/b" := by decide +kernel
  have hfile : fileAt (target short (cstr "a") (cstr "b")).1 (cstr "/b") = some 6 := by
    decide +kernel
  obtain ⟨content, i, hc, hl, -, hright⟩ := copy_move (s := short)
    (Reach.foldl _ .init (by decide +kernel)) (cstr "cp") []
    (by decide +kernel : (cmdCp short [cstr "cp", cstr "a", cstr "b"]).2 = 0)
  cases hsource.symm.trans hc
  rw [hdst] at hl hright
  cases hfile.symm.trans hl
  obtain ⟨hcp, hmv⟩ := hright (by decide +kernel)
  have hrest : HasRest short.vfs.vfs.fs 6 (cstr "xyz") :=
    hasRest_of_short (by decide) (by decide +kernel)
  exact ⟨hcp.mpr hrest, (hmv (by decide +kernel)).mpr hrest⟩

/-- A file that takes five blocks, so that those of other files lie behind the inode records. -/
def spacer : List VOp :=
  [.create 0 (cstr "x"), .open_ (cstr "/x") 3, .lseek 0 20480 0, .write 0 (fun _ => 0) 0, .close 0]

/-- **A longer destination keeps its end, a longer source is cut, and a file moved to itself is
gone.** -/
theorem copies_not_exact : let copy := fun s : ShellState => cmdCp s [cstr "cp", cstr "a", cstr "b"]
    let move := fun s : ShellState => cmdMv s [cstr "mv", cstr "a", cstr "a"]
    let s := withFiles (cstr "xyz") (cstr "longer") []
    let big := withFiles (List.replicate 513 97) [] spacer
    ((copy s).2 = 0 ∧ readBack (copy s).1.vfs.vfs (cstr "/b") = some (cstr "xyzger")) ∧
      ((copy big).2 = 0 ∧ (readBack big.vfs.vfs (cstr "/a")).map List.length = some 513 ∧
        (readBack (copy big).1.vfs.vfs (cstr "/b")).map List.length = some 512) ∧
      ((move s).2 = 0 ∧ readBack (move s).1.vfs.vfs (cstr "/a") = none) := by
  refine ⟨⟨?_, ?_⟩, ⟨?_, ?_, ?_⟩, ?_, ?_⟩ <;> decide +kernel

end Kerneloid.Shell.CopyMove
