import Mathlib.Tactic

/-! # The text interface of the installer

`installer_tui.c`: a context with a list of elements, five screens that add elements to it and read
keys until `exit_flag` is set, and `tui_run`, which shows the screens one after the other.

The keys still to come from `io_getchar` are part of the state; a screen that runs out of them
waits, and its result is `none`. `log` notes the disks detected, the buttons activated with the
screen they were activated on, and the start of the installation.

The elements are `tui_elements[0 .. tui_element_count)`, which are linked in this order; a pointer
to one is its index. Left out is what only concerns the drawing: positions, colours, the cursor and
the mark `selected` of an element. -/

namespace Kerneloid.Installer.Tui

/-- `TUI_ELEM_BUTTON` to `TUI_ELEM_PROGRESS`. -/
inductive ElemType
  | button
  | label
  | list
  | input
  | checkbox
  | progress
  deriving DecidableEq

/-- `struct tui_element`. -/
structure Element where
  type : ElemType
  text : String
  value : ℤ
  deriving DecidableEq

inductive Screen
  | welcome
  | diskSelect
  | partitionConfirm
  | installProgress
  | complete
  deriving DecidableEq

/-- What happens in a run. -/
inductive Event
  | detected (disks : ℕ)
  | activated (screen : Screen) (text : String)
  | installing
  deriving DecidableEq

/-- `struct tui_context` with the elements. `screen` is the one shown last. -/
structure Ctx where
  elements : List Element
  focused : Option ℕ
  exitFlag : Bool
  result : ℤ
  selectedDisk : ℤ
  installPhase : ℕ
  installProgress : ℕ
  keys : List Char
  screen : Screen
  log : List Event
  deriving DecidableEq

/-- `TUI_OK`, and the errors. -/
def tuiOk : ℤ := 0
def tuiErrCancel : ℤ := -1
def tuiErrInvalid : ℤ := -2
def tuiErrNoDisk : ℤ := -3

/-- `tui_init`, with the keys that will come. -/
def tuiInit (keys : List Char) : Ctx :=
  ⟨[], none, false, tuiOk, 0, 0, 0, keys, .welcome, []⟩

/-! ### Elements -/

/-- The part `tui_add_button`, `tui_add_label` and `tui_add_progress` share. -/
def tuiAddElement (t : Ctx) (type : ElemType) (text : String) : Ctx × Option ℕ :=
  if 32 ≤ t.elements.length then (t, none)
  else ({ t with elements := t.elements ++ [⟨type, text, 0⟩] }, some t.elements.length)

/-- `tui_add_button`. The first button gets the focus and keeps it on the screens that follow. -/
def tuiAddButton (t : Ctx) (text : String) : Ctx × Option ℕ :=
  match tuiAddElement t .button text with
  | (t, none) => (t, none)
  | (t, some i) => ({ t with focused := t.focused.or (some i) }, some i)

def tuiAddLabel (t : Ctx) (text : String) : Ctx × Option ℕ := tuiAddElement t .label text

def tuiAddProgress (t : Ctx) (text : String) : Ctx × Option ℕ := tuiAddElement t .progress text

/-- An element changed through a pointer. The source does not check the pointers it gets; from
`tui_init` on there are never more than nine elements, and none is null. -/
def Ctx.modify (t : Ctx) (i : Option ℕ) (f : Element → Element) : Ctx :=
  match i with
  | none => t
  | some i => { t with elements := t.elements.modify i f }

def addChoice (t : Ctx) (text : String) (value : ℤ) : Ctx × Option ℕ :=
  match tuiAddButton t text with
  | (t, i) => (t.modify i fun e => { e with value := value }, i)

/-! ### Keys -/

def tuiHandleEnter (t : Ctx) : Ctx :=
  match t.focused with
  | none => t
  | some i =>
    match t.elements[i]? with
    | none => t
    | some e =>
      match e.type with
      | .button =>
        { t with
          result := e.value
          exitFlag := true
          log := t.log ++ [.activated t.screen e.text] }
      | .checkbox => t.modify i fun e => { e with value := if e.value = 0 then 1 else 0 }
      | _ => t

def tuiHandleEscape (t : Ctx) : Ctx := { t with result := tuiErrCancel, exitFlag := true }

/-- The keys every screen knows: Enter and Escape. The others are left to `more`. -/
def onKey (more : Ctx → Char → Ctx) (t : Ctx) (key : Char) : Ctx :=
  if key = '\n' ∨ key = '\r' then tuiHandleEnter t
  else if key = '\x1b' then tuiHandleEscape t
  else more t key

/-- `while (!ctx->exit_flag)`, with the keys left, or `none` if there are none to go on with. -/
def readKeys (onKey : Ctx → Char → Ctx) : List Char → Ctx → Ctx × Option (List Char)
  | [], t => if t.exitFlag then (t, some []) else (t, none)
  | key :: keys, t =>
    if t.exitFlag then (t, some (key :: keys)) else readKeys onKey keys (onKey t key)

/-- The end of a screen: keys are read until `exit_flag` is set. -/
def waitExit (more : Ctx → Char → Ctx) (t : Ctx) : Ctx × Option ℤ :=
  match readKeys (onKey more) t.keys t with
  | (t, none) => ({ t with keys := [] }, none)
  | (t, some keys) => ({ t with keys := keys }, some t.result)

def noKey (t : Ctx) (_ : Char) : Ctx := t

/-! ### Screens -/

def tuiShowWelcome (t : Ctx) : Ctx × Option ℤ :=
  waitExit noKey (addChoice { t with screen := .welcome } "OK" tuiOk).1

/-- The keys `2` and `8` of `tui_show_disk_select`, down and up. -/
def diskKey (disks : ℕ) (t : Ctx) (key : Char) : Ctx :=
  if key = '2' then
    { t with selectedDisk :=
        if t.selectedDisk + 1 ≥ disks then (disks : ℤ) - 1 else t.selectedDisk + 1 }
  else if key = '8' then
    { t with selectedDisk := if t.selectedDisk - 1 < 0 then 0 else t.selectedDisk - 1 }
  else t

/-- `tui_show_disk_select`; `disks` is the result of `install_detect_disks`. -/
def tuiShowDiskSelect (disks : ℕ) (t : Ctx) : Ctx × Option ℤ :=
  let t := { t with screen := .diskSelect, log := t.log ++ [.detected disks] }
  if disks = 0 then waitExit noKey (addChoice t "OK" tuiErrNoDisk).1
  else
    let t := (addChoice t "Install" tuiOk).1
    waitExit (diskKey disks) (addChoice t "Cancel" tuiErrCancel).1

/-- The keys `4` and `6` of `tui_show_partition_confirm`, left and right. -/
def confirmKey (yes no : Option ℕ) (t : Ctx) (key : Char) : Ctx :=
  if key = '4' ∨ key = '6' then { t with focused := if t.focused = yes then no else yes } else t

/-- `tui_show_partition_confirm`. The focus is on `No` at first. -/
def tuiShowPartitionConfirm (t : Ctx) : Ctx × Option ℤ :=
  match addChoice { t with screen := .partitionConfirm } "Yes" tuiOk with
  | (t, yes) =>
    match addChoice t "No" tuiErrCancel with
    | (t, no) => waitExit (confirmKey yes no) { t with focused := no }

def phases : List String :=
  ["Detecting disk...", "Writing MBR...", "Writing bootloader...", "Writing kernel...",
    "Verifying installation...", "Complete!"]

/-- One phase: the text is shown, and the bar goes from 0 to 100. -/
def showPhase (progress status : Option ℕ) (t : Ctx) (phase : String × ℕ) : Ctx :=
  let t := { t with installPhase := phase.2 }
  let t := t.modify progress fun e => { e with text := phase.1 }
  let t := t.modify status fun e => { e with text := phase.1 }
  (List.range 11).foldl
    (fun t (i : ℕ) =>
      { t.modify progress (fun e => { e with value := 10 * i }) with installProgress := 10 * i }) t

def tuiShowInstallProgress (t : Ctx) : Ctx × ℤ :=
  match tuiAddProgress { t with screen := .installProgress, log := t.log ++ [.installing] }
      "Progress:" with
  | (t, progress) =>
    match tuiAddLabel t "Initializing..." with
    | (t, status) => (phases.zipIdx.foldl (showPhase progress status) t, tuiOk)

def tuiShowComplete (t : Ctx) : Ctx × Option ℤ :=
  waitExit noKey (addChoice { t with screen := .complete } "Reboot Now" tuiOk).1

def tuiRun (disks : ℕ) (t : Ctx) : Ctx × Option ℤ :=
  match tuiShowWelcome t with
  | (t, none) => (t, none)
  | (t, some r) =>
    if r ≠ tuiOk then (t, some tuiErrCancel)
    else
      match tuiShowDiskSelect disks t with
      | (t, none) => (t, none)
      | (t, some r) =>
        if r ≠ tuiOk then (t, some tuiErrCancel)
        else
          match tuiShowPartitionConfirm t with
          | (t, none) => (t, none)
          | (t, some r) =>
            if r ≠ tuiOk then (t, some tuiErrCancel)
            else
              match tuiShowInstallProgress t with
              | (t, r) => if r ≠ tuiOk then (t, some tuiErrInvalid) else tuiShowComplete t

end Kerneloid.Installer.Tui
