import Kerneloid.Lib.Recent
import Kerneloid.Lib.Slots
import Kerneloid.Shell.Commands
import Kerneloid.Shell.Parse

/-! # The history of the shell

`shell_exec` of `shell.c` saves the commands it is given in 16 slots of 256 bytes, and
`shell_history_prev` and `shell_history_next` go through them. Copies into a slot are checked for
its size and its number. `shell_init` sets the counters only: the slots have whatever was there.

The builtin commands and the output do not touch the history. They are a parameter: `World` has what
`shell_exec` uses of the rest of the kernel, on a state `ε` of everything else. -/

namespace Kerneloid.Shell.History

open Lib.Arrays Lib.Recent Lib.Runs Lib.Slots UnnamedFS.Types
open Vfs.Path (chars)
open Commands Parse

/-! ### The code -/

/-- The rest of the kernel: `find_builtin`, the console, the log, and what `shell_init` does to the
working directory, the prompt and the log. -/
structure World (ε : Type) where
  findBuiltin : CStr → Option (List CStr → ε → ε × ℤ)
  ioPrint : CStr → ε → ε
  dmesgAppend : CStr → ε → ε
  init : ε → ε

/-- `struct shell_state`, with the working directory and the prompt in `rest`. -/
structure State (ε : Type) where
  history : ℕ → CStr
  historyIndex : ℤ
  historyCount : ℤ
  exitCode : ℤ
  rest : ε

variable {ε : Type}

def shellInit (w : World ε) (s : State ε) : State ε :=
  { s with historyIndex := 0, historyCount := 0, exitCode := 0, rest := w.init s.rest }

/-- The part of `shell_exec` that saves the command. -/
def saveHistory (s : State ε) (cmd : CStr) : Option (State ε) := do
  let last ← readAt 16 s.history (if 0 < s.historyCount then s.historyCount - 1 else 0)
  if s.historyCount = 0 ∨ last ≠ cmd then
    if s.historyCount < 16 then
      return { s with
        history := ← copyTo 16 256 s.history s.historyCount cmd
        historyCount := s.historyCount + 1 }
    else
      return { s with history := ← copyTo 16 256 (← shiftDown 16 256 s.history) 15 cmd }
  else return s

/-- The characters `shell_exec` trims. -/
def trimmed (c : UInt8) : Bool := c = 32 ∨ c = 9

/-- The part of `shell_exec` that runs the command. -/
def runCommand (w : World ε) (s : State ε) (cmd : CStr) : Option (State ε × ℤ) := do
  let copy := cmd.take 255
  let r ← parseCommand copy fun _ => none
  let argv ← (arguments (copy.length + 1) r).mapM id
  match argv with
  | [] => return (s, 0)
  | name :: _ =>
    match w.findBuiltin name with
    | some builtin =>
      match builtin argv s.rest with
      | (rest, code) =>
        let rest := w.dmesgAppend cmd (w.dmesgAppend (cstr "cmd: ") rest)
        let rest := w.dmesgAppend (cstr "\n") rest
        return ({ s with rest := rest, exitCode := code }, code)
    | none =>
      let rest := w.ioPrint (name ++ cstr "\n") (w.ioPrint (cstr "Command not found: ") s.rest)
      return ({ s with rest := rest, exitCode := 127 }, 127)

def shellExec (w : World ε) (s : State ε) (cmd : CStr) : Option (State ε × ℤ) := do
  if cmd = [] then return (s, 0)
  if cmd.dropWhile trimmed = [] then return (s, 0)
  let s ← saveHistory s cmd
  runCommand w { s with historyIndex := s.historyCount } cmd

/-- `shell_strncpy` into a buffer of `n` bytes. For `n = 0` the bound `n - 1` wraps. -/
def copied (src : CStr) (n : ℕ) : CStr := if n = 0 then chars src else shellStrncpy src n

/-- `shell_get_history`. The buffer is left alone if the result has none. -/
def shellGetHistory (s : State ε) (idx : ℤ) (outLen : ℕ) : Option (ℤ × Option CStr) :=
  if idx < 0 ∨ s.historyCount ≤ idx then some (-1, none)
  else do return (0, some (copied (← readAt 16 s.history idx) outLen))

def shellHistoryPrev (s : State ε) (outLen : ℕ) : Option (State ε × ℤ × Option CStr) :=
  if s.historyCount = 0 then some (s, -1, none)
  else
    let s := { s with historyIndex := if 0 < s.historyIndex then s.historyIndex - 1 else 0 }
    if s.historyIndex < s.historyCount then do
      return (s, 0, some (copied (← readAt 16 s.history s.historyIndex) outLen))
    else some (s, -1, some [])

def shellHistoryNext (s : State ε) (outLen : ℕ) : Option (State ε × ℤ × Option CStr) :=
  if s.historyCount = 0 then some (s, -1, some [])
  else if s.historyIndex < s.historyCount - 1 then do
    let s := { s with historyIndex := s.historyIndex + 1 }
    return (s, 0, some (copied (← readAt 16 s.history s.historyIndex) outLen))
  else some ({ s with historyIndex := s.historyCount }, 0, some [])

/-! ### Saving a command -/

/-- The slots have the list `l`. -/
structure Saved (s : State ε) (l : List CStr) : Prop where
  count : s.historyCount = l.length
  slots : Stored Eq s.history 0 l

variable {s : State ε} {l : List CStr} {cmd : CStr}

theorem Saved.slot (h : Saved s l) {k : ℕ} (hk : k < l.length) : s.history k = l[k] := by
  have hslot := h.slots k l[k] (List.getElem?_eq_getElem hk)
  rwa [zero_add] at hslot

theorem Saved.last (h : Saved s l) (hl : l.length ≤ 16) (cmd : CStr) :
    ∃ last, readAt 16 s.history (if 0 < s.historyCount then s.historyCount - 1 else 0) = some last ∧
      ((s.historyCount = 0 ∨ last ≠ cmd) ↔ l.getLast? ≠ some cmd) := by
  have hindex : (if 0 < s.historyCount then s.historyCount - 1 else 0) =
      ((l.length - 1 : ℕ) : ℤ) := by
    rw [h.count]
    split_ifs <;> omega
  refine ⟨s.history (l.length - 1), ?_, ?_⟩
  · rw [hindex]
    exact readAt_natCast (by omega)
  · rw [h.count]
    cases l with
    | nil => simp
    | cons a l =>
      have hlast : s.history ((a :: l).length - 1) = (a :: l)[(a :: l).length - 1] :=
        h.slot (by simp)
      have hne : ¬ ((a :: l).length : ℤ) = 0 := by
        rw [List.length_cons]
        omega
      rw [hlast, List.getLast?_eq_getElem?, List.getElem?_eq_getElem (by simp)]
      simp only [hne, false_or, ne_eq, Option.some.injEq]

theorem saveHistory_saved (h : Saved s l) (hl : l.length ≤ 16) (hshort : ∀ c ∈ l, c.length < 256)
    (hcmd : cmd.length < 256) :
    ∃ s', saveHistory s cmd = some s' ∧ Saved s' (remember 16 l cmd) := by
  obtain ⟨last, hread, hlast⟩ := h.last hl cmd
  unfold saveHistory remember
  simp only [hread, Option.bind_eq_bind, Option.bind_some]
  by_cases hrep : l.getLast? = some cmd
  · rw [if_neg (hlast.not.mpr (not_not.mpr hrep)), if_pos hrep]
    exact ⟨s, rfl, h⟩
  · rw [if_pos (hlast.mpr hrep), if_neg hrep]
    by_cases hroom : l.length < 16
    · have hcopy : copyTo 16 256 s.history s.historyCount cmd =
          some (Function.update s.history l.length cmd) := by
        rw [h.count]
        exact copyTo_natCast hcmd hroom
      rw [if_pos (by rw [h.count]; omega), hcopy]
      refine ⟨_, rfl, ?_, stored_snoc h.slots hroom⟩
      rw [length_rtake_snoc, min_eq_right (by omega), Nat.cast_succ, ← h.count]
    · have hfull : l.length = 15 + 1 := by omega
      obtain ⟨h', hshift, hmoved⟩ : ∃ h', shiftDown 16 256 s.history = some h' ∧ _ :=
        shiftDown_eq fun k hk => by
          rw [h.slot (by omega)]
          exact hshort _ (List.getElem_mem _)
      have hcopy : copyTo 16 256 h' 15 cmd = some (Function.update h' 15 cmd) :=
        copyTo_natCast (n := 15) hcmd (by omega)
      rw [if_neg (by rw [h.count]; omega), hshift, Option.bind_some, hcopy]
      refine ⟨_, rfl, ?_, stored_shift h.slots hfull hmoved⟩
      rw [length_rtake_snoc, hfull]
      exact h.count.trans (by rw [hfull]; rfl)

/-! ### Calls -/

/-- The commands that are saved. -/
def nonBlank (cmd : CStr) : Bool := cmd.any fun c => !trimmed c

/-- The shell, and the commands given to `shell_exec` so far. -/
structure Tracked (ε : Type) where
  shell : State ε
  cmds : List CStr

inductive Op
  | exec (cmd : CStr)
  | prev (outLen : ℕ)
  | next (outLen : ℕ)

/-- A call. -/
def track (w : World ε) (t : Tracked ε) : Op → Option (Tracked ε)
  | .exec cmd => (shellExec w t.shell cmd).map fun r => ⟨r.1, t.cmds ++ [cmd]⟩
  | .prev outLen => (shellHistoryPrev t.shell outLen).map fun r => ⟨r.1, t.cmds⟩
  | .next outLen => (shellHistoryNext t.shell outLen).map fun r => ⟨r.1, t.cmds⟩

/-- Commands of at most 255 characters. -/
def Short (_ : Tracked ε) : Op → Prop
  | .exec cmd => cmd.length ≤ 255 ∧ 0 ∉ cmd
  | _ => True

instance (t : Tracked ε) : ∀ op, Decidable (Short t op)
  | .exec _ => inferInstanceAs (Decidable (_ ∧ _))
  | .prev _ | .next _ => isTrue trivial

/-- The history of the commands given so far. -/
abbrev Tracked.entries (t : Tracked ε) : List CStr := recent 16 (t.cmds.filter nonBlank)

/-- **The invariant.** -/
structure Remembers (t : Tracked ε) : Prop where
  saved : Saved t.shell t.entries
  index : 0 ≤ t.shell.historyIndex ∧ t.shell.historyIndex ≤ t.shell.historyCount
  short : ∀ c ∈ t.cmds, c.length ≤ 255 ∧ 0 ∉ c

variable {t : Tracked ε} {w : World ε} {outLen : ℕ}

theorem Remembers.entry (h : Remembers t) {c : CStr} (hc : c ∈ t.entries) :
    c.length ≤ 255 ∧ 0 ∉ c :=
  h.short c (List.mem_of_mem_filter (mem_of_mem_recent hc))

theorem dropWhile_trimmed (cmd : CStr) : cmd.dropWhile trimmed = [] ↔ nonBlank cmd = false := by
  rw [List.dropWhile_eq_nil_iff, nonBlank, List.any_eq_false]
  simp

theorem mapM_map_some {α : Type} (l : List α) : (l.map some).mapM id = some l := by
  induction l with
  | nil => rfl
  | cons a l ih => simp [ih]

theorem runCommand_history (w : World ε) (s : State ε) (hcmd : 0 ∉ cmd) :
    ∃ r, runCommand w s cmd = some r ∧ r.1.history = s.history ∧
      r.1.historyIndex = s.historyIndex ∧ r.1.historyCount = s.historyCount := by
  have hcopy : 0 ∉ cmd.take 255 := fun h => hcmd (List.mem_of_mem_take h)
  obtain ⟨a, ha, -, hargs, -⟩ := parseCommand_arguments hcopy fun _ => none
  have hargv : (arguments ((cmd.take 255).length + 1) a).mapM id =
      some ((spans (maxArgs - 1) 0 (cmd.take 255)).map (·.2)) := by
    rw [hargs]
    exact mapM_map_some _
  unfold runCommand
  simp only [ha, hargv, Option.bind_eq_bind, Option.bind_some]
  cases (spans (maxArgs - 1) 0 (cmd.take 255)).map (·.2) with
  | nil => exact ⟨_, rfl, rfl, rfl, rfl⟩
  | cons name args =>
    dsimp only
    cases w.findBuiltin name with
    | none => exact ⟨_, rfl, rfl, rfl, rfl⟩
    | some builtin => exact ⟨_, rfl, rfl, rfl, rfl⟩

theorem shellExec_blank (w : World ε) (s : State ε) (h : nonBlank cmd = false) :
    shellExec w s cmd = some (s, 0) := by
  unfold shellExec
  rw [if_pos ((dropWhile_trimmed cmd).mpr h)]
  exact ite_self _

theorem shellExec_saved {s' : State ε} (w : World ε) (h : nonBlank cmd = true)
    (hsave : saveHistory s cmd = some s') :
    shellExec w s cmd = runCommand w { s' with historyIndex := s'.historyCount } cmd := by
  have hdrop : ¬ cmd.dropWhile trimmed = [] := by
    rw [dropWhile_trimmed, h]
    simp
  have hne : ¬ cmd = [] := by
    rintro rfl
    exact hdrop rfl
  unfold shellExec
  rw [if_neg hne, if_neg hdrop, hsave]
  rfl

theorem exec_remembers (h : Remembers t) (hcmd : cmd.length ≤ 255 ∧ 0 ∉ cmd) :
    ∃ t', track w t (.exec cmd) = some t' ∧ Remembers t' := by
  have hshort : ∀ c ∈ t.cmds ++ [cmd], c.length ≤ 255 ∧ 0 ∉ c := by
    intro c hc
    rcases List.mem_append.mp hc with hc | hc
    · exact h.short c hc
    · rw [List.mem_singleton.mp hc]
      exact hcmd
  rw [track]
  cases hblank : nonBlank cmd with
  | false =>
    have hlist : recent 16 ((t.cmds ++ [cmd]).filter nonBlank) = t.entries := by
      rw [List.filter_append, List.filter_cons_of_neg (by simp [hblank]), List.filter_nil,
        List.append_nil]
    rw [shellExec_blank w t.shell hblank]
    refine ⟨_, rfl, ?_, h.index, hshort⟩
    show Saved t.shell (recent 16 ((t.cmds ++ [cmd]).filter nonBlank))
    rw [hlist]
    exact h.saved
  | true =>
    have hlist : recent 16 ((t.cmds ++ [cmd]).filter nonBlank) = remember 16 t.entries cmd := by
      rw [List.filter_append, List.filter_cons_of_pos hblank, List.filter_nil,
        recent_snoc (by norm_num)]
    obtain ⟨s', hsave, hsaved⟩ := saveHistory_saved h.saved (length_recent 16 _)
      (fun c hc => Nat.lt_succ_of_le (h.entry hc).1) (Nat.lt_succ_of_le hcmd.1)
    -- the command is run with the index behind its entry
    obtain ⟨r, hr, hhist, hindex, hcount⟩ :=
      runCommand_history w { s' with historyIndex := s'.historyCount } hcmd.2
    rw [shellExec_saved w hblank hsave, hr]
    refine ⟨_, rfl, ⟨?_, ?_⟩, ?_, hshort⟩
    · show r.1.historyCount = (recent 16 ((t.cmds ++ [cmd]).filter nonBlank)).length
      rw [hcount, hlist]
      exact hsaved.count
    · show Stored Eq r.1.history 0 (recent 16 ((t.cmds ++ [cmd]).filter nonBlank))
      rw [hhist, hlist]
      exact hsaved.slots
    · show 0 ≤ r.1.historyIndex ∧ r.1.historyIndex ≤ r.1.historyCount
      rw [hindex, hcount]
      show 0 ≤ s'.historyCount ∧ s'.historyCount ≤ s'.historyCount
      rw [hsaved.count]
      omega

/-! ### Going through the history -/

/-- What a successful call returns: the entry at the new index, or the empty string behind the last
one, as far as the buffer has room; so the whole entry if that has 256 bytes. -/
def Shows (t : Tracked ε) (outLen : ℕ) (r : State ε × ℤ × Option CStr) : Prop :=
  r.2.1 = 0 → ∃ out, r.2.2 = some out ∧
    out = copied (t.entries.getD r.1.historyIndex.toNat []) outLen ∧
    (256 ≤ outLen → out = t.entries.getD r.1.historyIndex.toNat [])

theorem copied_nil (outLen : ℕ) : copied [] outLen = [] := by
  unfold copied shellStrncpy
  split_ifs <;> simp [chars]

theorem copied_whole {c : CStr} (hc : c.length ≤ 255 ∧ 0 ∉ c) (h : 256 ≤ outLen) :
    copied c outLen = c := by
  have hchars : chars c = c := List.takeWhile_eq_self_iff.mpr fun x hx =>
    decide_eq_true fun e => hc.2 (e ▸ hx)
  unfold copied shellStrncpy
  rw [if_neg (by omega), hchars, List.take_of_length_le (by omega)]

theorem Remembers.read (h : Remembers t) {k : ℕ} (hk : k < t.entries.length) (outLen : ℕ) :
    readAt 16 t.shell.history k = some (t.entries.getD k []) ∧
      (256 ≤ outLen → copied (t.entries.getD k []) outLen = t.entries.getD k []) := by
  have hlen : t.entries.length ≤ 16 := length_recent 16 _
  rw [List.getD_eq_getElem _ _ hk]
  refine ⟨?_, copied_whole (h.entry (List.getElem_mem hk))⟩
  rw [readAt_natCast (by omega), h.saved.slot hk]

theorem get_shows (h : Remembers t) (k outLen : ℕ) (hk : k < t.entries.length) :
    shellGetHistory t.shell k outLen = some (0, some (copied (t.entries.getD k []) outLen)) := by
  have hcount := h.saved.count
  unfold shellGetHistory
  rw [if_neg (by omega), (h.read hk outLen).1]
  rfl

theorem prev_shows (h : Remembers t) (outLen : ℕ) :
    ∃ r, shellHistoryPrev t.shell outLen = some r ∧ Shows t outLen r ∧
      Remembers ⟨r.1, t.cmds⟩ := by
  obtain ⟨hlow, hhigh⟩ := h.index
  have hcount := h.saved.count
  unfold shellHistoryPrev
  by_cases hzero : t.shell.historyCount = 0
  · rw [if_pos hzero]
    exact ⟨_, rfl, fun h0 => absurd h0 (by simp), h⟩
  · rw [if_neg hzero]
    generalize hi : (if 0 < t.shell.historyIndex then t.shell.historyIndex - 1 else 0) = i
    have hbounds : 0 ≤ i ∧ i < t.shell.historyCount := by
      rw [← hi]
      split_ifs <;> omega
    obtain ⟨k, rfl⟩ := Int.eq_ofNat_of_zero_le hbounds.1
    obtain ⟨hread, hwhole⟩ := h.read (by omega : k < t.entries.length) outLen
    dsimp only
    rw [if_pos hbounds.2, hread]
    exact ⟨_, rfl, fun _ => ⟨_, rfl, rfl, hwhole⟩,
      ⟨⟨hcount, h.saved.slots⟩, ⟨hbounds.1, hbounds.2.le⟩, h.short⟩⟩

theorem next_shows (h : Remembers t) (outLen : ℕ) :
    ∃ r, shellHistoryNext t.shell outLen = some r ∧ Shows t outLen r ∧
      Remembers ⟨r.1, t.cmds⟩ := by
  obtain ⟨hlow, hhigh⟩ := h.index
  have hcount := h.saved.count
  unfold shellHistoryNext
  split_ifs with hzero hlast
  · exact ⟨_, rfl, fun h0 => absurd h0 (by simp), h⟩
  · obtain ⟨k, hk⟩ := Int.eq_ofNat_of_zero_le (by omega : 0 ≤ t.shell.historyIndex + 1)
    obtain ⟨hread, hwhole⟩ := h.read (by omega : k < t.entries.length) outLen
    dsimp only
    rw [hk, hread]
    exact ⟨_, rfl, fun _ => ⟨_, rfl, rfl, hwhole⟩,
      ⟨⟨hcount, h.saved.slots⟩, ⟨by dsimp only; omega, by dsimp only; omega⟩, h.short⟩⟩
  · have hend : t.entries.getD t.shell.historyCount.toNat [] = [] :=
      List.getD_eq_default _ _ (by omega)
    refine ⟨_, rfl, fun _ => ⟨[], rfl, ?_, fun _ => hend.symm⟩,
      ⟨⟨hcount, h.saved.slots⟩, ⟨by dsimp only; omega, le_rfl⟩, h.short⟩⟩
    show [] = copied (t.entries.getD t.shell.historyCount.toNat []) outLen
    rw [hend, copied_nil]

theorem track_remembers (h : Remembers t) (op : Op) (hop : Short t op) :
    ∃ t', track w t op = some t' ∧ Remembers t' := by
  cases op with
  | exec cmd => exact exec_remembers h hop
  | prev outLen =>
    obtain ⟨r, hr, -, hrem⟩ := prev_shows h outLen
    exact ⟨_, by rw [track, hr]; rfl, hrem⟩
  | next outLen =>
    obtain ⟨r, hr, -, hrem⟩ := next_shows h outLen
    exact ⟨_, by rw [track, hr]; rfl, hrem⟩

/-- **The history of the shell.** For every sequence of commands of at most 255 characters given to
`shell_exec` after `shell_init`, with calls of `shell_history_prev` and `shell_history_next` between
them: every call returns, the slots have the last 16 of the commands that are not blank, without
consecutive repetitions, the index is between 0 and their number, and `shell_get_history` and a
successful call of the two return the entry at the index. -/
theorem history_recent (w : World ε) (s : State ε) {st : Option (Tracked ε)}
    (h : Reach (Lifted Short) (lift (track w)) (some ⟨shellInit w s, []⟩) st) :
    ∃ t, st = some t ∧
      (List.range t.shell.historyCount.toNat).map t.shell.history =
        recent 16 (t.cmds.filter nonBlank) ∧
      0 ≤ t.shell.historyIndex ∧ t.shell.historyIndex ≤ t.shell.historyCount ∧
      ∀ outLen,
        (∀ k < t.entries.length, shellGetHistory t.shell k outLen =
          some (0, some (copied (t.entries.getD k []) outLen))) ∧
        (∃ r, shellHistoryPrev t.shell outLen = some r ∧ Shows t outLen r) ∧
        (∃ r, shellHistoryNext t.shell outLen = some r ∧ Shows t outLen r) := by
  have hstart : Remembers ⟨shellInit w s, []⟩ :=
    ⟨⟨rfl, stored_nil⟩, ⟨le_rfl, le_rfl⟩, fun c hc => absurd hc nofun⟩
  obtain ⟨t, rfl, ht⟩ := h.returns ⟨_, rfl, hstart⟩ fun t op ht hop => track_remembers ht op hop
  refine ⟨t, rfl, ?_, ht.index.1, ht.index.2, fun outLen =>
    ⟨fun k hk => get_shows ht k outLen hk, ?_, ?_⟩⟩
  · rw [ht.saved.count, Int.toNat_natCast]
    exact stored_iff_map_range.mp ht.saved.slots
  · obtain ⟨r, hr, hshows, -⟩ := prev_shows ht outLen
    exact ⟨r, hr, hshows⟩
  · obtain ⟨r, hr, hshows, -⟩ := next_shows ht outLen
    exact ⟨r, hr, hshows⟩

def bare : World Unit := ⟨fun _ => none, fun _ => id, fun _ => id, id⟩

/-- A blank command, a repetition, and a look back. -/
def typed : List Op :=
  [.exec (cstr "ls"), .exec (cstr " "), .exec (cstr "ls"), .exec (cstr "pwd"), .prev 256, .prev 256]

theorem history_recent_typed :
    ∃ t, typed.foldl (lift (track bare)) (some ⟨shellInit bare ⟨fun _ => [7], 3, 9, 0, ()⟩, []⟩) =
        some t ∧
      (List.range t.shell.historyCount.toNat).map t.shell.history =
        recent 16 (t.cmds.filter nonBlank) ∧
      t.shell.historyIndex ≤ t.shell.historyCount := by
  have hadmits : Admits (Lifted Short) (lift (track bare))
      (some ⟨shellInit bare ⟨fun _ => [7], 3, 9, 0, ()⟩, []⟩) typed := by decide +kernel
  obtain ⟨t, ht, hlist, -, hindex, -⟩ := history_recent bare _ (Reach.foldl typed .init hadmits)
  exact ⟨t, ht, hlist, hindex⟩

end Kerneloid.Shell.History
