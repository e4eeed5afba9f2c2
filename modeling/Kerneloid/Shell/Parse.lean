import Kerneloid.Lib.Arrays
import Kerneloid.UnnamedFS.Decode

/-! # The command line

`parse_command` of `shell.c` cuts a command line into arguments. It works in place: the argument
ends where a delimiter is overwritten by NUL, and `argv` has pointers into the line. `spans` is the
function of the line that it computes; `parse_command` refines it on every line and never leaves the
line or `argv` (`parseCommand_refines`).

A quote that ends an argument without quotes is eaten, so that `a"b c"` has the three arguments `a`,
`b` and `c`. Arguments that are put into double quotes are the arguments of the line
(`quoted_parsed`). -/

namespace Kerneloid.Shell.Parse

open Lib.Arrays UnnamedFS.Types
open UnnamedFS.Decode (takeWhile_range)

def maxArgs : ℕ := 16

/-- The characters between arguments: space, tab, newline and carriage return. -/
def blank (c : UInt8) : Bool := c = 32 ∨ c = 9 ∨ c = 10 ∨ c = 13

/-- The characters of an argument without quotes. -/
def plain (c : UInt8) : Bool := ¬ blank c ∧ c ≠ 34 ∧ c ≠ 39

/-- The state of `parse_command`: the line, the pointer `p` into it, `argv` and `*argc`. -/
structure Args where
  mem : ℕ → UInt8
  p : ℕ
  argv : ℕ → Option ℕ
  argc : ℕ

/-- The loops `while (*p && …) p++`, with `n` bytes of the line from `p` on. -/
def skip (test : UInt8 → Bool) (mem : ℕ → UInt8) : ℕ → ℕ → Option ℕ
  | 0, _ => none
  | n + 1, p => if mem p ≠ 0 ∧ test (mem p) then skip test mem n (p + 1) else some p

/-- `*p++ = '\0'` if `ended`, and the argument at `start` is put into `argv`. -/
def Args.take (s : Args) (size start p : ℕ) (ended : Bool) : Option Args := do
  let mem ← if ended then writeAt size s.mem p 0 else some s.mem
  let argv ← writeAt maxArgs s.argv s.argc (some start)
  return ⟨mem, if ended then p + 1 else p, argv, s.argc + 1⟩

/-- The loop of `parse_command` with room for `n` more arguments; the line has `size` bytes. -/
def parseLoop (size : ℕ) : ℕ → Args → Option Args
  | 0, s => do
    let _ ← readAt size s.mem s.p
    return s
  | n + 1, s => do
    if (← readAt size s.mem s.p) = 0 then return s
    let p ← skip blank s.mem (size - s.p) s.p
    let c ← readAt size s.mem p
    if c = 0 then return { s with p := p }
    if c = 34 ∨ c = 39 then
      let start := p + 1
      let p ← skip (· ≠ c) s.mem (size - start) start
      parseLoop size n (← s.take size start p ((← readAt size s.mem p) = c))
    else
      let start := p
      let p ← skip plain s.mem (size - start) start
      parseLoop size n (← s.take size start p ((← readAt size s.mem p) ≠ 0))

/-- `parse_command` on a line of `line.length` characters and its NUL; `argv` is not initialised. -/
def parseCommand (line : CStr) (argv : ℕ → Option ℕ) : Option Args := do
  let size := line.length + 1
  let s ← parseLoop size (maxArgs - 1) ⟨fun j => line.getD j 0, 0, argv, 0⟩
  return { s with argv := ← writeAt maxArgs s.argv s.argc none }

/-! ### The arguments of a line -/

/-- The first `n` arguments of a line that starts at `p`: where they are, and their text. -/
def spans : ℕ → ℕ → CStr → List (ℕ × CStr)
  | 0, _, _ => []
  | n + 1, p, line =>
    let p := p + (line.takeWhile blank).length
    match line.dropWhile blank with
    | [] => []
    | c :: rest =>
      if c = 34 ∨ c = 39 then
        let l := rest.takeWhile (· ≠ c)
        (p + 1, l) :: spans n (p + 1 + l.length + 1) (rest.dropWhile (· ≠ c)).tail
      else
        let l := (c :: rest).takeWhile plain
        (p, l) :: spans n (p + l.length + 1) ((c :: rest).dropWhile plain).tail

/-- The string at `start`. -/
def IsText (mem : ℕ → UInt8) (start : ℕ) (l : CStr) : Prop :=
  0 ∉ l ∧ Stored Eq mem start (l ++ [0])

variable {size n p start : ℕ} {mem : ℕ → UInt8} {s : Args} {line l : CStr} {test : UInt8 → Bool}

theorem IsText.head (h : IsText mem p line) : mem p = line.headD 0 := by
  cases line with
  | nil => exact (stored_cons.mp h.2).1
  | cons c line => exact (stored_cons.mp h.2).1

theorem IsText.head_eq_zero (h : IsText mem p line) : mem p = 0 ↔ line = [] := by
  rw [h.head]
  cases line with
  | nil => simp
  | cons c line => simpa using fun e : c = 0 => h.1 (e ▸ List.mem_cons_self)

theorem IsText.tail {c : UInt8} (h : IsText mem p (c :: line)) : IsText mem (p + 1) line :=
  ⟨fun hmem => h.1 (List.mem_cons_of_mem c hmem), (stored_cons.mp h.2).2⟩

theorem IsText.dropWhile (h : IsText mem p line) (test : UInt8 → Bool) :
    IsText mem (p + (line.takeWhile test).length) (line.dropWhile test) := by
  refine ⟨fun hmem => h.1 ((List.dropWhile_suffix test).subset hmem), ?_⟩
  have hmem := h.2
  rw [← List.takeWhile_append_dropWhile (p := test) (l := line), List.append_assoc] at hmem
  exact (stored_append.mp hmem).2

theorem IsText.takeWhile {mem' : ℕ → UInt8} (h : IsText mem p line) (test : UInt8 → Bool)
    (hsame : ∀ j < p + (line.takeWhile test).length, mem' j = mem j)
    (hzero : mem' (p + (line.takeWhile test).length) = 0) :
    IsText mem' p (line.takeWhile test) := by
  refine ⟨fun hmem => h.1 (List.takeWhile_subset test hmem), stored_append.mpr ⟨?_, ?_⟩⟩
  · have hmem := h.2
    rw [← List.takeWhile_append_dropWhile (p := test) (l := line), List.append_assoc] at hmem
    exact (stored_append.mp hmem).1.congr fun k hk => hsame _ (by omega)
  · exact stored_cons.mpr ⟨hzero, stored_nil⟩

theorem skip_eq (test : UInt8 → Bool) : ∀ (line : CStr) {n p : ℕ}, IsText mem p line →
    line.length < n → skip test mem n p = some (p + (line.takeWhile test).length)
  | [], n + 1, p, h, _ => by
    unfold skip
    rw [if_neg fun htest => htest.1 (h.head_eq_zero.mpr rfl)]
    rfl
  | c :: line, n + 1, p, h, hn => by
    have hc : mem p = c := h.head
    have hne : c ≠ 0 := fun e => h.1 (e ▸ List.mem_cons_self)
    unfold skip
    rw [hc]
    by_cases htest : test c = true
    · rw [if_pos ⟨hne, htest⟩, List.takeWhile_cons_of_pos htest, List.length_cons,
        skip_eq test line h.tail (by simpa using hn)]
      congr 1
      omega
    · rw [if_neg fun h => htest h.2, List.takeWhile_cons_of_neg htest]
      rfl

/-! ### One argument -/

/-- What taking an argument does: `l` is the argument at `start`, `rest` the line behind it. -/
structure Took (size : ℕ) (s : Args) (start : ℕ) (l rest : CStr) (s' : Args) : Prop where
  argc : s'.argc = s.argc + 1
  argv : s'.argv = Function.update s.argv s.argc (some start)
  mem : ∀ j, j < start ∨ s.mem j = 0 → s'.mem j = s.mem j
  text : IsText s'.mem start l
  behind : IsText s'.mem s'.p rest
  size : s'.p + rest.length + 1 = size
  later : start + l.length ≤ s'.p
  next : rest = [] ∨ s'.p = start + l.length + 1

theorem take_took (h : IsText s.mem start line) (hsize : start + line.length + 1 = size)
    (hargc : s.argc < maxArgs) {ended : Bool} (hended : ended = true ↔ line.dropWhile test ≠ []) :
    ∃ s', s.take size start (start + (line.takeWhile test).length) ended = some s' ∧
      Took size s start (line.takeWhile test) (line.dropWhile test).tail s' := by
  have hbehind := h.dropWhile test
  have hlen : (line.takeWhile test).length + (line.dropWhile test).length = line.length := by
    rw [← List.length_append, List.takeWhile_append_dropWhile]
  generalize hp : start + (line.takeWhile test).length = p at hbehind
  unfold Args.take
  simp only [writeAt_natCast hargc, Option.bind_eq_bind, Option.bind_some]
  cases hdrop : line.dropWhile test with
  | nil =>
    rw [hdrop] at hbehind hlen
    rw [List.length_nil] at hlen
    have hnot : ended = false := by
      rw [← Bool.not_eq_true, hended, hdrop]
      simp
    rw [hnot]
    refine ⟨_, rfl, rfl, rfl, fun _ _ => rfl, ?_, hbehind, ?_, hp.le, Or.inl rfl⟩
    · exact h.takeWhile test (fun _ _ => rfl) (hp ▸ hbehind.head_eq_zero.mpr rfl)
    · simp only [List.tail_nil, List.length_nil, Bool.false_eq_true, if_false]
      omega
  | cons d rest =>
    rw [hdrop] at hbehind hlen
    rw [List.length_cons] at hlen
    have hyes : ended = true := hended.mpr (by rw [hdrop]; nofun)
    have hd : s.mem p ≠ 0 := by
      rw [Ne, hbehind.head_eq_zero]
      nofun
    rw [hyes, if_pos rfl, writeAt_natCast (by omega)]
    refine ⟨_, rfl, rfl, rfl, ?_, ?_, ?_, ?_, ?_, Or.inr (by rw [hp]; rfl)⟩
    · rintro j hj
      refine Function.update_of_ne ?_ _ _
      rintro rfl
      rcases hj with hj | hj
      · omega
      · exact hd hj
    · refine h.takeWhile test (fun j hj => Function.update_of_ne (by omega) _ _) ?_
      rw [hp]
      exact Function.update_self ..
    · exact ⟨hbehind.tail.1, hbehind.tail.2.congr fun k _ => Function.update_of_ne (by omega) _ _⟩
    · simp only [List.tail_cons, if_true]
      omega
    · simp only [if_true]
      omega

/-- `ptr` points to the argument `x` inside the line. -/
def Points (size : ℕ) (mem : ℕ → UInt8) (ptr : Option ℕ) (x : ℕ × CStr) : Prop :=
  ptr = some x.1 ∧ x.1 + x.2.length < size ∧ IsText mem x.1 x.2

theorem IsText.frame {mem' : ℕ → UInt8} (h : IsText mem start l)
    (hsame : ∀ j, j < start + l.length ∨ mem j = 0 → mem' j = mem j) : IsText mem' start l := by
  obtain ⟨hnul, hmem⟩ := h
  refine ⟨hnul, stored_append.mpr ⟨?_, stored_cons.mpr ⟨?_, stored_nil⟩⟩⟩
  · exact (stored_append.mp hmem).1.congr fun k hk => hsame _ (Or.inl (by omega))
  · have hzero : mem (start + l.length) = 0 := (stored_cons.mp (stored_append.mp hmem).2).1
    rw [hsame _ (Or.inr hzero), hzero]

/-- What the loop has done to `s` when it leaves it with the arguments `ls`. -/
structure Done (size : ℕ) (s : Args) (ls : List (ℕ × CStr)) (r : Args) : Prop where
  argc : r.argc = s.argc + ls.length
  mem : ∀ j, j < s.p ∨ s.mem j = 0 → r.mem j = s.mem j
  before : ∀ k < s.argc, r.argv k = s.argv k
  args : Stored (Points size r.mem) r.argv s.argc ls

theorem done_nil (s : Args) (p : ℕ) : Done size s [] { s with p := p } :=
  ⟨rfl, fun _ _ => rfl, fun _ _ => rfl, stored_nil⟩

theorem Took.done {s' r : Args} {rest : CStr} {ls : List (ℕ × CStr)}
    (h : Took size s start l rest s') (hstart : s.p ≤ start) (hr : Done size s' ls r) :
    Done size s ((start, l) :: ls) r := by
  have hlater := h.later
  have hsize := h.size
  refine ⟨?_, fun j hj => ?_, fun k hk => ?_, stored_cons.mpr ⟨⟨?_, ?_, ?_⟩, ?_⟩⟩
  · rw [hr.argc, h.argc, List.length_cons]
    omega
  · have hs' : s'.mem j = s.mem j := h.mem j (hj.imp_left fun hlt => by omega)
    rw [← hs']
    refine hr.mem j ?_
    rw [hs']
    exact hj.imp_left fun hlt => by omega
  · rw [hr.before k (by rw [h.argc]; omega), h.argv, Function.update_of_ne hk.ne]
  · rw [hr.before s.argc (by rw [h.argc]; omega), h.argv, Function.update_self]
  · dsimp only
    omega
  · exact h.text.frame fun j hj => hr.mem j (hj.imp_left fun hlt => by omega)
  · rw [← h.argc]
    exact hr.args

theorem spans_nil (n p : ℕ) : spans n p [] = [] := by cases n <;> rfl

theorem quote_found {c : UInt8} (hc : c ≠ 0) (h : IsText mem start line) :
    mem (start + (line.takeWhile (· ≠ c)).length) = c ↔ line.dropWhile (· ≠ c) ≠ [] := by
  rw [(h.dropWhile _).head]
  have hhead := List.head?_dropWhile_not (fun d => decide (d ≠ c)) line
  cases hdrop : line.dropWhile (· ≠ c) with
  | nil => simpa using hc.symm
  | cons d rest =>
    rw [hdrop] at hhead
    simpa using hhead

/-- One turn of the loop from the start of an argument on, if the turns that follow find the rest.
-/
theorem argument_done (h : IsText s.mem start line) (hstart : s.p ≤ start)
    (hsize : start + line.length + 1 = size) (hargc : s.argc < maxArgs) {e : UInt8 → Bool}
    (hended : e (s.mem (start + (line.takeWhile test).length)) = true ↔ line.dropWhile test ≠ [])
    (hnext : ∀ {s' : Args} {rest : CStr}, IsText s'.mem s'.p rest → s'.p + rest.length + 1 = size →
      s'.argc = s.argc + 1 → ∃ r, parseLoop size n s' = some r ∧ Done size s' (spans n s'.p rest) r)
      :
    ∃ r, (do
        let p ← skip test s.mem (size - start) start
        parseLoop size n (← s.take size start p (e (← readAt size s.mem p)))) = some r ∧
      Done size s ((start, line.takeWhile test) ::
        spans n (start + (line.takeWhile test).length + 1) (line.dropWhile test).tail) r := by
  have hlen : (line.takeWhile test).length ≤ line.length :=
    ( List.takeWhile_prefix test).length_le
  obtain ⟨s', hs', htook⟩ := take_took h hsize hargc hended
  obtain ⟨r, hr, hdone⟩ := hnext htook.behind htook.size htook.argc
  have hspans : spans n s'.p (line.dropWhile test).tail =
      spans n (start + (line.takeWhile test).length + 1) (line.dropWhile test).tail := by
    rcases htook.next with hnil | hp
    · rw [hnil, spans_nil, spans_nil]
    · rw [hp]
  refine ⟨r, ?_, htook.done hstart (hspans ▸ hdone)⟩
  rw [skip_eq test line h (by omega)]
  simp only [Option.bind_eq_bind, Option.bind_some]
  rw [readAt_natCast (by omega)]
  simp only [Option.bind_some]
  rw [hs']
  exact hr

theorem parseLoop_done : ∀ (n : ℕ) {s : Args} {line : CStr}, IsText s.mem s.p line →
    s.p + line.length + 1 = size → s.argc + n < maxArgs →
      ∃ r, parseLoop size n s = some r ∧ Done size s (spans n s.p line) r
  | 0, s, line, _, hsize, _ => by
    unfold parseLoop
    rw [readAt_natCast (by omega)]
    exact ⟨s, rfl, done_nil s s.p⟩
  | n + 1, s, line, h, hsize, hargc => by
    have hread : readAt size s.mem s.p = some (s.mem s.p) := readAt_natCast (by omega)
    have hskip := skip_eq blank line h (by omega : line.length < size - s.p)
    have hrest := h.dropWhile blank
    have hlen : (line.takeWhile blank).length + (line.dropWhile blank).length = line.length := by
      rw [← List.length_append, List.takeWhile_append_dropWhile]
    generalize hp : s.p + (line.takeWhile blank).length = p at hskip hrest
    have hc : readAt size s.mem p = some (s.mem p) := readAt_natCast (by omega)
    unfold parseLoop spans
    simp only [hread, hskip, hc, hp, Option.bind_eq_bind, Option.bind_some]
    by_cases hline : line = []
    · rw [if_pos (h.head_eq_zero.mpr hline), hline]
      exact ⟨s, rfl, done_nil s s.p⟩
    rw [if_neg fun hzero => hline (h.head_eq_zero.mp hzero)]
    cases hdrop : line.dropWhile blank with
    | nil =>
      rw [hdrop] at hrest
      rw [if_pos (hrest.head_eq_zero.mpr rfl)]
      exact ⟨_, rfl, done_nil s p⟩
    | cons c rest =>
      rw [hdrop] at hrest hlen
      rw [List.length_cons] at hlen
      have hmem : s.mem p = c := hrest.head
      have hne : c ≠ 0 := fun e => hrest.1 (e ▸ List.mem_cons_self)
      rw [hmem, if_neg hne]
      dsimp only
      by_cases hquote : c = 34 ∨ c = 39
      · rw [if_pos hquote, if_pos hquote]
        refine argument_done (e := fun d => decide (d = c)) hrest.tail (by omega) (by omega)
          (by omega) ?_ fun hs' hsize' hargc' => parseLoop_done n hs' hsize' (by omega)
        rw [decide_eq_true_iff]
        exact quote_found hne hrest.tail
      · rw [if_neg hquote, if_neg hquote]
        refine argument_done (e := fun d => decide (d ≠ 0)) hrest (by omega)
          (by rw [List.length_cons]; omega) (by omega) ?_
          fun hs' hsize' hargc' => parseLoop_done n hs' hsize' (by omega)
        rw [decide_eq_true_iff, Ne, (hrest.dropWhile plain).head_eq_zero]

theorem length_spans : ∀ (n p : ℕ) (line : CStr), (spans n p line).length ≤ n
  | 0, _, _ => le_rfl
  | n + 1, p, line => by
    unfold spans
    split
    · exact Nat.zero_le _
    · split_ifs
      · exact Nat.succ_le_succ (length_spans n _ _)
      · exact Nat.succ_le_succ (length_spans n _ _)

theorem isText_line (hline : 0 ∉ line) : IsText (fun j => line.getD j 0) 0 line := by
  refine ⟨hline, stored_append.mpr ⟨fun k x hx => ?_, stored_cons.mpr ⟨?_, stored_nil⟩⟩⟩
  · dsimp only
    rw [zero_add, List.getD_eq_getElem?_getD, hx, Option.getD_some]
  · rw [zero_add, List.getD_eq_default _ _ le_rfl]

/-- **`parse_command` refines `spans`**: for every line, the arguments are the first 15 of them, and
NULL is behind them. -/
theorem parseCommand_refines (hline : 0 ∉ line) (argv : ℕ → Option ℕ) :
    ∃ r, parseCommand line argv = some r ∧ r.argc = (spans (maxArgs - 1) 0 line).length ∧
      Stored (Points (line.length + 1) r.mem) r.argv 0 (spans (maxArgs - 1) 0 line) ∧
      r.argv r.argc = none := by
  obtain ⟨r, hr, hdone⟩ := parseLoop_done (maxArgs - 1)
    (s := ⟨fun j => line.getD j 0, 0, argv, 0⟩) (isText_line hline)
    (by rw [zero_add] : 0 + line.length + 1 = line.length + 1)
    (by decide : 0 + (maxArgs - 1) < maxArgs)
  have hargc : r.argc = (spans (maxArgs - 1) 0 line).length := by
    rw [hdone.argc]
    exact zero_add _
  have hle := length_spans (maxArgs - 1) 0 line
  have hlt : r.argc < maxArgs := by
    rw [hargc]
    exact Nat.lt_of_le_of_lt hle (by decide)
  unfold parseCommand
  simp only [hr, writeAt_natCast hlt, Option.bind_eq_bind, Option.bind_some]
  refine ⟨_, rfl, hargc, hdone.args.congr fun k hk => ?_, ?_⟩
  · exact Function.update_of_ne (by dsimp only at hk ⊢; omega) _ _
  · exact Function.update_self ..

example : spans 15 0 (cstr "a\"b c\"") = [(0, cstr "a"), (2, cstr "b"), (4, cstr "c")] := by decide

/-! ### Quoting -/

/-- The string at `start` in a line of `size` bytes. -/
def stringAt (size : ℕ) (mem : ℕ → UInt8) (start : ℕ) : CStr :=
  ((List.range (size - start)).map fun j => mem (start + j)).takeWhile (· ≠ 0)

theorem IsText.stringAt (h : IsText mem start l) (hsize : start + l.length < size) :
    stringAt size mem start = l := by
  obtain ⟨hnul, hmem⟩ := h
  obtain ⟨hmem, hend⟩ := stored_append.mp hmem
  have hbyte : ∀ (j : ℕ) (hj : j < l.length), mem (start + j) = l[j] := fun j hj =>
    hmem j _ (List.getElem?_eq_getElem hj)
  have hzero : mem (start + l.length) = 0 := (stored_cons.mp hend).1
  unfold Parse.stringAt
  rw [takeWhile_range (l := l.length) (by omega) (fun j hj => ?_) (by simpa using hzero)]
  · exact List.ext_getElem (by simp) fun j _ hj => by simp [hbyte j hj]
  · rw [hbyte j hj]
    exact decide_eq_true fun e => hnul (e ▸ List.getElem_mem hj)

/-- The arguments that `argv` points to. -/
def arguments (size : ℕ) (r : Args) : List (Option CStr) :=
  (List.range r.argc).map fun k => (r.argv k).map (stringAt size r.mem)

theorem parseCommand_arguments (hline : 0 ∉ line) (argv : ℕ → Option ℕ) :
    ∃ r, parseCommand line argv = some r ∧ r.argc = (spans (maxArgs - 1) 0 line).length ∧
      arguments (line.length + 1) r = ((spans (maxArgs - 1) 0 line).map (·.2)).map some ∧
      r.argv r.argc = none := by
  obtain ⟨r, hr, hargc, hargs, hnull⟩ := parseCommand_refines hline argv
  refine ⟨r, hr, hargc, List.ext_getElem (by simp [arguments, hargc]) fun k hk hk' => ?_, hnull⟩
  rw [List.length_map, List.length_map] at hk'
  obtain ⟨hptr, hsize, htext⟩ := hargs k _ (List.getElem?_eq_getElem hk')
  rw [zero_add] at hptr
  simp [arguments, hptr, htext.stringAt hsize]

/-- Arguments in double quotes, each behind some blanks. -/
def quoted : List (CStr × CStr) → CStr
  | [] => []
  | (gap, a) :: args => gap ++ 34 :: (a ++ 34 :: quoted args)

/-- Blanks, and an argument that can stand in double quotes. -/
structure Quotable (x : CStr × CStr) : Prop where
  gap : ∀ c ∈ x.1, blank c = true
  quote : 34 ∉ x.2
  nul : 0 ∉ x.2

theorem spans_quoted : ∀ (n p : ℕ) (args : List (CStr × CStr)), (∀ x ∈ args, Quotable x) →
    args.length ≤ n → (spans n p (quoted args)).map (·.2) = args.map (·.2)
  | 0, _, [], _, _ => rfl
  | n + 1, _, [], _, _ => rfl
  | n + 1, p, (gap, a) :: args, h, hn => by
    obtain ⟨hgap, hquote, -⟩ := h _ List.mem_cons_self
    have hdrop : (quoted ((gap, a) :: args)).dropWhile blank = 34 :: (a ++ 34 :: quoted args) := by
      rw [quoted, List.dropWhile_append_of_pos hgap, List.dropWhile_cons_of_neg (by decide)]
    have hpass : ∀ c ∈ a, decide (c ≠ 34) = true := fun c hc =>
      decide_eq_true fun e => hquote (e ▸ hc)
    have htake : (a ++ 34 :: quoted args).takeWhile (· ≠ 34) = a := by
      rw [List.takeWhile_append_of_pos hpass, List.takeWhile_cons_of_neg (by decide),
        List.append_nil]
    have htail : ((a ++ 34 :: quoted args).dropWhile (· ≠ 34)).tail = quoted args := by
      rw [List.dropWhile_append_of_pos hpass, List.dropWhile_cons_of_neg (by decide),
        List.tail_cons]
    unfold spans
    rw [hdrop]
    dsimp only
    rw [if_pos (Or.inl rfl), htake, htail, List.map_cons, List.map_cons,
      spans_quoted n _ args (fun x hx => h x (List.mem_cons_of_mem _ hx)) (by simpa using hn)]

theorem nul_quoted : ∀ args : List (CStr × CStr), (∀ x ∈ args, Quotable x) → 0 ∉ quoted args
  | [], _ => nofun
  | (gap, a) :: args, h => by
    obtain ⟨hgap, -, hnul⟩ := h _ List.mem_cons_self
    have ih := nul_quoted args fun x hx => h x (List.mem_cons_of_mem _ hx)
    have hzero : 0 ∉ gap := fun hmem => absurd (hgap 0 hmem) (by decide)
    simp [quoted, hzero, hnul, ih]

/-- **Arguments in double quotes are parsed as they are**: at most 15 of them, with any blanks
before each. -/
theorem quoted_parsed (args : List (CStr × CStr)) (h : ∀ x ∈ args, Quotable x)
    (hlen : args.length ≤ maxArgs - 1) (argv : ℕ → Option ℕ) :
    ∃ r, parseCommand (quoted args) argv = some r ∧ r.argc = args.length ∧
      arguments ((quoted args).length + 1) r = args.map (fun x => some x.2) ∧
      r.argv r.argc = none := by
  have hparse := parseCommand_arguments (nul_quoted args h) argv
  rw [← List.length_map (·.2), spans_quoted _ 0 args h hlen, List.length_map, List.map_map] at hparse
  exact hparse

theorem quoted_parsed_three :
    ∃ r, parseCommand (cstr "\"a b\" \t\"\"  \"it's\"") (fun _ => none) = some r ∧ r.argc = 3 ∧
      arguments 18 r = [some (cstr "a b"), some [], some (cstr "it's")] ∧ r.argv r.argc = none :=
  quoted_parsed [([], cstr "a b"), (cstr " \t", []), (cstr "  ", cstr "it's")]
    (by
      simp only [List.forall_mem_cons]
      exact ⟨⟨nofun, by decide, by decide⟩, ⟨List.all_eq_true.mp rfl, by decide, by decide⟩,
        ⟨List.all_eq_true.mp rfl, by decide, by decide⟩, nofun⟩)
    (by decide) _

end Kerneloid.Shell.Parse
