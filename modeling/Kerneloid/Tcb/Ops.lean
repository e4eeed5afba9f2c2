import Kerneloid.Tcb.Types

/-! # The task control blocks and the scheduler

The functions of `tcb.c` on the statics of `Types`. A function that walks the runqueue returns
`none` when the walk never ends or a null pointer is followed; all others return. The stack that
`kmalloc` answers to `tcb_setup_context` (null if the heap is exhausted) is an argument.

`hal_context_switch` does nothing (`hal.c`), so a call returns to its caller with `current_task`
changed. `tcb_exit` ends in a loop of halts: the model gives the state in which it halts. A task
argument is never null here; the source returns at once on a null argument. -/

namespace Kerneloid.Tcb.Ops

open Lib.Linked Types

def schedulerTimeSliceForPriority : ℕ → ℕ
  | 0 => 2
  | 5 => 10
  | 10 => 20
  | 15 => 30
  | _ => 10

/-- The time slice of a task's priority. -/
abbrev fullSlice (t : Task) : ℕ := schedulerTimeSliceForPriority t.priority

/-- An `int32_t` counter after `++`. -/
def incr32 (n : ℤ) : ℤ := (n + 1).bmod (2 ^ 32)

/-! ### Walks along the runqueue -/

/-- The first task of the runqueue with `p`. -/
def scanQueue (s : Kernel) (p : Slot → Bool) : Option (Option Slot) :=
  scan s.queue.next p 256 s.queue.head

/-- Whether task `x` is met on the runqueue. -/
def inQueue (s : Kernel) (x : Slot) : Option Bool :=
  (scanQueue s fun it => it = x).map Option.isSome

/-- Task `x` linked behind the tail of the runqueue. -/
def appendTask (s : Kernel) (x : Slot) : Option Kernel :=
  (s.queue.append x).map fun q => { s with queue := q }

/-! ### Task control blocks -/

/-- The block of a slot after `tcb_init`. The other fields are those of the zeroed pool. -/
def initTask : Task where
  tid := invalidTid
  state := .free
  priority := 0
  basePriority := 0
  context := ⟨0, 0, 0, 0, 0, 0, 0, 0, .null, 0, 0, 0, 0, 0, 0, 0, 0⟩
  kernelStack := 0
  stackSize := 0
  timeSlice := 0
  lastRun := 0
  msgBuffer := 0
  waitingFor := 0
  accounting := ⟨0, 0, 0, 0⟩
  archData := 0

/-- The statics after the `tcb_init` of `scheduler_init`. -/
def tcbInit : Kernel where
  task _ := initTask
  nextTid := 1
  queue := ⟨fun _ => none, fun _ => none, none, none⟩
  current := none
  ticks := 0
  initialized := true
  idle := none

/-- The context with stack pointer `sp` and entry `ip`, the other registers cleared, interrupts
enabled and the kernel's segments. -/
def newContext (sp : ℕ) (ip : CodePtr) : CpuContext :=
  ⟨0, 0, 0, 0, 0, 0, sp, sp, ip, 0x202, 0x08, 0x10, 0x10, 0x10, 0x10, 0x10, 0⟩

/-- The block `tcb_allocate` sets up. -/
def allocatedTask (tid : ℤ) (now : ℕ) : Task where
  tid := tid
  state := .ready
  priority := 5
  basePriority := 5
  context := newContext 0 .null
  kernelStack := 0
  stackSize := 0x2000
  timeSlice := schedulerTimeSliceForPriority 5
  lastRun := 0
  msgBuffer := 0
  waitingFor := invalidTid
  accounting := ⟨now, 0, 0, 0⟩
  archData := 0

/-- The first free slot of the pool. -/
def freeSlot {Q : Type} (s : Sched Q) : Option Slot :=
  (List.finRange 256).find? fun i => s.state i = .free

def tcbAllocate (s : Kernel) : Kernel × Option Slot :=
  match freeSlot s with
  | none => (s, none)
  | some i =>
    ({ s with
        task := Function.update s.task i (allocatedTask s.nextTid s.ticks)
        nextTid := incr32 s.nextTid
        queue :=
          { s.queue with
            next := Function.update s.queue.next i none
            prev := Function.update s.queue.prev i none } }, some i)

def tcbGetByTid {Q : Type} (s : Sched Q) (tid : ℤ) : Option Slot :=
  if tid = invalidTid then none
  else (List.finRange 256).find? fun i => (s.task i).tid = tid ∧ s.state i ≠ .free

def tcbSetState {Q : Type} (s : Sched Q) (x : Slot) (st : TaskState) : Sched Q :=
  s.modify x fun t => { t with state := st }

/-- The fields `tcb_setup_context` sets once the task has a stack. -/
def contextTask (now entry arg : ℕ) (t : Task) : Task :=
  -- the top of the stack, aligned to 16 bytes
  let stackTop := (t.kernelStack + t.stackSize) % 2 ^ 32 / 16 * 16
  { t with
    archData := entry
    msgBuffer := arg
    context := newContext stackTop .trampoline
    timeSlice := fullSlice t
    lastRun := now
    state := .ready }

/-- `tcb_setup_context`; `stack` is what `kmalloc(TCB_STACK_SIZE)` answers. -/
def tcbSetupContext {Q : Type} (s : Sched Q) (x : Slot) (entry arg stack : ℕ) : Sched Q :=
  if entry = 0 then s
  else if (s.task x).kernelStack ≠ 0 then s.modify x (contextTask s.ticks entry arg)
  else if stack = 0 then s
  else
    s.modify x fun t =>
      contextTask s.ticks entry arg { t with kernelStack := stack, stackSize := 0x2000 }

/-! ### The runqueue -/

/-- The block of a task that is linked in: ready, with time left. -/
def enterTask (t : Task) : Task :=
  { t with
    state := .ready
    timeSlice := if t.timeSlice = 0 then fullSlice t else t.timeSlice }

/-- Task `x` is linked in; without a current task it runs. -/
def enter {Q : Type} (s : Sched Q) (x : Slot) : Sched Q :=
  let s := s.modify x enterTask
  match s.current with
  | some _ => s
  | none => tcbSetState { s with current := some x } x .running

def schedulerAddTask (s : Kernel) (x : Slot) : Option Kernel :=
  if s.state x = .free then some s
  else do
    if ← inQueue s x then return s
    return enter (← appendTask s x) x

/-- The task that follows the current one when it leaves the runqueue: the first task left, or the
idle task. It runs with a full time slice. -/
def promote {Q : Type} (s : Sched Q) (next : Option Slot) : Sched Q :=
  match next with
  | none => { s with current := none }
  | some c =>
    { s with current := some c }.modify c fun t =>
      { t with state := .running, timeSlice := fullSlice t }

def schedulerRemoveTask (s : Kernel) (x : Slot) : Option Kernel :=
  match s.queue.head with
  | none => some s
  | some _ => do
    if !(← inQueue s x) then return s
    let s := { s with queue := s.queue.unlink x }
    if s.current = some x then return promote s (s.queue.head.or s.idle)
    return s

/-- The round-robin scan of `scheduler_pick_next` from `it` on, at most `n` tasks, past the end of
the runqueue to its head `h`; it stops where it began. -/
def rrScan (s : Kernel) (h start : Slot) : ℕ → Slot → Option Slot
  | 0, _ => none
  | n + 1, it =>
    if s.state it = .ready then some it
    else
      let it' := (s.queue.next it).getD h
      if it' = start then none else rrScan s h start n it'

/-- One step of the scan for the highest priority. -/
def bestStep {Q : Type} (s : Sched Q) (best : Option Slot) (it : Slot) : Option Slot :=
  if s.state it ≠ .ready then best
  else
    match best with
    | none => some it
    | some b => if (s.task b).priority < (s.task it).priority then some it else some b

/-- The end of `scheduler_pick_next`, when no task is ready: the idle task, made ready, or the
current task. -/
def pickIdle {Q : Type} (s : Sched Q) : Sched Q × Option Slot :=
  match s.idle with
  | none => (s, s.current)
  | some i =>
    if s.state i = .free then (s, s.current)
    else (if s.state i = .running then s else tcbSetState s i .ready, some i)

/-- The current task runs and has time left. -/
def keepsRunning {Q : Type} (s : Sched Q) (c : Slot) : Prop :=
  s.state c = .running ∧ 0 < (s.task c).timeSlice

instance {Q : Type} (s : Sched Q) (c : Slot) : Decidable (keepsRunning s c) :=
  inferInstanceAs (Decidable (_ ∧ _))

/-- Task `it` is ready and of a higher priority than the current one. -/
def preempts {Q : Type} (s : Sched Q) (c it : Slot) : Bool :=
  it ≠ c ∧ s.state it = .ready ∧ (s.task c).priority < (s.task it).priority

/-- `scheduler_pick_next` once the current task is not to keep running. -/
def pickReady (s : Kernel) (h : Slot) : Option (Kernel × Option Slot) :=
  let start := (s.current.bind s.queue.next).getD h
  match rrScan s h start 256 start with
  | some it => some (s, some it)
  | none => do
    match ← fold s.queue.next (bestStep s) 256 s.queue.head none with
    | some best => return (s, some best)
    | none => return pickIdle s

def schedulerPickNext (s : Kernel) : Option (Kernel × Option Slot) :=
  match s.queue.head with
  | none => some (s, s.current.or s.idle)
  | some h =>
    match s.current with
    | none => pickReady s h
    | some c =>
      if keepsRunning s c then do
        match ← scanQueue s (preempts s c) with
        | some it => return (s, some it)
        | none => return (s, some c)
      else pickReady s h

/-! ### Scheduling -/

/-- Task `x` is linked in unless it is on the runqueue. -/
def ensureQueued (s : Kernel) (x : Slot) : Option Kernel := do
  if ← inQueue s x then return s
  appendTask s x

/-- The sleep of a task is over at `now`. -/
def sleepOver (now : ℕ) (t : Task) : Prop :=
  t.state = .blocked ∧ t.accounting.sleepTime ≠ 0 ∧ t.accounting.sleepTime ≤ now

instance (now : ℕ) (t : Task) : Decidable (sleepOver now t) :=
  inferInstanceAs (Decidable (_ ∧ _ ∧ _))

/-- The block of a sleeper that is woken. -/
def wakeSleeper (t : Task) : Task :=
  { t with
    accounting := { t.accounting with sleepTime := 0, waitTime := 0 }
    state := .ready
    timeSlice := fullSlice t }

/-- The wake-up of slot `x` in `scheduler_tick`. -/
def tickWake (s : Kernel) (x : Slot) : Option Kernel :=
  if sleepOver s.ticks (s.task x) then ensureQueued (s.modify x wakeSleeper) x else some s

/-- What a tick does to the running task. -/
def tickTask (t : Task) : Task :=
  { t with
    accounting := { t.accounting with totalRunTime := (t.accounting.totalRunTime + 1) % 2 ^ 64 }
    timeSlice := if t.state = .running then t.timeSlice - 1 else t.timeSlice }

/-- `scheduler_tick` once the clock is advanced. -/
def tickTasks (s : Kernel) : Option Kernel :=
  if s.initialized = false then some s
  else
    match s.current with
    | none => some s
    | some c => (List.finRange 256).foldlM tickWake (s.modify c tickTask)

def schedulerTick (s : Kernel) : Option Kernel :=
  tickTasks { s with ticks := (s.ticks + 1) % 2 ^ 64 }

/-- The runqueue after the current task `c` has used up its slice: `c` is moved from the head or the
middle to the tail. -/
def rotate (q : Links Slot) (c : Slot) : Links Slot :=
  match q.head, q.tail, q.next c with
  | some h, some t, some n =>
    if c = h then
      { next := Function.update (Function.update q.next c none) t (some c)
        prev := Function.update (Function.update q.prev n none) c (some t)
        head := some n
        tail := some c }
    else if c ≠ t then
      let next :=
        match q.prev c with
        | some p => Function.update q.next p (some n)
        | none => q.next
      { next := Function.update (Function.update next c none) t (some c)
        prev := Function.update (Function.update q.prev n (q.prev c)) c (some t)
        head := some h
        tail := some c }
    else q
  | _, _, _ => q

/-- The block of a task that is ready again, with a full slice. -/
def expireTask (t : Task) : Task := { t with state := .ready, timeSlice := fullSlice t }

/-- The block of a task that is given the processor; its slice is filled up if it is empty. -/
def runTask (now : ℕ) (t : Task) : Task :=
  { t with
    state := .running
    lastRun := now
    timeSlice := if t.timeSlice = 0 then fullSlice t else t.timeSlice }

/-- Task `n` is given the processor. -/
def dispatch {Q : Type} (s : Sched Q) (n : Slot) : Sched Q :=
  { s with current := some n }.modify n (runTask s.ticks)

/-- `scheduler_schedule` after the choice of `next`, with current task `c`. -/
def switchTo {Q : Type} (s : Sched Q) (c next : Slot) : Sched Q :=
  if next = c then
    if s.state c = .running then s
    else s.modify c fun t => { t with state := .running, lastRun := s.ticks }
  else
    dispatch (if s.state c = .running then tcbSetState s c .ready else s) next

def schedulerSchedule (s : Kernel) : Option Kernel :=
  if s.initialized = false then some s
  else
    match s.current with
    | none => do
      match ← schedulerPickNext s with
      | (s, none) => return { s with current := none }
      | (s, some n) => return dispatch s n
    | some c => do
      let s :=
        if s.state c = .running ∧ (s.task c).timeSlice = 0 then
          { s.modify c expireTask with queue := rotate s.queue c }
        else s
      match ← schedulerPickNext s with
      | (s, none) => return s
      | (s, some n) => return switchTo s c n

def schedulerStart (s : Kernel) : Kernel :=
  match s.current with
  | none => s
  | some c => if s.initialized = false then s else tcbSetState s c .running

/-! ### Creation and removal of tasks -/

def tcbCreate (s : Kernel) (entry arg priority stack : ℕ) : Option (Kernel × Option Slot) :=
  match tcbAllocate s with
  | (s, none) => some (s, none)
  | (s, some x) => do
    let s := s.modify x fun t => { t with priority := priority, basePriority := priority }
    let s := tcbSetupContext s x entry arg stack
    if s.initialized then return (← schedulerAddTask s x, some x)
    return (s, some x)

/-- The end of `tcb_free`. -/
def freeTask (t : Task) : Task := { t with kernelStack := 0, state := .free, tid := invalidTid }

def tcbFree (s : Kernel) (x : Slot) : Option Kernel := do
  let s ←
    if s.initialized then do
      let s ← schedulerRemoveTask s x
      pure (if s.current = some x then { s with current := none } else s)
    else pure s
  return s.modify x freeTask

/-- `tcb_exit`, up to the loop of halts it ends in. -/
def tcbExit (s : Kernel) : Option Kernel :=
  match s.current with
  | none => some s
  | some self => do
    let s ← schedulerRemoveTask (tcbSetState s self .zombie) self
    schedulerSchedule s

/-- The end of `scheduler_init`: the idle task is noted, and runs if no task does. -/
def startIdle {Q : Type} (s : Sched Q) (idle : Option Slot) : Sched Q :=
  let s := { s with idle := idle }
  if s.current = none then
    match idle with
    | none => s
    | some i => tcbSetState { s with current := some i } i .running
  else s

/-- `scheduler_init` on the zeroed statics; `entry` is the address of `idle_task_entry`. -/
def schedulerInit (entry stack : ℕ) : Option Kernel :=
  (tcbCreate tcbInit entry 0 0 stack).map fun p => startIdle p.1 p.2

/-! ### Blocking and yielding -/

def tcbYield (s : Kernel) : Option Kernel :=
  match s.current with
  | none => some s
  | some c =>
    if s.initialized = false then some s
    else schedulerSchedule (s.modify c fun t => { t with timeSlice := 0 })

def tcbBlock (s : Kernel) (x : Slot) : Option Kernel :=
  let s := tcbSetState s x .blocked
  if s.current = some x then schedulerSchedule s
  else
    some <| s.modify x fun t => { t with accounting := { t.accounting with waitTime := s.ticks } }

def tcbUnblock (s : Kernel) (x : Slot) : Option Kernel :=
  if s.state x ≠ .blocked then some s
  else ensureQueued (s.modify x expireTask) x

/-- The number of ticks `tcb_sleep(ms)` waits for, in 32-bit arithmetic. -/
def ticksToSleep (ms : ℕ) : ℕ :=
  let ticks := (ms + 9) % 2 ^ 32 / 10
  if ticks = 0 then 1 else ticks

/-- The block of a task that sleeps until `wake`. -/
def sleepTask (wake : ℕ) (t : Task) : Task :=
  { t with
    accounting := { t.accounting with sleepTime := wake }
    state := .blocked }

/-- `tcb_sleep`. Without a current task it waits on the timer and changes nothing here. -/
def tcbSleep (s : Kernel) (ms : ℕ) : Option Kernel :=
  match s.current with
  | none => some s
  | some c =>
    if s.initialized = false then some s
    else if ms = 0 then tcbYield s
    else schedulerSchedule (s.modify c (sleepTask ((s.ticks + ticksToSleep ms) % 2 ^ 64)))

/-! ### The system -/

/-- A call of `tcb.c`. -/
inductive Op
  | allocate
  | create (entry arg priority stack : ℕ)
  | free (x : Slot)
  | exit
  | addTask (x : Slot)
  | removeTask (x : Slot)
  | tick
  | schedule
  | start
  | yield
  | block (x : Slot)
  | unblock (x : Slot)
  | sleep (ms : ℕ)
  deriving DecidableEq

def step (s : Kernel) : Op → Option Kernel
  | .allocate => some (tcbAllocate s).1
  | .create entry arg priority stack => (tcbCreate s entry arg priority stack).map Prod.fst
  | .free x => tcbFree s x
  | .exit => tcbExit s
  | .addTask x => schedulerAddTask s x
  | .removeTask x => schedulerRemoveTask s x
  | .tick => schedulerTick s
  | .schedule => schedulerSchedule s
  | .start => some (schedulerStart s)
  | .yield => tcbYield s
  | .block x => tcbBlock s x
  | .unblock x => tcbUnblock s x
  | .sleep ms => tcbSleep s ms

end Kerneloid.Tcb.Ops
