import Kerneloid.Tcb.Ops

/-! # The scheduler over a list

What `tcb.c` does when the runqueue is a plain list: a task is added at the end, taken out, or moved
to the end, and the next task is the first ready one in the order of `turn`. The functions have the
names of the source without `tcb_` and `scheduler_`, and always return. `Simulation` shows that the
linked runqueue of the source does the same. -/

namespace Kerneloid.Tcb.ListSched

open Types Ops

/-- The runqueue from the task after `c` round to `c`; from its head if `c` is not on it. -/
def turn (l : List Slot) (c : Slot) : List Slot :=
  if c ∈ l then (l.dropWhile (· ≠ c)).tail ++ l.takeWhile (· ≠ c) ++ [c] else l

/-- The order in which tasks are looked at for the next one to run. -/
def pickOrder (a : ListSched) : List Slot :=
  match a.current with
  | none => a.queue
  | some c => turn a.queue c

/-- The first ready task in that order, or the idle task. -/
def pickReady (a : ListSched) : ListSched × Option Slot :=
  match (pickOrder a).find? fun it => a.state it = .ready with
  | some it => (a, some it)
  | none => pickIdle a

def pickNext (a : ListSched) : ListSched × Option Slot :=
  if a.queue = [] then (a, a.current.or a.idle)
  else
    match a.current with
    | none => pickReady a
    | some c =>
      if keepsRunning a c then (a, some ((a.queue.find? (preempts a c)).getD c)) else pickReady a

def addTask (a : ListSched) (x : Slot) : ListSched :=
  if a.state x = .free ∨ x ∈ a.queue then a else enter { a with queue := a.queue ++ [x] } x

def removeTask (a : ListSched) (x : Slot) : ListSched :=
  if x ∈ a.queue then
    let a := { a with queue := a.queue.erase x }
    if a.current = some x then promote a (a.queue.head?.or a.idle) else a
  else a

/-- Task `x` is at the end unless it is on the runqueue. -/
def ensureQueued (a : ListSched) (x : Slot) : ListSched :=
  if x ∈ a.queue then a else { a with queue := a.queue ++ [x] }

/-- The wake-up of slot `x` by a tick. -/
def tickWake (a : ListSched) (x : Slot) : ListSched :=
  if sleepOver a.ticks (a.task x) then ensureQueued (a.modify x wakeSleeper) x else a

/-- `scheduler_tick` once the clock is advanced. -/
def tickTasks (a : ListSched) : ListSched :=
  if a.initialized = false then a
  else
    match a.current with
    | none => a
    | some c => (List.finRange 256).foldl tickWake (a.modify c tickTask)

def tick (a : ListSched) : ListSched := tickTasks { a with ticks := (a.ticks + 1) % 2 ^ 64 }

/-- The task at the end of the list, if it is on it. -/
def toEnd (l : List Slot) (c : Slot) : List Slot := if c ∈ l then l.erase c ++ [c] else l

/-- A used up slice: the current task `c` is ready again, behind all others. -/
def expire (a : ListSched) (c : Slot) : ListSched :=
  if a.state c = .running ∧ (a.task c).timeSlice = 0 then
    { a.modify c expireTask with queue := toEnd a.queue c }
  else a

def schedule (a : ListSched) : ListSched :=
  if a.initialized = false then a
  else
    match a.current with
    | none =>
      let p := pickNext a
      match p.2 with
      | none => { p.1 with current := none }
      | some n => dispatch p.1 n
    | some c =>
      let p := pickNext (expire a c)
      match p.2 with
      | none => p.1
      | some n => switchTo p.1 c n

def start (a : ListSched) : ListSched :=
  match a.current with
  | none => a
  | some c => if a.initialized = false then a else tcbSetState a c .running

def allocate (a : ListSched) : ListSched × Option Slot :=
  match freeSlot a with
  | none => (a, none)
  | some i =>
    ({ a with
        task := Function.update a.task i (allocatedTask a.nextTid a.ticks)
        nextTid := incr32 a.nextTid }, some i)

def create (a : ListSched) (entry arg priority stack : ℕ) : ListSched × Option Slot :=
  match allocate a with
  | (a, none) => (a, none)
  | (a, some x) =>
    let a := a.modify x fun t => { t with priority := priority, basePriority := priority }
    let a := tcbSetupContext a x entry arg stack
    (if a.initialized then addTask a x else a, some x)

def free (a : ListSched) (x : Slot) : ListSched :=
  let a :=
    if a.initialized then
      let a := removeTask a x
      if a.current = some x then { a with current := none } else a
    else a
  a.modify x freeTask

def exit (a : ListSched) : ListSched :=
  match a.current with
  | none => a
  | some self => schedule (removeTask (tcbSetState a self .zombie) self)

def yield (a : ListSched) : ListSched :=
  match a.current with
  | none => a
  | some c =>
    if a.initialized = false then a
    else schedule (a.modify c fun t => { t with timeSlice := 0 })

def block (a : ListSched) (x : Slot) : ListSched :=
  let a := tcbSetState a x .blocked
  if a.current = some x then schedule a
  else a.modify x fun t => { t with accounting := { t.accounting with waitTime := a.ticks } }

def unblock (a : ListSched) (x : Slot) : ListSched :=
  if a.state x ≠ .blocked then a else ensureQueued (a.modify x expireTask) x

def sleep (a : ListSched) (ms : ℕ) : ListSched :=
  match a.current with
  | none => a
  | some c =>
    if a.initialized = false then a
    else if ms = 0 then yield a
    else schedule (a.modify c (sleepTask ((a.ticks + ticksToSleep ms) % 2 ^ 64)))

def init (entry stack : ℕ) : ListSched :=
  let p := create (tcbInit.withQueue []) entry 0 0 stack
  startIdle p.1 p.2

def step (a : ListSched) : Op → ListSched
  | .allocate => (allocate a).1
  | .create entry arg priority stack => (create a entry arg priority stack).1
  | .free x => free a x
  | .exit => exit a
  | .addTask x => addTask a x
  | .removeTask x => removeTask a x
  | .tick => tick a
  | .schedule => schedule a
  | .start => start a
  | .yield => yield a
  | .block x => block a x
  | .unblock x => unblock a x
  | .sleep ms => sleep a ms

end Kerneloid.Tcb.ListSched
