import Kerneloid.Lib.Linked

/-! # Tasks: the data model

The statics of `tcb.c`. The pool `task_pool` has 256 slots (`TCB_MAX_TASKS`); a pointer to a task
control block is a slot, the null pointer is `none`. The fields `next` and `prev` of the blocks are
kept apart from the others, next to `runqueue_head` and `runqueue_tail`, as the links of the
runqueue. So the state is generic in the queue: `Sched (Links Slot)` is the state of the source, and
`Sched (List Slot)` the same state with the queue as a plain list.

Left out are the fields that no function of `tcb.c` or `ipc.c` reads: `pid`, `name`, `fpu`,
`user_stack`, the memory map and resource fields, `msg_size` and the family pointers. Masking
interrupts and the messages on the serial line have no effect on the state. -/

namespace Kerneloid.Tcb.Types

open Lib.Linked

inductive TaskState
  | free
  | ready
  | running
  | blocked
  | zombie
  deriving DecidableEq, Inhabited

abbrev Slot := Fin 256

instance slots_neZero : NeZero 256 := ⟨by decide⟩

/-- What `eip` of a saved context points to. -/
inductive CodePtr
  | null
  | trampoline
  deriving DecidableEq, Inhabited

structure CpuContext where
  (eax ebx ecx edx esi edi ebp esp : ℕ)
  eip : CodePtr
  eflags : ℕ
  (cs ds es fs gs ss cr3 : ℕ)
  deriving DecidableEq, Inhabited

structure Accounting where
  creationTime : ℕ
  totalRunTime : ℕ
  sleepTime : ℕ
  waitTime : ℕ
  deriving DecidableEq, Inhabited

/-- `tcb_t` without its links. The code compares priorities as numbers and has a default for values
that are not of `task_priority_t`, so a priority is a number. Addresses are numbers, `0` is null. -/
structure Task where
  tid : ℤ
  state : TaskState
  priority : ℕ
  basePriority : ℕ
  context : CpuContext
  kernelStack : ℕ
  stackSize : ℕ
  timeSlice : ℕ
  lastRun : ℕ
  msgBuffer : ℕ
  waitingFor : ℤ
  accounting : Accounting
  archData : ℕ
  deriving DecidableEq, Inhabited

def invalidTid : ℤ := -1

/-- The statics of `tcb.c` over a queue of type `Q`. -/
structure Sched (Q : Type) where
  task : Slot → Task
  nextTid : ℤ
  queue : Q
  current : Option Slot
  ticks : ℕ
  initialized : Bool
  idle : Option Slot

/-- The state of the source: the runqueue is linked through the blocks. -/
abbrev Kernel := Sched (Links Slot)

/-- The state with the runqueue as a list. -/
abbrev ListSched := Sched (List Slot)

variable {Q Q' : Type}

def Sched.modify (s : Sched Q) (x : Slot) (f : Task → Task) : Sched Q :=
  { s with task := Function.update s.task x (f (s.task x)) }

/-- The same state over another queue. -/
def Sched.withQueue (s : Sched Q) (q : Q') : Sched Q' :=
  ⟨s.task, s.nextTid, q, s.current, s.ticks, s.initialized, s.idle⟩

abbrev Sched.state (s : Sched Q) (x : Slot) : TaskState := (s.task x).state

section Modify

variable (s : Sched Q) (x : Slot) (f : Task → Task)

@[simp] theorem modify_self : (s.modify x f).task x = f (s.task x) := by simp [Sched.modify]

theorem modify_ne {x y : Slot} (h : y ≠ x) : (s.modify x f).task y = s.task y := by
  simp [Sched.modify, h]

@[simp] theorem modify_queue : (s.modify x f).queue = s.queue := rfl
@[simp] theorem modify_current : (s.modify x f).current = s.current := rfl
@[simp] theorem modify_initialized : (s.modify x f).initialized = s.initialized := rfl

end Modify

end Kerneloid.Tcb.Types
