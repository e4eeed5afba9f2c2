import Kerneloid.Lib.RingBuffer
import Kerneloid.Tcb.Ops

/-! # Inter-process communication: the data model

The statics of `ipc.c`: 128 ports, each with an owner and a message queue, and one mailbox for each
slot of the task pool. The message queues are ring buffers; `ipc.c` uses them only by the operations
of `MsgQueue`, so the state is generic in the queue. `RingBuf Message` is the queue of the source,
and `Fifo` a bounded list.

Left out are the field `port_id` of a port, which is its index while the port is used, and its
`name`: no function of `ipc.c` reads them. -/

namespace Kerneloid.Ipc.Types

open Lib.RingBuffer Tcb.Types

inductive MsgType
  | none
  | data
  | request
  | response
  | signal
  | sharedMem
  deriving DecidableEq, Inhabited

/-- `ipc_message_t`. The payload is a union of 16 bytes, copied as a whole. -/
structure Message where
  senderTid : ℤ
  receiverTid : ℤ
  type : MsgType
  msgId : ℕ
  payload : BitVec 128
  flags : BitVec 32
  deriving DecidableEq, Inhabited

def Message.zero : Message := ⟨0, 0, .none, 0, 0, 0⟩

/-- The flag `IPC_FLAG_NONBLOCK`. -/
def nonblockFlag : BitVec 32 := 0x01

/-- The message asks not to be blocked. -/
def Message.nonblock (m : Message) : Bool := m.flags &&& nonblockFlag ≠ 0

/-- The filter `fromTid` of a receiver accepts the message: `-1` accepts any sender. -/
def accepts (fromTid : ℤ) (m : Message) : Bool := fromTid = -1 ∨ m.senderTid = fromTid

/-- What `ipc.c` does with a message queue. -/
class MsgQueue (B : Type) where
  /-- An empty queue for `n` messages. -/
  new : ℕ → B
  /-- The queue of a port that is destroyed. -/
  clear : B → B
  /-- The queue has no room. -/
  isFull : B → Bool
  /-- A message is added. -/
  put : B → Message → B
  /-- The first message that the filter accepts, and the queue without it. -/
  take : B → ℤ → Option (Message × B)
  /-- The messages of the queue, in order. -/
  items : B → List Message

/-- Some message of the queue is accepted by the filter. -/
def MsgQueue.holds {B : Type} [MsgQueue B] (q : B) (fromTid : ℤ) : Bool := (take q fromTid).isSome

/-! ### The queues of the source -/

/-- The place of the message that `ipc_recv` takes: the head if any sender will do, otherwise the
first message of the sender. -/
def matchPos (r : RingBuf Message) (fromTid : ℤ) : Option ℕ :=
  if r.count = 0 then none
  else if fromTid = -1 then some 0
  else r.find fun m => m.senderTid = fromTid

instance : MsgQueue (RingBuf Message) where
  new n := ⟨fun _ => .zero, n, 0, 0, 0⟩
  clear r := { r with size := 0, head := 0, tail := 0, count := 0 }
  isFull r := r.size ≤ r.count
  put := RingBuf.enqueue
  take r fromTid := (matchPos r fromTid).map fun k => (r.entry k, r.removeAt k)
  items := RingBuf.items

/-! ### Bounded lists -/

/-- A list of at most `size` messages. -/
structure Fifo where
  size : ℕ
  list : List Message

/-- **The abstract queue**: a message is added at the end, the first one accepted is taken out, and
all others stay in order. -/
instance : MsgQueue Fifo where
  new n := ⟨n, []⟩
  clear _ := ⟨0, []⟩
  isFull q := q.size ≤ q.list.length
  put q m := { q with list := q.list ++ [m] }
  take q fromTid :=
    (q.list.find? (accepts fromTid)).map fun m =>
      (m, { q with list := q.list.eraseP (accepts fromTid) })
  items := Fifo.list

/-! ### The statics -/

/-- `ipc_port_t` with its entries of `ipc_port_used` and `ipc_queue_counts`. -/
structure Port (B : Type) where
  used : Bool
  owner : Option Slot
  queue : B

/-- The statics of `ipc.c` beside those of `tcb.c`. -/
structure System (Q B : Type) where
  sched : Sched Q
  ports : Fin 128 → Port B
  mailboxes : Fin 256 → B

/-- A queue: that of a port, or a mailbox. -/
inductive Box
  | port (i : Fin 128)
  | mailbox (i : Fin 256)
  deriving DecidableEq

variable {Q B : Type}

abbrev System.task (s : System Q B) (x : Slot) : Task := s.sched.task x

abbrev System.state (s : System Q B) (x : Slot) : TaskState := (s.task x).state

abbrev System.tid (s : System Q B) (x : Slot) : ℤ := (s.task x).tid

def System.queueAt (s : System Q B) : Box → B
  | .port i => (s.ports i).queue
  | .mailbox i => s.mailboxes i

def System.setQueue (s : System Q B) (b : Box) (q : B) : System Q B :=
  match b with
  | .port i => { s with ports := Function.update s.ports i { s.ports i with queue := q } }
  | .mailbox i => { s with mailboxes := Function.update s.mailboxes i q }

def System.setPort (s : System Q B) (i : Fin 128) (p : Port B) : System Q B :=
  { s with ports := Function.update s.ports i p }

def System.modify (s : System Q B) (x : Slot) (f : Task → Task) : System Q B :=
  { s with sched := s.sched.modify x f }

/-- The same ports and mailboxes beside another scheduler state. -/
def System.withSched {Q' : Type} (s : System Q B) (sched : Sched Q') : System Q' B :=
  ⟨sched, s.ports, s.mailboxes⟩

section Frame

variable (s : System Q B) (x : Slot) (f : Task → Task) (b : Box) (q : B) (i : Fin 128) (p : Port B)

@[simp] theorem modify_queueAt : (s.modify x f).queueAt b = s.queueAt b := by cases b <;> rfl

theorem modify_task (y : Slot) : (s.modify x f).task y = if y = x then f (s.task x) else s.task y :=
  Function.update_apply s.sched.task x _ y

@[simp] theorem withSched_queueAt {Q' : Type} (sched : Sched Q') :
    (s.withSched sched).queueAt b = s.queueAt b := by cases b <;> rfl

@[simp] theorem setQueue_sched : (s.setQueue b q).sched = s.sched := by cases b <;> rfl

@[simp] theorem setQueue_used (j : Fin 128) :
    ((s.setQueue b q).ports j).used = (s.ports j).used := by
  cases b with
  | port i =>
    by_cases h : j = i
    · subst h
      simp [System.setQueue]
    · simp [System.setQueue, h]
  | mailbox i => rfl

@[simp] theorem setQueue_owner (j : Fin 128) :
    ((s.setQueue b q).ports j).owner = (s.ports j).owner := by
  cases b with
  | port i =>
    by_cases h : j = i
    · subst h
      simp [System.setQueue]
    · simp [System.setQueue, h]
  | mailbox i => rfl

theorem setQueue_queueAt (b' : Box) :
    (s.setQueue b q).queueAt b' = if b' = b then q else s.queueAt b' := by
  by_cases h : b' = b
  · subst h
    cases b' <;> simp [System.setQueue, System.queueAt]
  · rw [if_neg h]
    cases b <;> cases b' <;> simp_all [System.setQueue, System.queueAt]

theorem setPort_ports (j : Fin 128) : (s.setPort i p).ports j = if j = i then p else s.ports j :=
  Function.update_apply s.ports i p j

theorem setPort_queueAt (b : Box) :
    (s.setPort i p).queueAt b = if b = .port i then p.queue else s.queueAt b := by
  cases b with
  | port j =>
    by_cases h : j = i
    · subst h
      simp [System.setPort, System.queueAt]
    · simp [System.setPort, System.queueAt, h]
  | mailbox j => simp [System.setPort, System.queueAt]

end Frame

end Kerneloid.Ipc.Types
