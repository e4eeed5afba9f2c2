import Kerneloid.Ipc.Types

/-! # Inter-process communication: the functions

The functions of `ipc.c`. A queue is that of the first port a task owns, or else the mailbox of its
thread id; `ipc_send`, `ipc_recv` and `ipc_reply` do the same to either, so both are a `Box` here. A
task argument is never null, and neither is a message; the source answers `-1` to null arguments.
The messages on the serial line and the demonstration `ipc_demo` are left out. -/

namespace Kerneloid.Ipc.Ops

open Tcb.Types Tcb.Ops Types

variable {Q B : Type} [MsgQueue B]

/-! ### Ports and mailboxes -/

def tidToMboxIdx (tid : ℤ) : Fin 256 := if tid < 0 then 0 else Fin.ofNat 256 tid.toNat

/-- `find_port_for_task`: the first port the task owns. -/
def findPortForTask (s : System Q B) (task : Slot) : Option (Fin 128) :=
  (List.finRange 128).find? fun i => (s.ports i).used ∧ (s.ports i).owner = some task

/-- The queue in which messages for the task are put and looked for. -/
def boxOf (s : System Q B) (task : Slot) : Box :=
  match findPortForTask s task with
  | some i => .port i
  | none => .mailbox (tidToMboxIdx (s.tid task))

/-- The port number of the argument `portId`, if it is one. -/
def portIdx (portId : ℤ) : Option (Fin 128) :=
  if 0 ≤ portId ∧ portId < 128 then some (Fin.ofNat 128 portId.toNat) else none

/-- The port number of the argument `portId`, if the port is used. -/
def usedPort (s : System Q B) (portId : ℤ) : Option (Fin 128) :=
  (portIdx portId).filter fun i => (s.ports i).used

/-- The task `tcb_get_by_tid` finds, unless it is free or a zombie. -/
def findLive (s : System Q B) (tid : ℤ) : Option Slot :=
  (tcbGetByTid s.sched tid).filter fun x => s.state x ≠ .free ∧ s.state x ≠ .zombie

def ipcInit (sched : Sched Q) : System Q B where
  sched := sched
  ports _ := { used := false, owner := none, queue := MsgQueue.new 16 }
  mailboxes _ := MsgQueue.new 16

/-- `ipc_create_port`, with the port number it answers. -/
def ipcCreatePort (s : System Q B) (queueSize : ℕ) : System Q B × ℤ :=
  let queueSize := if queueSize = 0 ∨ 16 < queueSize then 16 else queueSize
  match (List.finRange 128).find? fun i => (s.ports i).used = false with
  | none => (s, -1)
  | some i =>
    (s.setPort i { used := true, owner := none, queue := MsgQueue.new queueSize }, i.val)

def ipcBindPort (s : System Q B) (task : Slot) (portId : ℤ) : System Q B × ℤ :=
  match usedPort s portId, findLive s (s.tid task) with
  | some i, some _ =>
    if (s.ports i).owner ≠ none ∧ (s.ports i).owner ≠ some task then (s, -1)
    else (s.setPort i { s.ports i with owner := some task }, 0)
  | _, _ => (s, -1)

def ipcUnbindPort (s : System Q B) (task : Slot) (portId : ℤ) : System Q B × ℤ :=
  match usedPort s portId with
  | none => (s, -1)
  | some i =>
    if (s.ports i).owner ≠ some task then (s, -1)
    else (s.setPort i { s.ports i with owner := none }, 0)

/-! ### Waiting and waking -/

def waitTask (tid : ℤ) (t : Task) : Task := { t with waitingFor := tid, state := .blocked }

def wakeTask (t : Task) : Task := { t with state := .ready, waitingFor := invalidTid }

/-- `ipc_wait_for_message`. The other functions do the same in place. -/
def ipcWaitForMessage (s : System Q B) (task : Slot) (fromTid : ℤ) : System Q B :=
  s.modify task (waitTask fromTid)

def ipcWaitingTask (s : System Q B) (task : Slot) : System Q B :=
  if s.state task ≠ .blocked then ipcWaitForMessage s task (-1) else s

/-- The task is blocked and waits for `tid` or for anyone; `TCB_INVALID_TID` is `-1`. -/
def awaits (t : Task) (tid : ℤ) : Prop :=
  t.state = .blocked ∧ (t.waitingFor = tid ∨ t.waitingFor = -1)

instance (t : Task) (tid : ℤ) : Decidable (awaits t tid) := inferInstanceAs (Decidable (_ ∧ _))

def blockedOn (t : Task) (tid : ℤ) : Prop := t.state = .blocked ∧ t.waitingFor = tid

instance (t : Task) (tid : ℤ) : Decidable (blockedOn t tid) := inferInstanceAs (Decidable (_ ∧ _))

/-- One round of the loops that wake senders: the task with the thread id `i`. -/
def wakeRound (room : System Q B → Bool) (tid : ℤ) (s : System Q B) (i : ℕ) : System Q B :=
  match tcbGetByTid s.sched i with
  | none => s
  | some x => if blockedOn (s.task x) tid ∧ room s then s.modify x wakeTask else s

@[irreducible] def wakeTids : List ℕ := List.range' 1 2047

/-- The loop that wakes those who wait for `tid`, as long as there is room. -/
def wakeLoop (room : System Q B → Bool) (tid : ℤ) (s : System Q B) : System Q B :=
  wakeTids.foldl (wakeRound room tid) s

def hasSpace (task : Slot) (s : System Q B) : Bool := !MsgQueue.isFull (s.queueAt (boxOf s task))

def wakeSenderWaitersForReceiver (s : System Q B) (receiver : Slot) : System Q B :=
  wakeLoop (hasSpace receiver) (s.tid receiver) s

/-- The first part of `ipc_wakeup_waiters`: the owner of the port, if a message for it is there. -/
def wakeOwner (s : System Q B) (i : Fin 128) (owner : Slot) : System Q B :=
  if s.state owner = .blocked ∧ MsgQueue.holds (s.ports i).queue (s.task owner).waitingFor then
    s.modify owner wakeTask
  else s

/-- `ipc_wakeup_waiters` on a used port. -/
def wakeupPort (s : System Q B) (i : Fin 128) : System Q B :=
  match (s.ports i).owner with
  | none => s
  | some owner =>
    let s := wakeOwner s i owner
    if MsgQueue.isFull (s.ports i).queue then s else wakeLoop (fun _ => true) (s.tid owner) s

def ipcWakeupWaiters (s : System Q B) (portId : ℤ) : System Q B :=
  match usedPort s portId with
  | none => s
  | some i => wakeupPort s i

def ipcDestroyPort (s : System Q B) (portId : ℤ) : System Q B :=
  match usedPort s portId with
  | none => s
  | some i =>
    let s := wakeupPort s i
    s.setPort i { used := false, owner := none, queue := MsgQueue.clear (s.ports i).queue }

/-! ### Sending and receiving -/

/-- The message is put into the queue `b`, and the receiver is woken if it waits for the sender. -/
def deliver (s : System Q B) (b : Box) (receiver : Slot) (m : Message) : System Q B :=
  let s := s.setQueue b (MsgQueue.put (s.queueAt b) m)
  if awaits (s.task receiver) m.senderTid then s.modify receiver wakeTask else s

def ipcSend (s : System Q B) (fromTask toTask : Slot) (msg : Message) : System Q B × ℤ :=
  match findLive s (s.tid fromTask), findLive s (s.tid toTask) with
  | some f, some t =>
    let kmsg := { msg with senderTid := s.tid fromTask, receiverTid := s.tid toTask }
    let b := boxOf s toTask
    if MsgQueue.isFull (s.queueAt b) then
      if kmsg.nonblock then (s, -1) else (ipcWaitForMessage s f (s.tid toTask), -2)
    else (deliver s b t kmsg, 0)
  | _, _ => (s, -1)

/-- `ipc_recv`, with the message it copies out. -/
def ipcRecv (s : System Q B) (task : Slot) (fromTid : ℤ) : System Q B × ℤ × Option Message :=
  match findLive s (s.tid task) with
  | none => (s, -1, none)
  | some t =>
    let b := boxOf s task
    match MsgQueue.take (s.queueAt b) fromTid with
    | none => (ipcWaitForMessage s t fromTid, -1, none)
    | some (m, q) =>
      let s := s.setQueue b q
      let s := if s.state t = .blocked then s.modify t wakeTask else s
      (wakeSenderWaitersForReceiver s t, 0, some m)

/-- The message of a reply whose sender is not alive; the sender `-2` is the kernel. -/
def orphanReply (receiverTid : ℤ) (reply : Message) : Message :=
  { reply with
    receiverTid := receiverTid
    senderTid := if reply.senderTid = invalidTid then -2 else reply.senderTid }

/-- `ipc_reply`. Without a living sender the message is put into the queue all the same, and never
blocks. -/
def ipcReply (s : System Q B) (toTask : Slot) (reply : Message) : System Q B × ℤ :=
  match findLive s (s.tid toTask) with
  | none => (s, -1)
  | some dest =>
    match findLive s reply.senderTid with
    | some f => ipcSend s f dest reply
    | none =>
      let b := boxOf s dest
      if MsgQueue.isFull (s.queueAt b) then (s, -1)
      else (deliver s b dest (orphanReply (s.tid dest) reply), 0)

def ipcTrySend (s : System Q B) (fromTask toTask : Slot) (msg : Message) : System Q B × ℤ :=
  ipcSend s fromTask toTask { msg with flags := msg.flags ||| nonblockFlag }

def ipcTryRecv (s : System Q B) (task : Slot) (fromTid : ℤ) : System Q B × ℤ × Option Message :=
  match tcbGetByTid s.sched (s.tid task) with
  | none => (s, -1, none)
  | some _ =>
    if MsgQueue.holds (s.queueAt (boxOf s task)) fromTid then ipcRecv s task fromTid
    else (s, -1, none)

def ipcPortSend (s : System Q B) (portId : ℤ) (fromTask : Slot) (msg : Message) :
    System Q B × ℤ :=
  match (usedPort s portId).bind fun i => (s.ports i).owner with
  | none => (s, -1)
  | some dest => ipcSend s fromTask dest msg

def ipcPortRecv (s : System Q B) (portId : ℤ) (task : Slot) (fromTid : ℤ) :
    System Q B × ℤ × Option Message :=
  match (usedPort s portId).bind fun i => (s.ports i).owner with
  | none => (s, -1, none)
  | some owner => if owner ≠ task then (s, -1, none) else ipcRecv s task fromTid

/-! ### The system -/

/-- A call of `ipc.c`. -/
inductive Call
  | createPort (queueSize : ℕ)
  | destroyPort (portId : ℤ)
  | bindPort (task : Slot) (portId : ℤ)
  | unbindPort (task : Slot) (portId : ℤ)
  | waitForMessage (task : Slot) (fromTid : ℤ)
  | waitingTask (task : Slot)
  | wakeupWaiters (portId : ℤ)
  | send (fromTask toTask : Slot) (msg : Message)
  | recv (task : Slot) (fromTid : ℤ)
  | reply (toTask : Slot) (reply : Message)
  | trySend (fromTask toTask : Slot) (msg : Message)
  | tryRecv (task : Slot) (fromTid : ℤ)
  | portSend (portId : ℤ) (fromTask : Slot) (msg : Message)
  | portRecv (portId : ℤ) (task : Slot) (fromTid : ℤ)
  deriving DecidableEq

/-- What a call answers: its result, and the message copied out. -/
structure Answer where
  ret : ℤ
  msg : Option Message
  deriving DecidableEq

/-- The state after a call and its answer; functions without a result answer `0`. -/
def call (s : System Q B) : Call → System Q B × Answer
  | .createPort n => ((ipcCreatePort s n).1, ⟨(ipcCreatePort s n).2, none⟩)
  | .destroyPort p => (ipcDestroyPort s p, ⟨0, none⟩)
  | .bindPort x p => ((ipcBindPort s x p).1, ⟨(ipcBindPort s x p).2, none⟩)
  | .unbindPort x p => ((ipcUnbindPort s x p).1, ⟨(ipcUnbindPort s x p).2, none⟩)
  | .waitForMessage x i => (ipcWaitForMessage s x i, ⟨0, none⟩)
  | .waitingTask x => (ipcWaitingTask s x, ⟨0, none⟩)
  | .wakeupWaiters p => (ipcWakeupWaiters s p, ⟨0, none⟩)
  | .send f t m => ((ipcSend s f t m).1, ⟨(ipcSend s f t m).2, none⟩)
  | .recv x i => ((ipcRecv s x i).1, ⟨(ipcRecv s x i).2.1, (ipcRecv s x i).2.2⟩)
  | .reply t m => ((ipcReply s t m).1, ⟨(ipcReply s t m).2, none⟩)
  | .trySend f t m => ((ipcTrySend s f t m).1, ⟨(ipcTrySend s f t m).2, none⟩)
  | .tryRecv x i => ((ipcTryRecv s x i).1, ⟨(ipcTryRecv s x i).2.1, (ipcTryRecv s x i).2.2⟩)
  | .portSend p f m => ((ipcPortSend s p f m).1, ⟨(ipcPortSend s p f m).2, none⟩)
  | .portRecv p x i => ((ipcPortRecv s p x i).1, ⟨(ipcPortRecv s p x i).2.1, (ipcPortRecv s p x i).2.2⟩)

end Kerneloid.Ipc.Ops
