import Kerneloid.Ipc.Frames

/-! # What sending and receiving do

`ipc_send` and `ipc_reply` come down to one step, that of posting a message (`Posting`, `post`), and
a successful `ipc_recv` takes a message out of one queue and wakes tasks (`recv_eq`). -/

namespace Kerneloid.Ipc.Effects

open Tcb.Types Types Ops Frames

variable {Q B : Type} {s : System Q B} {x y : Slot}

/-! ### Posting a message -/

variable [MsgQueue B]

/-- A message on its way: into the queue of the task `dest`, to wake `receiver`; the task `blocks`
has to wait if the queue is full. -/
structure Posting where
  dest : Slot
  receiver : Slot
  msg : Message
  blocks : Option Slot

/-- The message is put into the queue, or else the sender waits. -/
def post (s : System Q B) (p : Posting) : System Q B × ℤ :=
  if MsgQueue.isFull (s.queueAt (boxOf s p.dest)) then
    match p.blocks with
    | none => (s, -1)
    | some f => (ipcWaitForMessage s f (s.tid p.dest), -2)
  else (deliver s (boxOf s p.dest) p.receiver p.msg, 0)

/-- The call of `ipc_send` or `ipc_reply` that posts `o`. -/
def posted (s : System Q B) : Option Posting → System Q B × ℤ
  | none => (s, -1)
  | some p => post s p

/-- What `ipc_send` posts, if both tasks are alive. -/
def sendPosting (s : System Q B) (fromTask toTask : Slot) (msg : Message) : Option Posting :=
  match findLive s (s.tid fromTask), findLive s (s.tid toTask) with
  | some f, some t =>
    some
      { dest := toTask
        receiver := t
        msg := { msg with senderTid := s.tid fromTask, receiverTid := s.tid toTask }
        blocks := if msg.nonblock then none else some f }
  | _, _ => none

/-- What `ipc_reply` posts, if the receiver is alive. -/
def replyPosting (s : System Q B) (toTask : Slot) (reply : Message) : Option Posting :=
  match findLive s (s.tid toTask) with
  | none => none
  | some dest =>
    match findLive s reply.senderTid with
    | some f => sendPosting s f dest reply
    | none => some ⟨dest, dest, orphanReply (s.tid dest) reply, none⟩

theorem send_eq (s : System Q B) (f t : Slot) (m : Message) :
    ipcSend s f t m = posted s (sendPosting s f t m) := by
  unfold ipcSend sendPosting
  cases findLive s (s.tid f) with
  | none => rfl
  | some f' =>
    cases findLive s (s.tid t) with
    | none => rfl
    | some t' =>
      have hnb : Message.nonblock { m with senderTid := s.tid f, receiverTid := s.tid t } =
        m.nonblock := rfl
      unfold posted post
      dsimp only
      rw [hnb]
      split_ifs <;> rfl

theorem reply_eq (s : System Q B) (t : Slot) (m : Message) :
    ipcReply s t m = posted s (replyPosting s t m) := by
  unfold ipcReply replyPosting
  cases findLive s (s.tid t) with
  | none => rfl
  | some dest =>
    dsimp only
    cases findLive s m.senderTid with
    | none => rfl
    | some f => exact send_eq s f dest m

omit [MsgQueue B] in
theorem findLive_tid {tid : ℤ} (h : findLive s tid = some x) : findLive s (s.tid x) = some x := by
  rw [(findLive_spec h).2.1]
  exact h

/-- What is known of a posting. -/
structure Posting.Sound (s : System Q B) (p : Posting) : Prop where
  receiver : findLive s (s.tid p.dest) = some p.receiver
  addressed : p.msg.receiverTid = s.tid p.dest
  blocks : ∀ f, p.blocks = some f → s.state f ≠ .free

omit [MsgQueue B] in
theorem sendPosting_sound {f t : Slot} {m : Message} {p : Posting}
    (h : sendPosting s f t m = some p) : p.Sound s := by
  unfold sendPosting at h
  split at h
  · rename_i f' t' hf ht
    obtain rfl := Option.some.inj h
    refine ⟨ht, rfl, ?_⟩
    intro g hg
    dsimp only at hg
    split_ifs at hg
    obtain rfl := Option.some.inj hg
    exact (findLive_spec hf).2.2.1
  · cases h

omit [MsgQueue B] in
theorem replyPosting_sound {t : Slot} {m : Message} {p : Posting}
    (h : replyPosting s t m = some p) : p.Sound s := by
  unfold replyPosting at h
  split at h
  · cases h
  · rename_i dest hdest
    split at h
    · exact sendPosting_sound h
    · obtain rfl := Option.some.inj h
      exact ⟨findLive_tid hdest, rfl, fun f hf => by cases hf⟩

/-! ### Delivery -/

theorem deliver_queueAt (s : System Q B) (b : Box) (x : Slot) (m : Message) (b' : Box) :
    (deliver s b x m).queueAt b' =
      if b' = b then MsgQueue.put (s.queueAt b) m else s.queueAt b' := by
  unfold deliver
  dsimp only
  split_ifs <;> simp_all [setQueue_queueAt]

theorem deliver_keeps (s : System Q B) (b : Box) (x : Slot) (m : Message) :
    Keeps s (deliver s b x m) := by
  have hset := Keeps.setQueue s b (MsgQueue.put (s.queueAt b) m)
  unfold deliver
  dsimp only
  split_ifs with hx
  · exact hset.trans (Keeps.wake hx.1)
  · exact hset

theorem deliver_task (s : System Q B) (b : Box) (x : Slot) (m : Message) (y : Slot) :
    (deliver s b x m).task y =
      if y = x ∧ awaits (s.task x) m.senderTid then wakeTask (s.task x) else s.task y := by
  have hset : ∀ z, (s.setQueue b (MsgQueue.put (s.queueAt b) m)).task z = s.task z := by
    intro z
    unfold System.task
    rw [setQueue_sched]
  unfold deliver
  dsimp only
  rw [hset]
  by_cases hx : awaits (s.task x) m.senderTid
  · rw [if_pos hx, modify_task, hset, hset]
    simp [hx]
  · rw [if_neg hx, hset]
    simp [hx]

/-! ### Receiving a message -/

/-- The state after `ipc_recv` has taken a message out of the queue `b`, which is `q` then, for the
task `t`. -/
def receive (s : System Q B) (b : Box) (t : Slot) (q : B) : System Q B :=
  let s := s.setQueue b q
  let s := if s.state t = .blocked then s.modify t wakeTask else s
  wakeSenderWaitersForReceiver s t

theorem recv_eq {t : Slot} {fromTid : ℤ} (ht : findLive s (s.tid x) = some t) :
    ipcRecv s x fromTid = match MsgQueue.take (s.queueAt (boxOf s x)) fromTid with
      | none => (ipcWaitForMessage s t fromTid, -1, none)
      | some (m, q) => (receive s (boxOf s x) t q, 0, some m) := by
  unfold ipcRecv
  rw [ht]
  rfl

theorem recv_dead {fromTid : ℤ} (ht : findLive s (s.tid x) = none) :
    ipcRecv s x fromTid = (s, -1, none) := by
  unfold ipcRecv
  rw [ht]

/-- The state before the senders are woken. -/
def taken (s : System Q B) (b : Box) (t : Slot) (q : B) : System Q B :=
  if s.state t = .blocked then (s.setQueue b q).modify t wakeTask else s.setQueue b q

theorem receive_eq (s : System Q B) (b : Box) (t : Slot) (q : B) :
    receive s b t q = wakeLoop (hasSpace t) (s.tid t) (taken s b t q) := by
  have hst : (s.setQueue b q).state t = s.state t := by
    unfold System.state System.task
    rw [setQueue_sched]
  have htid : (taken s b t q).tid t = s.tid t := by
    unfold taken
    split_ifs with hb
    · exact ((Keeps.setQueue s b q).trans (Keeps.wake (hst.trans hb))).tid t
    · exact (Keeps.setQueue s b q).tid t
  unfold receive wakeSenderWaitersForReceiver
  dsimp only
  rw [hst]
  show wakeLoop (hasSpace t) ((taken s b t q).tid t) (taken s b t q) = _
  rw [htid]

omit [MsgQueue B] in
theorem taken_keeps (s : System Q B) (b : Box) (t : Slot) (q : B) : Keeps s (taken s b t q) := by
  have hset := Keeps.setQueue s b q
  unfold taken
  split_ifs with hb
  · refine hset.trans (Keeps.wake ?_)
    unfold System.state System.task
    rw [setQueue_sched]
    exact hb
  · exact hset

omit [MsgQueue B] in
theorem taken_queueAt (s : System Q B) (b : Box) (t : Slot) (q : B) (b' : Box) :
    (taken s b t q).queueAt b' = if b' = b then q else s.queueAt b' := by
  unfold taken
  split_ifs <;> simp_all [setQueue_queueAt]

omit [MsgQueue B] in
theorem taken_task {b : Box} {t : Slot} {q : B} (hy : y ≠ t) :
    (taken s b t q).task y = s.task y := by
  unfold taken
  split_ifs
  · rw [modify_task, if_neg hy, System.task, setQueue_sched]
  · rw [System.task, setQueue_sched]

theorem receive_keeps (s : System Q B) (b : Box) (t : Slot) (q : B) :
    Keeps s (receive s b t q) := by
  rw [receive_eq]
  exact (taken_keeps s b t q).trans (wakeLoop_keeps _ _ _)

theorem receive_queueAt (s : System Q B) (b : Box) (t : Slot) (q : B) (b' : Box) :
    (receive s b t q).queueAt b' = if b' = b then q else s.queueAt b' := by
  rw [receive_eq, wakeLoop_queueAt, taken_queueAt]

end Kerneloid.Ipc.Effects
