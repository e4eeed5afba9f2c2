import Kerneloid.Ipc.Effects

/-! # The variants that do not block

`ipc_try_recv` looks for a message first, by a search of its own over the queue that `ipc_recv`
would take from, and calls `ipc_recv` only if there is one. `ipc_try_send` is `ipc_send` of the
message with the flag `IPC_FLAG_NONBLOCK`, and the flag stays in the message that is stored.
`variants_agree` compares both with the calls they stand for, in every state. -/

namespace Kerneloid.Ipc.NonBlocking

open Lib.RingBuffer Tcb.Types Tcb.Ops Types Ops Effects

variable {Q : Type} {s : System Q (RingBuf Message)} {x f t : Slot} {fromTid : ℤ} {m : Message}

/-! ### The search of `ipc_try_recv` -/

/-- `has_msg`: the queue is searched round its end for a message of the sender. -/
def hasMsg (r : RingBuf Message) (fromTid : ℤ) : Bool :=
  if r.count = 0 then false
  else if fromTid = -1 then true
  else (List.range r.count).any fun k => (r.slot ((r.head + k) % r.size)).senderTid = fromTid

/-- The queue `ipc_try_recv` searches: that of the first port of the task, or its mailbox. -/
def peekedQueue (s : System Q (RingBuf Message)) (task : Slot) : RingBuf Message :=
  match findPortForTask s task with
  | some i => (s.ports i).queue
  | none => s.mailboxes (tidToMboxIdx (s.tid task))

/-- `ipc_try_recv` on the queues of the source, with the search written out. -/
def ipcTryRecvPeek (s : System Q (RingBuf Message)) (task : Slot) (fromTid : ℤ) :
    System Q (RingBuf Message) × ℤ × Option Message :=
  match tcbGetByTid s.sched (s.tid task) with
  | none => (s, -1, none)
  | some _ =>
    if hasMsg (peekedQueue s task) fromTid then ipcRecv s task fromTid else (s, -1, none)

theorem peekedQueue_eq (s : System Q (RingBuf Message)) (x : Slot) :
    peekedQueue s x = s.queueAt (boxOf s x) := by
  unfold peekedQueue boxOf
  cases findPortForTask s x <;> rfl

theorem hasMsg_eq (r : RingBuf Message) (fromTid : ℤ) :
    hasMsg r fromTid = (MsgQueue.take r fromTid).isSome := by
  have htake : (MsgQueue.take r fromTid).isSome = (matchPos r fromTid).isSome := by
    change ((matchPos r fromTid).map _).isSome = _
    rw [Option.isSome_map]
  rw [htake]
  unfold hasMsg matchPos
  split_ifs with hempty hany
  · rfl
  · rfl
  · unfold RingBuf.find
    rw [Bool.eq_iff_iff, List.find?_isSome, List.any_eq_true]
    rfl

/-! ### Receiving -/

/-- **What `ipc_recv` finds, `ipc_try_recv` finds**: it is `ipc_recv` where that returns 0. -/
theorem tryRecv_of_recv (h : (ipcRecv s x fromTid).2.1 = 0) :
    ipcTryRecvPeek s x fromTid = ipcRecv s x fromTid := by
  unfold ipcTryRecvPeek
  rw [peekedQueue_eq, hasMsg_eq]
  cases hlive : findLive s (s.tid x) with
  | none =>
    rw [recv_dead hlive] at h
    exact absurd h (by decide : ¬ (-1 : ℤ) = 0)
  | some t =>
    obtain ⟨hget, -⟩ := Option.filter_eq_some_iff.mp hlive
    rw [hget]
    dsimp only
    cases htake : MsgQueue.take (s.queueAt (boxOf s x)) fromTid with
    | none =>
      rw [recv_eq hlive, htake] at h
      exact absurd h (by decide : ¬ (-1 : ℤ) = 0)
    | some r => exact if_pos rfl

theorem tryRecv_of_not_recv (h : (ipcRecv s x fromTid).2.1 ≠ 0) :
    ipcTryRecvPeek s x fromTid = (s, -1, none) := by
  unfold ipcTryRecvPeek
  rw [peekedQueue_eq, hasMsg_eq]
  cases hget : tcbGetByTid s.sched (s.tid x) with
  | none => rfl
  | some y =>
    dsimp only
    cases hlive : findLive s (s.tid x) with
    | none =>
      -- a zombie: `ipc_recv` refuses it, whatever its queue holds
      rw [recv_dead hlive]
      exact ite_self _
    | some t =>
      cases htake : MsgQueue.take (s.queueAt (boxOf s x)) fromTid with
      | none => exact if_neg (by simp)
      | some r =>
        rw [recv_eq hlive, htake] at h
        exact absurd rfl h

/-! ### Sending -/

/-- The message that `ipc_send` stores. -/
def stored (s : System Q (RingBuf Message)) (f t : Slot) (msg : Message) : Message :=
  { msg with senderTid := s.tid f, receiverTid := s.tid t }

/-- The message with the flag `IPC_FLAG_NONBLOCK` set. -/
def flagged (msg : Message) : Message := { msg with flags := msg.flags ||| nonblockFlag }

theorem flagged_nonblock (m : Message) : (flagged m).nonblock = true := by
  have hbit : (m.flags ||| nonblockFlag) &&& nonblockFlag = nonblockFlag := by
    ext i
    simp only [BitVec.getElem_and, BitVec.getElem_or]
    cases m.flags[i] <;> simp
  unfold Message.nonblock flagged
  rw [hbit]
  rfl

theorem setQueue_twice (s : System Q (RingBuf Message)) (b : Box) (q q' : RingBuf Message) :
    (s.setQueue b q).setQueue b q' = s.setQueue b q' := by
  cases b <;> simp [System.setQueue]

theorem setQueue_modify (s : System Q (RingBuf Message)) (b : Box) (q : RingBuf Message) (x : Slot)
    (g : Task → Task) : (s.setQueue b q).modify x g = (s.modify x g).setQueue b q := by
  cases b <;> rfl

theorem deliver_flagged (s : System Q (RingBuf Message)) (b : Box) (x : Slot) (m : Message) :
    deliver s b x (flagged m) =
      (deliver s b x m).setQueue b (MsgQueue.put (s.queueAt b) (flagged m)) := by
  have htask : ∀ q, (s.setQueue b q).task x = s.task x := by
    intro q
    rw [System.task, setQueue_sched]
  have hsender : (flagged m).senderTid = m.senderTid := rfl
  unfold deliver
  dsimp only
  rw [htask, htask, hsender]
  split_ifs
  · rw [setQueue_modify, setQueue_modify, setQueue_twice]
  · rw [setQueue_twice]

/-- **The same but for the flag**: `r` is what `ipc_send` gives and `r'` what `ipc_try_send` gives.
Both do nothing, or both store the message, the latter with the flag. -/
structure SameButFlag (s : System Q (RingBuf Message)) (f t : Slot) (m : Message)
    (r r' : System Q (RingBuf Message) × ℤ) : Prop where
  result : r'.2 = r.2
  refused : r.2 ≠ 0 → r.1 = s ∧ r'.1 = s
  stores : r.2 = 0 →
    r.1.queueAt (boxOf s t) = MsgQueue.put (s.queueAt (boxOf s t)) (stored s f t m) ∧
    r'.1 = r.1.setQueue (boxOf s t)
      (MsgQueue.put (s.queueAt (boxOf s t)) (flagged (stored s f t m)))

theorem send_dead (h : findLive s (s.tid f) = none ∨ findLive s (s.tid t) = none) (m : Message) :
    ipcSend s f t m = (s, -1) := by
  unfold ipcSend
  rcases h with h | h
  · rw [h]
  · rw [h]
    cases findLive s (s.tid f) <;> rfl

section Living

variable {f' t' : Slot} (hf : findLive s (s.tid f) = some f') (ht : findLive s (s.tid t) = some t')

include hf ht

theorem send_live (m : Message) :
    ipcSend s f t m =
      if MsgQueue.isFull (s.queueAt (boxOf s t)) then
        if (stored s f t m).nonblock then (s, -1) else (ipcWaitForMessage s f' (s.tid t), -2)
      else (deliver s (boxOf s t) t' (stored s f t m), 0) := by
  unfold ipcSend
  rw [hf, ht]
  rfl

theorem trySend_live (m : Message) :
    ipcTrySend s f t m =
      if MsgQueue.isFull (s.queueAt (boxOf s t)) then (s, -1)
      else (deliver s (boxOf s t) t' (flagged (stored s f t m)), 0) := by
  have hnb : (stored s f t (flagged m)).nonblock = true := flagged_nonblock m
  have hsend := send_live hf ht (flagged m)
  rw [if_pos hnb] at hsend
  exact hsend

end Living

theorem live_or_dead (s : System Q (RingBuf Message)) (f t : Slot) :
    (∃ f' t', findLive s (s.tid f) = some f' ∧ findLive s (s.tid t) = some t') ∨
      ∀ m, ipcSend s f t m = (s, -1) := by
  cases hf : findLive s (s.tid f) with
  | none => exact Or.inr (send_dead (Or.inl hf))
  | some f' =>
    cases ht : findLive s (s.tid t) with
    | none => exact Or.inr (send_dead (Or.inr ht))
    | some t' => exact Or.inl ⟨f', t', rfl, rfl⟩

theorem trySend_sameButFlag (h : (ipcSend s f t m).2 ≠ -2) :
    SameButFlag s f t m (ipcSend s f t m) (ipcTrySend s f t m) := by
  obtain ⟨f', t', hf, ht⟩ | hdead := live_or_dead s f t
  · rw [send_live hf ht] at h ⊢
    rw [trySend_live hf ht]
    split_ifs at h ⊢
    · exact ⟨rfl, fun _ => ⟨rfl, rfl⟩, fun hz => absurd hz (by decide : ¬ (-1 : ℤ) = 0)⟩
    · exact absurd rfl h
    · refine ⟨rfl, fun hne => absurd rfl hne, fun _ => ⟨?_, deliver_flagged _ _ _ _⟩⟩
      rw [deliver_queueAt, if_pos rfl]
  · rw [ipcTrySend, hdead, hdead]
    exact ⟨rfl, fun _ => ⟨rfl, rfl⟩, fun hz => absurd hz (by decide : ¬ (-1 : ℤ) = 0)⟩

theorem trySend_not_blocked {x : Slot} (h : (ipcTrySend s f t m).1.state x = .blocked) :
    s.state x = .blocked := by
  obtain ⟨f', t', hf, ht⟩ | hdead := live_or_dead s f t
  · rw [trySend_live hf ht] at h
    split_ifs at h
    · exact h
    · rw [System.state, deliver_task] at h
      split_ifs at h
      · exact absurd h (by decide : ¬ TaskState.ready = .blocked)
      · exact h
  · rw [ipcTrySend, hdead] at h
    exact h

/-! ### Both -/

/-- **The variants agree with the calls they stand for.** In every state, `ipc_try_recv` returns 0
exactly if `ipc_recv` does, and is the same call then; otherwise it returns -1 and does nothing.
`ipc_try_send` blocks no task, and where `ipc_send` does not block, it differs from it by the flag
of the message stored. -/
theorem variants_agree (s : System Q (RingBuf Message)) :
    (∀ x fromTid,
      ((ipcTryRecvPeek s x fromTid).2.1 = 0 ↔ (ipcRecv s x fromTid).2.1 = 0) ∧
      ((ipcTryRecvPeek s x fromTid).2.1 = 0 → ipcTryRecvPeek s x fromTid = ipcRecv s x fromTid) ∧
      ((ipcTryRecvPeek s x fromTid).2.1 ≠ 0 → ipcTryRecvPeek s x fromTid = (s, -1, none))) ∧
    ∀ f t m,
      (∀ x, (ipcTrySend s f t m).1.state x = .blocked → s.state x = .blocked) ∧
      ((ipcSend s f t m).2 ≠ -2 →
        SameButFlag s f t m (ipcSend s f t m) (ipcTrySend s f t m)) := by
  refine ⟨fun x fromTid => ?_, fun f t m => ⟨fun x => trySend_not_blocked, trySend_sameButFlag⟩⟩
  by_cases h : (ipcRecv s x fromTid).2.1 = 0
  · rw [tryRecv_of_recv h]
    exact ⟨Iff.rfl, fun _ => rfl, fun hne => absurd h hne⟩
  · rw [tryRecv_of_not_recv h]
    have hne : ¬ (-1 : ℤ) = 0 := by decide
    exact ⟨iff_of_false hne h, fun hz => absurd hz hne, fun _ => rfl⟩

end Kerneloid.Ipc.NonBlocking
