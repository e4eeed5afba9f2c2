import Kerneloid.Ipc.Machine
import Kerneloid.Ipc.NonBlocking

/-! # Calls that name a port

`ipc_port_send` and `ipc_port_recv` look up the owner of the port and leave the rest to `ipc_send`
and `ipc_recv`, which look for a port of that owner again and take the first one. So the message is
put into the queue of the port named, or taken from it, exactly if the owner has no port with a
smaller number (`named_port`). -/

namespace Kerneloid.Ipc.NamedPorts

open Lib.RingBuffer Lib.Runs Tcb.Types Types Ops Frames Effects Views Queues NonBlocking Machine

variable {fromTid portId : ℤ}

variable {Q : Type} {s s' : System Q (RingBuf Message)} {p : Fin 128} {x f : Slot} {m : Message}

/-- The owner of port `p` has no port before it. -/
def FirstOfOwner (s : System Q (RingBuf Message)) (p : Fin 128) : Prop :=
  ∀ j < p, ¬ ((s.ports j).used = true ∧ (s.ports j).owner = (s.ports p).owner)

instance (s : System Q (RingBuf Message)) (p : Fin 128) : Decidable (FirstOfOwner s p) :=
  inferInstanceAs (Decidable (∀ j < p, _))

/-- The message was appended to the queue of port `p`, and no other queue changed. -/
structure AppendedTo (s s' : System Q (RingBuf Message)) (p : Fin 128) (m : Message) : Prop where
  queue : (s'.queueAt (.port p)).items = (s.queueAt (.port p)).items ++ [m]
  others : ∀ b, b ≠ .port p → s'.queueAt b = s.queueAt b

/-- The message was removed from the queue of port `p`. -/
def RemovedFrom (s s' : System Q (RingBuf Message)) (p : Fin 128) (m : Message) : Prop :=
  ∃ l r, (s.queueAt (.port p)).items = l ++ m :: r ∧ (s'.queueAt (.port p)).items = l ++ r

/-! ### The queue used -/

theorem boxOf_owner (hused : (s.ports p).used = true) (howner : (s.ports p).owner = some x) :
    boxOf s x = .port p ↔ FirstOfOwner s p := by
  unfold FirstOfOwner
  rw [howner]
  constructor
  · intro hbox
    unfold boxOf at hbox
    cases hfind : findPortForTask s x with
    | none => exact absurd ⟨hused, howner⟩ (findPort_none.mp hfind p)
    | some j =>
      rw [hfind] at hbox
      obtain rfl := Box.port.inj hbox
      exact (findPort_iff.mp hfind).2
  · intro hfirst
    unfold boxOf
    rw [findPort_iff.mpr ⟨⟨hused, howner⟩, hfirst⟩]

theorem ownerOf_spec (h : ((usedPort s portId).bind fun i => (s.ports i).owner) = some x) :
    ∃ p, portIdx portId = some p ∧ (s.ports p).used = true ∧ (s.ports p).owner = some x := by
  obtain ⟨p, hp, howner⟩ := Option.bind_eq_some_iff.mp h
  obtain ⟨hidx, hused⟩ := Option.filter_eq_some_iff.mp hp
  exact ⟨p, hidx, hused, howner⟩

theorem not_appendedTo (h : s'.queueAt (.port p) = s.queueAt (.port p)) :
    ¬ AppendedTo s s' p m := by
  rintro ⟨hq, -⟩
  rw [h] at hq
  have := congrArg List.length hq
  simp at this

theorem not_removedFrom (h : s'.queueAt (.port p) = s.queueAt (.port p)) :
    ¬ RemovedFrom s s' p m := by
  rintro ⟨l, r, hq, hq'⟩
  rw [h, hq] at hq'
  have := congrArg List.length hq'
  simp at this

/-! ### Sending -/

theorem deliver_appendedTo (hs : Rings s) {b : Box} (hroom : MsgQueue.isFull (s.queueAt b) = false)
    (x : Slot) (m : Message) : AppendedTo s (deliver s b x m) p m ↔ b = .port p := by
  constructor
  · intro h
    by_contra hb
    refine not_appendedTo ?_ h
    have hsame := deliver_queueAt s b x m (.port p)
    rw [if_neg (Ne.symm hb)] at hsame
    exact hsame
  · rintro rfl
    have hput := (Stores.put ⟨hs (.port p), rfl, rfl⟩ (q := fifoOf _)
      (by rw [← Stores.isFull ⟨hs (.port p), rfl, rfl⟩]; exact hroom) m).items
    have hself := deliver_queueAt s (.port p) x m (.port p)
    rw [if_pos rfl] at hself
    refine ⟨?_, fun b hb => ?_⟩
    · rw [hself, hput]
      rfl
    · rw [deliver_queueAt, if_neg hb]

theorem portSend_appendedTo (hs : Rings s) (h : (ipcPortSend s portId f m).2 = 0) :
    ∃ p owner, portIdx portId = some p ∧ (s.ports p).owner = some owner ∧
      (AppendedTo s (ipcPortSend s portId f m).1 p (stored s f owner m) ↔ FirstOfOwner s p) := by
  unfold ipcPortSend at h ⊢
  cases hdest : (usedPort s portId).bind fun i => (s.ports i).owner with
  | none =>
    rw [hdest] at h
    exact absurd h (by decide : ¬ (-1 : ℤ) = 0)
  | some dest =>
    rw [hdest] at h
    dsimp only at h ⊢
    obtain ⟨p, hidx, hused, howner⟩ := ownerOf_spec hdest
    refine ⟨p, dest, hidx, howner, ?_⟩
    rw [← boxOf_owner hused howner]
    obtain ⟨f', t', hf, ht⟩ | hdead := live_or_dead s f dest
    · rw [send_live hf ht] at h ⊢
      split_ifs at h ⊢ with hfull hnb
      · exact absurd h (by decide : ¬ (-1 : ℤ) = 0)
      · exact absurd h (by decide : ¬ (-2 : ℤ) = 0)
      · exact deliver_appendedTo hs (Bool.eq_false_of_not_eq_true hfull) _ _
    · rw [hdead] at h
      exact absurd h (by decide : ¬ (-1 : ℤ) = 0)

/-! ### Receiving -/

theorem take_items {r r' : RingBuf Message} (hr : r.Valid)
    (h : MsgQueue.take r fromTid = some (m, r')) :
    ∃ l l', r.items = l ++ m :: l' ∧ r'.items = l ++ l' := by
  obtain ⟨k, hk, e⟩ := Option.map_eq_some_iff.mp h
  obtain ⟨rfl, rfl⟩ := Prod.mk.inj e
  rw [matchPos_eq] at hk
  obtain ⟨hlt, -⟩ := eraseP_items hk
  have hlen : k < r.items.length := by rwa [length_items]
  refine ⟨r.items.take k, r.items.drop (k + 1), ?_, ?_⟩
  · rw [← getElem_items hlen, ← List.drop_eq_getElem_cons, List.take_append_drop]
  · rw [items_removeAt hr hlt, List.eraseIdx_eq_take_drop_succ]

theorem receive_removedFrom (hs : Rings s) {b : Box} {q : RingBuf Message}
    (htake : MsgQueue.take (s.queueAt b) fromTid = some (m, q)) (t : Slot) :
    RemovedFrom s (receive s b t q) p m ↔ b = .port p := by
  have hq := receive_queueAt s b t q (.port p)
  constructor
  · intro h
    by_contra hb
    rw [if_neg (Ne.symm hb)] at hq
    exact not_removedFrom hq h
  · rintro rfl
    rw [if_pos rfl] at hq
    obtain ⟨l, r, hitems, hitems'⟩ := take_items (hs (.port p)) htake
    exact ⟨l, r, hitems, by rw [hq, hitems']⟩

theorem portRecv_removedFrom (hs : Rings s) (h : (ipcPortRecv s portId x fromTid).2.1 = 0) :
    ∃ p m, portIdx portId = some p ∧ (ipcPortRecv s portId x fromTid).2.2 = some m ∧
      (RemovedFrom s (ipcPortRecv s portId x fromTid).1 p m ↔ FirstOfOwner s p) := by
  unfold ipcPortRecv at h ⊢
  cases hdest : (usedPort s portId).bind fun i => (s.ports i).owner with
  | none =>
    rw [hdest] at h
    exact absurd h (by decide : ¬ (-1 : ℤ) = 0)
  | some owner =>
    rw [hdest] at h
    dsimp only at h ⊢
    by_cases hx : owner = x
    · subst hx
      rw [if_neg (not_not.mpr rfl)] at h ⊢
      obtain ⟨p, hidx, hused, howner⟩ := ownerOf_spec hdest
      cases hlive : findLive s (s.tid owner) with
      | none =>
        rw [recv_dead hlive] at h
        exact absurd h (by decide : ¬ (-1 : ℤ) = 0)
      | some t =>
        rw [recv_eq hlive] at h ⊢
        cases htake : MsgQueue.take (s.queueAt (boxOf s owner)) fromTid with
        | none =>
          rw [htake] at h
          exact absurd h (by decide : ¬ (-1 : ℤ) = 0)
        | some r =>
          obtain ⟨m, q⟩ := r
          refine ⟨p, m, hidx, rfl, ?_⟩
          rw [← boxOf_owner hused howner]
          exact receive_removedFrom hs htake t
    · rw [if_pos hx] at h
      exact absurd h (by decide : ¬ (-1 : ℤ) = 0)

/-! ### Results -/

theorem run_rings {entry stack : ℕ} {st : Option Statics}
    (h : Reach (Lifted Any) (lift step) (boot entry stack) st) : ∃ s, st = some s ∧ Rings s := by
  have hin : ∃ s, st = some s ∧ ∃ a, InRun s a := by
    refine h.returns (I := fun s => ∃ a, InRun s a) ?_ ?_
    · obtain ⟨s, hs, hin⟩ := boot_inRun entry stack
      exact ⟨s, hs, _, hin⟩
    · rintro s i ⟨a, hin⟩ -
      obtain ⟨s', hs', hin'⟩ := hin.step i
      exact ⟨s', hs', _, hin'⟩
  obtain ⟨s, rfl, a, ha⟩ := hin
  exact ⟨s, rfl, ha.rings⟩

/-- **The port named.** A send to a port that returns 0 has appended the message to its queue and
changed no other one, and a receipt from a port that returns 0 has removed the message from its
queue, exactly if the port is the first one of its owner. -/
theorem named_port (hs : Rings s) (portId : ℤ) :
    (∀ f m, (ipcPortSend s portId f m).2 = 0 →
      ∃ p owner, portIdx portId = some p ∧ (s.ports p).owner = some owner ∧
        (AppendedTo s (ipcPortSend s portId f m).1 p (stored s f owner m) ↔ FirstOfOwner s p)) ∧
    ∀ x fromTid, (ipcPortRecv s portId x fromTid).2.1 = 0 →
      ∃ p m, portIdx portId = some p ∧ (ipcPortRecv s portId x fromTid).2.2 = some m ∧
        (RemovedFrom s (ipcPortRecv s portId x fromTid).1 p m ↔ FirstOfOwner s p) :=
  ⟨fun _ _ h => portSend_appendedTo hs h, fun _ _ h => portRecv_removedFrom hs h⟩

def twoPorts : List Input :=
  [.tcb .allocate, .ipc (.createPort 4), .ipc (.createPort 4), .ipc (.bindPort 1 0),
    .ipc (.bindPort 1 1), .ipc (.send 0 1 .zero)]

theorem twoPorts_rings : ∃ s, twoPorts.foldl (lift step) (boot 1 0x400000) = some s ∧ Rings s :=
  run_rings (Reach.foldl twoPorts .init (Admits.always twoPorts _ fun _ _ _ => trivial))

theorem twoPorts_returns :
    ((twoPorts.foldl (lift step) (boot 1 0x400000)).map fun s =>
      ((ipcPortSend s 0 0 .zero).2, (ipcPortSend s 1 0 .zero).2,
        (ipcPortRecv s 0 1 (-1)).2.1, (ipcPortRecv s 1 1 (-1)).2.1)) = some (0, 0, 0, 0) := by
  decide +kernel

theorem named_port_two :
    ∃ s, twoPorts.foldl (lift step) (boot 1 0x400000) = some s ∧
      ∃ p owner, portIdx 0 = some p ∧ (s.ports p).owner = some owner ∧
        (AppendedTo s (ipcPortSend s 0 0 .zero).1 p (stored s 0 owner .zero) ↔
          FirstOfOwner s p) := by
  obtain ⟨s, hs, hrings⟩ := twoPorts_rings
  have hret := twoPorts_returns
  rw [hs] at hret
  have hzero : (ipcPortSend s 0 0 .zero).2 = 0 := congrArg Prod.fst (Option.some.inj hret)
  exact ⟨s, hs, (named_port hrings 0).1 0 .zero hzero⟩

/-- **The wrong port.** The task owns port 1. A send to port 1 leaves its queue empty and appends to
that of port 0, and a receipt from port 1 gives a message though its queue is empty. -/
theorem first_port_used :
    ∃ s, twoPorts.foldl (lift step) (boot 1 0x400000) = some s ∧ (s.ports 1).owner = some 1 ∧
      ((ipcPortSend s 1 0 .zero).2 = 0 ∧
        ((ipcPortSend s 1 0 .zero).1.queueAt (.port 1)).items = [] ∧
        ((ipcPortSend s 1 0 .zero).1.queueAt (.port 0)).items =
          (s.queueAt (.port 0)).items ++ [stored s 0 1 .zero]) ∧
      ((ipcPortRecv s 1 1 (-1)).2.1 = 0 ∧ (s.queueAt (.port 1)).items = []) := by
  refine ⟨_, rfl, ?_, ⟨?_, ?_, ?_⟩, ?_, ?_⟩ <;> decide +kernel

end Kerneloid.Ipc.NamedPorts
