import Kerneloid.Ipc.Ops

/-! # The message queues are bounded lists

The functions of `ipc.c` do the same over the ring buffers of the source as over bounded lists: they
give the same answers, and each ring buffer holds the messages of its list, in order. The proof is a
simulation, one lemma for each function; the scheduler states on the two sides may differ, as long
as they agree on the tasks (`Agree`). -/

namespace Kerneloid.Ipc.Queues

open Lib.RingBuffer Tcb.Types Tcb.Ops Types Ops

/-! ### One queue -/

/-- The ring buffer holds the messages of the list. -/
structure Stores (r : RingBuf Message) (q : Fifo) : Prop where
  valid : r.Valid
  size : r.size = q.size
  items : r.items = q.list

variable {r : RingBuf Message} {q : Fifo}

theorem Stores.count (h : Stores r q) : r.count = q.list.length := by
  rw [← h.items, length_items]

theorem stores_new (n : ℕ) : Stores (MsgQueue.new n) (MsgQueue.new n) :=
  ⟨⟨fun h => h, by simp [MsgQueue.new], Nat.zero_le _⟩, rfl, rfl⟩

theorem stores_clear (r : RingBuf Message) (q : Fifo) :
    Stores (MsgQueue.clear r) (MsgQueue.clear q) :=
  ⟨⟨fun h => h, rfl, le_rfl⟩, rfl, rfl⟩

theorem Stores.isFull (h : Stores r q) : MsgQueue.isFull r = MsgQueue.isFull q := by
  show decide (r.size ≤ r.count) = decide (q.size ≤ q.list.length)
  rw [h.size, h.count]

theorem Stores.put (h : Stores r q) (hroom : MsgQueue.isFull q = false) (m : Message) :
    Stores (MsgQueue.put r m) (MsgQueue.put q m) := by
  have hc : r.count < r.size := by
    rw [← h.isFull] at hroom
    simpa [MsgQueue.isFull] using hroom
  refine ⟨h.valid.enqueue hc m, h.size, ?_⟩
  exact (items_enqueue h.valid hc m).trans (by rw [h.items]; rfl)

theorem matchPos_eq (r : RingBuf Message) (fromTid : ℤ) :
    matchPos r fromTid = r.find (accepts fromTid) := by
  unfold matchPos
  split_ifs with h0 hany
  · unfold RingBuf.find
    rw [h0]
    rfl
  · -- any message will do: the first one is found
    obtain ⟨n, hn⟩ := Nat.exists_eq_succ_of_ne_zero h0
    unfold RingBuf.find
    rw [hn, List.range_succ_eq_map, List.find?_cons_of_pos (by simp [accepts, hany])]
  · unfold RingBuf.find accepts
    simp [hany]

theorem Stores.take (h : Stores r q) (fromTid : ℤ) :
    (MsgQueue.take r fromTid = none ∧ MsgQueue.take q fromTid = none) ∨
      ∃ m r' q', MsgQueue.take r fromTid = some (m, r') ∧ MsgQueue.take q fromTid = some (m, q') ∧
        Stores r' q' := by
  have hfind : q.list.find? (accepts fromTid) = (r.find (accepts fromTid)).map r.entry := by
    rw [← h.items, find?_items]
  show ((matchPos r fromTid).map _ = none ∧ Option.map _ _ = none) ∨
    ∃ m r' q', (matchPos r fromTid).map _ = some (m, r') ∧ Option.map _ _ = some (m, q') ∧ _
  rw [matchPos_eq, hfind]
  cases hpos : r.find (accepts fromTid) with
  | none => exact Or.inl ⟨rfl, rfl⟩
  | some k =>
    obtain ⟨hk, herase⟩ := eraseP_items hpos
    refine Or.inr ⟨_, _, _, rfl, rfl, h.valid.removeAt hk, ?_, ?_⟩
    · unfold RingBuf.removeAt
      split_ifs <;> exact h.size
    · rw [items_removeAt h.valid hk, ← herase, h.items]

theorem Stores.holds (h : Stores r q) (fromTid : ℤ) :
    MsgQueue.holds r fromTid = MsgQueue.holds q fromTid := by
  unfold MsgQueue.holds
  rcases h.take fromTid with ⟨h₁, h₂⟩ | ⟨m, r', q', h₁, h₂, -⟩ <;> rw [h₁, h₂] <;> rfl

/-! ### The whole state -/

variable {Q Q' : Type}

/-- A relation of scheduler states that agree on the tasks, and go on doing so. -/
structure Agree (R : Sched Q → Sched Q' → Prop) : Prop where
  task : ∀ {s a}, R s a → s.task = a.task
  modify : ∀ {s a}, R s a → ∀ x f, R (s.modify x f) (a.modify x f)

/-- The state over ring buffers and the state over lists are the same. -/
structure Alike (R : Sched Q → Sched Q' → Prop) (s : System Q (RingBuf Message))
    (a : System Q' Fifo) : Prop where
  sched : R s.sched a.sched
  used : ∀ i, (s.ports i).used = (a.ports i).used
  owner : ∀ i, (s.ports i).owner = (a.ports i).owner
  stores : ∀ b, Stores (s.queueAt b) (a.queueAt b)

section Simulation

variable {R : Sched Q → Sched Q' → Prop} {s : System Q (RingBuf Message)} {a : System Q' Fifo}

theorem Alike.findPort (h : Alike R s a) (x : Slot) : findPortForTask s x = findPortForTask a x := by
  unfold findPortForTask
  congr 1
  funext i
  rw [h.used, h.owner]

theorem Alike.usedPort (h : Alike R s a) (portId : ℤ) : usedPort s portId = usedPort a portId := by
  unfold Ops.usedPort
  congr 1
  funext i
  exact h.used i

theorem Alike.setQueue (h : Alike R s a) (b : Box) (hst : Stores r q) :
    Alike R (s.setQueue b r) (a.setQueue b q) := by
  refine ⟨by simpa using h.sched, by simpa using h.used, by simpa using h.owner, ?_⟩
  intro b'
  rw [setQueue_queueAt, setQueue_queueAt]
  split_ifs
  · exact hst
  · exact h.stores b'

theorem Alike.setPort (h : Alike R s a) (i : Fin 128) (used : Bool) (owner : Option Slot)
    (hst : Stores r q) : Alike R (s.setPort i ⟨used, owner, r⟩) (a.setPort i ⟨used, owner, q⟩) := by
  refine ⟨h.sched, ?_, ?_, ?_⟩
  · intro j
    rw [setPort_ports, setPort_ports]
    split_ifs
    · rfl
    · exact h.used j
  · intro j
    rw [setPort_ports, setPort_ports]
    split_ifs
    · rfl
    · exact h.owner j
  · intro b
    rw [setPort_queueAt, setPort_queueAt]
    split_ifs
    · exact hst
    · exact h.stores b

theorem Alike.isFull (h : Alike R s a) (b : Box) :
    MsgQueue.isFull (s.queueAt b) = MsgQueue.isFull (a.queueAt b) := (h.stores b).isFull

variable (hR : Agree R)

include hR

theorem Alike.task (h : Alike R s a) : s.sched.task = a.sched.task := hR.task h.sched

theorem Alike.modify (h : Alike R s a) (x : Slot) (f : Task → Task) :
    Alike R (s.modify x f) (a.modify x f) :=
  ⟨hR.modify h.sched x f, h.used, h.owner, by simpa using h.stores⟩

theorem Alike.boxOf (h : Alike R s a) (x : Slot) : boxOf s x = boxOf a x := by
  unfold Ops.boxOf System.tid System.task
  rw [h.findPort, h.task hR]

theorem Alike.getByTid (h : Alike R s a) (tid : ℤ) :
    tcbGetByTid s.sched tid = tcbGetByTid a.sched tid := by
  unfold tcbGetByTid Sched.state
  rw [h.task hR]

theorem Alike.findLive (h : Alike R s a) (tid : ℤ) : findLive s tid = findLive a tid := by
  unfold Ops.findLive System.state System.task
  rw [h.getByTid hR, h.task hR]

/-! ### The calls -/

theorem wait_alike (h : Alike R s a) (x : Slot) (tid : ℤ) :
    Alike R (ipcWaitForMessage s x tid) (ipcWaitForMessage a x tid) := h.modify hR x _

theorem wakeRound_alike {room : System Q (RingBuf Message) → Bool} {room' : System Q' Fifo → Bool}
    (hroom : ∀ {s a}, Alike R s a → room s = room' a) (h : Alike R s a) (tid : ℤ) (i : ℕ) :
    Alike R (wakeRound room tid s i) (wakeRound room' tid a i) := by
  unfold wakeRound System.task
  rw [h.getByTid hR, hroom h, h.task hR]
  split
  · exact h
  · split_ifs
    · exact h.modify hR _ _
    · exact h

theorem wakeLoop_alike {room : System Q (RingBuf Message) → Bool} {room' : System Q' Fifo → Bool}
    (hroom : ∀ {s a}, Alike R s a → room s = room' a) (h : Alike R s a) (tid : ℤ) :
    Alike R (wakeLoop room tid s) (wakeLoop room' tid a) := by
  have hfold : ∀ (l : List ℕ) {s a}, Alike R s a →
      Alike R (l.foldl (wakeRound room tid) s) (l.foldl (wakeRound room' tid) a) := by
    intro l
    induction l with
    | nil => exact fun h => h
    | cons i l ih => exact fun h => ih (wakeRound_alike hR hroom h tid i)
  exact hfold _ h

theorem hasSpace_alike (x : Slot) (h : Alike R s a) : hasSpace x s = hasSpace x a := by
  unfold hasSpace
  rw [h.boxOf hR, h.isFull]

theorem wakeupPort_alike (h : Alike R s a) (i : Fin 128) :
    Alike R (wakeupPort s i) (wakeupPort a i) := by
  unfold wakeupPort
  rw [h.owner]
  split
  · exact h
  · rename_i owner _
    have hwake : Alike R (wakeOwner s i owner) (wakeOwner a i owner) := by
      have hst : Stores (s.ports i).queue (a.ports i).queue := h.stores (.port i)
      unfold wakeOwner System.state System.task
      rw [h.task hR, hst.holds]
      split_ifs
      · exact h.modify hR _ _
      · exact h
    have hfull : MsgQueue.isFull ((wakeOwner s i owner).ports i).queue =
        MsgQueue.isFull ((wakeOwner a i owner).ports i).queue := hwake.isFull (.port i)
    dsimp only
    rw [hfull]
    split_ifs
    · exact hwake
    · rw [System.tid, System.tid, System.task, System.task, hwake.task hR]
      exact wakeLoop_alike hR (fun _ => rfl) hwake _

theorem deliver_alike (h : Alike R s a) {b : Box} (hroom : MsgQueue.isFull (a.queueAt b) = false)
    (x : Slot) (m : Message) : Alike R (deliver s b x m) (deliver a b x m) := by
  have hput := h.setQueue b ((h.stores b).put hroom m)
  unfold deliver System.task
  dsimp only
  rw [hput.task hR]
  split_ifs
  · exact hput.modify hR _ _
  · exact hput

/-- The two sides of a call: the same answer, and states that are the same. -/
def Same {α : Type} (R : Sched Q → Sched Q' → Prop) (p : System Q (RingBuf Message) × α)
    (p' : System Q' Fifo × α) : Prop := Alike R p.1 p'.1 ∧ p.2 = p'.2

omit hR in
theorem createPort_same (h : Alike R s a) (n : ℕ) :
    Same R (ipcCreatePort s n) (ipcCreatePort a n) := by
  have hfind : (fun i => decide ((s.ports i).used = false)) =
      fun i => decide ((a.ports i).used = false) := by
    funext i
    rw [h.used]
  unfold ipcCreatePort
  dsimp only
  rw [hfind]
  split
  · exact ⟨h, rfl⟩
  · exact ⟨h.setPort _ _ _ (stores_new _), rfl⟩

theorem bindPort_same (h : Alike R s a) (x : Slot) (portId : ℤ) :
    Same R (ipcBindPort s x portId) (ipcBindPort a x portId) := by
  unfold ipcBindPort System.tid System.task
  rw [h.usedPort, h.findLive hR, h.task hR]
  split
  · rename_i i _ _ _
    rw [h.owner]
    split_ifs
    · exact ⟨h, rfl⟩
    · refine ⟨?_, rfl⟩
      dsimp only
      rw [h.used]
      exact h.setPort i _ _ (h.stores (.port i))
  · exact ⟨h, rfl⟩

omit hR in
theorem unbindPort_same (h : Alike R s a) (x : Slot) (portId : ℤ) :
    Same R (ipcUnbindPort s x portId) (ipcUnbindPort a x portId) := by
  unfold ipcUnbindPort
  rw [h.usedPort]
  split
  · exact ⟨h, rfl⟩
  · rename_i i _
    rw [h.owner]
    split_ifs
    · exact ⟨h, rfl⟩
    · refine ⟨?_, rfl⟩
      dsimp only
      rw [h.used]
      exact h.setPort i _ _ (h.stores (.port i))

theorem destroyPort_alike (h : Alike R s a) (portId : ℤ) :
    Alike R (ipcDestroyPort s portId) (ipcDestroyPort a portId) := by
  unfold ipcDestroyPort
  rw [h.usedPort]
  split
  · exact h
  · exact (wakeupPort_alike hR h _).setPort _ _ _ (stores_clear _ _)

theorem wakeupWaiters_alike (h : Alike R s a) (portId : ℤ) :
    Alike R (ipcWakeupWaiters s portId) (ipcWakeupWaiters a portId) := by
  unfold ipcWakeupWaiters
  rw [h.usedPort]
  split
  · exact h
  · exact wakeupPort_alike hR h _

theorem waitingTask_alike (h : Alike R s a) (x : Slot) :
    Alike R (ipcWaitingTask s x) (ipcWaitingTask a x) := by
  unfold ipcWaitingTask System.state System.task
  rw [h.task hR]
  split_ifs
  · exact wait_alike hR h x _
  · exact h

theorem send_same (h : Alike R s a) (f t : Slot) (m : Message) :
    Same R (ipcSend s f t m) (ipcSend a f t m) := by
  unfold ipcSend System.tid System.task
  rw [h.task hR, h.findLive hR, h.findLive hR]
  split
  · dsimp only
    rw [h.boxOf hR, h.isFull]
    split_ifs with hfull hnb
    · exact ⟨h, rfl⟩
    · exact ⟨wait_alike hR h _ _, rfl⟩
    · exact ⟨deliver_alike hR h (by simpa using hfull) _ _, rfl⟩
  · exact ⟨h, rfl⟩

theorem recv_same (h : Alike R s a) (x : Slot) (fromTid : ℤ) :
    Same R (ipcRecv s x fromTid) (ipcRecv a x fromTid) := by
  unfold ipcRecv System.tid System.task
  rw [h.findLive hR, h.task hR]
  split
  · exact ⟨h, rfl⟩
  · rename_i t _
    dsimp only
    rw [h.boxOf hR]
    rcases (h.stores (Ops.boxOf a x)).take fromTid with ⟨h₁, h₂⟩ | ⟨m, r', q', h₁, h₂, hst⟩
    · rw [h₁, h₂]
      exact ⟨wait_alike hR h _ _, rfl⟩
    · rw [h₁, h₂]
      refine ⟨?_, rfl⟩
      have hset := h.setQueue (Ops.boxOf a x) hst
      have hwoken : Alike R
          (if (s.setQueue (Ops.boxOf a x) r').state t = .blocked
            then (s.setQueue (Ops.boxOf a x) r').modify t wakeTask
            else s.setQueue (Ops.boxOf a x) r')
          (if (a.setQueue (Ops.boxOf a x) q').state t = .blocked
            then (a.setQueue (Ops.boxOf a x) q').modify t wakeTask
            else a.setQueue (Ops.boxOf a x) q') := by
        unfold System.state System.task
        rw [hset.task hR]
        split_ifs
        · exact hset.modify hR _ _
        · exact hset
      dsimp only
      unfold wakeSenderWaitersForReceiver
      rw [System.tid, System.task, hwoken.task hR]
      exact wakeLoop_alike hR (fun h => hasSpace_alike hR t h) hwoken _

theorem reply_same (h : Alike R s a) (x : Slot) (m : Message) :
    Same R (ipcReply s x m) (ipcReply a x m) := by
  unfold ipcReply System.tid System.task
  rw [h.task hR, h.findLive hR]
  split
  · exact ⟨h, rfl⟩
  · rw [h.findLive hR]
    split
    · exact send_same hR h _ _ _
    · dsimp only
      rw [h.boxOf hR, h.isFull]
      split_ifs with hfull
      · exact ⟨h, rfl⟩
      · exact ⟨deliver_alike hR h (by simpa using hfull) _ _, rfl⟩

theorem tryRecv_same (h : Alike R s a) (x : Slot) (fromTid : ℤ) :
    Same R (ipcTryRecv s x fromTid) (ipcTryRecv a x fromTid) := by
  unfold ipcTryRecv System.tid System.task
  rw [h.getByTid hR, h.task hR]
  split
  · exact ⟨h, rfl⟩
  · rw [h.boxOf hR, (h.stores _).holds]
    split_ifs
    · exact recv_same hR h x fromTid
    · exact ⟨h, rfl⟩

omit hR in
theorem Alike.ownerOf (h : Alike R s a) (portId : ℤ) :
    ((Ops.usedPort s portId).bind fun i => (s.ports i).owner) =
      (Ops.usedPort a portId).bind fun i => (a.ports i).owner := by
  rw [h.usedPort]
  congr 1
  funext i
  exact h.owner i

theorem portSend_same (h : Alike R s a) (portId : ℤ) (x : Slot) (m : Message) :
    Same R (ipcPortSend s portId x m) (ipcPortSend a portId x m) := by
  unfold ipcPortSend
  rw [h.ownerOf]
  split
  · exact ⟨h, rfl⟩
  · exact send_same hR h _ _ _

theorem portRecv_same (h : Alike R s a) (portId : ℤ) (x : Slot) (fromTid : ℤ) :
    Same R (ipcPortRecv s portId x fromTid) (ipcPortRecv a portId x fromTid) := by
  unfold ipcPortRecv
  rw [h.ownerOf]
  split
  · exact ⟨h, rfl⟩
  · split_ifs
    · exact ⟨h, rfl⟩
    · exact recv_same hR h x fromTid

/-- **Simulation**: every call answers the same over ring buffers as over lists. -/
theorem call_same (h : Alike R s a) (c : Call) : Same R (call s c) (call a c) := by
  have hans : ∀ {ret ret' : ℤ} {m m' : Option Message}, ret = ret' → m = m' →
      (⟨ret, m⟩ : Answer) = ⟨ret', m'⟩ := by
    rintro _ _ _ _ rfl rfl
    rfl
  cases c with
  | createPort n => exact (createPort_same h n).imp_right fun e => hans e rfl
  | destroyPort p => exact ⟨destroyPort_alike hR h p, rfl⟩
  | bindPort x p => exact (bindPort_same hR h x p).imp_right fun e => hans e rfl
  | unbindPort x p => exact (unbindPort_same h x p).imp_right fun e => hans e rfl
  | waitForMessage x i => exact ⟨wait_alike hR h x i, rfl⟩
  | waitingTask x => exact ⟨waitingTask_alike hR h x, rfl⟩
  | wakeupWaiters p => exact ⟨wakeupWaiters_alike hR h p, rfl⟩
  | send f t m => exact (send_same hR h f t m).imp_right fun e => hans e rfl
  | recv x i =>
    exact (recv_same hR h x i).imp_right fun e => hans (congrArg Prod.fst e) (congrArg Prod.snd e)
  | reply t m => exact (reply_same hR h t m).imp_right fun e => hans e rfl
  | trySend f t m => exact (send_same hR h f t _).imp_right fun e => hans e rfl
  | tryRecv x i =>
    exact (tryRecv_same hR h x i).imp_right fun e => hans (congrArg Prod.fst e) (congrArg Prod.snd e)
  | portSend p f m => exact (portSend_same hR h p f m).imp_right fun e => hans e rfl
  | portRecv p x i =>
    exact (portRecv_same hR h p x i).imp_right fun e =>
      hans (congrArg Prod.fst e) (congrArg Prod.snd e)

end Simulation

/-! ### Runs -/

/-- A call, or anything else that happens to the tasks. -/
inductive Event (Q : Type)
  | call (c : Call)
  | tasks (sched : Sched Q)

/-- The state after a list of events, and the answers of the calls. -/
def trace {B : Type} [MsgQueue B] (s : System Q B) : List (Event Q) → System Q B × List Answer
  | [] => (s, [])
  | .call c :: es =>
    let p := call s c
    ((trace p.1 es).1, p.2 :: (trace p.1 es).2)
  | .tasks sched :: es => trace (s.withSched sched) es

theorem agree_eq : Agree (Eq (α := Sched Q)) where
  task := by
    rintro s _ rfl
    rfl
  modify := by
    rintro s _ rfl x f
    rfl

theorem init_alike {R : Sched Q → Sched Q' → Prop} {s : Sched Q} {a : Sched Q'} (h : R s a) :
    Alike R (ipcInit s) (ipcInit a) :=
  ⟨h, fun _ => rfl, fun _ => rfl, fun b => by cases b <;> exact stores_new 16⟩

theorem trace_same (es : List (Event Q)) :
    ∀ {s : System Q (RingBuf Message)} {a : System Q Fifo}, Alike Eq s a →
      Same Eq (trace s es) (trace a es) := by
  induction es with
  | nil => exact fun h => ⟨h, rfl⟩
  | cons e es ih =>
    intro s a h
    cases e with
    | call c =>
      obtain ⟨hc, hans⟩ := call_same agree_eq h c
      obtain ⟨ht, hans'⟩ := ih hc
      exact ⟨ht, congrArg₂ List.cons hans hans'⟩
    | tasks sched =>
      exact ih ⟨rfl, h.used, h.owner, by simpa using h.stores⟩

section Full

variable {B : Type} [MsgQueue B] {s : System Q B}

omit [MsgQueue B] in
@[simp] theorem wait_queueAt (x : Slot) (tid : ℤ) (b : Box) :
    (ipcWaitForMessage s x tid).queueAt b = s.queueAt b := modify_queueAt _ _ _ _

/-- The call was turned down and changed no queue. -/
def Rejected (s : System Q B) (p : System Q B × ℤ) : Prop :=
  p.2 ≠ 0 ∧ ∀ b, p.1.queueAt b = s.queueAt b

theorem send_full {t : Slot} (hfull : MsgQueue.isFull (s.queueAt (boxOf s t)) = true) (f : Slot)
    (m : Message) : Rejected s (ipcSend s f t m) := by
  unfold ipcSend
  split
  · dsimp only
    rw [if_pos hfull]
    split_ifs
    · exact ⟨by simp, fun _ => rfl⟩
    · exact ⟨by simp, fun _ => wait_queueAt _ _ _⟩
  · exact ⟨by simp, fun _ => rfl⟩

theorem reply_full {t dest : Slot} (hdest : findLive s (s.tid t) = some dest)
    (hfull : MsgQueue.isFull (s.queueAt (boxOf s dest)) = true) (m : Message) :
    Rejected s (ipcReply s t m) := by
  unfold ipcReply
  rw [hdest]
  dsimp only
  split
  · exact send_full hfull _ _
  · rw [if_pos hfull]
    exact ⟨by simp, fun _ => rfl⟩

end Full

end Kerneloid.Ipc.Queues
