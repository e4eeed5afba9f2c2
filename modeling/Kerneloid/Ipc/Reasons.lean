import Kerneloid.Lib.Runs
import Kerneloid.Ipc.Views

/-! # Why a task is blocked

The field `waiting_for` of a blocked task is the sender that a task in `ipc_recv` waits for, or the
receiver that a task in `ipc_send` waits for, and nothing tells which. A run keeps beside the state
why each task was blocked last (`Reason`). `Recorded` is the invariant that connects the two: what
is in `waiting_for` of a task that `ipc.c` blocked. -/

namespace Kerneloid.Ipc.Reasons

open Lib.RingBuffer Tcb.Types Types Ops Frames Effects Views

/-- Why a task is blocked: in `ipc_recv` with a filter, in `ipc_send` to a task whose queue is full,
or for another reason. -/
inductive Reason
  | other
  | recv (fromTid : ℤ)
  | send (receiver : Slot)
  deriving DecidableEq

/-- The value of `waiting_for`, if the reason determines it. -/
def Reason.waitingFor (v : View) : Reason → Option ℤ
  | .other => none
  | .recv fromTid => some fromTid
  | .send receiver => some (v.tid receiver)

/-- The message is what the task waits for. -/
def Reason.accepts : Reason → Message → Bool
  | .recv fromTid, m => Types.accepts fromTid m
  | _, _ => false

/-- The task that a full queue blocks. -/
def stalled (v : View) (o : Option Posting) : Option (Slot × Reason) :=
  match o with
  | none => none
  | some p =>
    if MsgQueue.isFull (v.queueAt (boxOf v p.dest)) then p.blocks.map fun f => (f, .send p.dest)
    else none

/-- The task that a call blocks, with the reason. -/
def blocks (v : View) : Call → Option (Slot × Reason)
  | .send f t m => stalled v (sendPosting v f t m)
  | .reply t m => stalled v (replyPosting v t m)
  | .recv x fromTid =>
    match findLive v (v.tid x), MsgQueue.take (v.queueAt (boxOf v x)) fromTid with
    | some t, none => some (t, .recv fromTid)
    | _, _ => none
  | _ => none

def note (why : Slot → Reason) : Option (Slot × Reason) → Slot → Reason
  | none => why
  | some (x, r) => Function.update why x r

/-- The state with the reasons. -/
structure Tracked (Q : Type) where
  sys : System Q (RingBuf Message)
  why : Slot → Reason

def callStep {Q : Type} (l : Tracked Q) (c : Call) : Tracked Q :=
  ⟨(call l.sys c).1, note l.why (blocks (view l.sys) c)⟩

/-! ### What the calls do to a view -/

variable {v v' : View} {why : Slot → Reason} {x y : Slot}

theorem posted_cases (v : View) (o : Option Posting) :
    ((posted v o).1 = v ∧ stalled v o = none) ∨
    (∃ p f, o = some p ∧ MsgQueue.isFull (v.queueAt (boxOf v p.dest)) = true ∧ p.blocks = some f ∧
      (posted v o).1 = ipcWaitForMessage v f (v.tid p.dest) ∧
      stalled v o = some (f, .send p.dest)) ∨
    (∃ p, o = some p ∧ MsgQueue.isFull (v.queueAt (boxOf v p.dest)) = false ∧
      (posted v o).1 = deliver v (boxOf v p.dest) p.receiver p.msg ∧ stalled v o = none) := by
  cases o with
  | none => exact Or.inl ⟨rfl, rfl⟩
  | some p =>
    unfold posted post stalled
    dsimp only
    by_cases hfull : MsgQueue.isFull (v.queueAt (boxOf v p.dest)) = true
    · rw [if_pos hfull, if_pos hfull]
      cases hb : p.blocks with
      | none => exact Or.inl ⟨rfl, rfl⟩
      | some f => exact Or.inr (Or.inl ⟨p, f, rfl, hfull, hb, rfl, rfl⟩)
    · rw [if_neg hfull, if_neg hfull]
      exact Or.inr (Or.inr ⟨p, rfl, by simpa using hfull, rfl, rfl⟩)

theorem recv_cases (v : View) (x : Slot) (fromTid : ℤ) :
    ((ipcRecv v x fromTid).1 = v ∧ blocks v (.recv x fromTid) = none) ∨
    (∃ t, findLive v (v.tid x) = some t ∧
      MsgQueue.take (v.queueAt (boxOf v x)) fromTid = none ∧
      (ipcRecv v x fromTid).1 = ipcWaitForMessage v t fromTid ∧
      blocks v (.recv x fromTid) = some (t, .recv fromTid)) ∨
    (∃ t m q, findLive v (v.tid x) = some t ∧
      MsgQueue.take (v.queueAt (boxOf v x)) fromTid = some (m, q) ∧
      (ipcRecv v x fromTid).1 = receive v (boxOf v x) t q ∧
      blocks v (.recv x fromTid) = none) := by
  unfold blocks
  dsimp only
  cases ht : findLive v (v.tid x) with
  | none =>
    rw [recv_dead ht]
    exact Or.inl ⟨rfl, rfl⟩
  | some t =>
    rw [recv_eq ht]
    cases htake : MsgQueue.take (v.queueAt (boxOf v x)) fromTid with
    | none => exact Or.inr (Or.inl ⟨t, rfl, rfl, rfl, rfl⟩)
    | some r =>
      obtain ⟨m, q⟩ := r
      exact Or.inr (Or.inr ⟨t, m, q, rfl, rfl, rfl, rfl⟩)

/-! ### Tasks are woken -/

section Woken

variable {Q B : Type} {s s' : System Q B}

/-- Each task is as before, or was blocked and is woken. -/
def Woken (s s' : System Q B) : Prop :=
  ∀ y, s'.task y = s.task y ∨ (s.state y = .blocked ∧ s'.task y = wakeTask (s.task y))

theorem Woken.refl (s : System Q B) : Woken s s := fun _ => Or.inl rfl

theorem Woken.of_sched (h : s'.sched = s.sched) : Woken s s' := by
  intro y
  unfold System.task
  rw [h]
  exact Or.inl rfl

theorem Woken.trans {s'' : System Q B} (h : Woken s s') (h' : Woken s' s'') : Woken s s'' := by
  intro y
  rcases h' y with e | ⟨hb, e⟩
  · rw [e]
    exact h y
  · rcases h y with e' | ⟨hb', e'⟩
    · rw [System.state, e'] at hb
      rw [e, e']
      exact Or.inr ⟨hb, rfl⟩
    · -- a task that was woken is not blocked
      rw [System.state, e'] at hb
      cases hb

theorem Woken.wake (hx : s.state x = .blocked) : Woken s (s.modify x wakeTask) := by
  intro y
  rw [modify_task]
  split_ifs with e
  · rw [e]
    exact Or.inr ⟨hx, rfl⟩
  · exact Or.inl rfl

theorem Woken.tid (h : Woken s s') (y : Slot) : s'.tid y = s.tid y := by
  rcases h y with e | ⟨-, e⟩ <;> rw [System.tid, e]
  rfl

theorem Woken.task (h : Woken s s') (hy : s'.state y = .blocked) : s'.task y = s.task y := by
  rcases h y with e | ⟨-, e⟩
  · exact e
  · rw [System.state, e] at hy
    cases hy

theorem Woken.blocked (h : Woken s s') (hy : s'.state y = .blocked) : s.state y = .blocked := by
  have := h.task hy
  rwa [System.state, this] at hy

theorem Woken.free (h : Woken s s') (hy : s'.state y = .free) : s.state y = .free := by
  rcases h y with e | ⟨-, e⟩
  · rwa [System.state, e] at hy
  · rw [System.state, e] at hy
    cases hy

theorem woken_wakeLoop (room : System Q B → Bool) (tid : ℤ) (s : System Q B) :
    Woken s (wakeLoop room tid s) :=
  wakeLoop_inv (I := fun s' => Woken s s') (fun _ _ h hx => h.trans (Woken.wake hx)) (Woken.refl s)

variable [MsgQueue B]

theorem woken_wakeupPort (s : System Q B) (i : Fin 128) : Woken s (wakeupPort s i) :=
  wakeupPort_inv (I := fun s' => Woken s s') (fun _ _ h hx => h.trans (Woken.wake hx))
    (Woken.refl s)

theorem woken_deliver (s : System Q B) (b : Box) (x : Slot) (m : Message) :
    Woken s (deliver s b x m) := by
  have hset : Woken s (s.setQueue b (MsgQueue.put (s.queueAt b) m)) :=
    Woken.of_sched (setQueue_sched s b _)
  unfold deliver
  dsimp only
  split_ifs with hx
  · exact hset.trans (Woken.wake hx.1)
  · exact hset

omit [MsgQueue B] in
theorem woken_taken (s : System Q B) (b : Box) (t : Slot) (q : B) : Woken s (taken s b t q) := by
  have hset : Woken s (s.setQueue b q) := Woken.of_sched (setQueue_sched s b q)
  unfold taken
  split_ifs with ht
  · refine hset.trans (Woken.wake ?_)
    rw [System.state, System.task, setQueue_sched]
    exact ht
  · exact hset

theorem woken_receive (s : System Q B) (b : Box) (t : Slot) (q : B) :
    Woken s (receive s b t q) := by
  rw [receive_eq]
  exact (woken_taken s b t q).trans (woken_wakeLoop _ _ _)

end Woken

/-! ### The field `waiting_for` -/

/-- **The invariant**: `waiting_for` of a blocked task is what the reason says. -/
structure Recorded (v : View) (why : Slot → Reason) : Prop where
  pool : Pool v.sched.task
  noted : ∀ y, v.state y = .blocked → ∀ w, (why y).waitingFor v = some w → (v.task y).waitingFor = w

theorem Recorded.awaits_iff (h : Recorded v why) {f : ℤ} (hx : v.state x = .blocked)
    (hr : why x = .recv f) (m : Message) :
    awaits (v.task x) m.senderTid ↔ Types.accepts f m = true := by
  have hwait := h.noted x hx f (by rw [hr]; rfl)
  unfold awaits Types.accepts
  rw [hwait, decide_eq_true_iff]
  constructor
  · rintro ⟨-, e | e⟩
    · exact Or.inr e.symm
    · exact Or.inl e
  · rintro (e | e)
    · exact ⟨hx, Or.inr e⟩
    · exact ⟨hx, Or.inl e.symm⟩

theorem waitingFor_congr (h : ∀ y, v'.tid y = v.tid y) (r : Reason) :
    r.waitingFor v' = r.waitingFor v := by
  cases r with
  | other => rfl
  | recv fromTid => rfl
  | send receiver => exact congrArg some (h receiver)

theorem Recorded.woken (h : Recorded v why) (hw : Woken v v') : Recorded v' why := by
  refine ⟨⟨?_, ?_⟩, ?_⟩
  · intro y hy
    exact (hw.tid y).trans (h.pool.free y (hw.free hy))
  · intro y z hyz hy
    refine h.pool.distinct y z ?_ ?_
    · exact (hw.tid y).symm.trans (hyz.trans (hw.tid z))
    · exact fun e => hy ((hw.tid y).trans e)
  · intro y hy w hr
    rw [waitingFor_congr hw.tid] at hr
    rw [hw.task hy]
    exact h.noted y (hw.blocked hy) w hr

theorem Recorded.wait (h : Recorded v why) (hx : v.state x ≠ .free) {r : Reason} {w : ℤ}
    (hr : r.waitingFor v = some w) :
    Recorded (ipcWaitForMessage v x w) (Function.update why x r) := by
  have hk := Keeps.wait hx w
  refine ⟨h.pool.keeps hk, ?_⟩
  intro y hy w' hr'
  rw [waitingFor_congr hk.tid] at hr'
  unfold ipcWaitForMessage at hy ⊢
  rw [System.state, modify_task] at hy
  rw [modify_task]
  by_cases e : y = x
  · rw [e, Function.update_self, hr] at hr'
    rw [if_pos e]
    exact Option.some.inj hr'
  · rw [Function.update_of_ne e] at hr'
    rw [if_neg e] at hy ⊢
    exact h.noted y hy w' hr'

theorem posted_recorded (h : Recorded v why) {o : Option Posting}
    (hs : ∀ p, o = some p → p.Sound v) : Recorded (posted v o).1 (note why (stalled v o)) := by
  rcases posted_cases v o with ⟨e, e'⟩ | ⟨p, f, rfl, -, hb, e, e'⟩ | ⟨p, rfl, -, e, e'⟩
  · rw [e, e']
    exact h
  · rw [e, e']
    exact h.wait ((hs p rfl).blocks f hb) rfl
  · rw [e, e']
    exact h.woken (woken_deliver v _ _ _)

theorem recv_recorded (h : Recorded v why) (x : Slot) (fromTid : ℤ) :
    Recorded (ipcRecv v x fromTid).1 (note why (blocks v (.recv x fromTid))) := by
  rcases recv_cases v x fromTid with ⟨e, e'⟩ | ⟨t, ht, -, e, e'⟩ | ⟨t, m, q, -, -, e, e'⟩
  · rw [e, e']
    exact h
  · rw [e, e']
    exact h.wait (findLive_spec ht).2.2.1 rfl
  · rw [e, e']
    exact h.woken (woken_receive v _ t q)

end Kerneloid.Ipc.Reasons
