import Kerneloid.Tcb.Runqueue
import Kerneloid.Tcb.SingleTask
import Kerneloid.Ipc.Ports
import Kerneloid.Ipc.Views

/-! # Tasks and messages together

The system of `tcb.c` and `ipc.c`: a step is a call of either. The calls of `ipc.c` change the
scheduler state only by making tasks wait or waking them (`call_frame`), so the runqueue stays what
it is, and every call of every run returns (`Sound.machine`). -/

namespace Kerneloid.Ipc.Machine

open Lib.Linked Lib.RingBuffer Lib.Runs Tcb.Types Tcb.Ops Tcb.States Tcb.Simulation Tcb.Runqueue
open Types Ops Frames Ports Effects Views

/-- The statics of `tcb.c` and `ipc.c`. -/
abbrev Statics := System (Links Slot) (RingBuf Message)

/-- A call of `tcb.c` or of `ipc.c`. -/
inductive Input
  | tcb (op : Op)
  | ipc (c : Call)
  deriving DecidableEq

def step (s : Statics) : Input → Option Statics
  | .tcb op => (Tcb.Ops.step s.sched op).map s.withSched
  | .ipc c => some (call s c).1

def boot (entry stack : ℕ) : Option Statics := (schedulerInit entry stack).map ipcInit

/-! ### What the calls of `ipc.c` do to the scheduler -/

section Frame

/-- A relation of scheduler states that holds when a task is made to wait or is woken. -/
structure Closed {Q : Type} (P : Sched Q → Sched Q → Prop) : Prop where
  refl : ∀ s, P s s
  trans : ∀ {s t u}, P s t → P t u → P s u
  wait : ∀ s x tid, P s (s.modify x (waitTask tid))
  wake : ∀ s x, s.state x = .blocked → P s (s.modify x wakeTask)

variable {Q B : Type} [MsgQueue B] {P : Sched Q → Sched Q → Prop} (hP : Closed P)

include hP

omit [MsgQueue B] in
theorem wakeLoop_frame (room : System Q B → Bool) (tid : ℤ) (s : System Q B) :
    P s.sched (wakeLoop room tid s).sched :=
  wakeLoop_inv (I := fun s' => P s.sched s'.sched)
    (fun s' x h hx => hP.trans h (hP.wake s'.sched x hx))
    (hP.refl s.sched)

theorem wakeupPort_frame (s : System Q B) (i : Fin 128) : P s.sched (wakeupPort s i).sched :=
  wakeupPort_inv (I := fun s' => P s.sched s'.sched)
    (fun s' x h hx => hP.trans h (hP.wake s'.sched x hx))
    (hP.refl s.sched)

theorem deliver_frame (s : System Q B) (b : Box) (x : Slot) (m : Message) :
    P s.sched (deliver s b x m).sched := by
  have hset := setQueue_sched s b (MsgQueue.put (s.queueAt b) m)
  unfold deliver
  dsimp only
  split_ifs with hx
  · have hw := hP.wake (s.setQueue b (MsgQueue.put (s.queueAt b) m)).sched x hx.1
    rw [hset] at hw
    unfold System.modify
    rw [hset]
    exact hw
  · rw [hset]
    exact hP.refl _

theorem receive_frame (s : System Q B) (b : Box) (t : Slot) (q : B) :
    P s.sched (receive s b t q).sched := by
  have htaken : P s.sched (taken s b t q).sched := by
    unfold taken
    split_ifs with ht
    · unfold System.modify
      rw [setQueue_sched]
      exact hP.wake s.sched t ht
    · rw [setQueue_sched]
      exact hP.refl _
  rw [receive_eq]
  exact hP.trans htaken (wakeLoop_frame hP _ _ _)

theorem send_frame (s : System Q B) (f t : Slot) (m : Message) :
    P s.sched (ipcSend s f t m).1.sched := by
  rw [send_eq]
  unfold posted
  split
  · exact hP.refl _
  · unfold post
    split_ifs
    · split
      · exact hP.refl _
      · exact hP.wait s.sched _ _
    · exact deliver_frame hP s _ _ _

theorem recv_frame (s : System Q B) (x : Slot) (fromTid : ℤ) :
    P s.sched (ipcRecv s x fromTid).1.sched := by
  cases ht : findLive s (s.tid x) with
  | none =>
    rw [recv_dead ht]
    exact hP.refl _
  | some t =>
    rw [recv_eq ht]
    split
    · exact hP.wait s.sched _ _
    · exact receive_frame hP s _ _ _

/-- **A call of `ipc.c` changes the scheduler state only by making tasks wait and waking them.** -/
theorem call_frame (s : System Q B) (c : Call) : P s.sched (call s c).1.sched := by
  cases c with
  | createPort n =>
    rcases createPort_cases s n with e | ⟨i, k, -, e⟩
    · exact (congrArg (P s.sched ·.sched) e).mpr (hP.refl _)
    · exact (congrArg (P s.sched ·.sched) e).mpr (hP.refl _)
  | destroyPort p =>
    show P s.sched (ipcDestroyPort s p).sched
    unfold ipcDestroyPort
    split
    · exact hP.refl _
    · exact wakeupPort_frame hP s _
  | bindPort x p =>
    rcases bindPort_cases s x p with e | ⟨i, -, -, -, e⟩
    · exact (congrArg (P s.sched ·.sched) e).mpr (hP.refl _)
    · exact (congrArg (P s.sched ·.sched) e).mpr (hP.refl _)
  | unbindPort x p =>
    rcases unbindPort_cases s x p with e | ⟨i, -, -, e⟩
    · exact (congrArg (P s.sched ·.sched) e).mpr (hP.refl _)
    · exact (congrArg (P s.sched ·.sched) e).mpr (hP.refl _)
  | waitForMessage x i => exact hP.wait s.sched x i
  | waitingTask x =>
    show P s.sched (ipcWaitingTask s x).sched
    unfold ipcWaitingTask
    split_ifs
    · exact hP.wait s.sched x _
    · exact hP.refl _
  | wakeupWaiters p =>
    show P s.sched (ipcWakeupWaiters s p).sched
    unfold ipcWakeupWaiters
    split
    · exact hP.refl _
    · exact wakeupPort_frame hP s _
  | send f t m => exact send_frame hP s f t m
  | recv x i => exact recv_frame hP s x i
  | reply t m =>
    show P s.sched (ipcReply s t m).1.sched
    unfold ipcReply
    split
    · exact hP.refl _
    · split
      · exact send_frame hP s _ _ _
      · dsimp only
        split_ifs
        · exact hP.refl _
        · exact deliver_frame hP s _ _ _
  | trySend f t m => exact send_frame hP s f t _
  | tryRecv x i =>
    show P s.sched (ipcTryRecv s x i).1.sched
    unfold ipcTryRecv
    split
    · exact hP.refl _
    · split_ifs
      · exact recv_frame hP s x i
      · exact hP.refl _
  | portSend p f m =>
    show P s.sched (ipcPortSend s p f m).1.sched
    unfold ipcPortSend
    split
    · exact hP.refl _
    · exact send_frame hP s _ _ _
  | portRecv p x i =>
    show P s.sched (ipcPortRecv s p x i).1.sched
    unfold ipcPortRecv
    split
    · exact hP.refl _
    · split_ifs
      · exact hP.refl _
      · exact recv_frame hP s x i

end Frame

/-! ### Every call returns -/

theorem closed_rest {Q : Type} : Closed fun s t : Sched Q => t = { s with task := t.task } where
  refl _ := rfl
  trans := by
    intro s t u h h'
    rw [h', h]
  wait _ _ _ := rfl
  wake _ _ _ := rfl

theorem closed_used {Q : Type} :
    Closed fun s t : Sched Q => ∀ y, s.state y ≠ .free → t.state y ≠ .free where
  refl _ _ h := h
  trans h h' y hy := h' y (h y hy)
  wait s x tid y hy := by
    rw [state_modify]
    split_ifs
    · simp [waitTask]
    · exact hy
  wake s x _ y hy := by
    rw [state_modify]
    split_ifs
    · simp [wakeTask]
    · exact hy

variable {s : Statics} {a : ListSched}

theorem call_rep (hr : Rep s.sched a) (ha : Sound a) (c : Call) :
    Rep (call s c).1.sched { a with task := (call s c).1.sched.task } ∧
      Sound { a with task := (call s c).1.sched.task } := by
  have hrest := call_frame closed_rest s c
  have hused := call_frame closed_used s c
  refine ⟨?_, ha.initialized, ha.nodup, ?_⟩
  · rw [hrest]
    exact { hr with task := rfl }
  · intro y hy
    refine hused y ?_
    rw [hr.state]
    exact ha.noneFree y hy

/-- The state is that of a run: the runqueue is a list `a`, and the ring buffers are in order. -/
structure InRun (s : Statics) (a : ListSched) : Prop where
  rep : Rep s.sched a
  sound : Sound a
  rings : Rings s

/-- The list scheduler after an input, if the input leaves the tasks `task`. -/
def listStep (a : ListSched) (task : Slot → Task) : Input → ListSched
  | .tcb op => Tcb.ListSched.step a op
  | .ipc _ => { a with task := task }

/-- **Every call returns** and keeps the runqueue a list and the ring buffers in order. -/
theorem InRun.step (h : InRun s a) (i : Input) :
    ∃ s', step s i = some s' ∧ InRun s' (listStep a s'.sched.task i) := by
  cases i with
  | tcb op =>
    obtain ⟨s', hs', hr', ha'⟩ := Sound.step h.rep h.sound op
    refine ⟨s.withSched s', ?_, hr', ha', ?_⟩
    · show (Tcb.Ops.step s.sched op).map s.withSched = _
      rw [hs']
      rfl
    · intro b
      rw [withSched_queueAt]
      exact h.rings b
  | ipc c =>
    obtain ⟨hr', ha'⟩ := call_rep h.rep h.sound c
    exact ⟨_, rfl, hr', ha', (call_view h.rings c).2.2⟩

theorem boot_inRun (entry stack : ℕ) :
    ∃ s, boot entry stack = some s ∧ InRun s (Tcb.ListSched.init entry stack) := by
  obtain ⟨s, hs, hr⟩ := init_returns entry stack
  refine ⟨ipcInit s, ?_, hr, init_sound entry stack, init_rings s⟩
  unfold boot
  rw [hs]
  rfl

/-! ### At most one task runs -/

theorem closed_single {Q : Type} : Closed fun s t : Sched Q => Single s → Single t where
  refl _ h := h
  trans h h' hs := h' (h hs)
  wait s x tid hs := by
    intro y hy
    rw [state_modify] at hy
    split_ifs at hy
    · cases hy
    · exact hs y hy
  wake s x _ hs := by
    intro y hy
    rw [state_modify] at hy
    split_ifs at hy
    · cases hy
    · exact hs y hy

/-- Every call but `scheduler_remove_task` on its own. -/
def Outer (_ : Statics) (i : Input) : Prop := ∀ x, i ≠ .tcb (.removeTask x)

theorem init_single (entry stack : ℕ) : Single (Tcb.ListSched.init entry stack) := by
  obtain ⟨-, hc, -, -, -, hother⟩ := init_spec entry stack
  intro y hy
  by_cases e : y = 0
  · rw [e]
    exact hc
  · rw [Sched.state, hother y e] at hy
    cases hy

/-- **Single running task.** In every state of every run of calls of `tcb.c` and `ipc.c`, at most
one task runs, and it is the current one. -/
theorem single_running (entry stack : ℕ) {st : Option Statics}
    (h : Reach (Lifted Outer) (lift step) (boot entry stack) st) :
    ∃ s, st = some s ∧ ∀ x, s.state x = .running → s.sched.current = some x := by
  have hkept : ∃ s, st = some s ∧ ∃ a, InRun s a ∧ Single a := by
    refine h.returns (I := fun s => ∃ a, InRun s a ∧ Single a) ?_ ?_
    · obtain ⟨s, hs, hin⟩ := boot_inRun entry stack
      exact ⟨s, hs, _, hin, init_single entry stack⟩
    · rintro s i ⟨a, hin, hsingle⟩ hok
      obtain ⟨s', hs', hin'⟩ := hin.step i
      refine ⟨s', hs', _, hin', ?_⟩
      cases i with
      | tcb op => exact Tcb.SingleTask.step_single hsingle fun x e => hok x (by rw [e])
      | ipc c =>
        have hs : Single s.sched := by
          intro y hy
          rw [hin.rep.current]
          exact hsingle y (by rw [← hin.rep.state]; exact hy)
        obtain rfl := Option.some.inj hs'
        have hcall := call_frame closed_single s c hs
        intro y hy
        have := hcall y hy
        rw [hin'.rep.current] at this
        exact this
  obtain ⟨s, rfl, a, hin, hsingle⟩ := hkept
  refine ⟨s, rfl, ?_⟩
  intro x hx
  rw [hin.rep.current]
  exact hsingle x (by rw [← hin.rep.state]; exact hx)

/-- A task is created and bound to a port; the idle task sends to it and sleeps, the task waits for
another message, and the idle task is woken. -/
def chatRun : List Input :=
  [.tcb (.create 1 0 5 0x500000), .ipc (.createPort 4), .ipc (.bindPort 1 0),
    .ipc (.send 0 1 .zero), .tcb (.sleep 10), .ipc (.recv 1 7), .tcb .tick, .tcb .schedule]

theorem single_running_chat :
    ((chatRun.foldl (lift step) (boot 1 0x400000)).map fun s =>
        (s.state 0, s.state 1, s.sched.current)) = some (.running, .blocked, some 0) ∧
      ∃ s, chatRun.foldl (lift step) (boot 1 0x400000) = some s ∧
        ∀ x, s.state x = .running → s.sched.current = some x := by
  refine ⟨by decide +kernel, single_running 1 0x400000 (Reach.foldl chatRun .init ?_)⟩
  refine Admits.always chatRun _ ?_
  intro i hi _ x e
  subst e
  simp [chatRun] at hi

end Kerneloid.Ipc.Machine
