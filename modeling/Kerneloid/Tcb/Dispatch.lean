import Kerneloid.Tcb.Calls
import Mathlib.Data.List.Chain

/-! # Which tasks are dispatched

`scheduler_remove_task` hands the processor to the head of the runqueue, and `scheduler_pick_next`
falls back on the idle task or the current one, without looking at the state of the task. `Safe`
names the calls that do not come to that: the head is ready, or there is a ready task to pick. Runs
of such calls keep the scheduler steady, so only runnable tasks are dispatched. -/

namespace Kerneloid.Tcb.Dispatch

open Lib.Linked Lib.Runs Types ListSched States Simulation Runqueue Handover
open Calls
open Ops hiding ensureQueued pickReady tickWake tickTasks step

variable {s : Kernel}

variable {a b d : ListSched}

/-- **The calls that dispatch by the state of the task.** When the current task leaves the runqueue,
the first task left is ready, or the idle task is freed as the last one; when it blocks, another
task is ready; without a current task there is a ready task to pick, or none and no idle task. -/
def Safe (a : ListSched) : Op → Bool
  | .create _ _ _ _ => true
  | .tick => true
  | .unblock _ => true
  | .yield => true
  | .exit =>
    match a.current with
    | none => true
    | some c => firstReady a (a.queue.erase c)
  | .free x =>
    a.current ≠ some x ∨ firstReady a (a.queue.erase x) ∨ (a.queue.erase x = [] ∧ a.idle = some x)
  | .block x => a.current ≠ some x ∨ someReady a (a.queue.erase x)
  | .sleep ms =>
    match a.current with
    | none => true
    | some c => ms = 0 ∨ someReady a (a.queue.erase c)
  | .schedule =>
    a.current ≠ none ∨ someReady a a.queue ∨
      (a.queue ≠ [] ∧ a.idle.all fun i => a.state i = .free)
  | .allocate => false
  | .addTask _ => false
  | .removeTask _ => false
  | .start => false

/-! ### Runs -/

/-- The runqueue as it is met from its head. -/
def queueOf (s : Kernel) : List Slot :=
  (fold s.queue.next (fun l x => l ++ [x]) 256 s.queue.head []).getD []

def DispatchSafe (s : Kernel) (op : Op) : Prop := Safe (s.withQueue (queueOf s)) op = true

instance (s : Kernel) (op : Op) : Decidable (DispatchSafe s op) :=
  inferInstanceAs (Decidable (_ = _))

/-- The states a call passes through on its way. `tcb_create` sets up a block, `tcb_block` and
`tcb_sleep` block the task, and `tcb_exit` makes the task a zombie and takes it off the runqueue
before the scheduler is called. -/
def between (s : Kernel) : Op → List (Option Kernel)
  | .create _ _ _ _ => [some (tcbAllocate s).1]
  | .block x => [some (tcbSetState s x .blocked)]
  | .sleep ms =>
    match s.current with
    | none => []
    | some c =>
      if ms = 0 then [] else [some (s.modify c (sleepTask ((s.ticks + ticksToSleep ms) % 2 ^ 64)))]
  | .exit =>
    match s.current with
    | none => []
    | some c =>
      [some (tcbSetState s c .zombie), schedulerRemoveTask (tcbSetState s c .zombie) c]
  | _ => []

/-- The code returned, and every task that runs now was ready or running before. -/
def Dispatches (r r' : Option Kernel) : Prop := ∃ s s', r = some s ∧ r' = some s' ∧ Calm s s'

theorem queueOf_eq (hr : Rep s a) : queueOf s = a.queue := by
  unfold queueOf
  rw [hr.links.path.fold _ _ (length_le hr.links.nodup)]
  have : ∀ l acc : List Slot, l.foldl (fun l x => l ++ [x]) acc = acc ++ l := by
    intro l
    induction l with
    | nil => simp
    | cons x l ih => simp [ih]
  simp [this]

theorem listed_eq (hr : Rep s a) : s.withQueue (queueOf s) = a := by
  unfold Sched.withQueue
  rw [queueOf_eq hr, hr.task, hr.nextTid, hr.current, hr.ticks, hr.initialized, hr.idle]

theorem calm_of_rep {s' : Kernel} (hr : Rep s a) (hr' : Rep s' b) (h : Calm a b) :
    Dispatches (some s) (some s') := by
  refine ⟨s, s', rfl, rfl, ?_⟩
  intro x hx
  rw [hr'.state] at hx
  rw [runnable_congr (hr.state x)]
  exact h x hx

theorem chain_single {r : Option Kernel} (hr : Rep s a) (hb : Returns r b)
    (h : Calm a b) : List.IsChain Dispatches [some s, r] := by
  obtain ⟨s', rfl, hr'⟩ := hb
  exact List.isChain_cons_cons.mpr ⟨calm_of_rep hr hr' h, List.isChain_singleton _⟩

theorem chain_two {m : Kernel} {r : Option Kernel} (hr : Rep s a) (hm : Rep m b) (hd : Returns r d)
    (h : Calm a b) (h' : Calm b d) : List.IsChain Dispatches [some s, some m, r] :=
  List.isChain_cons_cons.mpr ⟨calm_of_rep hr hm h, chain_single hm hd h'⟩

theorem sleep_dispatches {ms : ℕ} (hr : Rep s a) (h : Steady a)
    (hret : Returns (Ops.step s (.sleep ms)) (ListSched.step a (.sleep ms)))
    (hok : Safe a (.sleep ms) = true) :
    List.IsChain Dispatches (some s :: between s (.sleep ms) ++ [Ops.step s (.sleep ms)]) ∧
      Steady (ListSched.step a (.sleep ms)) := by
  have hinit := h.sound.initialized
  have hstep : ListSched.step a (.sleep ms) = ListSched.sleep a ms := rfl
  unfold between
  rw [hr.current]
  cases hc : a.current with
  | none =>
    rw [hstep, sleep_none hc] at hret ⊢
    exact ⟨chain_single hr hret fun x hx => runnable_of_running hx, h⟩
  | some c =>
    dsimp only
    by_cases hms : ms = 0
    · subst hms
      obtain ⟨hcalm, hs⟩ := yield_steady h
      rw [hstep, sleep_zero hinit hc] at hret ⊢
      rw [if_pos rfl]
      exact ⟨chain_single hr hret hcalm, hs⟩
    · simp only [Safe, hc, hms, false_or, decide_eq_true_eq] at hok
      obtain ⟨hq, hcalm, hs⟩ := suspend_steady h hc
        (f := sleepTask ((a.ticks + ticksToSleep ms) % 2 ^ 64)) rfl hok
      rw [hstep, sleep_some hinit hc hms] at hret ⊢
      rw [if_neg hms, hr.ticks]
      exact ⟨chain_two hr (hr.modify c _) hret hq.calm hcalm, hs⟩

theorem exit_dispatches (hr : Rep s a) (h : Steady a)
    (hret : Returns (Ops.step s .exit) (ListSched.step a .exit)) (hok : Safe a .exit = true) :
    List.IsChain Dispatches (some s :: between s .exit ++ [Ops.step s .exit]) ∧
      Steady (ListSched.step a .exit) := by
  unfold between
  rw [hr.current]
  cases hc : a.current with
  | none =>
    have hexit : ListSched.step a .exit = a := by
      unfold ListSched.step ListSched.exit
      rw [hc]
    rw [hexit] at hret ⊢
    exact ⟨chain_single hr hret fun x hx => runnable_of_running hx, h⟩
  | some c =>
    simp only [Safe, hc] at hok
    obtain ⟨hq, hleave, hcalm, hs⟩ := exit_steady h hc hok
    obtain ⟨m, hm, hrm⟩ := removeTask_returns (hr.setState c .zombie) c
    refine ⟨?_, hs⟩
    dsimp only
    rw [hm]
    exact List.isChain_cons_cons.mpr ⟨calm_of_rep hr (hr.setState c .zombie) hq.calm,
      chain_two (hr.setState c .zombie) hrm hret hleave hcalm⟩

/-- A call that dispatches by the state of the task keeps the invariant, and every task it lets run
was runnable. -/
theorem step_steady {op : Op} (hr : Rep s a) (h : Steady a) (hok : Safe a op = true) :
    List.IsChain Dispatches (some s :: between s op ++ [Ops.step s op]) ∧
      Steady (ListSched.step a op) := by
  have hret := step_returns hr h.sound.noneFree op
  cases op with
  | allocate => cases hok
  | addTask x => cases hok
  | removeTask x => cases hok
  | start => cases hok
  | create entry arg priority stack =>
    obtain ⟨hq, hcalm, hs⟩ := create_steady h entry arg priority stack
    exact ⟨chain_two hr (allocate_rep hr h.sound.noneFree).2 hret hq.calm hcalm, hs⟩
  | tick =>
    obtain ⟨hq, hs⟩ := tick_steady h
    exact ⟨chain_single hr hret hq.calm, hs⟩
  | unblock x =>
    obtain ⟨hq, hs⟩ := unblock_steady h x
    exact ⟨chain_single hr hret hq.calm, hs⟩
  | yield =>
    obtain ⟨hcalm, hs⟩ := yield_steady h
    exact ⟨chain_single hr hret hcalm, hs⟩
  | schedule =>
    obtain ⟨hcalm, hs⟩ := schedule_calm h (of_decide_eq_true hok)
    exact ⟨chain_single hr hret hcalm, hs⟩
  | free x =>
    obtain ⟨hcalm, hs⟩ := free_steady h (of_decide_eq_true hok)
    exact ⟨chain_single hr hret hcalm, hs⟩
  | block x =>
    obtain ⟨hq, hcalm, hs⟩ := block_steady h (of_decide_eq_true hok)
    exact ⟨chain_two hr (hr.setState x .blocked) hret hq.calm hcalm, hs⟩
  | sleep ms => exact sleep_dispatches hr h hret hok
  | exit => exact exit_dispatches hr h hret hok

theorem init_steady (entry stack : ℕ) : Steady (ListSched.init entry stack) := by
  obtain ⟨hq, hc, -, -, hrun, hother⟩ := init_spec entry stack
  have hzero : ∀ y, runnable (ListSched.init entry stack) y = true → y = 0 := by
    intro y hy
    by_contra e
    simp [runnable, Sched.state, hother y e, initTask] at hy
  refine ⟨init_sound entry stack, ?_, ?_, ?_⟩
  · intro y hy
    rw [hzero y (runnable_of_running hy)]
    exact hc
  · intro c hc'
    rw [hc, Option.some.injEq] at hc'
    subst hc'
    exact ⟨by rw [hq]; simp, hrun⟩
  · intro y hy
    rw [hzero y hy, hq]
    simp

/-- **Only runnable tasks are dispatched**, in every run of calls that dispatch by the state of the
task: in each step of such a call, every task that runs was ready or running just before. -/
theorem dispatch_runnable (entry stack : ℕ) {st : Option Kernel}
    (h : Reach (Lifted DispatchSafe) (lift Ops.step) (schedulerInit entry stack) st) :
    ∃ s, st = some s ∧ ∀ op, DispatchSafe s op →
      List.IsChain Dispatches (some s :: between s op ++ [Ops.step s op]) := by
  have hkept : ∃ s, st = some s ∧ ∃ a, Rep s a ∧ Steady a := by
    refine h.returns (I := fun s => ∃ a, Rep s a ∧ Steady a) ?_ ?_
    · obtain ⟨s, hs, hr⟩ := init_returns entry stack
      exact ⟨s, hs, _, hr, init_steady entry stack⟩
    · rintro s op ⟨a, hr, ha⟩ hok
      unfold DispatchSafe at hok
      rw [listed_eq hr] at hok
      obtain ⟨s', hs', hr'⟩ := step_returns hr ha.sound.noneFree op
      exact ⟨s', hs', _, hr', (step_steady hr ha hok).2⟩
  obtain ⟨s, rfl, a, hr, ha⟩ := hkept
  refine ⟨s, rfl, ?_⟩
  intro op hok
  unfold DispatchSafe at hok
  rw [listed_eq hr] at hok
  exact (step_steady hr ha hok).1

/-- Two tasks are created; the idle task sleeps and is woken, the first task exits, and the idle
task is freed. -/
def calmRun : List Op :=
  [.create 1 0 5 0x500000, .create 1 0 10 0x502000, .sleep 20, .tick, .tick, .yield, .free 0,
    .block 1, .unblock 1, .schedule, .exit]

theorem dispatch_runnable_calm :
    Admits (Lifted DispatchSafe) (lift Ops.step) (schedulerInit 1 0x400000) calmRun ∧
      ∃ s, calmRun.foldl (lift Ops.step) (schedulerInit 1 0x400000) = some s ∧
        ∀ op, DispatchSafe s op →
          List.IsChain Dispatches (some s :: between s op ++ [Ops.step s op]) :=
  have hadmits :
      Admits (Lifted DispatchSafe) (lift Ops.step) (schedulerInit 1 0x400000) calmRun := by
    decide +kernel
  ⟨hadmits, dispatch_runnable 1 0x400000 (Reach.foldl calmRun .init hadmits)⟩

/-- A task is created and blocked, and then the idle task is freed. -/
def killIdle : List Op := [.create 1 0 5 0x500000, .block 1]

/-- **A blocked task is dispatched**: it is first on the runqueue when the idle task is freed. -/
theorem blocked_dispatched :
    ∃ s s', killIdle.foldl (lift Ops.step) (schedulerInit 1 0x400000) = some s ∧
      s.state 1 = .blocked ∧ Ops.step s (.free 0) = some s' ∧ s'.state 1 = .running := by
  refine ⟨_, _, rfl, ?_, rfl, ?_⟩ <;> decide +kernel

end Kerneloid.Tcb.Dispatch