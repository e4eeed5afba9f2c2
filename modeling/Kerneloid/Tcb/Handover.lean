import Kerneloid.Tcb.RoundRobin

/-! # Handing the processor on

A scheduler is steady (`Steady`) when the current task is on the runqueue and is the one that runs,
and every runnable task is on the runqueue. When the current task stops, no task runs (`Waiting`);
when a ready task is then handed the processor, the scheduler is steady again, and no task began to
run that was not runnable (`Calm`). -/

namespace Kerneloid.Tcb.Handover

open Types ListSched States Simulation Runqueue RoundRobin
open Ops hiding ensureQueued pickReady tickWake tickTasks step

variable {a b : ListSched} {c n x y : Slot} {f : Task → Task}

def firstReady (a : ListSched) (l : List Slot) : Bool := l.head?.any fun h => a.state h = .ready

def someReady (a : ListSched) (l : List Slot) : Bool := l.any fun y => a.state y = .ready

/-- Every task that runs afterwards was runnable before. -/
def Calm {Q : Type} (s t : Sched Q) : Prop := ∀ x, t.state x = .running → runnable s x = true

/-- No task runs, and the runnable tasks are on the runqueue. -/
structure Waiting (a : ListSched) : Prop where
  sound : Sound a
  idle : ∀ x, a.state x ≠ .running
  queued : ∀ y, runnable a y = true → y ∈ a.queue

/-- **The invariant**: the current task is on the runqueue and is the one that runs, and the
runnable tasks are on the runqueue. -/
structure Steady (a : ListSched) : Prop where
  sound : Sound a
  single : Single a
  current : ∀ c, a.current = some c → c ∈ a.queue ∧ a.state c = .running
  queued : ∀ y, runnable a y = true → y ∈ a.queue

theorem Steady.only (h : Steady a) (hc : a.current = some c) (hx : a.state x = .running) :
    x = c := by
  have := (h.single x hx).symm.trans hc
  exact Option.some.inj this

theorem Steady.running (h : Steady a) (hc : a.current = some c) : Running a c :=
  ⟨h.sound.initialized, h.sound.nodup, hc, (h.current c hc).1, (h.current c hc).2,
    fun _ _ hx => h.only hc hx⟩

theorem runnable_of_ready (h : a.state x = .ready) : runnable a x = true := by simp [runnable, h]

theorem runnable_of_running (h : a.state x = .running) : runnable a x = true := by
  simp [runnable, h]

theorem Waiting.congr (h : Waiting a) (hst : ∀ y, b.state y = a.state y)
    (hq : b.queue.Perm a.queue) (hi : b.initialized = a.initialized) : Waiting b := by
  refine ⟨⟨hi.trans h.sound.initialized, hq.nodup_iff.mpr h.sound.nodup, ?_⟩, ?_, ?_⟩
  · intro y hy
    rw [hst]
    exact h.sound.noneFree y (hq.mem_iff.mp hy)
  · intro y
    rw [hst]
    exact h.idle y
  · intro y hy
    rw [runnable_congr (hst y)] at hy
    exact hq.mem_iff.mpr (h.queued y hy)

theorem Waiting.steady (h : Waiting a) (hc : a.current = none) : Steady a := by
  refine ⟨h.sound, fun x hx => absurd hx (h.idle x), ?_, h.queued⟩
  intro c hc'
  rw [hc] at hc'
  cases hc'

theorem Waiting.of_none (h : Steady a) (hc : a.current = none) : Waiting a := by
  refine ⟨h.sound, ?_, h.queued⟩
  intro x hx
  have := h.single x hx
  rw [hc] at this
  cases this

/-! ### The processor is handed to a ready task -/

theorem Waiting.only (h : Waiting a) (hto : Handed a b n) (hx : b.state x = .running) : x = n := by
  rw [hto.state] at hx
  split_ifs at hx with e
  · exact e
  · exact absurd hx (h.idle x)

theorem Waiting.calm (h : Waiting a) (hto : Handed a b n) (hn : a.state n = .ready) : Calm a b := by
  intro x hx
  rw [h.only hto hx]
  exact runnable_of_ready hn

theorem Waiting.hand (h : Waiting a) (hto : Handed a b n) (hn : a.state n = .ready) : Steady b := by
  have hnq : n ∈ b.queue := hto.queue ▸ h.queued n (runnable_of_ready hn)
  refine ⟨⟨hto.initialized.trans h.sound.initialized, hto.queue ▸ h.sound.nodup, ?_⟩, ?_, ?_, ?_⟩
  · intro y hy
    rw [hto.queue] at hy
    rw [hto.state]
    split_ifs
    · simp
    · exact h.sound.noneFree y hy
  · intro x hx
    rw [h.only hto hx]
    exact hto.current
  · intro c hc
    rw [hto.current, Option.some.injEq] at hc
    subst hc
    exact ⟨hnq, by rw [hto.state, if_pos rfl]⟩
  · intro y hy
    by_cases hyn : y = n
    · rw [hyn]
      exact hnq
    · have hst : b.state y = a.state y := by rw [hto.state, if_neg hyn]
      rw [runnable_congr hst] at hy
      rw [hto.queue]
      exact h.queued y hy

theorem Steady.stop (h : Steady a) (hc : a.current = some c)
    (hrun : (f (a.task c)).state ≠ .running)
    (hfree : (f (a.task c)).state ≠ .free) : Waiting (a.modify c f) := by
  have hr := h.running hc
  refine ⟨⟨h.sound.initialized, h.sound.nodup, ?_⟩, ?_, ?_⟩
  · exact h.sound.noneFree.grows (Grows.modify a c fun _ => hfree)
  · intro x hx
    rw [state_modify] at hx
    split_ifs at hx with e
    · exact hrun hx
    · exact e (h.only hc hx)
  · intro y hy
    by_cases e : y = c
    · rw [e]
      exact hr.mem
    · have hst : (a.modify c f).state y = a.state y := by rw [state_modify, if_neg e]
      rw [runnable_congr hst] at hy
      exact h.queued y hy

/-! ### `scheduler_schedule` -/

theorem mem_turn {l : List Slot} : y ∈ turn l c ↔ y ∈ l := by
  by_cases hc : c ∈ l
  · obtain ⟨l₁, l₂, rfl, hc₁⟩ := List.eq_append_cons_of_mem hc
    rw [turn_split hc₁]
    simp only [List.mem_append, List.mem_cons, List.not_mem_nil, or_false]
    tauto
  · unfold turn
    rw [if_neg hc]

theorem mem_pickOrder : y ∈ pickOrder a ↔ y ∈ a.queue := by
  unfold pickOrder
  cases a.current with
  | none => exact Iff.rfl
  | some c => exact mem_turn

theorem pickReady_found (h : someReady a a.queue = true) :
    ∃ n, a.state n = .ready ∧ ListSched.pickReady a = (a, some n) := by
  unfold someReady at h
  rw [List.any_eq_true] at h
  obtain ⟨y, hy, hready⟩ := h
  cases hfind : (pickOrder a).find? fun it => decide (a.state it = .ready) with
  | none =>
    rw [List.find?_eq_none] at hfind
    exact absurd hready (hfind y (mem_pickOrder.mpr hy))
  | some n =>
    refine ⟨n, by simpa using List.find?_some hfind, ?_⟩
    unfold ListSched.pickReady
    rw [hfind]

theorem schedule_waiting (h : Waiting a) (hready : someReady a a.queue = true) :
    ∃ n, a.state n = .ready ∧ Handed a (schedule a) n := by
  obtain ⟨n, hn, hpick⟩ := pickReady_found hready
  have hne : a.queue ≠ [] := by
    intro e
    simp [someReady, e] at hready
  refine ⟨n, hn, ?_⟩
  have hinit : a.initialized ≠ false := by rw [h.sound.initialized]; simp
  unfold schedule
  rw [if_neg hinit]
  cases hc : a.current with
  | none =>
    have hnext : pickNext a = (a, some n) := by
      unfold pickNext
      rw [if_neg hne, hc]
      exact hpick
    dsimp only
    rw [hnext]
    exact dispatch_handed a n
  | some c =>
    have hrun := h.idle c
    have hexp : expire a c = a := if_neg fun e => hrun e.1
    have hkeep : ¬ keepsRunning a c := fun e => hrun e.1
    have hnext : pickNext a = (a, some n) := by
      unfold pickNext
      rw [if_neg hne, hc]
      dsimp only
      rw [if_neg hkeep]
      exact hpick
    dsimp only
    rw [hexp, hnext]
    exact switchTo_handed hrun hc n

theorem schedule_keeps (h : Running a c) (hslice : 0 < (a.task c).timeSlice) :
    ∃ n, (tcbSetState a c .ready).state n = .ready ∧
      Handed (tcbSetState a c .ready) (schedule a) n := by
  have hinit : a.initialized ≠ false := by rw [h.initialized]; simp
  have hexp : expire a c = a := if_neg fun e => by omega
  have hnext : pickNext a = (a, some ((a.queue.find? (preempts a c)).getD c)) := by
    unfold pickNext
    rw [if_neg (List.ne_nil_of_mem h.mem), h.current]
    exact if_pos ⟨h.running, hslice⟩
  have hsched : schedule a = switchTo a c ((a.queue.find? (preempts a c)).getD c) := by
    unfold schedule
    rw [if_neg hinit, h.current]
    dsimp only
    rw [hexp, hnext]
  rw [hsched]
  cases hfind : a.queue.find? (preempts a c) with
  | none =>
    refine ⟨c, by rw [state_setState, if_pos rfl], ?_⟩
    unfold switchTo
    rw [Option.getD_none, if_pos rfl, if_pos h.running]
    refine ⟨rfl, h.current, rfl, ?_⟩
    intro x
    rw [state_setState]
    split_ifs with e
    · rw [e, h.running]
    · rfl
  | some n =>
    have hp := List.find?_some hfind
    simp only [preempts, decide_eq_true_eq] at hp
    refine ⟨n, by rw [state_setState, if_neg hp.1, hp.2.1], ?_⟩
    unfold switchTo
    rw [Option.getD_some, if_neg hp.1, if_pos h.running]
    exact dispatch_handed _ n

theorem modify_self_eq (hf : f (a.task c) = a.task c) : a.modify c f = a := by
  unfold Sched.modify
  rw [hf, Function.update_eq_self]

theorem stepBack_waiting (h : Steady a) (hc : a.current = some c) : Waiting (stepBack a c) := by
  have hr := h.running hc
  have hstop := h.stop (f := expireTask) hc (by simp [expireTask]) (by simp [expireTask])
  refine hstop.congr ?_ ?_ (stepBack_fixed a c).2
  · intro x
    rw [stepBack_state hr, state_modify]
    rfl
  · rw [stepBack_queue hr]
    exact perm_back hr

theorem runnable_back (h : Running a c) (hb : ∀ x, b.state x = if x = c then .ready else a.state x)
    (x : Slot) : runnable b x = runnable a x := by
  unfold runnable
  rw [hb]
  split_ifs with e
  · simp [e, h.running]
  · rfl

theorem schedule_steady (h : Steady a) (hc : a.current = some c) :
    Calm a (schedule a) ∧ Steady (schedule a) := by
  have hr := h.running hc
  by_cases hslice : (a.task c).timeSlice = 0
  · have hw := stepBack_waiting h hc
    obtain ⟨n, hn, hto⟩ := schedule_back hr
    rw [modify_self_eq (by rw [← hslice])] at hto
    have hready : (stepBack a c).state n = .ready := by
      have hmem : n ∈ (a.queue.erase c ++ [c]).filter (runnable a) := by
        rw [filter_back hr]
        exact List.mem_of_head? hn
      obtain ⟨hq, hrun⟩ := List.mem_filter.mp hmem
      rw [← stepBack_ready hr ((perm_back hr).mem_iff.mp hq)] at hrun
      exact of_decide_eq_true hrun
    refine ⟨?_, hw.hand hto hready⟩
    intro x hx
    rw [← runnable_back hr (stepBack_state hr)]
    exact hw.calm hto hready x hx
  · have hw : Waiting (tcbSetState a c .ready) := h.stop hc (by simp) (by simp)
    obtain ⟨n, hn, hto⟩ := schedule_keeps hr (by omega)
    refine ⟨?_, hw.hand hto hn⟩
    intro x hx
    rw [← runnable_back hr (state_setState a c · .ready)]
    exact hw.calm hto hn x hx

/-! ### Calls that do not hand the processor on -/

/-- No task begins to run. -/
def Quiet (a b : ListSched) : Prop := ∀ y, b.state y = .running → a.state y = .running

theorem Quiet.calm (h : Quiet a b) : Calm a b := fun x hx => runnable_of_running (h x hx)

theorem Steady.same (h : Steady a) (hst : ∀ y, b.state y = a.state y) (hq : b.queue = a.queue)
    (hc : b.current = a.current) (hi : b.initialized = a.initialized) : Quiet a b ∧ Steady b := by
  refine ⟨fun y hy => (hst y).symm.trans hy,
    ⟨hi.trans h.sound.initialized, hq ▸ h.sound.nodup, ?_⟩, ?_, ?_, ?_⟩
  · intro y hy
    rw [hst]
    exact h.sound.noneFree y (hq ▸ hy)
  · intro y hy
    rw [hc]
    exact h.single y ((hst y).symm.trans hy)
  · intro c hc'
    rw [hq, hst]
    exact h.current c (hc ▸ hc')
  · intro y hy
    rw [runnable_congr (hst y)] at hy
    exact hq ▸ h.queued y hy

/-- The call changes one task, which is not the current one, and its place on the runqueue. -/
structure Apart (a b : ListSched) (x : Slot) : Prop where
  state : ∀ y ≠ x, b.state y = a.state y
  queue : ∀ y ≠ x, y ∈ b.queue ↔ y ∈ a.queue
  nodup : b.queue.Nodup
  current : b.current = a.current
  initialized : b.initialized = a.initialized
  idle : b.state x ≠ .running
  used : x ∈ b.queue → b.state x ≠ .free
  queued : b.state x = .ready → x ∈ b.queue

theorem Steady.apart (h : Steady a) (hx : a.current ≠ some x) (hb : Apart a b x) :
    Quiet a b ∧ Steady b := by
  have hne : ∀ y, b.state y = .running → y ≠ x := by
    rintro y hy rfl
    exact hb.idle hy
  have hquiet : Quiet a b := fun y hy => (hb.state y (hne y hy)).symm.trans hy
  refine ⟨hquiet, ⟨hb.initialized.trans h.sound.initialized, hb.nodup, ?_⟩, ?_, ?_, ?_⟩
  · intro y hy
    by_cases e : y = x
    · subst e
      exact hb.used hy
    · rw [hb.state y e]
      exact h.sound.noneFree y ((hb.queue y e).mp hy)
  · intro y hy
    rw [hb.current]
    exact h.single y (hquiet y hy)
  · intro c hc
    rw [hb.current] at hc
    have e : c ≠ x := by
      rintro rfl
      exact hx hc
    rw [hb.queue c e, hb.state c e]
    exact h.current c hc
  · intro y hy
    by_cases e : y = x
    · subst e
      simp only [runnable, decide_eq_true_eq] at hy
      exact hb.queued (hy.resolve_right hb.idle)
    · rw [runnable_congr (hb.state y e)] at hy
      exact (hb.queue y e).mpr (h.queued y hy)

theorem Steady.leave (h : Steady a) (hc : a.current = some c)
    (hf : (f (a.task c)).state ≠ .running ∧ (f (a.task c)).state ≠ .ready) :
    Waiting ({ a with queue := a.queue.erase c }.modify c f) := by
  have hr := h.running hc
  have hst := state_modify { a with queue := a.queue.erase c } c (f := f)
  refine ⟨⟨h.sound.initialized, h.sound.nodup.erase c, ?_⟩, ?_, ?_⟩
  · intro y hy
    obtain ⟨hyc, hyq⟩ := h.sound.nodup.mem_erase_iff.mp hy
    rw [hst, if_neg hyc]
    exact h.sound.noneFree y hyq
  · intro x hx
    rw [hst] at hx
    split_ifs at hx with e
    · exact hf.1 hx
    · exact e (h.only hc hx)
  · intro y hy
    unfold runnable at hy
    rw [hst] at hy
    split_ifs at hy with e
    · simp [hf.1, hf.2] at hy
    · exact h.sound.nodup.mem_erase_iff.mpr ⟨e, h.queued y hy⟩

end Kerneloid.Tcb.Handover
