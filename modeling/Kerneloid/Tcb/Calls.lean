import Kerneloid.Tcb.Handover

/-! # The calls of a steady scheduler

What each call does to a steady scheduler, for the calls that dispatch by the state of the task: the
scheduler is steady afterwards, and the tasks that begin to run were runnable. -/

namespace Kerneloid.Tcb.Calls

open Types ListSched States Simulation RoundRobin Handover
open Ops hiding ensureQueued pickReady tickWake tickTasks step

variable {l : List Slot}

variable {a b d : ListSched} {c i n x y : Slot} {f : Task → Task}

theorem wake_apart (h : Steady a) (hf : (f (a.task x)).state = .ready) :
    Apart a (ListSched.ensureQueued (a.modify x f) x) x := by
  have hready : (a.modify x f).state x = .ready := by rw [state_modify, if_pos rfl, hf]
  unfold ListSched.ensureQueued
  split_ifs with hx
  · refine ⟨fun y hy => by rw [state_modify, if_neg hy], fun y _ => Iff.rfl, h.sound.nodup, rfl,
      rfl, by rw [hready]; simp, fun _ => by rw [hready]; simp, fun _ => hx⟩
  · refine ⟨?_, ?_, ?_, rfl, rfl, ?_, ?_, ?_⟩
    · intro y hy
      exact (state_modify a x y f).trans (if_neg hy)
    · intro y hy
      simp [hy]
    · exact List.nodup_append_comm.mp (List.nodup_cons.mpr ⟨hx, h.sound.nodup⟩)
    · intro e
      rw [hready] at e
      cases e
    · intro _ e
      rw [hready] at e
      cases e
    · intro _
      simp

theorem unblock_steady (h : Steady a) (x : Slot) :
    Quiet a (ListSched.unblock a x) ∧ Steady (ListSched.unblock a x) := by
  unfold ListSched.unblock
  split_ifs with hx
  · exact ⟨fun _ hy => hy, h⟩
  · refine h.apart ?_ (wake_apart h rfl)
    intro hc
    have := (h.current x hc).2
    simp [this] at hx

theorem tickWake_steady (h : Steady a) (x : Slot) :
    Quiet a (ListSched.tickWake a x) ∧ Steady (ListSched.tickWake a x) := by
  unfold ListSched.tickWake
  split_ifs with hx
  · refine h.apart ?_ (wake_apart h rfl)
    intro hc
    have hrun := (h.current x hc).2
    have hb : a.state x = .blocked := hx.1
    rw [hb] at hrun
    cases hrun
  · exact ⟨fun _ hy => hy, h⟩

theorem tickWakes_steady (xs : List Slot) :
    ∀ {a : ListSched}, Steady a →
      Quiet a (xs.foldl ListSched.tickWake a) ∧ Steady (xs.foldl ListSched.tickWake a) := by
  induction xs with
  | nil => exact fun h => ⟨fun _ hy => hy, h⟩
  | cons x xs ih =>
    intro a h
    obtain ⟨hq, hs⟩ := tickWake_steady h x
    obtain ⟨hq', hs'⟩ := ih hs
    exact ⟨fun y hy => hq y (hq' y hy), hs'⟩

theorem tick_steady (h : Steady a) : Quiet a (tick a) ∧ Steady (tick a) := by
  have hclock := (h.same (b := { a with ticks := (a.ticks + 1) % 2 ^ 64 })
    (fun _ => rfl) rfl rfl rfl).2
  unfold tick ListSched.tickTasks
  split_ifs
  · exact ⟨fun _ hy => hy, hclock⟩
  · split
    · exact ⟨fun _ hy => hy, hclock⟩
    · rename_i c _
      have hst : ∀ y, (({ a with ticks := (a.ticks + 1) % 2 ^ 64 } : ListSched).modify c
          tickTask).state y = a.state y := by
        intro y
        exact state_modify_same _ c y rfl
      obtain ⟨hq, hs⟩ := h.same hst rfl rfl rfl
      obtain ⟨hq', hs'⟩ := tickWakes_steady (List.finRange 256) hs
      exact ⟨fun y hy => hq y (hq' y hy), hs'⟩

/-! ### Blocking and yielding -/

theorem someReady_erase (h : someReady a (l.erase c) = true)
    (hn : l.Nodup) (hb : ∀ y ≠ c, b.state y = a.state y) : someReady b l = true := by
  unfold someReady at h ⊢
  rw [List.any_eq_true] at h ⊢
  obtain ⟨y, hy, hready⟩ := h
  rw [hn.mem_erase_iff] at hy
  exact ⟨y, hy.2, by rw [hb y hy.1]; exact hready⟩

theorem suspend_steady (h : Steady a) (hc : a.current = some c)
    (hf : (f (a.task c)).state = .blocked) (hready : someReady a (a.queue.erase c) = true) :
    Quiet a (a.modify c f) ∧ Calm (a.modify c f) (schedule (a.modify c f)) ∧
      Steady (schedule (a.modify c f)) := by
  have hw : Waiting (a.modify c f) := h.stop hc (by rw [hf]; simp) (by rw [hf]; simp)
  have hother : ∀ y ≠ c, (a.modify c f).state y = a.state y := by
    intro y hy
    rw [state_modify, if_neg hy]
  obtain ⟨n, hn, hto⟩ :=
    schedule_waiting hw (someReady_erase hready h.sound.nodup hother)
  exact ⟨fun y hy => absurd hy (hw.idle y), hw.calm hto hn, hw.hand hto hn⟩

theorem block_other (h : Steady a) (hx : a.current ≠ some x) :
    Quiet a (tcbSetState a x .blocked) ∧
      Quiet (tcbSetState a x .blocked) (ListSched.block a x) ∧ Steady (ListSched.block a x) := by
  have hb : Apart a (tcbSetState a x .blocked) x := by
    have hst : (tcbSetState a x .blocked).state x = .blocked := by rw [state_setState, if_pos rfl]
    refine ⟨fun y hy => by rw [state_setState, if_neg hy], fun _ _ => Iff.rfl, h.sound.nodup, rfl,
      rfl, by rw [hst]; simp, fun _ => by rw [hst]; simp, ?_⟩
    intro e
    rw [hst] at e
    cases e
  obtain ⟨hq, hs⟩ := h.apart hx hb
  refine ⟨hq, ?_⟩
  unfold ListSched.block
  dsimp only
  rw [if_neg (show (tcbSetState a x .blocked).current ≠ some x from hx)]
  refine hs.same ?_ rfl rfl rfl
  intro y
  exact state_modify_same _ x y rfl

theorem yield_steady (h : Steady a) : Calm a (ListSched.yield a) ∧ Steady (ListSched.yield a) := by
  cases hc : a.current with
  | none =>
    unfold ListSched.yield
    rw [hc]
    exact ⟨fun x hx => runnable_of_running hx, h⟩
  | some c =>
    rw [yield_eq (h.running hc)]
    have hst : ∀ y, (a.modify c fun t => { t with timeSlice := 0 }).state y = a.state y := by
      intro y
      exact state_modify_same a c y rfl
    obtain ⟨-, hs⟩ := h.same hst rfl rfl rfl
    obtain ⟨hcalm, hs'⟩ := schedule_steady hs hc
    refine ⟨?_, hs'⟩
    intro x hx
    rw [← runnable_congr (hst x)]
    exact hcalm x hx

theorem schedule_none (h : Steady a) (hc : a.current = none)
    (hsafe : someReady a a.queue = true ∨ (a.queue ≠ [] ∧ (a.idle.all fun i => a.state i = .free) =
      true)) :
    Calm a (schedule a) ∧ Steady (schedule a) := by
  have hw := Waiting.of_none h hc
  by_cases hready : someReady a a.queue = true
  · obtain ⟨n, hn, hto⟩ := schedule_waiting hw hready
    exact ⟨hw.calm hto hn, hw.hand hto hn⟩
  · -- no task is ready and the idle task is gone: nothing is dispatched
    obtain ⟨hne, hidle⟩ := hsafe.resolve_left hready
    have hfind : (pickOrder a).find? (fun it => decide (a.state it = .ready)) = none := by
      rw [List.find?_eq_none]
      intro y hy e
      exact hready (List.any_eq_true.mpr ⟨y, mem_pickOrder.mp hy, e⟩)
    have hpick : pickIdle a = (a, none) := by
      unfold pickIdle
      cases hi : a.idle with
      | none => rw [hc]
      | some i =>
        rw [hi] at hidle
        dsimp only
        rw [if_pos (by simpa using hidle), hc]
    have hnext : pickNext a = (a, none) := by
      unfold pickNext ListSched.pickReady
      rw [if_neg hne, hc, hfind]
      exact hpick
    have hsched : schedule a = { a with current := none } := by
      unfold schedule
      rw [if_neg (by rw [h.sound.initialized]; simp), hc]
      dsimp only
      rw [hnext]
    rw [hsched]
    have hw' : Waiting { a with current := none } := hw.congr (fun _ => rfl) (.refl _) rfl
    exact ⟨fun x hx => absurd hx (hw.idle x), hw'.steady rfl⟩

/-- `scheduler_schedule` when a task runs, or a ready one can be picked, or no one is left to fall
back on. -/
theorem schedule_calm (h : Steady a)
    (hsafe : a.current ≠ none ∨ someReady a a.queue = true ∨ (a.queue ≠ [] ∧ (a.idle.all fun i =>
      a.state i = .free) = true)) :
    Calm a (schedule a) ∧ Steady (schedule a) := by
  cases hc : a.current with
  | none => exact schedule_none h hc (hsafe.resolve_left (not_not.mpr hc))
  | some c => exact schedule_steady h hc

theorem block_steady (h : Steady a)
    (hsafe : a.current ≠ some x ∨ someReady a (a.queue.erase x) = true) :
    Quiet a (tcbSetState a x .blocked) ∧
      Calm (tcbSetState a x .blocked) (ListSched.block a x) ∧ Steady (ListSched.block a x) := by
  by_cases hx : a.current = some x
  · have hblock : ListSched.block a x = schedule (tcbSetState a x .blocked) := if_pos hx
    rw [hblock]
    exact suspend_steady (f := fun t => { t with state := .blocked }) h hx rfl
      (hsafe.resolve_left (not_not.mpr hx))
  · obtain ⟨hq, hq', hs⟩ := block_other h hx
    exact ⟨hq, hq'.calm, hs⟩

theorem sleep_none (hc : a.current = none) (ms : ℕ) : ListSched.sleep a ms = a := by
  unfold ListSched.sleep
  rw [hc]

theorem sleep_zero (hi : a.initialized = true) (hc : a.current = some c) :
    ListSched.sleep a 0 = ListSched.yield a := by
  unfold ListSched.sleep
  rw [hc]
  dsimp only
  rw [if_neg (by simp [hi]), if_pos rfl]

theorem sleep_some {ms : ℕ} (hi : a.initialized = true) (hc : a.current = some c) (hms : ms ≠ 0) :
    ListSched.sleep a ms =
      schedule (a.modify c (sleepTask ((a.ticks + ticksToSleep ms) % 2 ^ 64))) := by
  unfold ListSched.sleep
  rw [hc]
  dsimp only
  rw [if_neg (by simp [hi]), if_neg hms]

/-! ### Removal of tasks -/

theorem promote_handed (a : ListSched) (n : Slot) : Handed a (promote a (some n)) n := by
  refine ⟨rfl, rfl, rfl, ?_⟩
  intro x
  unfold promote
  rw [state_modify]

theorem removeTask_current (hc : a.current = some c) (hmem : c ∈ a.queue) :
    removeTask a c = promote { a with queue := a.queue.erase c }
      ((a.queue.erase c).head?.or a.idle) := by
  unfold removeTask
  dsimp only
  rw [if_pos hmem, if_pos hc]

theorem removeTask_other (hx : a.current ≠ some x) :
    removeTask a x = { a with queue := a.queue.erase x } := by
  unfold removeTask
  dsimp only
  split_ifs with hm
  · rfl
  · rw [List.erase_of_not_mem hm]

theorem firstReady_cases (h : firstReady a l = true) :
    ∃ n, l.head? = some n ∧ a.state n = .ready := by
  unfold firstReady at h
  cases hl : l.head? with
  | none => simp [hl] at h
  | some n => exact ⟨n, rfl, by simpa [hl] using h⟩

theorem ne_of_head_erase (hn : l.Nodup) (h : (l.erase c).head? = some n) : n ≠ c :=
  (hn.mem_erase_iff.mp (List.mem_of_head? h)).1

/-- The end of the current task: the first task left is ready and is handed the processor, and then
the scheduler chooses again. -/
theorem exit_steady (h : Steady a) (hc : a.current = some c)
    (hready : firstReady a (a.queue.erase c) = true) :
    Quiet a (tcbSetState a c .zombie) ∧
      Calm (tcbSetState a c .zombie) (removeTask (tcbSetState a c .zombie) c) ∧
      Calm (removeTask (tcbSetState a c .zombie) c) (ListSched.exit a) ∧
      Steady (ListSched.exit a) := by
  obtain ⟨n, hn, hst⟩ := firstReady_cases hready
  have hnc := ne_of_head_erase h.sound.nodup hn
  have hstop : Waiting (tcbSetState a c .zombie) := h.stop hc (by simp) (by simp)
  have hw : Waiting { tcbSetState a c .zombie with queue := a.queue.erase c } :=
    h.leave (f := fun t => { t with state := .zombie }) hc (by simp)
  have hnz : (tcbSetState a c .zombie).state n = .ready := by rw [state_setState, if_neg hnc, hst]
  have hto : Handed { tcbSetState a c .zombie with queue := a.queue.erase c }
      (removeTask (tcbSetState a c .zombie) c) n := by
    have e := removeTask_current (a := tcbSetState a c .zombie) hc (h.running hc).mem
    rw [show (tcbSetState a c .zombie).queue = a.queue from rfl, hn, Option.some_or] at e
    rw [e]
    exact promote_handed _ n
  have hm := hw.hand hto hnz
  have hexit : ListSched.exit a = schedule (removeTask (tcbSetState a c .zombie) c) := by
    unfold ListSched.exit
    rw [hc]
  obtain ⟨hcalm, hs⟩ := schedule_steady hm hto.current
  rw [hexit]
  exact ⟨fun y hy => absurd hy (hstop.idle y), hw.calm hto hnz, hcalm, hs⟩

theorem free_eq (hi : a.initialized = true) :
    ListSched.free a x = (if (removeTask a x).current = some x then
      { removeTask a x with current := none } else removeTask a x).modify x freeTask := by
  unfold ListSched.free
  rw [if_pos hi]

theorem free_other (h : Steady a) (hx : a.current ≠ some x) :
    Quiet a (ListSched.free a x) ∧ Steady (ListSched.free a x) := by
  rw [free_eq h.sound.initialized, removeTask_other hx,
    if_neg (show ({ a with queue := a.queue.erase x } : ListSched).current ≠ some x from hx)]
  have hst := state_modify { a with queue := a.queue.erase x } x (f := freeTask)
  have hxx : ({ a with queue := a.queue.erase x }.modify x freeTask).state x = .free := by
    rw [hst, if_pos rfl]
    rfl
  refine h.apart hx
    ⟨fun y hy => by rw [hst, if_neg hy], ?_, h.sound.nodup.erase x, rfl, rfl, ?_, ?_, ?_⟩
  · intro y hy
    exact List.mem_erase_of_ne hy
  · rw [hxx]
    simp
  · intro hm
    exact absurd hm h.sound.nodup.not_mem_erase
  · intro e
    rw [hxx] at e
    cases e

theorem free_current (h : Steady a) (hc : a.current = some c)
    (hready : firstReady a (a.queue.erase c) = true) :
    Calm a (ListSched.free a c) ∧ Steady (ListSched.free a c) := by
  obtain ⟨n, hn, hst⟩ := firstReady_cases hready
  have hnc := ne_of_head_erase h.sound.nodup hn
  have hw : Waiting ({ a with queue := a.queue.erase c }.modify c freeTask) :=
    h.leave hc (by simp [freeTask])
  have hnf : ({ a with queue := a.queue.erase c }.modify c freeTask).state n = .ready := by
    rw [state_modify, if_neg hnc]
    exact hst
  have hto : Handed ({ a with queue := a.queue.erase c }.modify c freeTask)
      (ListSched.free a c) n := by
    have hcn : some n ≠ some c := by simpa using hnc
    rw [free_eq h.sound.initialized, removeTask_current hc (h.running hc).mem, hn, Option.some_or,
      if_neg (show (promote { a with queue := a.queue.erase c } (some n)).current ≠ some c
        from hcn)]
    refine ⟨rfl, rfl, rfl, ?_⟩
    intro y
    have hp := (promote_handed { a with queue := a.queue.erase c } n).state
    rw [state_modify, state_modify, hp]
    by_cases e : y = c
    · rw [if_pos e, if_pos e, if_neg (e ▸ hnc.symm)]
      rfl
    · rw [if_neg e, if_neg e]
  refine ⟨?_, hw.hand hto hnf⟩
  intro x hx
  rw [hw.only hto hx]
  exact runnable_of_ready hst

theorem free_idle (h : Steady a) (hc : a.current = some c) (hq : a.queue.erase c = [])
    (hidle : a.idle = some c) : Quiet a (ListSched.free a c) ∧ Steady (ListSched.free a c) := by
  have hw : Waiting ({ a with queue := a.queue.erase c }.modify c freeTask) :=
    h.leave hc (by simp [freeTask])
  have hp := promote_handed { a with queue := a.queue.erase c } c
  have hfree : ListSched.free a c =
      { promote { a with queue := a.queue.erase c } (some c) with current := none }.modify c
        freeTask := by
    rw [free_eq h.sound.initialized, removeTask_current hc (h.running hc).mem, hq, hidle]
    exact congrArg (Sched.modify · c freeTask) (if_pos rfl)
  have hst : ∀ y, (ListSched.free a c).state y =
      ({ a with queue := a.queue.erase c }.modify c freeTask).state y := by
    intro y
    rw [hfree, state_modify, state_modify]
    split_ifs with e
    · rfl
    · exact (hp.state y).trans (if_neg e)
  have hqueue : (ListSched.free a c).queue = a.queue.erase c := by
    rw [hfree]
    rfl
  have hwait : Waiting (ListSched.free a c) := by
    refine hw.congr hst ?_ (free_fixed a c).1
    rw [hqueue]
    exact .refl _
  exact ⟨fun y hy => absurd hy (hwait.idle y), hwait.steady (by rw [hfree]; rfl)⟩

theorem free_steady (h : Steady a)
    (hsafe : a.current ≠ some x ∨ firstReady a (a.queue.erase x) = true ∨ (a.queue.erase x = [] ∧
      a.idle = some x)) :
    Calm a (ListSched.free a x) ∧ Steady (ListSched.free a x) := by
  by_cases hx : a.current = some x
  · rcases hsafe.resolve_left (not_not.mpr hx) with hready | ⟨hq, hidle⟩
    · exact free_current h hx hready
    · exact (free_idle h hx hq hidle).imp_left Quiet.calm
  · exact (free_other h hx).imp_left Quiet.calm

/-! ### Creation -/

/-- A new task before it is linked in: a ready block in a free slot. -/
structure Born (a d : ListSched) (i : Slot) : Prop where
  free : a.state i = .free
  queue : d.queue = a.queue
  current : d.current = a.current
  initialized : d.initialized = a.initialized
  other : ∀ y ≠ i, d.state y = a.state y
  ready : d.state i = .ready

theorem allocate_born (h : freeSlot a = some i) : Born a (ListSched.allocate a).1 i := by
  have halloc : (ListSched.allocate a).1 =
      { a with
        task := Function.update a.task i (allocatedTask a.nextTid a.ticks)
        nextTid := incr32 a.nextTid } := by
    unfold ListSched.allocate
    rw [h]
  rw [halloc]
  refine ⟨freeSlot_free h, rfl, rfl, rfl, ?_, ?_⟩
  · intro y hy
    unfold Sched.state
    dsimp only
    rw [Function.update_of_ne hy]
  · simp [Sched.state, allocatedTask]

theorem Born.modify (hb : Born a d i) (hf : (f (d.task i)).state = .ready) :
    Born a (d.modify i f) i := by
  refine ⟨hb.free, hb.queue, hb.current, hb.initialized, ?_, ?_⟩
  · intro y hy
    rw [state_modify, if_neg hy, hb.other y hy]
  · rw [state_modify, if_pos rfl, hf]

theorem Born.setupContext (hb : Born a d i) (entry arg stack : ℕ) :
    Born a (tcbSetupContext d i entry arg stack) i := by
  unfold tcbSetupContext
  split_ifs
  · exact hb
  · exact hb.modify rfl
  · exact hb
  · exact hb.modify rfl

theorem create_born (h : freeSlot a = some i) (hinit : a.initialized = true)
    (entry arg priority stack : ℕ) :
    ∃ d, Born a d i ∧ (ListSched.create a entry arg priority stack).1 = addTask d i := by
  have halloc : ListSched.allocate a = ((ListSched.allocate a).1, some i) := by
    unfold ListSched.allocate
    rw [h]
  have hb := allocate_born h
  unfold ListSched.create
  rw [halloc]
  dsimp only
  generalize hd : Sched.modify _ _ _ = d₁
  have hborn : Born a (tcbSetupContext d₁ i entry arg stack) i := by
    rw [← hd]
    exact (hb.modify hb.ready).setupContext entry arg stack
  refine ⟨_, hborn, ?_⟩
  rw [if_pos (hborn.initialized.trans hinit)]

section Linked

variable (h : Steady a) (hb : Born a d i)

include h hb

theorem Born.not_mem : i ∉ a.queue := fun hm => h.sound.noneFree i hm hb.free

theorem Born.addTask_eq : addTask d i = enter { d with queue := a.queue ++ [i] } i := by
  have hnot := hb.not_mem h
  unfold addTask
  rw [if_neg (by rw [hb.ready, hb.queue]; simp [hnot]), hb.queue]

theorem Born.nodup : (a.queue ++ [i]).Nodup :=
  List.nodup_append_comm.mp (List.nodup_cons.mpr ⟨hb.not_mem h, h.sound.nodup⟩)

theorem Born.waiting (hc : a.current = none) : Waiting { d with queue := a.queue ++ [i] } := by
  refine ⟨⟨hb.initialized.trans h.sound.initialized, hb.nodup h, ?_⟩, ?_, ?_⟩
  · intro y hy hf
    by_cases e : y = i
    · rw [e] at hf
      exact absurd (hb.ready.symm.trans hf) (by simp)
    · refine h.sound.noneFree y ?_ ((hb.other y e).symm.trans hf)
      simpa [e] using hy
  · intro x hx
    by_cases e : x = i
    · rw [e] at hx
      exact absurd (hb.ready.symm.trans hx) (by simp)
    · exact (Waiting.of_none h hc).idle x ((hb.other x e).symm.trans hx)
  · intro y hy
    by_cases e : y = i
    · simp [e]
    · have hq := h.queued y ((runnable_congr (hb.other y e)).symm.trans hy)
      simp [hq]

theorem Born.apart : Apart a ({ d with queue := a.queue ++ [i] }.modify i enterTask) i := by
  have hst := state_modify { d with queue := a.queue ++ [i] } i (f := enterTask)
  have hready : ({ d with queue := a.queue ++ [i] }.modify i enterTask).state i = .ready := by
    rw [hst, if_pos rfl]
    rfl
  refine ⟨?_, fun y hy => by simp [hy], hb.nodup h, hb.current, hb.initialized, ?_, ?_, ?_⟩
  · intro y hy
    rw [hst, if_neg hy]
    exact hb.other y hy
  · simp [hready]
  · simp [hready]
  · simp

end Linked

theorem enter_handed (hc : a.current = none) (i : Slot) : Handed a (enter a i) i := by
  unfold enter
  dsimp only [modify_current]
  rw [hc]
  refine ⟨rfl, rfl, rfl, ?_⟩
  intro x
  rw [state_setState]
  split_ifs with e
  · rfl
  · exact (state_modify a i x enterTask).trans (if_neg e)

theorem enter_behind (hc : a.current = some c) (i : Slot) : enter a i = a.modify i enterTask := by
  unfold enter
  dsimp only [modify_current]
  rw [hc]

theorem enter_steady (h : Steady a) (hb : Born a d i) :
    Calm d (addTask d i) ∧ Steady (addTask d i) := by
  rw [hb.addTask_eq h]
  cases hc : a.current with
  | none =>
    have hw := hb.waiting h hc
    have hto := enter_handed (a := { d with queue := a.queue ++ [i] }) (hb.current.trans hc) i
    exact ⟨hw.calm hto hb.ready, hw.hand hto hb.ready⟩
  | some c =>
    have hci : a.current ≠ some i := by
      intro e
      have hrun := (h.current i e).2
      rw [hb.free] at hrun
      cases hrun
    have hcur : ({ d with queue := a.queue ++ [i] } : ListSched).current = some c :=
      hb.current.trans hc
    rw [enter_behind hcur]
    have hapart := hb.apart h
    obtain ⟨hquiet, hs⟩ := h.apart hci hapart
    refine ⟨?_, hs⟩
    intro x hx
    have e : x ≠ i := by
      rintro rfl
      exact hapart.idle hx
    exact runnable_of_running ((hb.other x e).trans (hquiet x hx))

theorem create_steady (h : Steady a) (entry arg priority stack : ℕ) :
    Quiet a (ListSched.allocate a).1 ∧
      Calm (ListSched.allocate a).1 (ListSched.create a entry arg priority stack).1 ∧
      Steady (ListSched.create a entry arg priority stack).1 := by
  cases hslot : freeSlot a with
  | none =>
    have halloc : ListSched.allocate a = (a, none) := by
      unfold ListSched.allocate
      rw [hslot]
    unfold ListSched.create
    rw [halloc]
    exact ⟨fun _ hy => hy, fun x hx => runnable_of_running hx, h⟩
  | some i =>
    have halloc := allocate_born hslot
    obtain ⟨d, hb, hd⟩ := create_born hslot h.sound.initialized entry arg priority stack
    have hsame : ∀ y, d.state y = (ListSched.allocate a).1.state y := by
      intro y
      by_cases e : y = i
      · rw [e, hb.ready, halloc.ready]
      · rw [hb.other y e, halloc.other y e]
    obtain ⟨hcalm, hs⟩ := enter_steady h hb
    rw [hd]
    refine ⟨?_, ?_, hs⟩
    · intro y hy
      by_cases e : y = i
      · rw [e, halloc.ready] at hy
        cases hy
      · exact (halloc.other y e).symm.trans hy
    · intro x hx
      rw [← runnable_congr (hsame x)]
      exact hcalm x hx

end Kerneloid.Tcb.Calls
