import Kerneloid.Tcb.States

/-! # At most one task runs

Every call but `scheduler_remove_task` keeps the invariant `Single` of the list scheduler: a task
that runs is the current one. `scheduler_remove_task` lets a successor run before its callers retire
the task removed, so there the task removed may run as well (`removeTask_running`). -/

namespace Kerneloid.Tcb.SingleTask

open Types ListSched States
open Ops hiding ensureQueued pickReady tickWake tickTasks step

variable {a b : ListSched} {x y c n : Slot} {f : Task → Task}

/-- No task begins to run, and the current task stays. -/
structure Calms (a b : ListSched) : Prop where
  running : ∀ y, b.state y = .running → a.state y = .running
  current : b.current = a.current

theorem Calms.refl (a : ListSched) : Calms a a := ⟨fun _ h => h, rfl⟩

theorem Calms.trans {d : ListSched} (h : Calms a b) (h' : Calms b d) : Calms a d :=
  ⟨fun y hy => h.running y (h'.running y hy), h'.current.trans h.current⟩

theorem Calms.single (h : Single a) (hc : Calms a b) : Single b := by
  intro y hy
  rw [hc.current]
  exact h y (hc.running y hy)

theorem Calms.modify (a : ListSched) (x : Slot)
    (hf : (f (a.task x)).state = .running → a.state x = .running) : Calms a (a.modify x f) := by
  refine ⟨?_, rfl⟩
  intro y hy
  rw [state_modify] at hy
  split_ifs at hy with e
  · rw [e]
    exact hf hy
  · exact hy

theorem Calms.setState (a : ListSched) (x : Slot) {st : TaskState} (hst : st ≠ .running) :
    Calms a (tcbSetState a x st) := Calms.modify a x fun h => absurd h hst

theorem calms_ensureQueued (a : ListSched) (x : Slot) : Calms a (ensureQueued a x) := by
  unfold ensureQueued
  split_ifs
  · exact .refl a
  · exact ⟨fun _ h => h, rfl⟩

theorem calms_pickIdle (a : ListSched) : Calms a (pickIdle a).1 := by
  unfold pickIdle
  cases a.idle with
  | none => exact .refl a
  | some i =>
    dsimp only
    split_ifs
    · exact .refl a
    · exact .refl a
    · exact Calms.setState a i (by simp)

theorem calms_pickReady (a : ListSched) : Calms a (pickReady a).1 := by
  unfold pickReady
  split
  · exact .refl a
  · exact calms_pickIdle a

theorem calms_pickNext (a : ListSched) : Calms a (pickNext a).1 := by
  unfold pickNext
  split_ifs
  · exact .refl a
  · split
    · exact calms_pickReady a
    · split_ifs
      · exact .refl a
      · exact calms_pickReady a

theorem calms_expire (a : ListSched) (c : Slot) : Calms a (expire a c) := by
  unfold expire
  split_ifs
  · have h := Calms.modify (f := expireTask) a c fun h => by simp [expireTask] at h
    exact ⟨h.running, rfl⟩
  · exact .refl a

/-! ### Hand-over of the processor -/

/-- No task but `c` runs. -/
def Only (a : ListSched) (c : Option Slot) : Prop := ∀ y, a.state y = .running → some y = c

theorem only_current (h : Single a) : Only a a.current := fun y hy => (h y hy).symm

theorem Only.calms {o : Option Slot} (h : Only a o) (hc : Calms a b) : Only b o :=
  fun y hy => h y (hc.running y hy)

theorem dispatch_single (h : Only a none) (n : Slot) : Single (dispatch a n) := by
  intro y hy
  unfold dispatch at hy
  rw [state_modify] at hy
  split_ifs at hy with e
  · rw [e]
    rfl
  · cases h y hy

theorem switchTo_single (h : Only a (some c)) (hc : a.current = some c) (n : Slot) :
    Single (switchTo a c n) := by
  unfold switchTo
  split_ifs with hn hrun hrun
  · intro y hy
    rw [hc, h y hy]
  · intro y hy
    rw [state_modify] at hy
    split_ifs at hy with e
    · rw [e]
      exact hc
    · exact hc.trans (h y hy).symm
  · refine dispatch_single ?_ n
    intro y hy
    rw [state_setState] at hy
    split_ifs at hy with e
    exact absurd (Option.some.inj (h y hy)) e
  · refine dispatch_single ?_ n
    intro y hy
    have := Option.some.inj (h y hy)
    subst this
    exact absurd hy hrun

theorem schedule_single (h : Single a) : Single (schedule a) := by
  have honly := only_current h
  unfold schedule
  split_ifs
  · exact h
  · cases hc : a.current with
    | none =>
      have hpick := calms_pickNext a
      have hnone : Only (pickNext a).1 none := (hc ▸ honly).calms hpick
      dsimp only
      cases (pickNext a).2 with
      | none => exact fun y hy => (hnone y hy).symm
      | some n => exact dispatch_single hnone n
    | some c =>
      have hpick := (calms_expire a c).trans (calms_pickNext (expire a c))
      dsimp only
      cases (pickNext (expire a c)).2 with
      | none => exact Calms.single h hpick
      | some n => exact switchTo_single ((hc ▸ honly).calms hpick) (hpick.current.trans hc) n

theorem enter_single (h : Single a) (x : Slot) : Single (enter a x) := by
  have hready : Calms a (a.modify x enterTask) := Calms.modify a x fun h => by simp [enterTask] at h
  unfold enter
  dsimp only
  split
  · exact Calms.single h hready
  · rename_i hc
    rw [modify_current] at hc
    intro y hy
    rw [state_setState] at hy
    split_ifs at hy with e
    · rw [e]
      rfl
    · have := h y (hready.running y hy)
      rw [hc] at this
      cases this

theorem addTask_single (h : Single a) (x : Slot) : Single (addTask a x) := by
  unfold addTask
  split_ifs
  · exact h
  · exact enter_single (a := { a with queue := a.queue ++ [x] }) h x

theorem removeTask_running (h : Single a) (hy : (removeTask a x).state y = .running) :
    (removeTask a x).current = some y ∨ (y = x ∧ a.state x = .running) := by
  unfold removeTask at hy ⊢
  dsimp only at hy ⊢
  by_cases hm : x ∈ a.queue
  · rw [if_pos hm] at hy ⊢
    by_cases hc : a.current = some x
    · rw [if_pos hc] at hy ⊢
      have hx : ∀ y, a.state y = .running → y = x := by
        intro z hz
        have := (h z hz).symm.trans hc
        exact Option.some.inj this
      unfold promote at hy ⊢
      split at hy
      · have e := hx y hy
        subst e
        exact Or.inr ⟨rfl, hy⟩
      · rw [state_modify] at hy
        split_ifs at hy with e
        · rw [e]
          exact Or.inl rfl
        · have e := hx y hy
          subst e
          exact Or.inr ⟨rfl, hy⟩
    · rw [if_neg hc] at hy ⊢
      exact Or.inl (h y hy)
  · rw [if_neg hm] at hy ⊢
    exact Or.inl (h y hy)

theorem removeTask_single (h : Single a) (hx : a.state x ≠ .running) : Single (removeTask a x) := by
  intro y hy
  rcases removeTask_running h hy with hc | ⟨-, hr⟩
  · exact hc
  · exact absurd hr hx

/-! ### The calls -/

theorem allocate_single (h : Single a) : Single (allocate a).1 := by
  unfold allocate
  cases freeSlot a with
  | none => exact h
  | some i =>
    intro y hy
    unfold Sched.state at hy
    dsimp only at hy
    by_cases e : y = i
    · rw [e, Function.update_self] at hy
      cases hy
    · rw [Function.update_of_ne e] at hy
      exact h y hy

theorem calms_setupContext (a : ListSched) (x : Slot) (entry arg stack : ℕ) :
    Calms a (tcbSetupContext a x entry arg stack) := by
  unfold tcbSetupContext
  split_ifs
  · exact .refl a
  · exact Calms.modify a x fun h => by simp [contextTask] at h
  · exact .refl a
  · exact Calms.modify a x fun h => by simp [contextTask] at h

theorem create_single (h : Single a) (entry arg priority stack : ℕ) :
    Single (create a entry arg priority stack).1 := by
  have halloc := allocate_single h
  unfold create
  generalize allocate a = p at halloc ⊢
  obtain ⟨a', o⟩ := p
  cases o with
  | none => exact halloc
  | some x =>
    have hprio : Calms a' (a'.modify x fun t =>
      { t with priority := priority, basePriority := priority }) := Calms.modify a' x fun h => h
    have hctx := Calms.single halloc (hprio.trans (calms_setupContext _ x entry arg stack))
    dsimp only
    split_ifs
    · exact addTask_single hctx x
    · exact hctx

theorem free_single (h : Single a) (x : Slot) : Single (free a x) := by
  have hrem : ∀ y ≠ x, (removeTask a x).state y = .running → (removeTask a x).current = some y := by
    intro y hy hr
    exact (removeTask_running h hr).resolve_right fun hx => hy hx.1
  intro y hy
  unfold free at hy ⊢
  rw [state_modify] at hy
  rw [modify_current]
  by_cases e : y = x
  · rw [if_pos e] at hy
    cases hy
  · rw [if_neg e] at hy
    dsimp only at hy ⊢
    split_ifs at hy ⊢ with hi hc
    · -- the task removed is not current any more
      have := (hrem y e hy).symm.trans hc
      exact absurd (Option.some.inj this) e
    · exact hrem y e hy
    · exact h y hy

theorem exit_single (h : Single a) : Single (exit a) := by
  unfold exit
  split
  · exact h
  · rename_i c _
    have hcalm : Calms a (tcbSetState a c .zombie) := Calms.setState a c (by simp)
    have hz := Calms.single h hcalm
    refine schedule_single (removeTask_single hz ?_)
    rw [state_setState, if_pos rfl]
    simp

theorem tick_single (h : Single a) : Single (tick a) := by
  have hwake : ∀ (a : ListSched) (x : Slot), Calms a (tickWake a x) := by
    intro a x
    unfold tickWake
    split_ifs
    · exact (Calms.modify a x fun h => by simp [wakeSleeper] at h).trans (calms_ensureQueued _ x)
    · exact .refl a
  have hwakes : ∀ (xs : List Slot) (a : ListSched), Calms a (xs.foldl tickWake a) := by
    intro xs
    induction xs with
    | nil => exact fun a => .refl a
    | cons x xs ih => exact fun a => (hwake a x).trans (ih _)
  have hclock : Calms a { a with ticks := (a.ticks + 1) % 2 ^ 64 } := ⟨fun _ h => h, rfl⟩
  refine Calms.single h (hclock.trans ?_)
  unfold tick tickTasks
  split_ifs
  · exact .refl _
  · split
    · exact .refl _
    · exact (Calms.modify (f := tickTask) _ _ fun h => h).trans (hwakes _ _)

theorem start_single (h : Single a) : Single (start a) := by
  unfold start
  split
  · exact h
  · rename_i c hc
    split_ifs
    · exact h
    · intro y hy
      rw [state_setState] at hy
      split_ifs at hy with e
      · rw [e]
        exact hc
      · exact h y hy

theorem yield_single (h : Single a) : Single (yield a) := by
  unfold yield
  split
  · exact h
  · split_ifs
    · exact h
    · exact schedule_single (Calms.single h (Calms.modify _ _ fun h => h))

theorem block_single (h : Single a) (x : Slot) : Single (block a x) := by
  have hb : Calms a (tcbSetState a x .blocked) := Calms.setState a x (by simp)
  unfold block
  dsimp only
  split_ifs
  · exact schedule_single (Calms.single h hb)
  · exact Calms.single h (hb.trans (Calms.modify _ _ fun h => h))

theorem unblock_single (h : Single a) (x : Slot) : Single (unblock a x) := by
  unfold unblock
  split_ifs
  · exact h
  · exact Calms.single h ((Calms.modify a x fun h => by simp [expireTask] at h).trans
      (calms_ensureQueued _ x))

theorem sleep_single (h : Single a) (ms : ℕ) : Single (sleep a ms) := by
  unfold sleep
  split
  · exact h
  · split_ifs
    · exact h
    · exact yield_single h
    · exact schedule_single (Calms.single h (Calms.modify _ _ fun h => by simp [sleepTask] at h))

/-- **Every call but the removal keeps at most one task running.** -/
theorem step_single (h : Single a) {op : Op} (hop : ∀ x, op ≠ .removeTask x) :
    Single (step a op) := by
  cases op with
  | allocate => exact allocate_single h
  | create entry arg priority stack => exact create_single h entry arg priority stack
  | free x => exact free_single h x
  | exit => exact exit_single h
  | addTask x => exact addTask_single h x
  | removeTask x => exact absurd rfl (hop x)
  | tick => exact tick_single h
  | schedule => exact schedule_single h
  | start => exact start_single h
  | yield => exact yield_single h
  | block x => exact block_single h x
  | unblock x => exact unblock_single h x
  | sleep ms => exact sleep_single h ms

end Kerneloid.Tcb.SingleTask
