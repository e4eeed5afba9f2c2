import Kerneloid.Lib.Runs
import Kerneloid.Tcb.Simulation

/-! # The runqueue in every run

From `scheduler_init` on, every call keeps the list behind the runqueue free of repetitions and of
free blocks (`Sound`), and the links of the runqueue are those of that list (`WellLinked`). -/

namespace Kerneloid.Tcb.Runqueue

open Lib.Linked Lib.Runs Types Ops States Simulation

variable {s : Kernel} {a : ListSched} {x : Slot} {l : List Slot}

/-- What holds of the list in every state of a run. -/
structure Sound (a : ListSched) : Prop where
  initialized : a.initialized = true
  nodup : a.queue.Nodup
  noneFree : NoneFree a

theorem Sound.step (hr : Rep s a) (ha : Sound a) (op : Op) :
    ∃ s', Ops.step s op = some s' ∧ Rep s' (ListSched.step a op) ∧
      Sound (ListSched.step a op) := by
  obtain ⟨s', hs', hr'⟩ := step_returns hr ha.noneFree op
  refine ⟨s', hs', hr', ?_, hr'.links.nodup, ?_⟩
  · exact (step_fixed a op).1.trans ha.initialized
  · exact step_noneFree ha.initialized ha.nodup ha.noneFree op

theorem enter_alone (hq : a.queue = []) (hc : a.current = none) (hx : a.state x ≠ .free) :
    (ListSched.addTask a x).queue = [x] ∧ (ListSched.addTask a x).current = some x ∧
      (ListSched.addTask a x).state x = .running ∧
      ∀ y ≠ x, (ListSched.addTask a x).task y = a.task y := by
  have hadd : ListSched.addTask a x = enter { a with queue := [x] } x := by
    unfold ListSched.addTask
    rw [if_neg (by simp [hx, hq]), hq]
    rfl
  rw [hadd]
  unfold enter
  dsimp only [modify_current]
  rw [hc]
  refine ⟨rfl, rfl, ?_, ?_⟩
  · rw [state_setState, if_pos rfl]
  · intro y hy
    unfold tcbSetState
    rw [modify_ne _ _ hy]
    exact modify_ne _ _ hy

theorem setupContext_spec (a : ListSched) (x : Slot) (entry arg stack : ℕ) :
    (tcbSetupContext a x entry arg stack).queue = a.queue ∧
      (tcbSetupContext a x entry arg stack).current = a.current ∧
      (tcbSetupContext a x entry arg stack).initialized = a.initialized ∧
      ∀ y ≠ x, (tcbSetupContext a x entry arg stack).task y = a.task y := by
  unfold tcbSetupContext
  split_ifs
  · exact ⟨rfl, rfl, rfl, fun _ _ => rfl⟩
  · exact ⟨rfl, rfl, rfl, fun y hy => modify_ne _ _ hy⟩
  · exact ⟨rfl, rfl, rfl, fun _ _ => rfl⟩
  · exact ⟨rfl, rfl, rfl, fun y hy => modify_ne _ _ hy⟩

theorem init_spec (entry stack : ℕ) :
    (ListSched.init entry stack).queue = [0] ∧
      (ListSched.init entry stack).current = some 0 ∧
      (ListSched.init entry stack).idle = some 0 ∧
      (ListSched.init entry stack).initialized = true ∧
      (ListSched.init entry stack).state 0 = .running ∧
      ∀ y ≠ 0, (ListSched.init entry stack).task y = initTask := by
  have hslot : freeSlot (tcbInit.withQueue ([] : List Slot)) = some 0 := by decide +kernel
  have halloc : ListSched.allocate (tcbInit.withQueue []) =
      ({ tcbInit.withQueue [] with
          task := Function.update tcbInit.task 0 (allocatedTask 1 0)
          nextTid := incr32 1 }, some 0) := by
    unfold ListSched.allocate
    rw [hslot]
    rfl
  unfold ListSched.init ListSched.create
  rw [halloc]
  dsimp only
  generalize ha₁ : Sched.modify _ _ _ = a₁
  have hready : a₁.state 0 = .ready := by rw [← ha₁]; rfl
  have hother : ∀ y ≠ 0, a₁.task y = initTask := by
    intro y hy
    rw [← ha₁, modify_ne _ _ hy]
    exact Function.update_of_ne hy _ _
  obtain ⟨hq, hc, hi, ht⟩ := setupContext_spec a₁ 0 entry 0 stack
  have hfree : (tcbSetupContext a₁ 0 entry 0 stack).state 0 ≠ .free :=
    (grows_setupContext a₁ 0 entry 0 stack).used 0 (by rw [hready]; simp)
  have hi' : (tcbSetupContext a₁ 0 entry 0 stack).initialized = true := by
    rw [hi, ← ha₁]
    rfl
  have hq' : (tcbSetupContext a₁ 0 entry 0 stack).queue = [] := by
    rw [hq, ← ha₁]
    rfl
  have hc' : (tcbSetupContext a₁ 0 entry 0 stack).current = none := by
    rw [hc, ← ha₁]
    rfl
  obtain ⟨h₁, h₂, h₃, h₄⟩ := enter_alone hq' hc' hfree
  have h₅ := (scheduling_grows.dispatching.addTask (tcbSetupContext a₁ 0 entry 0 stack) 0).initialized
  rw [if_pos hi']
  unfold startIdle
  dsimp only
  rw [if_neg (by rw [h₂]; simp)]
  refine ⟨h₁, h₂, rfl, h₅.trans hi', h₃, ?_⟩
  intro y hy
  exact (h₄ y hy).trans ((ht y hy).trans (hother y hy))

theorem init_sound (entry stack : ℕ) : Sound (ListSched.init entry stack) := by
  obtain ⟨hq, -, -, hi, hrun, -⟩ := init_spec entry stack
  refine ⟨hi, by rw [hq]; simp, ?_⟩
  intro y hy
  rw [hq, List.mem_singleton] at hy
  rw [hy, hrun]
  simp

/-- **The runqueue is a doubly linked list** of the tasks `l`: they are the tasks met from the head
on, in this order, each once; forward and backward links agree, the ends are null, and so are the
links of every task that is not on it. -/
structure WellLinked (s : Kernel) (l : List Slot) : Prop where
  reached : Path s.queue.next s.queue.head l
  nodup : l.Nodup
  head_prev : ∀ x, s.queue.head = some x → s.queue.prev x = none
  tail_next : ∀ x, s.queue.tail = some x → s.queue.next x = none
  next_prev : ∀ x ∈ l, s.queue.tail ≠ some x →
    ∃ y, s.queue.next x = some y ∧ s.queue.prev y = some x
  tail_last : s.queue.tail = l.getLast?
  head_tail : s.queue.head = none ↔ s.queue.tail = none
  off : ∀ x ∉ l, s.queue.next x = none ∧ s.queue.prev x = none

theorem wellLinked_of_rep (hr : Rep s a) : WellLinked s a.queue := by
  have hl := hr.links
  have hrev := List.nodup_reverse.mpr hl.nodup
  have hlast : ∀ x ∈ a.queue, s.queue.next x = none ↔ s.queue.tail = some x := by
    intro x hx
    have := after_reverse_none hrev (List.mem_reverse.mpr hx)
    rwa [List.reverse_reverse, List.head?_reverse, ← hl.next, ← hl.tail] at this
  refine ⟨hl.path, hl.nodup, ?_, ?_, ?_, hl.tail, ?_, ?_⟩
  · intro x hx
    rw [hl.head] at hx
    rw [hl.prev]
    exact (after_reverse_none hl.nodup (List.mem_of_head? hx)).mpr hx
  · intro x hx
    have hm : x ∈ a.queue := List.mem_of_getLast? (hl.tail ▸ hx)
    exact (hlast x hm).mpr hx
  · intro x hx ht
    cases hn : s.queue.next x with
    | none => exact absurd ((hlast x hx).mp hn) ht
    | some y =>
      refine ⟨y, rfl, ?_⟩
      rw [hl.prev]
      exact (after_reverse hl.nodup).mpr (hl.next x ▸ hn)
  · rw [hl.head, hl.tail]
    simp
  · intro x hx
    exact ⟨hl.next_none hx, hl.prev_none hx⟩

theorem WellLinked.isList (h : WellLinked s l) : IsList s.queue l := by
  have hnext : ∀ x, s.queue.next x = after l x := by
    intro x
    by_cases hx : x ∈ l
    · obtain ⟨l₁, l₂, rfl, hx₁⟩ := List.eq_append_cons_of_mem hx
      rw [after_append_cons hx₁]
      exact h.reached.next_split
    · rw [after_of_not_mem hx]
      exact (h.off x hx).1
  refine ⟨h.nodup, h.reached.head, h.tail_last, hnext, ?_⟩
  intro x
  by_cases hx : x ∈ l
  · cases hp : after l.reverse x with
    | none =>
      have := (after_reverse_none h.nodup hx).mp hp
      exact h.head_prev x (h.reached.head.trans this)
    | some w =>
      -- `w` stands before `x`, so it is not the tail and `x` points back to it
      have hw : after l w = some x := (after_reverse h.nodup).mp hp
      have htail : s.queue.tail ≠ some w := by
        intro e
        have := h.tail_next w e
        rw [hnext, hw] at this
        cases this
      obtain ⟨y, hy, hback⟩ := h.next_prev w (after_mem hw).1 htail
      rw [hnext, hw, Option.some.injEq] at hy
      rw [hy]
      exact hback
  · rw [after_of_not_mem (fun hm => hx (List.mem_reverse.mp hm))]
    exact (h.off x hx).2

theorem run_sound (entry stack : ℕ) {st : Option Kernel}
    (h : Reach (Lifted Any) (lift step) (schedulerInit entry stack) st) :
    ∃ s, st = some s ∧ ∃ a, Rep s a ∧ Sound a := by
  refine h.returns (I := fun s => ∃ a, Rep s a ∧ Sound a) ?_ ?_
  · obtain ⟨s, hs, hr⟩ := init_returns entry stack
    exact ⟨s, hs, _, hr, init_sound entry stack⟩
  · rintro s op ⟨a, hr, ha⟩ -
    obtain ⟨s', hs', hr', ha'⟩ := Sound.step hr ha op
    exact ⟨s', hs', _, hr', ha'⟩

/-- **Runqueue well-formedness.** Every call of every run from `scheduler_init` returns, and leaves
the runqueue a doubly linked list. -/
theorem runqueue_wellLinked (entry stack : ℕ) {st : Option Kernel}
    (h : Reach (Lifted Any) (lift step) (schedulerInit entry stack) st) :
    ∃ s l, st = some s ∧ WellLinked s l := by
  obtain ⟨s, rfl, a, hr, -⟩ := run_sound entry stack h
  exact ⟨s, a.queue, rfl, wellLinked_of_rep hr⟩

/-- Two tasks are created, the idle task sleeps and is woken, the first task is removed and put
back, and the idle task is freed. -/
def busyRun : List Op :=
  [.create 1 0 5 0x500000, .create 1 0 10 0x502000, .sleep 20, .tick, .tick, .removeTask 1,
    .addTask 1, .free 0, .yield]

theorem runqueue_wellLinked_busy :
    ((busyRun.foldl (lift step) (schedulerInit 1 0x400000)).map fun s =>
        (s.queue.head, s.queue.tail, s.queue.next 1)) = some (some 1, some 2, some 2) ∧
      ∃ s l, busyRun.foldl (lift step) (schedulerInit 1 0x400000) = some s ∧ WellLinked s l :=
  ⟨by decide +kernel,
    runqueue_wellLinked 1 0x400000
      (Reach.foldl busyRun .init (Admits.always busyRun _ fun _ _ _ => trivial))⟩

end Kerneloid.Tcb.Runqueue
