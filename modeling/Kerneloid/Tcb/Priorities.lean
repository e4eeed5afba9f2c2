import Kerneloid.Tcb.Handover

/-! # The priority of the next task

`scheduler_pick_next` is meant to pick a ready task of the highest priority. It does so only if the
first task that it may pick is one (`pick_priority`). While the current task has time left, these
are the ready tasks of a higher priority than its own, and the first one on the runqueue preempts
it. Otherwise they are all ready tasks, and the first one after the current task is taken before the
scan for the highest priority begins. -/

namespace Kerneloid.Tcb.Priorities

open Lib.Linked Lib.Runs Types ListSched Simulation Runqueue Handover
open Ops hiding ensureQueued pickReady tickWake tickTasks step

variable {Q : Type} {a : ListSched} {c : Slot}

def isReady (s : Sched Q) (x : Slot) : Bool := s.state x = .ready

/-- **The contenders** on the runqueue `l`, in the order in which they are looked at: the ready
tasks that may preempt the current one, or all ready tasks from the one after the current one on. -/
def contenders (s : Sched Q) (l : List Slot) : List Slot :=
  match s.current with
  | none => l.filter (isReady s)
  | some c =>
    if keepsRunning s c then l.filter (preempts s c) else (turn l c).filter (isReady s)

/-- The first contender is of the highest priority among them. -/
def FirstHighest (s : Sched Q) (l : List Slot) : Prop :=
  ∀ n ∈ (contenders s l).head?, ∀ x ∈ contenders s l, (s.task x).priority ≤ (s.task n).priority

instance (s : Sched Q) (l : List Slot) : Decidable (FirstHighest s l) :=
  inferInstanceAs (Decidable (∀ n ∈ (contenders s l).head?, _))

/-- The answer `r` is of a priority that no ready task of the runqueue `l` exceeds. -/
def Highest (s : Sched Q) (l : List Slot) (r : Option Slot) : Prop :=
  ∀ x ∈ l, s.state x = .ready → ∃ n, r = some n ∧ (s.task x).priority ≤ (s.task n).priority

/-! ### The choice from the list -/

theorem find_highest {ι : Type} (p : ι → Bool) (f : ι → ℕ) (l : List ι) :
    (∀ x ∈ l, p x = true → ∃ n, l.find? p = some n ∧ f x ≤ f n) ↔
      ∀ n ∈ (l.filter p).head?, ∀ x ∈ l.filter p, f x ≤ f n := by
  rw [List.head?_filter]
  simp only [List.mem_filter, and_imp, Option.mem_def]
  constructor
  · intro h n hn x hx hp
    obtain ⟨n', hn', hle⟩ := h x hx hp
    obtain rfl := Option.some.inj (hn.symm.trans hn')
    exact hle
  · intro h x hx hp
    cases hfind : l.find? p with
    | none => exact absurd hp (List.find?_eq_none.mp hfind x hx)
    | some n => exact ⟨n, rfl, h n hfind x hx hp⟩

theorem pickReady_highest {l : List Slot} (hl : l = pickOrder a) :
    Highest a a.queue (ListSched.pickReady a).2 ↔
      ∀ n ∈ (l.filter (isReady a)).head?, ∀ x ∈ l.filter (isReady a),
        (a.task x).priority ≤ (a.task n).priority := by
  rw [← find_highest (isReady a) fun x => (a.task x).priority]
  unfold Highest isReady ListSched.pickReady
  subst hl
  simp only [mem_pickOrder, decide_eq_true_eq]
  refine forall₂_congr fun x hx => forall_congr' fun hready => ?_
  cases hfind : (pickOrder a).find? fun it => decide (a.state it = .ready) with
  | none => exact absurd (decide_eq_true hready) (List.find?_eq_none.mp hfind x (mem_pickOrder.mpr hx))
  | some n => exact Iff.rfl

theorem preempt_highest (hkeep : keepsRunning a c) :
    Highest a a.queue (some ((a.queue.find? (preempts a c)).getD c)) ↔
      ∀ n ∈ (a.queue.filter (preempts a c)).head?, ∀ x ∈ a.queue.filter (preempts a c),
        (a.task x).priority ≤ (a.task n).priority := by
  rw [← find_highest (preempts a c) fun x => (a.task x).priority]
  unfold Highest
  have hpre : ∀ x, preempts a c x = true ↔
      a.state x = .ready ∧ (a.task c).priority < (a.task x).priority := by
    intro x
    unfold preempts
    rw [decide_eq_true_eq]
    refine ⟨And.right, fun h => ⟨?_, h⟩⟩
    rintro rfl
    rw [hkeep.1] at h
    cases h.1
  cases hfind : a.queue.find? (preempts a c) with
  | none =>
    -- no ready task exceeds the current one
    rw [List.find?_eq_none] at hfind
    refine ⟨fun _ x hx hp => absurd hp (hfind x hx), fun _ x hx hready => ⟨c, rfl, ?_⟩⟩
    by_contra hlt
    exact hfind x hx ((hpre x).mpr ⟨hready, not_le.mp hlt⟩)
  | some n =>
    have hn := (hpre n).mp (List.find?_some hfind)
    constructor
    · intro h x hx hp
      obtain ⟨m, hm, hle⟩ := h x hx ((hpre x).mp hp).1
      obtain rfl := Option.some.inj hm
      exact ⟨n, rfl, hle⟩
    · intro h x hx hready
      by_cases hlt : (a.task c).priority < (a.task x).priority
      · obtain ⟨m, hm, hle⟩ := h x hx ((hpre x).mpr ⟨hready, hlt⟩)
        obtain rfl := Option.some.inj hm
        exact ⟨n, rfl, hle⟩
      · exact ⟨n, rfl, (not_lt.mp hlt).trans hn.2.le⟩

theorem pickNext_highest (a : ListSched) :
    Highest a a.queue (pickNext a).2 ↔ FirstHighest a a.queue := by
  unfold FirstHighest contenders pickNext
  by_cases hempty : a.queue = []
  · rw [if_pos hempty, hempty]
    refine ⟨fun _ n hn => ?_, fun _ x hx => absurd hx List.not_mem_nil⟩
    cases hc : a.current <;> rw [hc] at hn <;> simp [turn] at hn
  rw [if_neg hempty]
  cases hc : a.current with
  | none =>
    refine pickReady_highest ?_
    unfold pickOrder
    rw [hc]
  | some c =>
    dsimp only
    by_cases hkeep : keepsRunning a c
    · rw [if_pos hkeep, if_pos hkeep]
      exact preempt_highest hkeep
    · rw [if_neg hkeep, if_neg hkeep]
      refine pickReady_highest ?_
      unfold pickOrder
      rw [hc]

/-! ### The choice from the linked runqueue -/

/-- **The priority of the next task.** For every runqueue and every current task,
`scheduler_pick_next` returns, and its answer is of a priority that no ready task of the runqueue
exceeds, exactly if the first contender is of the highest priority among the contenders. -/
theorem pick_priority {s : Kernel} {l : List Slot} (h : WellLinked s l) :
    ∃ s' r, schedulerPickNext s = some (s', r) ∧ (Highest s l r ↔ FirstHighest s l) := by
  have hr : Rep s (s.withQueue l) := ⟨h.isList, rfl, rfl, rfl, rfl, rfl, rfl⟩
  obtain ⟨s', hpick, -⟩ := pickNext_picks hr
  exact ⟨s', _, hpick, pickNext_highest (s.withQueue l)⟩

theorem pick_priority_busy :
    ∃ s l, busyRun.foldl (lift Ops.step) (schedulerInit 1 0x400000) = some s ∧ WellLinked s l ∧
      ∃ s' r, schedulerPickNext s = some (s', r) ∧ (Highest s l r ↔ FirstHighest s l) := by
  obtain ⟨s, hs, a, hr, -⟩ := run_sound 1 0x400000
    (Reach.foldl busyRun .init (Admits.always busyRun _ fun _ _ _ => trivial))
  exact ⟨s, a.queue, hs, wellLinked_of_rep hr, pick_priority (wellLinked_of_rep hr)⟩

def twoPriorities : List Op := [.create 1 0 5 0x500000, .create 1 0 10 0x502000]

/-- What is picked after a run, and which tasks of the runqueue are ready, with their priorities. -/
def pickedAfter (ops : List Op) : Option (Option Slot × List (Slot × ℕ)) := do
  let s ← ops.foldl (lift Ops.step) (schedulerInit 1 0x400000)
  let ready ← fold s.queue.next (fun l x => if isReady s x then (x, (s.task x).priority) :: l else l)
    256 s.queue.head []
  let (_, r) ← schedulerPickNext s
  return (r, ready)

/-- **The lower priority is picked**, both while the idle task has time left and when its slice is
used up. -/
theorem priority_inverted :
    pickedAfter twoPriorities = some (some 1, [(2, 10), (1, 5)]) ∧
      pickedAfter (twoPriorities ++ [.tick, .tick]) = some (some 1, [(2, 10), (1, 5)]) := by
  decide +kernel

end Kerneloid.Tcb.Priorities
