import Kerneloid.Tcb.ListSched

/-! # What the calls do to the tasks

The calls that only schedule are made of a few kinds of changes, and `Scheduling` is the rule that a
relation which holds of each of these holds of each such call; `Dispatching` is the same rule for
the calls that leave the clock and the sleeping times alone. With them: which blocks are in use
(`Grows`), and that thread ids stay (`SameLabels`). Both are stated over `ListSched` and carried to
the linked runqueue by `Simulation`. -/

namespace Kerneloid.Tcb.States

open Types ListSched
open Ops hiding ensureQueued pickReady tickWake tickTasks step

variable {a b d : ListSched} {x y c : Slot} {f : Task → Task}

theorem state_modify {Q : Type} (s : Sched Q) (x y : Slot) (f : Task → Task) :
    (s.modify x f).state y = if y = x then (f (s.task x)).state else s.state y := by
  unfold Sched.state
  by_cases h : y = x
  · subst h; simp
  · rw [if_neg h, modify_ne _ _ h]

theorem state_setState {Q : Type} (s : Sched Q) (x y : Slot) (st : TaskState) :
    (tcbSetState s x st).state y = if y = x then st else s.state y := by
  unfold tcbSetState
  rw [state_modify]

theorem state_modify_same {Q : Type} (s : Sched Q) (x y : Slot)
    (hf : (f (s.task x)).state = s.state x) : (s.modify x f).state y = s.state y := by
  rw [state_modify]
  split_ifs with e
  · rw [e, hf]
  · rfl

/-- **At most one task runs**, and it is the current one. -/
def Single {Q : Type} (s : Sched Q) : Prop := ∀ y, s.state y = .running → s.current = some y

/-- A task that is ready or runs. -/
def runnable {Q : Type} (s : Sched Q) (x : Slot) : Bool :=
  s.state x = .ready ∨ s.state x = .running

theorem runnable_congr {Q R : Type} {s : Sched Q} {t : Sched R} (h : t.state x = s.state x) :
    runnable t x = runnable s x := by
  unfold runnable
  rw [h]

/-! ### What scheduling changes -/

/-- A change the scheduler makes to a block: it is not freed, and its thread id and `waiting_for`
stay. -/
structure Mild (f : Task → Task) : Prop where
  used : ∀ t, t.state ≠ .free → (f t).state ≠ .free
  tid : ∀ t, (f t).tid = t.tid
  waitingFor : ∀ t, (f t).waitingFor = t.waitingFor

/-- A change that is mild and leaves the time until which the task sleeps. -/
structure Light (f : Task → Task) : Prop where
  used : ∀ t, t.state ≠ .free → (f t).state ≠ .free
  tid : ∀ t, (f t).tid = t.tid
  waitingFor : ∀ t, (f t).waitingFor = t.waitingFor
  sleepTime : ∀ t, (f t).accounting.sleepTime = t.accounting.sleepTime

theorem Light.mild (hf : Light f) : Mild f := ⟨hf.used, hf.tid, hf.waitingFor⟩

/-- A relation that holds of each of the changes that dispatching is made of. What is new on the
runqueue is in use. -/
structure Dispatching (P : ListSched → ListSched → Prop) : Prop where
  refl : ∀ a, P a a
  trans : ∀ {a b d}, P a b → P b d → P a d
  modify : ∀ a x {f}, Light f → P a (a.modify x f)
  current : ∀ a c, P a { a with current := c }
  queue : ∀ a q, (∀ y ∈ q, y ∈ a.queue ∨ a.state y ≠ .free) → P a { a with queue := q }

/-- A relation that holds of each of the changes that scheduling is made of: those of dispatching,
the clock, and the times until which tasks sleep. -/
structure Scheduling (P : ListSched → ListSched → Prop) : Prop where
  refl : ∀ a, P a a
  trans : ∀ {a b d}, P a b → P b d → P a d
  modify : ∀ a x {f}, Mild f → P a (a.modify x f)
  current : ∀ a c, P a { a with current := c }
  ticks : ∀ a n, P a { a with ticks := n }
  queue : ∀ a q, (∀ y ∈ q, y ∈ a.queue ∨ a.state y ≠ .free) → P a { a with queue := q }

theorem Scheduling.dispatching {P : ListSched → ListSched → Prop} (hP : Scheduling P) :
    Dispatching P :=
  ⟨hP.refl, hP.trans, fun a x _ hf => hP.modify a x hf.mild, hP.current, hP.queue⟩

section Dispatching

variable {P : ListSched → ListSched → Prop} (hP : Dispatching P)

include hP

theorem Dispatching.setState (a : ListSched) (x : Slot) {st : TaskState} (hst : st ≠ .free) :
    P a (tcbSetState a x st) :=
  hP.modify a x ⟨fun _ _ => hst, fun _ => rfl, fun _ => rfl, fun _ => rfl⟩

theorem Dispatching.append (hx : a.state x ≠ .free) : P a { a with queue := a.queue ++ [x] } := by
  refine hP.queue a _ ?_
  intro y hy
  rcases List.mem_append.mp hy with h | h
  · exact Or.inl h
  · rw [List.mem_singleton.mp h]
    exact Or.inr hx

theorem Dispatching.ensureQueued (hx : a.state x ≠ .free) : P a (ensureQueued a x) := by
  unfold ListSched.ensureQueued
  split_ifs
  · exact hP.refl a
  · exact hP.append hx

theorem Dispatching.wake (h : P a (a.modify x f)) (hst : (f (a.task x)).state ≠ .free) :
    P a (ListSched.ensureQueued (a.modify x f) x) := by
  refine hP.trans h (hP.ensureQueued ?_)
  rw [state_modify, if_pos rfl]
  exact hst

theorem Dispatching.enter (a : ListSched) (x : Slot) : P a (enter a x) := by
  have hready : P a (a.modify x enterTask) :=
    hP.modify a x ⟨fun _ _ => by simp [enterTask], fun _ => rfl, fun _ => rfl, fun _ => rfl⟩
  unfold Ops.enter
  dsimp only
  split
  · exact hready
  · exact hP.trans hready (hP.trans (hP.current _ _) (hP.setState _ _ (by simp)))

theorem Dispatching.addTask (a : ListSched) (x : Slot) : P a (addTask a x) := by
  unfold ListSched.addTask
  split_ifs with h
  · exact hP.refl a
  · rw [not_or] at h
    exact hP.trans (hP.append h.1) (hP.enter _ x)

theorem Dispatching.promote (a : ListSched) (n : Option Slot) : P a (promote a n) := by
  unfold Ops.promote
  cases n with
  | none => exact hP.current a none
  | some c =>
    exact hP.trans (hP.current a _)
      (hP.modify _ c ⟨fun _ _ => by simp, fun _ => rfl, fun _ => rfl, fun _ => rfl⟩)

theorem Dispatching.removeTask (a : ListSched) (x : Slot) : P a (removeTask a x) := by
  have herase : P a { a with queue := a.queue.erase x } :=
    hP.queue a _ fun y hy => Or.inl (List.mem_of_mem_erase hy)
  unfold ListSched.removeTask
  dsimp only
  split_ifs
  · exact hP.trans herase (hP.promote _ _)
  · exact herase
  · exact hP.refl a

theorem Dispatching.pickIdle (a : ListSched) : P a (pickIdle a).1 := by
  unfold Ops.pickIdle
  cases a.idle with
  | none => exact hP.refl a
  | some i =>
    dsimp only
    split_ifs
    · exact hP.refl a
    · exact hP.refl a
    · exact hP.setState a i (by simp)

theorem Dispatching.pickReady (a : ListSched) : P a (pickReady a).1 := by
  unfold ListSched.pickReady
  split
  · exact hP.refl a
  · exact hP.pickIdle a

theorem Dispatching.pickNext (a : ListSched) : P a (pickNext a).1 := by
  unfold ListSched.pickNext
  split_ifs
  · exact hP.refl a
  · cases a.current with
    | none => exact hP.pickReady a
    | some c =>
      dsimp only
      split_ifs
      · exact hP.refl a
      · exact hP.pickReady a

omit hP in
theorem mem_toEnd {l : List Slot} : y ∈ toEnd l c ↔ y ∈ l := by
  unfold toEnd
  split_ifs with hc
  · by_cases h : y = c
    · subst h
      simp [hc]
    · simp [h, List.mem_erase_of_ne h]
  · rfl

omit hP in
theorem light_expireTask : Light expireTask :=
  ⟨fun _ _ => by simp [expireTask], fun _ => rfl, fun _ => rfl, fun _ => rfl⟩

theorem Dispatching.expire (a : ListSched) (c : Slot) : P a (expire a c) := by
  unfold ListSched.expire
  split_ifs
  · refine hP.trans (hP.modify a c light_expireTask) (hP.queue _ _ ?_)
    intro y hy
    exact Or.inl (mem_toEnd.mp hy)
  · exact hP.refl a

theorem Dispatching.dispatch (a : ListSched) (n : Slot) : P a (dispatch a n) :=
  hP.trans (hP.current a _)
    (hP.modify _ n ⟨fun _ _ => by simp [runTask], fun _ => rfl, fun _ => rfl, fun _ => rfl⟩)

theorem Dispatching.switchTo (a : ListSched) (c n : Slot) : P a (switchTo a c n) := by
  unfold Ops.switchTo
  split_ifs
  · exact hP.refl a
  · exact hP.modify a c ⟨fun _ _ => by simp, fun _ => rfl, fun _ => rfl, fun _ => rfl⟩
  · exact hP.trans (hP.setState a c (by simp)) (hP.dispatch _ n)
  · exact hP.dispatch a n

theorem Dispatching.schedule (a : ListSched) : P a (schedule a) := by
  unfold ListSched.schedule
  split_ifs
  · exact hP.refl a
  · cases a.current with
    | none =>
      have h := hP.pickNext a
      dsimp only
      cases (ListSched.pickNext a).2 with
      | none => exact hP.trans h (hP.current _ none)
      | some n => exact hP.trans h (hP.dispatch _ n)
    | some c =>
      have h := hP.trans (hP.expire a c) (hP.pickNext (ListSched.expire a c))
      dsimp only
      cases (ListSched.pickNext (ListSched.expire a c)).2 with
      | none => exact h
      | some n => exact hP.trans h (hP.switchTo _ c n)

theorem Dispatching.exit (a : ListSched) : P a (exit a) := by
  unfold ListSched.exit
  split
  · exact hP.refl a
  · exact hP.trans (hP.setState a _ (by simp)) (hP.trans (hP.removeTask _ _) (hP.schedule _))

theorem Dispatching.start (a : ListSched) : P a (start a) := by
  unfold ListSched.start
  split
  · exact hP.refl a
  · split_ifs
    · exact hP.refl a
    · exact hP.setState a _ (by simp)

theorem Dispatching.yield (a : ListSched) : P a (yield a) := by
  unfold ListSched.yield
  split
  · exact hP.refl a
  · split_ifs
    · exact hP.refl a
    · refine hP.trans (hP.modify _ _ ?_) (hP.schedule _)
      exact ⟨fun _ h => h, fun _ => rfl, fun _ => rfl, fun _ => rfl⟩

theorem Dispatching.block (a : ListSched) (x : Slot) : P a (block a x) := by
  have hblocked : P a (tcbSetState a x .blocked) := hP.setState a x (by simp)
  unfold ListSched.block
  dsimp only
  split_ifs
  · exact hP.trans hblocked (hP.schedule _)
  · refine hP.trans hblocked (hP.modify _ _ ?_)
    exact ⟨fun _ h => h, fun _ => rfl, fun _ => rfl, fun _ => rfl⟩

theorem Dispatching.unblock (a : ListSched) (x : Slot) : P a (unblock a x) := by
  unfold ListSched.unblock
  split_ifs
  · exact hP.refl a
  · exact hP.wake (hP.modify a x light_expireTask) (by simp [expireTask])

end Dispatching

section Scheduling

variable {P : ListSched → ListSched → Prop} (hP : Scheduling P)

include hP

theorem Scheduling.tickWake (a : ListSched) (x : Slot) : P a (tickWake a x) := by
  have hmild : Mild wakeSleeper :=
    ⟨fun _ _ => by simp [wakeSleeper], fun _ => rfl, fun _ => rfl⟩
  unfold ListSched.tickWake
  split_ifs
  · exact hP.dispatching.wake (hP.modify a x hmild) (by simp [wakeSleeper])
  · exact hP.refl a

theorem Scheduling.tick (a : ListSched) : P a (tick a) := by
  have hwakes : ∀ (xs : List Slot) (a : ListSched), P a (xs.foldl ListSched.tickWake a) := by
    intro xs
    induction xs with
    | nil => exact fun a => hP.refl a
    | cons x xs ih => exact fun a => hP.trans (hP.tickWake a x) (ih _)
  refine hP.trans (hP.ticks a ((a.ticks + 1) % 2 ^ 64)) ?_
  unfold ListSched.tick tickTasks
  split_ifs
  · exact hP.refl _
  · split
    · exact hP.refl _
    · refine hP.trans (hP.modify _ _ ?_) (hwakes _ _)
      exact ⟨fun _ h => h, fun _ => rfl, fun _ => rfl⟩

theorem Scheduling.sleep (a : ListSched) (ms : ℕ) : P a (sleep a ms) := by
  unfold ListSched.sleep
  split
  · exact hP.refl a
  · split_ifs
    · exact hP.refl a
    · exact hP.dispatching.yield a
    · refine hP.trans (hP.modify _ _ ?_) (hP.dispatching.schedule _)
      exact ⟨fun _ _ => by simp [sleepTask], fun _ => rfl, fun _ => rfl⟩

omit hP in
/-- The calls that only schedule: they neither set up nor free a block. -/
def schedules : Op → Bool
  | .allocate | .create _ _ _ _ | .free _ => false
  | _ => true

theorem Scheduling.step (a : ListSched) {op : Op} (hop : schedules op = true) :
    P a (step a op) := by
  cases op with
  | allocate => cases hop
  | create entry arg priority stack => cases hop
  | free x => cases hop
  | exit => exact hP.dispatching.exit a
  | addTask x => exact hP.dispatching.addTask a x
  | removeTask x => exact hP.dispatching.removeTask a x
  | tick => exact hP.tick a
  | schedule => exact hP.dispatching.schedule a
  | start => exact hP.dispatching.start a
  | yield => exact hP.dispatching.yield a
  | block x => exact hP.dispatching.block a x
  | unblock x => exact hP.dispatching.unblock a x
  | sleep ms => exact hP.sleep a ms

end Scheduling

/-! ### Thread ids -/

/-- The thread ids and what the tasks wait for stay. -/
def SameLabels (a b : ListSched) : Prop :=
  ∀ y, (b.task y).tid = (a.task y).tid ∧ (b.task y).waitingFor = (a.task y).waitingFor

theorem scheduling_labels : Scheduling SameLabels where
  refl _ _ := ⟨rfl, rfl⟩
  trans h h' y := ⟨(h' y).1.trans (h y).1, (h' y).2.trans (h y).2⟩
  modify a x f hf y := by
    by_cases e : y = x
    · rw [e, modify_self]
      exact ⟨hf.tid _, hf.waitingFor _⟩
    · rw [modify_ne _ _ e]
      exact ⟨rfl, rfl⟩
  current _ _ _ := ⟨rfl, rfl⟩
  ticks _ _ _ := ⟨rfl, rfl⟩
  queue _ _ _ _ := ⟨rfl, rfl⟩

/-! ### Blocks in use -/

/-- Every task on the runqueue has a block in use. -/
def NoneFree (a : ListSched) : Prop := ∀ y ∈ a.queue, a.state y ≠ .free

/-- No block is freed, what is new on the runqueue is in use, and the idle task stays. -/
structure Grows (a b : ListSched) : Prop where
  used : ∀ y, a.state y ≠ .free → b.state y ≠ .free
  queue : ∀ y ∈ b.queue, y ∈ a.queue ∨ b.state y ≠ .free
  initialized : b.initialized = a.initialized
  idle : b.idle = a.idle

theorem Grows.trans (h₁ : Grows a b) (h₂ : Grows b d) : Grows a d := by
  refine ⟨fun y hy => h₂.used y (h₁.used y hy), ?_, h₂.initialized.trans h₁.initialized,
    h₂.idle.trans h₁.idle⟩
  intro y hy
  rcases h₂.queue y hy with hb | hd
  · rcases h₁.queue y hb with ha | hb'
    · exact Or.inl ha
    · exact Or.inr (h₂.used y hb')
  · exact Or.inr hd

theorem NoneFree.grows (hf : NoneFree a) (h : Grows a b) : NoneFree b := by
  intro y hy
  rcases h.queue y hy with ha | hb
  · exact h.used y (hf y ha)
  · exact hb

theorem Grows.modify (a : ListSched) (x : Slot)
    (hf : (a.task x).state ≠ .free → (f (a.task x)).state ≠ .free) : Grows a (a.modify x f) := by
  refine ⟨?_, fun y hy => Or.inl hy, rfl, rfl⟩
  intro y hy
  rw [state_modify]
  split_ifs with h
  · subst h
    exact hf hy
  · exact hy

theorem scheduling_grows : Scheduling Grows where
  refl _ := ⟨fun _ h => h, fun _ h => Or.inl h, rfl, rfl⟩
  trans := Grows.trans
  modify a x _ hf := Grows.modify a x (hf.used _)
  current _ _ := ⟨fun _ h => h, fun _ h => Or.inl h, rfl, rfl⟩
  ticks _ _ := ⟨fun _ h => h, fun _ h => Or.inl h, rfl, rfl⟩
  queue _ _ h := ⟨fun _ h => h, h, rfl, rfl⟩

theorem Grows.refl (a : ListSched) : Grows a a := scheduling_grows.refl a

theorem grows_allocate (a : ListSched) : Grows a (allocate a).1 := by
  unfold allocate
  cases h : freeSlot a with
  | none => exact .refl a
  | some i =>
    refine ⟨?_, fun y hy => Or.inl hy, rfl, rfl⟩
    intro y hy
    unfold Sched.state
    dsimp only
    by_cases hyi : y = i
    · subst hyi
      simp [allocatedTask]
    · rw [Function.update_of_ne hyi]
      exact hy

theorem grows_setupContext (a : ListSched) (x : Slot) (entry arg stack : ℕ) :
    Grows a (tcbSetupContext a x entry arg stack) := by
  unfold tcbSetupContext
  split_ifs
  · exact .refl a
  · exact Grows.modify a x fun _ => by simp [contextTask]
  · exact .refl a
  · exact Grows.modify a x fun _ => by simp [contextTask]

theorem grows_create (a : ListSched) (entry arg priority stack : ℕ) :
    Grows a (create a entry arg priority stack).1 := by
  have h := grows_allocate a
  unfold create
  generalize allocate a = p at h ⊢
  obtain ⟨a', o⟩ := p
  cases o with
  | none => exact h
  | some x =>
    have hprio := Grows.modify (f := fun t =>
      { t with priority := priority, basePriority := priority }) a' x fun h => h
    have hctx := h.trans (hprio.trans (grows_setupContext _ x entry arg stack))
    dsimp only
    split_ifs
    · exact hctx.trans (scheduling_grows.dispatching.addTask _ x)
    · exact hctx

theorem grows_step (a : ListSched) {op : Op} (hop : ∀ x, op ≠ .free x) : Grows a (step a op) := by
  cases op with
  | allocate => exact grows_allocate a
  | create entry arg priority stack => exact grows_create a entry arg priority stack
  | free x => exact absurd rfl (hop x)
  | _ => exact scheduling_grows.step a rfl

/-! ### Freeing -/

theorem removeTask_queue (a : ListSched) (x : Slot) : (removeTask a x).queue = a.queue.erase x := by
  unfold removeTask
  dsimp only
  split_ifs with hx
  · unfold promote
    split <;> rfl
  · rfl
  · rw [List.erase_of_not_mem hx]

theorem free_tid (a : ListSched) (x y : Slot) :
    ((free a x).task y).tid = if y = x then invalidTid else (a.task y).tid := by
  unfold free
  by_cases e : y = x
  · rw [e, modify_self, if_pos rfl]
    rfl
  · rw [modify_ne _ _ e, if_neg e]
    dsimp only
    split_ifs
    · exact (scheduling_labels.dispatching.removeTask a x y).1
    · exact (scheduling_labels.dispatching.removeTask a x y).1
    · rfl

theorem free_used {x y : Slot} (h : (free a x).state y = .free) (hy : y ≠ x) :
    a.state y = .free := by
  by_contra hused
  have hrem := (scheduling_grows.dispatching.removeTask a x).used y hused
  unfold free at h
  rw [state_modify, if_neg hy] at h
  dsimp only at h
  split_ifs at h
  · exact hrem h
  · exact hrem h
  · exact hused h

theorem free_noneFree (hi : a.initialized = true) (hn : a.queue.Nodup) (hf : NoneFree a)
    (x : Slot) : NoneFree (free a x) := by
  have hq : (free a x).queue = a.queue.erase x := by
    unfold free
    rw [if_pos hi]
    dsimp only
    split_ifs <;> exact removeTask_queue a x
  intro y hy
  rw [hq] at hy
  have hyx : y ≠ x := by
    rintro rfl
    exact hn.not_mem_erase hy
  exact fun hfree => hf y (List.mem_of_mem_erase hy) (free_used hfree hyx)

theorem free_fixed (a : ListSched) (x : Slot) :
    (free a x).initialized = a.initialized ∧ (free a x).idle = a.idle := by
  have hrem := scheduling_grows.dispatching.removeTask a x
  unfold free
  dsimp only
  split_ifs
  · exact ⟨hrem.initialized, hrem.idle⟩
  · exact ⟨hrem.initialized, hrem.idle⟩
  · exact ⟨rfl, rfl⟩

theorem step_fixed (a : ListSched) (op : Op) :
    (step a op).initialized = a.initialized ∧ (step a op).idle = a.idle := by
  by_cases hop : ∃ x, op = .free x
  · obtain ⟨x, rfl⟩ := hop
    exact free_fixed a x
  · have h := grows_step a fun x e => hop ⟨x, e⟩
    exact ⟨h.initialized, h.idle⟩

theorem step_noneFree (hi : a.initialized = true) (hn : a.queue.Nodup) (hf : NoneFree a)
    (op : Op) : NoneFree (step a op) := by
  by_cases hop : ∃ x, op = .free x
  · obtain ⟨x, rfl⟩ := hop
    exact free_noneFree hi hn hf x
  · exact hf.grows (grows_step a fun x e => hop ⟨x, e⟩)

end Kerneloid.Tcb.States
