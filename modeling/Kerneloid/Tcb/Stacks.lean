import Kerneloid.Tcb.Creation

/-! # The stacks of tasks

`tcb_create` takes the stack of a task from the kernel heap. `tcb_free` only forgets it: the pointer
is cleared and the block stays in use. So the blocks in use for stacks are as many as the tasks with
a stack exactly as long as no task with a stack was freed (`stacks_leak`).

`Audit` counts the stacks that were forgotten. In every run of creations and removals, the blocks
that came into use since `scheduler_init` are as many as the tasks with a stack and the stacks
forgotten together (`Balanced`). -/

namespace Kerneloid.Tcb.Stacks

open Lib.Runs Types States Simulation Runqueue Calls Creation
open Ops hiding ensureQueued pickReady tickWake tickTasks step
open XnuMemory.Heap (Placement Statics start)
open XnuMemory.Tiling (Kept oneMiB)
open XnuMemory.Aligned (live)

variable {before heap : Statics}

variable {k : Placement} {a d : ListSched} {x y : Slot} {f : Task → Task} {entry stack : ℕ}

/-! ### The system -/

/-- The tasks in use that have a kernel stack. -/
def withStack {Q : Type} (s : Sched Q) : Finset Slot :=
  Finset.univ.filter fun x => s.state x ≠ .free ∧ (s.task x).kernelStack ≠ 0

/-- The machine, and how many stacks were forgotten. -/
structure Audit where
  machine : Machine
  lost : ℕ

inductive Call
  | create (entry arg priority : ℕ)
  | free (x : Slot)

def step (k : Placement) (u : Audit) : Call → Option Audit
  | .create entry arg priority =>
    (create k u.machine entry arg priority).map fun p => { u with machine := p.1 }
  | .free x =>
    (tcbFree u.machine.kernel x).map fun s =>
      { machine := { u.machine with kernel := s }
        lost := u.lost + if x ∈ withStack u.machine.kernel then 1 else 0 }

/-- After `scheduler_init` on the heap `heap`. -/
def boot (k : Placement) (heap : Statics) (idle : ℕ) : Option Audit :=
  (Creation.boot k heap idle).map fun m => ⟨m, 0⟩

/-- The blocks in use for stacks: those in use now that were not before `scheduler_init`. -/
def stackBlocks (before now : Statics) : Option ℕ := do
  let old ← live before
  let used ← live now
  return (used.filter fun b => b ∉ old).length

/-! ### What the calls do to the stacks -/

theorem modify_stack (hf : ∀ t, (f t).kernelStack = t.kernelStack) (a : ListSched) (x y : Slot) :
    ((a.modify x f).task y).kernelStack = (a.task y).kernelStack := by
  by_cases e : y = x
  · rw [e, modify_self, hf]
  · rw [modify_ne _ _ e]

theorem setState_stack (a : ListSched) (x y : Slot) (st : TaskState) :
    ((tcbSetState a x st).task y).kernelStack = (a.task y).kernelStack :=
  modify_stack (f := fun t => { t with state := st }) (fun _ => rfl) a x y

theorem enter_stack (a : ListSched) (x y : Slot) :
    ((enter a x).task y).kernelStack = (a.task y).kernelStack := by
  have hready := modify_stack (f := enterTask) (fun _ => rfl) a x y
  unfold enter
  dsimp only
  split
  · exact hready
  · exact (setState_stack _ x y .running).trans hready

theorem addTask_stack (a : ListSched) (x y : Slot) :
    ((ListSched.addTask a x).task y).kernelStack = (a.task y).kernelStack := by
  unfold ListSched.addTask
  split_ifs
  · rfl
  · exact enter_stack _ x y

theorem promote_stack (a : ListSched) (n : Option Slot) (y : Slot) :
    ((promote a n).task y).kernelStack = (a.task y).kernelStack := by
  unfold promote
  cases n with
  | none => rfl
  | some c =>
    exact modify_stack (f := fun t => { t with state := .running, timeSlice := fullSlice t })
      (fun _ => rfl) _ c y

theorem removeTask_stack (a : ListSched) (x y : Slot) :
    ((ListSched.removeTask a x).task y).kernelStack = (a.task y).kernelStack := by
  unfold ListSched.removeTask
  dsimp only
  split_ifs
  · exact promote_stack _ _ y
  · rfl
  · rfl

theorem free_stack (a : ListSched) (x y : Slot) :
    ((ListSched.free a x).task y).kernelStack = if y = x then 0 else (a.task y).kernelStack := by
  unfold ListSched.free
  by_cases e : y = x
  · rw [if_pos e, e]
    dsimp only
    rw [modify_self]
    rfl
  · rw [if_neg e]
    dsimp only
    rw [modify_ne _ _ e]
    split_ifs
    · exact removeTask_stack a x y
    · exact removeTask_stack a x y
    · rfl

theorem create_stack (hslot : freeSlot a = some x) (he : stack ≠ 0 → entry ≠ 0)
    (arg priority : ℕ) (y : Slot) :
    ((ListSched.create a entry arg priority stack).1.task y).kernelStack =
      if y = x then stack else (a.task y).kernelStack := by
  unfold ListSched.create ListSched.allocate
  rw [hslot]
  dsimp only
  generalize hd : Sched.modify _ x _ = d
  have hother : ∀ y ≠ x, (d.task y).kernelStack = (a.task y).kernelStack := by
    intro y hy
    rw [← hd, modify_ne _ _ hy]
    dsimp only
    rw [Function.update_of_ne hy]
  have hself : (d.task x).kernelStack = 0 := by
    rw [← hd, modify_self]
    dsimp only
    rw [Function.update_self]
    rfl
  have hset : ((tcbSetupContext d x entry arg stack).task y).kernelStack =
      if y = x then stack else (a.task y).kernelStack := by
    by_cases e : y = x
    · rw [if_pos e, e]
      by_cases hentry : entry = 0
      · unfold tcbSetupContext
        rw [if_pos hentry, hself]
        exact (not_not.mp fun h => he h hentry).symm
      · rw [setup_task hself hentry]
        split_ifs with hzero
        · rw [hself, hzero]
        · rfl
    · rw [if_neg e, (setupContext_spec d x entry arg stack).2.2.2 y e, hother y e]
  by_cases hi : (tcbSetupContext d x entry arg stack).initialized = true
  · rw [if_pos hi, addTask_stack, hset]
  · rw [if_neg hi, hset]

theorem startIdle_stack (a : ListSched) (idle : Option Slot) (y : Slot) :
    ((startIdle a idle).task y).kernelStack = (a.task y).kernelStack := by
  unfold startIdle
  dsimp only
  split_ifs
  · cases idle with
    | none => rfl
    | some i => exact setState_stack _ i y .running
  · rfl

/-! ### The tasks with a stack -/

/-- A block of the pool that is free has no stack. -/
def Clean (a : ListSched) : Prop := ∀ y, a.state y = .free → (a.task y).kernelStack = 0

theorem withStack_eq {s : Kernel} (hr : Rep s a) : withStack s = withStack a := by
  unfold withStack Sched.state
  rw [hr.task]

theorem Clean.mem_withStack (hc : Clean a) : y ∈ withStack a ↔ (a.task y).kernelStack ≠ 0 := by
  unfold withStack
  rw [Finset.mem_filter_univ]
  exact and_iff_right_of_imp fun h hf => h (hc y hf)

theorem card_set {p : ℕ} (hc : Clean a) (hd : Clean d) (hx : (a.task x).kernelStack = 0)
    (h : ∀ y, (d.task y).kernelStack = if y = x then p else (a.task y).kernelStack) :
    (withStack d).card = (withStack a).card + if p = 0 then 0 else 1 := by
  have hmem : ∀ y, y ∈ withStack d ↔ y = x ∧ p ≠ 0 ∨ y ∈ withStack a := by
    intro y
    rw [hd.mem_withStack, hc.mem_withStack, h y]
    by_cases e : y = x
    · simp [e, hx]
    · simp [e]
  have hnot : x ∉ withStack a := fun hm => hc.mem_withStack.mp hm hx
  split_ifs with hp
  · have heq : withStack d = withStack a := by
      ext y
      simp [hmem, hp]
    rw [heq, add_zero]
  · have heq : withStack d = insert x (withStack a) := by
      ext y
      simp [hmem, hp]
    rw [heq, Finset.card_insert_of_notMem hnot]

theorem create_withStack (ha : Sound a) (hc : Clean a) (hslot : freeSlot a = some x)
    (he : stack ≠ 0 → entry ≠ 0) (arg priority : ℕ) :
    Clean (ListSched.create a entry arg priority stack).1 ∧
      (withStack (ListSched.create a entry arg priority stack).1).card =
        (withStack a).card + if stack = 0 then 0 else 1 := by
  have hstack := create_stack hslot he arg priority
  have hx : (a.task x).kernelStack = 0 := hc x (freeSlot_free hslot)
  have hclean : Clean (ListSched.create a entry arg priority stack).1 := by
    intro y hy
    obtain ⟨d, hb, hcreate⟩ := create_born hslot ha.initialized entry arg priority stack
    have hne : y ≠ x := by
      rintro rfl
      rw [hcreate] at hy
      exact (scheduling_grows.dispatching.addTask d y).used y (by rw [hb.ready]; nofun) hy
    rw [hstack y, if_neg hne]
    exact hc y (not_not.mp fun h => (grows_create a entry arg priority stack).used y h hy)
  exact ⟨hclean, card_set hc hclean hx hstack⟩

theorem free_withStack (hc : Clean a) (x : Slot) :
    Clean (ListSched.free a x) ∧
      (withStack a).card =
        (withStack (ListSched.free a x)).card + if x ∈ withStack a then 1 else 0 := by
  have hclean : Clean (ListSched.free a x) := by
    intro y hy
    rw [free_stack]
    split_ifs with e
    · rfl
    · exact hc y (free_used hy e)
  refine ⟨hclean, ?_⟩
  have heq : withStack (ListSched.free a x) = (withStack a).erase x := by
    ext y
    rw [Finset.mem_erase, hclean.mem_withStack, hc.mem_withStack, free_stack]
    by_cases e : y = x <;> simp [e]
  rw [heq]
  split_ifs with hx
  · exact (Finset.card_erase_add_one hx).symm
  · rw [Finset.erase_eq_of_notMem hx, add_zero]

theorem init_withStack (he : stack ≠ 0 → entry ≠ 0) :
    Clean (ListSched.init entry stack) ∧
      (withStack (ListSched.init entry stack)).card = if stack = 0 then 0 else 1 := by
  have hslot : freeSlot (tcbInit.withQueue ([] : List Slot)) = some 0 := by decide +kernel
  have hbare : Clean (tcbInit.withQueue ([] : List Slot)) := fun _ _ => rfl
  have hnone : (withStack (tcbInit.withQueue ([] : List Slot))).card = 0 := by
    rw [Finset.card_eq_zero, Finset.eq_empty_iff_forall_notMem]
    exact fun y hy => hbare.mem_withStack.mp hy rfl
  have hstack : ∀ y, ((ListSched.init entry stack).task y).kernelStack =
      if y = 0 then stack else ((tcbInit.withQueue ([] : List Slot)).task y).kernelStack :=
    fun y => (startIdle_stack _ _ y).trans (create_stack hslot he 0 0 y)
  have hclean : Clean (ListSched.init entry stack) := by
    intro y hy
    obtain ⟨-, -, -, -, hrun, hother⟩ := init_spec entry stack
    have hne : y ≠ 0 := by
      rintro rfl
      rw [hrun] at hy
      cases hy
    rw [hother y hne]
    rfl
  refine ⟨hclean, ?_⟩
  rw [card_set hbare hclean rfl hstack, hnone, zero_add]

/-! ### The blocks in use -/

/-- In the heap `now`, the blocks in use are those of `before` and `n` others. -/
def Since (before now : Statics) (n : ℕ) : Prop :=
  ∃ old new us, live before = some old ∧ live now = some us ∧ us.Perm (new ++ old) ∧
    new.length = n

theorem since_refl (hk : Kept k heap) : Since heap heap 0 := by
  obtain ⟨bs, -, hlive⟩ := live_of_kept hk
  exact ⟨_, [], _, hlive, hlive, List.Perm.refl _, rfl⟩

theorem Since.drawn {now later : Statics} {n p : ℕ} (h : Since before now n)
    (hd : Drawn now later p) : Since before later (n + if p = 0 then 0 else 1) := by
  obtain ⟨old, new, us, hold, hus, hperm, rfl⟩ := h
  cases hd with
  | refused hbefore hafter =>
    rw [hus] at hbefore
    cases hbefore
    exact ⟨old, new, us, hold, hafter, hperm, rfl⟩
  | @granted _ us' _ sz hne hbefore hafter hmore =>
    rw [hus] at hbefore
    cases hbefore
    refine ⟨old, (p, sz) :: new, us', hold, hafter, hmore.trans (hperm.cons _), ?_⟩
    rw [if_neg hne, List.length_cons]

theorem live_nodup {us : List (ℕ × ℕ)} (hk : Kept k heap) (h : live heap = some us) : us.Nodup := by
  obtain ⟨bs, -, hlive⟩ := live_of_kept hk
  rw [hlive] at h
  cases h
  exact (Lib.Tiling.used_nodup (by decide)).of_map

theorem Since.stackBlocks {now : Statics} {n : ℕ} (h : Since before now n)
    (hk : Kept k now) : stackBlocks before now = some n := by
  obtain ⟨old, new, us, hold, hus, hperm, rfl⟩ := h
  have hnodup : (new ++ old).Nodup := hperm.nodup_iff.mp (live_nodup hk hus)
  have hdisj := (List.nodup_append'.mp hnodup).2.2
  have hnew : new.filter (fun b => b ∉ old) = new :=
    List.filter_eq_self.mpr fun b hb => decide_eq_true (hdisj hb)
  have hold' : old.filter (fun b => b ∉ old) = [] :=
    List.filter_eq_nil_iff.mpr fun b hb => by simp [hb]
  unfold Stacks.stackBlocks
  rw [hold, hus]
  change some (us.filter fun b => b ∉ old).length = _
  rw [(hperm.filter _).length_eq, List.filter_append, hnew, hold', List.append_nil]

/-! ### Runs -/

/-- What holds in every run: the blocks that came into use are the stacks of tasks, and those that
were forgotten. -/
structure Balanced (k : Placement) (before : Statics) (u : Audit) : Prop where
  kept : Kept k u.machine.heap
  kernel : ∃ a, Rep u.machine.kernel a ∧ Sound a ∧ Clean a
  blocks : Since before u.machine.heap ((withStack u.machine.kernel).card + u.lost)

theorem boot_balanced (hk : Kept k heap) (idle : ℕ) :
    ∃ u, boot k heap idle = some u ∧ Balanced k heap u := by
  obtain ⟨heap', stack, hk', hcreate, -, hdrawn, hask⟩ :=
    create_eq (m := ⟨heap, tcbInit⟩) hk idle 0 0
  obtain ⟨s, hs, hr⟩ := init_returns idle stack
  obtain ⟨hclean, hcard⟩ := init_withStack fun h => (hask h).1
  unfold schedulerInit at hs
  rw [Option.map_eq_some_iff] at hs
  obtain ⟨p, hp, rfl⟩ := hs
  refine ⟨⟨⟨heap', startIdle p.1 p.2⟩, 0⟩, ?_, hk', ⟨_, hr, init_sound idle stack, hclean⟩, ?_⟩
  · unfold boot Creation.boot
    rw [hcreate, hp]
    rfl
  · have hsince := (since_refl hk).drawn hdrawn
    rw [← hcard, ← withStack_eq hr, zero_add] at hsince
    exact hsince

theorem create_full (h : freeSlot a = none) (entry arg priority stack : ℕ) :
    ListSched.create a entry arg priority stack = (a, none) := by
  unfold ListSched.create ListSched.allocate
  rw [h]

theorem create_answer (h : freeSlot a = some x) (entry arg priority stack : ℕ) :
    (ListSched.create a entry arg priority stack).2 = some x := by
  unfold ListSched.create ListSched.allocate
  rw [h]

theorem Balanced.create {u : Audit} (h : Balanced k before u) (entry arg priority : ℕ) :
    ∃ m r, Creation.create k u.machine entry arg priority = some (m, r) ∧
      Balanced k before { u with machine := m } ∧
      ∀ x, r = some x → Drawn u.machine.heap m.heap (m.kernel.task x).kernelStack := by
  obtain ⟨hk, ⟨a, hr, ha, hc⟩, hblocks⟩ := h
  obtain ⟨heap, stack, hk', hcreate, -, hdrawn, hask⟩ := create_eq hk entry arg priority
  obtain ⟨s, hs, hr'⟩ := create_returns hr ha.noneFree entry arg priority stack
  rw [withStack_eq hr] at hblocks
  rw [hcreate, hs]
  refine ⟨⟨heap, s⟩, _, rfl, ?_, ?_⟩
  · have hsince := hblocks.drawn hdrawn
    cases hslot : freeSlot a with
    | none =>
      have hzero : stack = 0 := not_not.mp fun h => (hask h).2 ((freeSlot_eq hr).trans hslot)
      rw [create_full hslot] at hr'
      refine ⟨hk', ⟨a, hr', ha, hc⟩, ?_⟩
      dsimp only
      rwa [if_pos hzero, add_zero, ← withStack_eq hr'] at hsince
    | some x =>
      obtain ⟨s', -, -, ha'⟩ := Sound.step hr ha (.create entry arg priority stack)
      obtain ⟨hclean, hcard⟩ := create_withStack ha hc hslot (fun h => (hask h).1) arg priority
      refine ⟨hk', ⟨_, hr', ha', hclean⟩, ?_⟩
      dsimp only
      rwa [add_right_comm, ← hcard, ← withStack_eq hr'] at hsince
  · intro x hx
    have hslot : freeSlot a = some x := by
      cases hslot : freeSlot a with
      | none =>
        rw [create_full hslot] at hx
        cases hx
      | some y => exact (create_answer hslot entry arg priority stack).symm.trans hx
    dsimp only
    rw [hr'.task, create_stack hslot (fun h => (hask h).1), if_pos rfl]
    exact hdrawn

theorem Balanced.step {u : Audit} (h : Balanced k before u) (call : Call) :
    ∃ u', step k u call = some u' ∧ Balanced k before u' := by
  cases call with
  | create entry arg priority =>
    obtain ⟨m, r, hm, h', -⟩ := h.create entry arg priority
    exact ⟨_, by rw [Stacks.step, hm]; rfl, h'⟩
  | free x =>
    obtain ⟨hk, ⟨a, hr, ha, hc⟩, hblocks⟩ := h
    obtain ⟨s, hs, hr', ha'⟩ := Sound.step hr ha (.free x)
    obtain ⟨hclean, hcard⟩ := free_withStack hc x
    change tcbFree _ x = some s at hs
    let u' : Audit :=
      { machine := { u.machine with kernel := s }
        lost := u.lost + if x ∈ withStack u.machine.kernel then 1 else 0 }
    refine ⟨u', by rw [Stacks.step, hs]; rfl, hk, ⟨_, hr', ha', hclean⟩, ?_⟩
    have hsum : (withStack s).card + u'.lost = (withStack u.machine.kernel).card + u.lost := by
      dsimp only [u']
      rw [withStack_eq hr, hcard, withStack_eq hr', add_right_comm, add_assoc]
      rfl
    change Since before u.machine.heap ((withStack s).card + u'.lost)
    rw [hsum]
    exact hblocks

/-! ### Results -/

/-- **The blocks in use for stacks**, in every run of creations and removals from `scheduler_init`
on any heap: they are as many as the tasks with a stack exactly if no task with a stack was freed.
Creating a task and freeing it leaves the blocks in use as they were exactly if the task got no
stack. -/
theorem stacks_leak {heap : Statics} (hk : Kept k heap) (idle : ℕ) {st : Option Audit}
    (h : Reach (Lifted Any) (lift (step k)) (boot k heap idle) st) :
    ∃ u, st = some u ∧
      (∃ n, stackBlocks heap u.machine.heap = some n ∧
        (n = (withStack u.machine.kernel).card ↔ u.lost = 0)) ∧
      ∀ entry arg priority m x, create k u.machine entry arg priority = some (m, some x) →
        ∃ s, tcbFree m.kernel x = some s ∧
          (live m.heap = live u.machine.heap ↔ (m.kernel.task x).kernelStack = 0) := by
  obtain ⟨u, rfl, hu⟩ := h.returns (boot_balanced hk idle) fun u call hu _ => hu.step call
  refine ⟨u, rfl, ⟨_, hu.blocks.stackBlocks hu.kept, by omega⟩, ?_⟩
  intro entry arg priority m x hcreate
  obtain ⟨m', r, hm', hb, hdrawn⟩ := hu.create entry arg priority
  rw [hcreate] at hm'
  cases hm'
  obtain ⟨-, ⟨a, hr, ha, -⟩, -⟩ := hb
  obtain ⟨s, hs, -⟩ := Sound.step hr ha (.free x)
  refine ⟨s, hs, ?_⟩
  have hd := hdrawn x rfl
  revert hd
  generalize (m.kernel.task x).kernelStack = p
  rintro (⟨hbefore, hafter⟩ | ⟨hne, hbefore, hafter, hperm⟩)
  · exact iff_of_true (hafter.trans hbefore.symm) rfl
  · refine iff_of_false (fun e => ?_) hne
    rw [hafter, hbefore, Option.some_inj] at e
    have hlen := hperm.length_eq
    rw [e, List.length_cons] at hlen
    omega

/-- A task is created, freed, and two more are created. -/
def fourCalls : List Call := [.create 1 7 5, .free 1, .create 1 8 5, .create 1 9 5]

theorem stacks_leak_four :
    ∃ u, fourCalls.foldl (lift (step oneMiB)) (boot oneMiB (start fun _ => 0) 1) = some u ∧
      ∃ n, stackBlocks (start fun _ => 0) u.machine.heap = some n ∧
        (n = (withStack u.machine.kernel).card ↔ u.lost = 0) := by
  have hadmits : Admits (Lifted Any) (lift (step oneMiB))
      (boot oneMiB (start fun _ => 0) 1) fourCalls :=
    Admits.always fourCalls _ fun _ _ _ => trivial
  obtain ⟨u, hu, h, -⟩ := stacks_leak (Or.inl ⟨rfl, rfl⟩) 1 (Reach.foldl fourCalls .init hadmits)
  exact ⟨u, hu, h⟩

/-- After the calls: the blocks in use for stacks, the tasks with a stack, and the stacks that were
forgotten. -/
def counts (calls : List Call) : Option (Option ℕ × ℕ × ℕ) :=
  (calls.foldl (lift (step oneMiB)) (boot oneMiB (start fun _ => 0) 1)).map fun u =>
    (stackBlocks (start fun _ => 0) u.machine.heap, (withStack u.machine.kernel).card, u.lost)

/-- **A stack is lost** when its task is freed: one task has a stack, and two blocks are in use. -/
theorem freed_stack_kept : counts [.create 1 7 5, .free 1] = some (some 2, 1, 1) := by
  decide +kernel

end Kerneloid.Tcb.Stacks
