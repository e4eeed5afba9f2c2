import Kerneloid.Tcb.Dispatch
import Kerneloid.XnuMemory.Aligned

/-! # Creating tasks on the kernel heap

`tcb_create` takes a block of the pool (`tcb_allocate`), has `tcb_setup_context` take a stack from
the kernel heap, and puts the task on the runqueue. The machine has both parts; beside it, the heap
has other clients and the scheduler is called.

`tcb_setup_context` has no way to say that `kmalloc` answered null, so `tcb_create` is all or
nothing exactly as long as it gets a stack (`create_all_or_nothing`). -/

namespace Kerneloid.Tcb.Creation

open Lib.Linked Lib.Runs Types Simulation Runqueue Dispatch
open Ops hiding ensureQueued pickReady tickWake tickTasks step
open XnuMemory.Heap (Placement Statics kmalloc Disciplined start headerSize heapInit)
open Lib.Tiling (used)
open XnuMemory.Requests (libMemset)
open XnuMemory.Tiling (Kept Taken step_kept heapInit_lays kmalloc_heapInit kmalloc_taken
  stop_lt oneMiB)
open XnuMemory.Payloads (InBlock Holds le_alignUp libMemset_outside)
open XnuMemory.Aligned (live live_eq)

variable {heap : Statics}

/-! ### The machine -/

def tcbStackSize : ℕ := 0x2000

/-- The kernel heap and the tasks. -/
structure Machine where
  heap : Statics
  kernel : Kernel

/-- The loop of `tcb_setup_context` that zeroes a new stack. -/
def cleared (heap : Statics) (stack : ℕ) : Statics :=
  if stack = 0 then heap else { heap with mem := libMemset heap.mem stack 0 tcbStackSize }

/-- `tcb_setup_context` with its call of `kmalloc`. -/
def setupContext (k : Placement) (m : Machine) (x : Slot) (entry arg : ℕ) : Option Machine :=
  if entry = 0 ∨ (m.kernel.task x).kernelStack ≠ 0 then
    some { m with kernel := tcbSetupContext m.kernel x entry arg 0 }
  else do
    let (heap, stack) ← kmalloc k m.heap tcbStackSize
    return ⟨cleared heap stack, tcbSetupContext m.kernel x entry arg stack⟩

def create (k : Placement) (m : Machine) (entry arg priority : ℕ) :
    Option (Machine × Option Slot) :=
  match tcbAllocate m.kernel with
  | (s, none) => some ({ m with kernel := s }, none)
  | (s, some x) => do
    let s := s.modify x fun t => { t with priority := priority, basePriority := priority }
    let m ← setupContext k { m with kernel := s } x entry arg
    if m.kernel.initialized then
      return ({ m with kernel := ← schedulerAddTask m.kernel x }, some x)
    return (m, some x)

def boot (k : Placement) (heap : Statics) (entry : ℕ) : Option Machine :=
  (create k ⟨heap, tcbInit⟩ entry 0 0).map fun p => { p.1 with kernel := startIdle p.1.kernel p.2 }

/-- A call: a task is created, the scheduler is called otherwise, or the heap is used. -/
inductive Call
  | create (entry arg priority : ℕ)
  | kernel (op : Op)
  | heap (op : XnuMemory.Heap.Op)

def step (k : Placement) (m : Machine) : Call → Option Machine
  | .create entry arg priority => (create k m entry arg priority).map Prod.fst
  | .kernel op => (Ops.step m.kernel op).map fun s => { m with kernel := s }
  | .heap op => (XnuMemory.Heap.step k m.heap op).map fun h => { m with heap := h }

/-- The clients of the heap are disciplined, and tasks are created with their stacks only. -/
def Client (k : Placement) (m : Machine) : Call → Prop
  | .create _ _ _ => True
  | .kernel (.create _ _ _ _) => False
  | .kernel _ => True
  | .heap op => Disciplined k m.heap op

/-! ### All or nothing -/

/-- **The new task `x`**: its stack, which lies in a block in use, its context, what it is to do,
and its place on the runqueue. -/
structure Created (m : Machine) (x : Slot) (entry arg : ℕ) : Prop where
  stack : (m.kernel.task x).kernelStack ≠ 0
  size : (m.kernel.task x).stackSize = tcbStackSize
  memory : ∃ h, InBlock m.heap h (m.kernel.task x).kernelStack tcbStackSize
  eip : (m.kernel.task x).context.eip = .trampoline
  above : (m.kernel.task x).kernelStack < (m.kernel.task x).context.esp
  top : (m.kernel.task x).context.esp ≤ (m.kernel.task x).kernelStack + tcbStackSize ∧
    (m.kernel.task x).kernelStack + tcbStackSize < (m.kernel.task x).context.esp + 16
  entry : (m.kernel.task x).archData = entry
  arg : (m.kernel.task x).msgBuffer = arg
  queued : (queueOf m.kernel).count x = 1

/-- **All or nothing**: with the answer null, the tasks and the runqueue are as before; any other
answer is a new task. No task without a stack was put on the runqueue. -/
def AllOrNothing (m m' : Machine) (r : Option Slot) (entry arg : ℕ) : Prop :=
  (match r with
    | none => m'.kernel = m.kernel
    | some x => Created m' x entry arg) ∧
  ∀ x ∈ queueOf m'.kernel, x ∉ queueOf m.kernel → (m'.kernel.task x).kernelStack ≠ 0

/-- The heap has a stack left. -/
def Granted (k : Placement) (heap : Statics) : Prop :=
  ∃ heap' stack, kmalloc k heap tcbStackSize = some (heap', stack) ∧ stack ≠ 0

variable {k : Placement} {m : Machine} {a d : ListSched} {x : Slot}
  {entry arg priority stack : ℕ}

/-! ### The heap -/

/-- What a call of `kmalloc` and the clearing of its answer `p` do to the payloads in use: nothing,
if the answer is null, and otherwise the payload at `p` comes into use. -/
inductive Drawn (heap heap' : Statics) : ℕ → Prop
  | refused {us : List (ℕ × ℕ)} (before : live heap = some us) (after : live heap' = some us) :
      Drawn heap heap' 0
  | granted {us us' : List (ℕ × ℕ)} {p sz : ℕ} (hne : p ≠ 0) (before : live heap = some us)
      (after : live heap' = some us') (hperm : us'.Perm ((p, sz) :: us)) : Drawn heap heap' p

theorem live_early (h : heap.head = 0) : live heap = some [] := by
  unfold live XnuMemory.Tiling.blockList
  rw [h]
  rfl

theorem live_of_kept (hk : Kept k heap) :
    ∃ bs, XnuMemory.Tiling.Lays k (heapInit k heap) bs ∧
      live heap = some (used headerSize k.base bs) := by
  rcases hk with ⟨hi, hhead⟩ | ⟨bs, hl⟩
  · exact ⟨_, heapInit_lays hi, live_early hhead⟩
  · refine ⟨bs, ?_, live_eq hl⟩
    rw [XnuMemory.Tiling.heapInit_of_initialized hl.initialized]
    exact hl

theorem Drawn.refl (hk : Kept k heap) : Drawn heap heap 0 := by
  obtain ⟨bs, -, hlive⟩ := live_of_kept hk
  exact .refused hlive hlive

theorem kmalloc_stack (hk : Kept k heap) :
    ∃ heap' p, kmalloc k heap tcbStackSize = some (heap', p) ∧ Kept k (cleared heap' p) ∧
      (p ≠ 0 → Holds k (cleared heap' p) p tcbStackSize) ∧ Drawn heap (cleared heap' p) p := by
  obtain ⟨bs, hl, hlive⟩ := live_of_kept hk
  rw [kmalloc_heapInit (by decide)]
  rcases kmalloc_taken hl tcbStackSize with e | ⟨heap', bs', p, e, hne, ht⟩
  · refine ⟨_, 0, e, ?_, fun h => absurd rfl h, ?_⟩
    · exact Or.inr ⟨bs, hl⟩
    · exact .refused hlive (live_eq hl)
  · have hle : tcbStackSize ≤ XnuMemory.Heap.alignUp tcbStackSize XnuMemory.Heap.kheapAlign :=
      le_alignUp (by decide)
    obtain ⟨sz, hsz, hmem⟩ := ht.mem
    have hbound := ht.lays.payload hmem
    have hstop := stop_lt k
    have hset : Taken k (heapInit k heap) (cleared heap' p) bs bs' p tcbStackSize := by
      unfold cleared
      rw [if_neg hne]
      exact (ht.mono hle).write fun x hx => libMemset_outside (by omega) hx
    obtain ⟨l, r, sz', hsz', hbefore, hafter⟩ := hset.payloads
    refine ⟨heap', p, e, Or.inr ⟨bs', hset.lays⟩, fun _ => ⟨bs', sz, hset.lays, hmem, ?_⟩, ?_⟩
    · exact hle.trans hsz
    · have hperm : (used headerSize k.base bs').Perm
          ((p, sz') :: used headerSize k.base bs) := by
        rw [hbefore, hafter]
        exact List.perm_middle
      exact .granted hne hlive (live_eq hset.lays) hperm

theorem link_eq (heap : Statics) (s : Kernel) (x : Slot) :
    (if s.initialized then do return (⟨heap, ← schedulerAddTask s x⟩, some x)
      else return (⟨heap, s⟩, some x) : Option (Machine × Option Slot)) =
    (if s.initialized then do return (← schedulerAddTask s x, some x)
      else return (s, some x) : Option (Kernel × Option Slot)).map
        (fun p => (⟨heap, p.1⟩, p.2)) := by
  by_cases hi : s.initialized = true
  · rw [if_pos hi, if_pos hi]
    simp [Option.map_bind]
  · rw [if_neg hi, if_neg hi]
    rfl

theorem create_eq (hk : Kept k m.heap) (entry arg priority : ℕ) :
    ∃ heap stack, Kept k heap ∧
      create k m entry arg priority = (tcbCreate m.kernel entry arg priority stack).map
        (fun p => (⟨heap, p.1⟩, p.2)) ∧
      (entry ≠ 0 → freeSlot m.kernel ≠ none → (stack ≠ 0 ↔ Granted k m.heap) ∧
        (stack ≠ 0 → Holds k heap stack tcbStackSize)) ∧
      Drawn m.heap heap stack ∧ (stack ≠ 0 → entry ≠ 0 ∧ freeSlot m.kernel ≠ none) := by
  unfold create tcbCreate tcbAllocate
  cases hslot : freeSlot m.kernel with
  | none =>
    exact ⟨m.heap, 0, hk, rfl, fun _ h => absurd rfl h, .refl hk, fun h => absurd rfl h⟩
  | some x =>
    dsimp only
    generalize hs : Sched.modify _ x _ = s
    have hstack : (s.task x).kernelStack = 0 := by
      rw [← hs, modify_self]
      dsimp only
      rw [Function.update_self]
      rfl
    unfold setupContext
    by_cases he : entry = 0
    · refine ⟨m.heap, 0, hk, ?_, fun h => absurd he h, .refl hk, fun h => absurd rfl h⟩
      rw [if_pos (Or.inl he)]
      exact link_eq m.heap _ x
    · obtain ⟨heap, p, hkm, hkept, hold, hdrawn⟩ := kmalloc_stack hk
      refine ⟨cleared heap p, p, hkept, ?_, fun _ _ => ⟨?_, hold⟩, hdrawn, fun _ => ⟨he, nofun⟩⟩
      · rw [if_neg (not_or.mpr ⟨he, not_not.mpr hstack⟩), hkm]
        exact link_eq _ _ x
      · refine ⟨fun h => ⟨heap, p, hkm, h⟩, ?_⟩
        rintro ⟨_, _, e, h⟩
        rw [hkm] at e
        cases e
        exact h

/-! ### The new task -/

theorem setup_task (hnew : (d.task x).kernelStack = 0) (he : entry ≠ 0) (arg stack : ℕ) :
    (tcbSetupContext d x entry arg stack).task x =
      if stack = 0 then d.task x
      else contextTask d.ticks entry arg
        { d.task x with kernelStack := stack, stackSize := tcbStackSize } := by
  unfold tcbSetupContext
  rw [if_neg he, if_neg (not_not.mpr hnew)]
  by_cases hzero : stack = 0
  · rw [if_pos hzero, if_pos hzero]
  · rw [if_neg hzero, if_neg hzero, modify_self]
    rfl

theorem enter_new (d : ListSched) (x : Slot) :
    (enter d x).queue = d.queue ∧
      ∃ st n, (enter d x).task x = { d.task x with state := st, timeSlice := n } := by
  unfold enter
  dsimp only [modify_current]
  cases hc : d.current with
  | some c =>
    exact ⟨rfl, .ready, (enterTask (d.task x)).timeSlice, modify_self d x enterTask⟩
  | none =>
    refine ⟨rfl, .running, (enterTask (d.task x)).timeSlice, ?_⟩
    unfold tcbSetState
    rw [modify_self]
    dsimp only
    rw [modify_self]
    rfl

theorem addTask_new (hx : x ∉ d.queue) (hf : d.state x ≠ .free) :
    (ListSched.addTask d x).queue = d.queue ++ [x] ∧
      ∃ st n, (ListSched.addTask d x).task x = { d.task x with state := st, timeSlice := n } := by
  unfold ListSched.addTask
  rw [if_neg (not_or.mpr ⟨hf, hx⟩)]
  exact enter_new { d with queue := d.queue ++ [x] } x

/-- The block of a new task before `tcb_setup_context`. -/
def bareTask (a : ListSched) (priority : ℕ) : Task :=
  { allocatedTask a.nextTid a.ticks with priority := priority, basePriority := priority }

/-- **The new task** is last on the runqueue. Its block is as `tcb_setup_context` left it, but for
the state and the time slice. -/
theorem create_new (ha : Sound a) (hslot : freeSlot a = some x) (he : entry ≠ 0)
    (arg priority stack : ℕ) :
    (ListSched.create a entry arg priority stack).2 = some x ∧
      (ListSched.create a entry arg priority stack).1.queue = a.queue ++ [x] ∧
      ∃ st n, (ListSched.create a entry arg priority stack).1.task x =
        { if stack = 0 then bareTask a priority
          else contextTask a.ticks entry arg
            { bareTask a priority with kernelStack := stack, stackSize := tcbStackSize } with
          state := st, timeSlice := n } := by
  unfold ListSched.create ListSched.allocate
  rw [hslot]
  dsimp only
  generalize hd : Sched.modify _ x _ = d
  have htask : d.task x = bareTask a priority := by
    rw [← hd, modify_self]
    dsimp only
    rw [Function.update_self]
    rfl
  have hqueue : d.queue = a.queue := by
    rw [← hd]
    rfl
  have hticks : d.ticks = a.ticks := by
    rw [← hd]
    rfl
  have hinit : d.initialized = a.initialized := by
    rw [← hd]
    rfl
  obtain ⟨hq, -, hi, -⟩ := setupContext_spec d x entry arg stack
  have hbare : (d.task x).kernelStack = 0 := by
    rw [htask]
    rfl
  have hset := setup_task hbare he arg stack
  rw [htask, hticks] at hset
  have hx : x ∉ (tcbSetupContext d x entry arg stack).queue := by
    rw [hq, hqueue]
    exact fun hm => ha.noneFree x hm (freeSlot_free hslot)
  have hf : (tcbSetupContext d x entry arg stack).state x ≠ .free := by
    unfold Sched.state
    rw [hset]
    split_ifs <;> exact nofun
  obtain ⟨hqueue', st, n, hadd⟩ := addTask_new hx hf
  rw [if_pos (hi.trans (hinit.trans ha.initialized))]
  refine ⟨rfl, hqueue'.trans (by rw [hq, hqueue]), st, n, hadd.trans ?_⟩
  rw [hset]

/-! ### Runs -/

/-- What holds in every state of the machine. -/
def Running (k : Placement) (m : Machine) : Prop :=
  Kept k m.heap ∧ ∃ a, Rep m.kernel a ∧ Sound a

theorem boot_running (hk : Kept k heap) (entry : ℕ) :
    ∃ m, boot k heap entry = some m ∧ Running k m := by
  obtain ⟨heap', stack, hk', hcreate, -⟩ := create_eq (m := ⟨heap, tcbInit⟩) hk entry 0 0
  obtain ⟨s, hs, hr⟩ := init_returns entry stack
  unfold schedulerInit at hs
  refine ⟨⟨heap', s⟩, ?_, hk', _, hr, init_sound entry stack⟩
  rw [Option.map_eq_some_iff] at hs
  obtain ⟨p, hp, rfl⟩ := hs
  unfold boot
  rw [hcreate, hp]
  rfl

theorem Running.create (h : Running k m) (entry arg priority : ℕ) :
    ∃ m' r, create k m entry arg priority = some (m', r) ∧ Running k m' := by
  obtain ⟨hk, a, hr, ha⟩ := h
  obtain ⟨heap, stack, hk', hcreate, -⟩ := create_eq hk entry arg priority
  obtain ⟨s, hs, hr', ha'⟩ := Sound.step hr ha (.create entry arg priority stack)
  simp only [Ops.step, Option.map_eq_some_iff] at hs
  obtain ⟨p, hp, rfl⟩ := hs
  refine ⟨⟨heap, p.1⟩, p.2, ?_, hk', _, hr', ha'⟩
  rw [hcreate, hp]
  rfl

theorem Running.step (h : Running k m) {call : Call} (hok : Client k m call) :
    ∃ m', step k m call = some m' ∧ Running k m' := by
  cases call with
  | create entry arg priority =>
    obtain ⟨m', r, hm', h'⟩ := h.create entry arg priority
    exact ⟨m', by rw [Creation.step, hm']; rfl, h'⟩
  | kernel op =>
    obtain ⟨hk, a, hr, ha⟩ := h
    obtain ⟨s, hs, hr', ha'⟩ := Sound.step hr ha op
    exact ⟨⟨m.heap, s⟩, by rw [Creation.step, hs]; rfl, hk, _, hr', ha'⟩
  | heap op =>
    obtain ⟨s, hs, hk⟩ := step_kept h.1 hok
    exact ⟨⟨s, m.kernel⟩, by rw [Creation.step, hs]; rfl, hk, h.2⟩

/-! ### Results -/

theorem created_of_task {now n : ℕ} {state : TaskState} {t : Task}
    (hold : Holds k m.heap stack tcbStackSize) (hne : stack ≠ 0)
    (htask : m.kernel.task x = { contextTask now entry arg { t with kernelStack := stack, stackSize
      := tcbStackSize } with state := state, timeSlice := n })
    (hqueued : (queueOf m.kernel).count x = 1) : Created m x entry arg := by
  obtain ⟨hpos, hlt⟩ := hold.lt
  have hsize : tcbStackSize = 0x2000 := rfl
  have htop : (m.kernel.task x).context.esp = (stack + tcbStackSize) / 16 * 16 := by
    rw [htask]
    change (stack + tcbStackSize) % 2 ^ 32 / 16 * 16 = _
    rw [Nat.mod_eq_of_lt hlt]
  have hstack : (m.kernel.task x).kernelStack = stack := by
    rw [htask]
    rfl
  refine ⟨?_, ?_, ?_, ?_, ?_, ?_, ?_, ?_, hqueued⟩
  · rw [hstack]
    exact hne
  · rw [htask]
    rfl
  · rw [hstack]
    exact ⟨_, hold.inBlock⟩
  · rw [htask]
    rfl
  · rw [hstack, htop]
    omega
  · rw [hstack, htop]
    omega
  · rw [htask]
    rfl
  · rw [htask]
    rfl

theorem create_slot (h : Running k m) (hslot : freeSlot m.kernel = some x) (he : entry ≠ 0)
    (arg priority : ℕ) :
    ∃ m', create k m entry arg priority = some (m', some x) ∧
      (AllOrNothing m m' (some x) entry arg ↔ Granted k m.heap) := by
  obtain ⟨hk, a, hr, ha⟩ := h
  obtain ⟨heap, stack, -, hcreate, hanswer, -⟩ := create_eq hk entry arg priority
  obtain ⟨hgranted, hold⟩ := hanswer he (by rw [hslot]; nofun)
  obtain ⟨s, hs, hr'⟩ := create_returns hr ha.noneFree entry arg priority stack
  have hslot' : freeSlot a = some x := (freeSlot_eq hr).symm.trans hslot
  obtain ⟨hx, hqueue, st, n, htask⟩ := create_new ha hslot' he arg priority stack
  rw [hx] at hs
  refine ⟨⟨heap, s⟩, by rw [hcreate, hs]; rfl, ?_⟩
  have hnot : x ∉ a.queue := fun hm => ha.noneFree x hm (freeSlot_free hslot')
  have hmem : x ∈ queueOf s ∧ x ∉ queueOf m.kernel := by
    rw [queueOf_eq hr, queueOf_eq hr', hqueue]
    exact ⟨by simp, hnot⟩
  rw [← hr'.task] at htask
  rw [← hgranted]
  refine ⟨?_, fun hne => ⟨?_, ?_⟩⟩
  · rintro ⟨h, -⟩ hzero
    refine h.stack ?_
    dsimp only
    rw [htask, if_pos hzero]
    rfl
  · rw [if_neg hne] at htask
    refine created_of_task (hold hne) hne htask ?_
    rw [queueOf_eq hr', hqueue, List.count_append, List.count_eq_zero.mpr hnot]
    simp
  · intro y hy hy'
    dsimp only at hy ⊢
    rw [queueOf_eq hr', hqueue] at hy
    rw [queueOf_eq hr] at hy'
    obtain rfl : y = x := by simpa [hy'] using hy
    rw [htask, if_neg hne]
    exact hne

/-- **Creating a task.** In every run from `scheduler_init` on any heap, with a non-null entry,
`tcb_create` returns. It is all or nothing exactly if no block of the pool is free or the heap has a
stack left. -/
theorem create_all_or_nothing {heap : Statics} (hk : Kept k heap) (idle : ℕ) {st : Option Machine}
    (h : Reach (Lifted (Client k)) (lift (step k)) (boot k heap idle) st) :
    ∃ m, st = some m ∧ ∀ entry arg priority, entry ≠ 0 →
      ∃ m' r, create k m entry arg priority = some (m', r) ∧
        (AllOrNothing m m' r entry arg ↔ freeSlot m.kernel = none ∨ Granted k m.heap) := by
  obtain ⟨m, rfl, hm⟩ := h.returns (boot_running hk idle) fun m call hm hok => hm.step hok
  refine ⟨m, rfl, fun entry arg priority he => ?_⟩
  cases hslot : freeSlot m.kernel with
  | none =>
    refine ⟨m, none, ?_, iff_of_true ⟨rfl, fun x hx hx' => absurd hx hx'⟩ (Or.inl rfl)⟩
    unfold create tcbAllocate
    rw [hslot]
  | some x =>
    obtain ⟨m', hm', hiff⟩ := create_slot hm hslot he arg priority
    exact ⟨m', some x, hm', hiff.trans (or_iff_right nofun).symm⟩

/-- A task is created and the heap is used. -/
def firstCalls : List Call := [.create 1 7 5, .heap (.malloc 100), .kernel .tick]

theorem create_all_or_nothing_first :
    ∃ m, firstCalls.foldl (lift (step oneMiB)) (boot oneMiB (start fun _ => 0) 1) = some m ∧
      ∃ m' r, create oneMiB m 1 0 5 = some (m', r) ∧
        (AllOrNothing m m' r 1 0 ↔ freeSlot m.kernel = none ∨ Granted oneMiB m.heap) := by
  have hadmits : Admits (Lifted (Client oneMiB)) (lift (step oneMiB))
      (boot oneMiB (start fun _ => 0) 1) firstCalls := by
    refine Admits.always firstCalls _ fun call hcall m => ?_
    simp only [firstCalls, List.mem_cons, List.not_mem_nil, or_false] at hcall
    rcases hcall with rfl | rfl | rfl <;> trivial
  obtain ⟨m, hm, h⟩ := create_all_or_nothing (Or.inl ⟨rfl, rfl⟩) 1
    (Reach.foldl firstCalls .init hadmits)
  exact ⟨m, hm, h 1 0 5 one_ne_zero⟩

/-- What is answered after the calls, with the stack of the new task and the runqueue. -/
def createdAfter (calls : List Call) : Option (Option (Slot × ℕ) × List Slot) := do
  let m ← calls.foldl (lift (step oneMiB)) (boot oneMiB (start fun _ => 0) 1)
  let (m', r) ← create oneMiB m 1 0 5
  return (r.map fun x => (x, (m'.kernel.task x).kernelStack), queueOf m'.kernel)

/-- **A task without a stack** is on the runqueue once the heap is used up. -/
theorem created_without_stack :
    createdAfter [.heap (.malloc 0x3fdfe0)] = some (some (1, 0), [0, 1]) := by
  decide +kernel

end Kerneloid.Tcb.Creation
