import Kerneloid.Tcb.States

/-! # The linked runqueue is a list

`Rep s a` says that the linked state `s` is the list state `a`: the links are those of `a.queue` and
everything else is the same. Each function of `tcb.c` returns on a state that represents `a`, and
the state it returns represents what the function of `ListSched` makes of `a`. -/

namespace Kerneloid.Tcb.Simulation

open Lib.Linked Types Ops States

/-- The linked state `s` represents the list state `a`. -/
structure Rep (s : Kernel) (a : ListSched) : Prop where
  links : IsList s.queue a.queue
  task : s.task = a.task
  nextTid : s.nextTid = a.nextTid
  current : s.current = a.current
  ticks : s.ticks = a.ticks
  initialized : s.initialized = a.initialized
  idle : s.idle = a.idle

/-- The call returned a state that represents `a`. -/
def Returns (r : Option Kernel) (a : ListSched) : Prop := ∃ s, r = some s ∧ Rep s a

variable {s : Kernel} {a b : ListSched} {x c h : Slot} {l : List Slot}

theorem Returns.pure (hr : Rep s a) : Returns (some s) a := ⟨s, rfl, hr⟩

theorem Returns.bind {r : Option Kernel} {f : Kernel → Option Kernel} (hr : Returns r a)
    (hf : ∀ s, Rep s a → Returns (f s) b) : Returns (r.bind f) b := by
  obtain ⟨s, rfl, hs⟩ := hr
  exact hf s hs

theorem Rep.state (hr : Rep s a) (x : Slot) : s.state x = a.state x := by
  unfold Sched.state
  rw [hr.task]

theorem Rep.modify (hr : Rep s a) (x : Slot) (f : Task → Task) :
    Rep (s.modify x f) (a.modify x f) :=
  { hr with task := by simp only [Sched.modify, hr.task] }

theorem Rep.setState (hr : Rep s a) (x : Slot) (st : TaskState) :
    Rep (tcbSetState s x st) (tcbSetState a x st) := hr.modify x _

theorem Rep.setCurrent (hr : Rep s a) (c : Option Slot) :
    Rep { s with current := c } { a with current := c } := { hr with current := rfl }

/-! ### Walks -/

theorem length_le (hl : l.Nodup) : l.length ≤ 256 := by
  simpa using hl.length_le_card

theorem scanQueue_eq (hr : Rep s a) (p : Slot → Bool) : scanQueue s p = some (a.queue.find? p) :=
  hr.links.path.scan p (length_le hr.links.nodup)

theorem inQueue_eq (hr : Rep s a) (x : Slot) : inQueue s x = some (decide (x ∈ a.queue)) := by
  unfold inQueue
  rw [scanQueue_eq hr]
  have h : (a.queue.find? fun it => it = x).isSome = decide (x ∈ a.queue) := by
    rw [Bool.eq_iff_iff]
    simp [List.find?_isSome]
  simp [h]

theorem appendTask_returns (hr : Rep s a) (hx : x ∉ a.queue) :
    Returns (appendTask s x) { a with queue := a.queue ++ [x] } := by
  obtain ⟨q, hq, hl⟩ := hr.links.append hx
  unfold appendTask
  rw [hq]
  exact ⟨_, rfl, { hr with links := hl }⟩

theorem ensureQueued_returns (hr : Rep s a) (x : Slot) :
    Returns (ensureQueued s x) (ListSched.ensureQueued a x) := by
  unfold ensureQueued ListSched.ensureQueued
  rw [inQueue_eq hr]
  by_cases hx : x ∈ a.queue
  · simpa [hx] using Returns.pure hr
  · simpa [hx] using appendTask_returns hr hx

theorem enter_rep (hr : Rep s a) (x : Slot) : Rep (enter s x) (enter a x) := by
  unfold enter
  simp only [modify_current, hr.current]
  cases a.current with
  | none => exact ((hr.modify x _).setCurrent _).setState x _
  | some c => exact hr.modify x _

theorem addTask_returns (hr : Rep s a) (x : Slot) :
    Returns (schedulerAddTask s x) (ListSched.addTask a x) := by
  unfold schedulerAddTask ListSched.addTask
  rw [inQueue_eq hr, hr.state]
  by_cases hf : a.state x = .free
  · simpa [hf] using Returns.pure hr
  by_cases hx : x ∈ a.queue
  · simpa [hf, hx] using Returns.pure hr
  · obtain ⟨s', hs', hr'⟩ := appendTask_returns hr hx
    simpa [hf, hx, hs'] using Returns.pure (enter_rep hr' x)

theorem promote_rep (hr : Rep s a) (n : Option Slot) : Rep (promote s n) (promote a n) := by
  unfold promote
  cases n with
  | none => exact hr.setCurrent none
  | some c => exact (hr.setCurrent (some c)).modify c _

theorem removeTask_returns (hr : Rep s a) (x : Slot) :
    Returns (schedulerRemoveTask s x) (ListSched.removeTask a x) := by
  unfold schedulerRemoveTask ListSched.removeTask
  rw [inQueue_eq hr, hr.links.head]
  by_cases hx : x ∈ a.queue
  · have hl := hr.links.unlink hx
    have hu : Rep { s with queue := s.queue.unlink x } { a with queue := a.queue.erase x } :=
      { hr with links := hl }
    obtain ⟨y, hy⟩ : ∃ y, a.queue.head? = some y := by
      cases hq : a.queue with
      | nil => simp [hq] at hx
      | cons y l => exact ⟨y, rfl⟩
    rw [hy, if_pos hx]
    by_cases hc : a.current = some x
    · simpa [hx, hc, hr.current, hl.head, hr.idle] using Returns.pure (promote_rep hu _)
    · simpa [hx, hc, hr.current] using Returns.pure hu
  · rw [if_neg hx]
    cases a.queue.head? with
    | none => exact Returns.pure hr
    | some y => simpa [hx] using Returns.pure hr

/-! ### The choice of the next task -/

/-- Round the end of a list: in the order that begins with `l₂` and goes on with `l₁`, the element
after `y` is the one linked behind it, or the head where the links end. -/
theorem next_round {l₁ l₂ pre post : List Slot} {d y : Slot} (hn : (l₁ ++ d :: l₂).Nodup)
    (hh : (l₁ ++ d :: l₂).head? = some h) (e : d :: l₂ ++ l₁ = pre ++ y :: post) :
    (after (l₁ ++ d :: l₂) y).getD h = post.head?.getD d := by
  rcases List.append_eq_append_iff.mp e with ⟨t, ht, ht'⟩ | ⟨t, ht, ht'⟩
  · -- `y` is one of `l₁`
    have hy : y ∉ t := by
      have := (List.nodup_append.mp hn).1
      rw [ht'] at this
      exact fun hm => (List.nodup_append.mp this).2.2 y hm y (by simp) rfl
    have hafter : after (l₁ ++ d :: l₂) y = (post ++ d :: l₂).head? := by
      rw [ht', List.append_assoc, List.cons_append]
      exact after_append_cons hy
    rw [hafter]
    cases post <;> simp
  · -- `y` is one of `d :: l₂`, or the first of `l₁`
    cases t with
    | nil =>
      simp only [List.append_nil, List.nil_append] at ht ht'
      have hafter : after (l₁ ++ d :: l₂) y = (post ++ d :: l₂).head? := by
        rw [← ht', List.cons_append]
        simp [after]
      rw [hafter]
      cases post <;> simp
    | cons z t =>
      obtain ⟨rfl, hpost⟩ := List.cons.inj ht'
      have hy : y ∉ l₁ ++ pre := by
        have : (l₁ ++ pre ++ y :: t).Nodup := by
          rw [List.append_assoc, ← ht]
          exact hn
        exact fun hm => (List.nodup_append.mp this).2.2 y hm y (by simp) rfl
      have hafter : after (l₁ ++ d :: l₂) y = t.head? := by
        rw [ht, ← List.append_assoc]
        exact after_append_cons hy
      rw [hafter, hpost]
      cases t with
      | cons b t => simp
      | nil =>
        cases l₁ with
        | nil => simpa using hh.symm
        | cons b l₁ => simpa using hh.symm

theorem rrScan_eq (hr : Rep s a) {l₁ l₂ : List Slot} {d : Slot} (hq : a.queue = l₁ ++ d :: l₂)
    (hh : a.queue.head? = some h) :
    rrScan s h d 256 d = (d :: l₂ ++ l₁).find? fun it => a.state it = .ready := by
  have hn := hr.links.nodup
  have hlen := length_le hn
  rw [hq] at hn hh hlen
  -- the part of the order not yet looked at, from `y` on
  have key : ∀ (n : ℕ) (pre post : List Slot) (y : Slot), d :: l₂ ++ l₁ = pre ++ y :: post →
      post.length < n →
      rrScan s h d n y = (y :: post).find? fun it => a.state it = .ready := by
    intro n
    induction n with
    | zero => intro _ _ _ _ hlt; omega
    | succ n ih =>
      intro pre post y e hlt
      have hnext : (s.queue.next y).getD h = post.head?.getD d := by
        rw [hr.links.next, hq]
        exact next_round hn hh e
      rw [rrScan, List.find?_cons, hr.state, hnext]
      by_cases hy : a.state y = .ready
      · simp [hy]
      · simp only [hy, if_false, decide_false]
        cases post with
        | nil => simp
        | cons z post =>
          have hz : z ≠ d := by
            have hn' : (d :: l₂ ++ l₁).Nodup := by
              rw [List.nodup_append_comm]
              exact hn
            rw [e] at hn'
            rintro rfl
            cases pre with
            | nil =>
              simp only [List.nil_append, List.cons_append, List.cons.injEq] at e
              simp [e.1] at hn'
            | cons b pre =>
              simp only [List.cons_append, List.cons.injEq] at e
              simp [e.1] at hn'
          simp only [List.head?_cons, Option.getD_some, hz, if_false]
          exact ih (pre ++ [y]) post z (by rw [e]; simp) (by simp at hlt; omega)
  exact key 256 [] (l₂ ++ l₁) d rfl (by simp at hlen ⊢; omega)

theorem turn_split {l₁ l₂ : List Slot} (hc : c ∉ l₁) :
    ListSched.turn (l₁ ++ c :: l₂) c = l₂ ++ l₁ ++ [c] := by
  have hl₁ : ∀ y ∈ l₁, decide (y ≠ c) = true := by
    intro y hy
    simp only [decide_eq_true_eq]
    rintro rfl
    exact hc hy
  have hdrop : (l₁ ++ c :: l₂).dropWhile (fun y => decide (y ≠ c)) = c :: l₂ := by
    rw [List.dropWhile_append_of_pos hl₁]
    simp
  have htake : (l₁ ++ c :: l₂).takeWhile (fun y => decide (y ≠ c)) = l₁ := by
    rw [List.takeWhile_append_of_pos hl₁]
    simp
  unfold ListSched.turn
  rw [if_pos (by simp), hdrop, htake]
  rfl

theorem pickOrder_split (hr : Rep s a) (hh : a.queue.head? = some h) :
    ∃ l₁ d l₂, a.queue = l₁ ++ d :: l₂ ∧ (s.current.bind s.queue.next).getD h = d ∧
      ListSched.pickOrder a = d :: l₂ ++ l₁ := by
  obtain ⟨l, hl⟩ : ∃ l, a.queue = h :: l := by
    cases hq : a.queue with
    | nil => simp [hq] at hh
    | cons y l =>
      rw [hq, List.head?_cons, Option.some.injEq] at hh
      exact ⟨l, by rw [hh]⟩
  unfold ListSched.pickOrder
  rw [hr.current]
  cases a.current with
  | none => exact ⟨[], h, l, hl, rfl, by simp [hl]⟩
  | some c =>
    simp only [Option.bind_some, hr.links.next]
    by_cases hc : c ∈ a.queue
    · obtain ⟨l₁, l₂, hq, hc₁⟩ := List.eq_append_cons_of_mem hc
      rw [hq, after_append_cons hc₁, turn_split hc₁]
      cases l₂ with
      | nil =>
        -- the current task is the last one: the scan begins at the head
        rw [hq] at hl
        exact ⟨[], h, l, by rw [hl]; rfl, rfl, by simpa using hl⟩
      | cons d l₂ => exact ⟨l₁ ++ [c], d, l₂, by simp, rfl, by simp⟩
    · refine ⟨[], h, l, hl, by rw [after_of_not_mem hc]; rfl, ?_⟩
      unfold ListSched.turn
      rw [if_neg hc, hl]
      simp

theorem bestStep_none (hnone : ∀ y ∈ l, a.state y ≠ .ready) (hs : s.task = a.task) :
    l.foldl (bestStep s) none = none := by
  induction l with
  | nil => rfl
  | cons y l ih =>
    have hy : s.state y ≠ .ready := by
      unfold Sched.state
      rw [hs]
      exact hnone y (by simp)
    have hstep : bestStep s none y = none := if_pos hy
    rw [List.foldl_cons, hstep]
    exact ih fun z hz => hnone z (List.mem_cons_of_mem _ hz)

/-- The state and the answer of a choice represent those of the list. -/
def Picks (r : Option (Kernel × Option Slot)) (p : ListSched × Option Slot) : Prop :=
  ∃ s, r = some (s, p.2) ∧ Rep s p.1

theorem pickIdle_picks (hr : Rep s a) : Picks (some (pickIdle s)) (pickIdle a) := by
  unfold pickIdle
  rw [hr.idle, hr.current]
  cases a.idle with
  | none => exact ⟨s, rfl, hr⟩
  | some i =>
    dsimp only
    rw [hr.state]
    by_cases hf : a.state i = .free
    · simp only [hf, if_true]
      exact ⟨s, rfl, hr⟩
    · by_cases hrun : a.state i = .running
      · rw [if_neg hf, if_neg hf, if_pos hrun, if_pos hrun]
        exact ⟨s, rfl, hr⟩
      · simp only [hf, hrun, if_false]
        exact ⟨_, rfl, hr.setState i _⟩

theorem pickReady_picks (hr : Rep s a) (hh : a.queue.head? = some h) :
    Picks (pickReady s h) (ListSched.pickReady a) := by
  obtain ⟨l₁, d, l₂, hq, hstart, horder⟩ := pickOrder_split hr hh
  unfold pickReady ListSched.pickReady
  rw [horder]
  dsimp only
  rw [hstart, rrScan_eq hr hq hh]
  cases hfind : (d :: l₂ ++ l₁).find? (fun it => decide (a.state it = .ready)) with
  | some it => exact ⟨s, rfl, hr⟩
  | none =>
    -- no task of the runqueue is ready, so the second scan finds none either
    have hnone : ∀ y ∈ a.queue, a.state y ≠ .ready := by
      intro y hy
      have hy' : y ∈ d :: l₂ ++ l₁ := by
        rw [hq] at hy
        simp only [List.mem_append] at hy ⊢
        exact hy.symm
      simpa using List.find?_eq_none.mp hfind y hy'
    have hfold : fold s.queue.next (bestStep s) 256 s.queue.head none = some none := by
      rw [hr.links.path.fold _ _ (length_le hr.links.nodup), bestStep_none hnone hr.task]
    simpa [hfold] using pickIdle_picks hr

theorem pickNext_picks (hr : Rep s a) : Picks (schedulerPickNext s) (ListSched.pickNext a) := by
  unfold schedulerPickNext ListSched.pickNext
  rw [hr.links.head]
  cases hq : a.queue with
  | nil =>
    simp only [List.head?_nil, if_true]
    exact ⟨s, by rw [hr.current, hr.idle], hr⟩
  | cons y l =>
    have hh : a.queue.head? = some y := by rw [hq]; rfl
    rw [if_neg (by simp)]
    simp only [List.head?_cons, hr.current]
    cases a.current with
    | none => exact pickReady_picks hr hh
    | some c =>
      dsimp only
      have hk : keepsRunning s c ↔ keepsRunning a c := by
        unfold keepsRunning Sched.state
        rw [hr.task]
      have hp : preempts s c = preempts a c := by
        unfold preempts Sched.state
        rw [hr.task]
      by_cases hkeep : keepsRunning a c
      · rw [if_pos hkeep, ← hq]
        simp only [hk.mpr hkeep, if_true, hp, scanQueue_eq hr]
        cases a.queue.find? (preempts a c) with
        | none => exact ⟨s, rfl, hr⟩
        | some it => exact ⟨s, rfl, hr⟩
      · rw [if_neg hkeep]
        simp only [mt hk.mp hkeep, if_false]
        exact pickReady_picks hr hh

/-! ### Scheduling -/

theorem tickWake_returns (hr : Rep s a) (x : Slot) :
    Returns (tickWake s x) (ListSched.tickWake a x) := by
  unfold tickWake ListSched.tickWake
  rw [hr.ticks, hr.task]
  by_cases hs : sleepOver a.ticks (a.task x)
  · rw [if_pos hs, if_pos hs]
    exact ensureQueued_returns (hr.modify x _) x
  · rw [if_neg hs, if_neg hs]
    exact Returns.pure hr

theorem tickWakes_returns (hr : Rep s a) (xs : List Slot) :
    Returns (xs.foldlM tickWake s) (xs.foldl ListSched.tickWake a) := by
  induction xs generalizing s a with
  | nil => exact Returns.pure hr
  | cons x xs ih =>
    rw [List.foldlM_cons, List.foldl_cons]
    exact (tickWake_returns hr x).bind fun s hr => ih hr

theorem tickTasks_returns (hr : Rep s a) : Returns (tickTasks s) (ListSched.tickTasks a) := by
  unfold tickTasks ListSched.tickTasks
  rw [hr.initialized, hr.current]
  split_ifs
  · exact Returns.pure hr
  · cases a.current with
    | none => exact Returns.pure hr
    | some c => exact tickWakes_returns (hr.modify c _) _

theorem tick_returns (hr : Rep s a) : Returns (schedulerTick s) (ListSched.tick a) :=
  tickTasks_returns { hr with ticks := by rw [hr.ticks] }

theorem rotate_eq {q : Links Slot} (hl : IsList q l) (hc : c ∈ l) {n : Slot}
    (hn : q.next c = some n) : (q.unlink c).append c = some (rotate q c) := by
  have hhead := hl.head
  have htail := hl.tail
  obtain ⟨y, l', rfl⟩ : ∃ y l', l = y :: l' := by
    cases l with
    | nil => simp at hc
    | cons y l' => exact ⟨y, l', rfl⟩
  obtain ⟨t, ht⟩ : ∃ t, (y :: l').getLast? = some t := ⟨_, List.getLast?_eq_some_getLast (by simp)⟩
  rw [List.head?_cons] at hhead
  rw [ht] at htail
  have hct : c ≠ t := by
    rintro rfl
    have := (after_reverse_none (List.nodup_reverse.mpr hl.nodup) 
      (List.mem_reverse.mpr hc)).mpr (by rw [List.head?_reverse, ht])
    rw [List.reverse_reverse, ← hl.next, hn] at this
    cases this
  have hfirst := after_reverse_none hl.nodup hc
  rw [← hl.prev, List.head?_cons] at hfirst
  unfold rotate Links.unlink Links.append
  simp only [hhead, htail, hn]
  cases hp : q.prev c with
  | none =>
    obtain rfl : y = c := by simpa using hfirst.mp hp
    simp [hp, hn]
  | some p =>
    have hyc : c ≠ y := by
      rintro rfl
      simp [hfirst.mpr rfl] at hp
    have hpc : c ≠ p := by
      rw [hl.prev] at hp
      exact after_ne (List.nodup_reverse.mpr hl.nodup) hp
    simp [hyc, hct, hpc, hp, hn]

theorem rotate_list {q : Links Slot} (hl : IsList q l) :
    IsList (rotate q c) (ListSched.toEnd l c) := by
  unfold ListSched.toEnd
  by_cases hc : c ∈ l
  · rw [if_pos hc]
    cases hn : q.next c with
    | some n =>
      have hnot : c ∉ l.erase c := hl.nodup.not_mem_erase
      obtain ⟨q', hq', hl'⟩ := (hl.unlink hc).append hnot
      rw [rotate_eq hl hc hn, Option.some.injEq] at hq'
      rwa [hq']
    | none =>
      -- the last task stays where it is
      have hrot : rotate q c = q := by
        unfold rotate
        rw [hn]
        cases q.head <;> cases q.tail <;> rfl
      have hlast : l.getLast? = some c := by
        have hr := List.nodup_reverse.mpr hl.nodup
        have := after_reverse_none hr (List.mem_reverse.mpr hc)
        rw [List.reverse_reverse, List.head?_reverse, ← hl.next] at this
        exact this.mp hn
      obtain ⟨l', rfl⟩ := List.getLast?_eq_some_iff.mp hlast
      have hc' : c ∉ l' := fun hm => (List.nodup_append.mp hl.nodup).2.2 c hm c (by simp) rfl
      rw [hrot, List.erase_append_right _ hc']
      simpa using hl
  · have hrot : rotate q c = q := by
      unfold rotate
      rw [hl.next_none hc]
      cases q.head <;> cases q.tail <;> rfl
    rw [if_neg hc, hrot]
    exact hl

theorem dispatch_rep (hr : Rep s a) (n : Slot) : Rep (dispatch s n) (dispatch a n) := by
  have h := (hr.setCurrent (some n)).modify n (runTask s.ticks)
  exact { h with task := by simp only [dispatch, Sched.modify, hr.task, hr.ticks] }

theorem switchTo_rep (hr : Rep s a) (c n : Slot) : Rep (switchTo s c n) (switchTo a c n) := by
  unfold switchTo
  rw [hr.state, hr.ticks]
  split_ifs
  · exact hr
  · exact hr.modify c _
  · exact dispatch_rep (hr.setState c _) n
  · exact dispatch_rep hr n

theorem expire_rep (hr : Rep s a) (c : Slot) :
    Rep (if s.state c = .running ∧ (s.task c).timeSlice = 0 then
        { s.modify c expireTask with queue := rotate s.queue c } else s) (ListSched.expire a c) := by
  unfold ListSched.expire
  rw [hr.state, hr.task]
  split_ifs
  · exact { hr.modify c expireTask with links := rotate_list hr.links }
  · exact hr

theorem schedule_returns (hr : Rep s a) : Returns (schedulerSchedule s) (ListSched.schedule a) := by
  unfold schedulerSchedule ListSched.schedule
  rw [hr.initialized, hr.current]
  split_ifs
  · exact Returns.pure hr
  · cases a.current with
    | none =>
      dsimp only
      obtain ⟨s', hs', hr'⟩ := pickNext_picks hr
      rw [hs']
      cases (ListSched.pickNext a).2 with
      | none => exact Returns.pure (hr'.setCurrent none)
      | some n => exact Returns.pure (dispatch_rep hr' n)
    | some c =>
      dsimp only
      obtain ⟨s', hs', hr'⟩ := pickNext_picks (expire_rep hr c)
      rw [hs']
      cases (ListSched.pickNext (ListSched.expire a c)).2 with
      | none => exact Returns.pure hr'
      | some n => exact Returns.pure (switchTo_rep hr' c n)

/-! ### The other calls -/

theorem freeSlot_eq (hr : Rep s a) : freeSlot s = freeSlot a := by
  unfold freeSlot Sched.state
  rw [hr.task]

theorem freeSlot_free {Q : Type} {s : Sched Q} {i : Slot} (h : freeSlot s = some i) :
    s.state i = .free := by
  simpa using List.find?_some h

theorem allocate_rep (hr : Rep s a) (hf : NoneFree a) :
    (tcbAllocate s).2 = (ListSched.allocate a).2 ∧
      Rep (tcbAllocate s).1 (ListSched.allocate a).1 := by
  unfold tcbAllocate ListSched.allocate
  rw [freeSlot_eq hr]
  cases hi : freeSlot a with
  | none => exact ⟨rfl, hr⟩
  | some i =>
    have hnot : i ∉ a.queue := fun hm => hf i hm (freeSlot_free hi)
    -- the links of a free slot are null already
    have hnext : Function.update s.queue.next i none = s.queue.next := by
      rw [Function.update_eq_self_iff, hr.links.next_none hnot]
    have hprev : Function.update s.queue.prev i none = s.queue.prev := by
      rw [Function.update_eq_self_iff, hr.links.prev_none hnot]
    refine ⟨rfl, ?_⟩
    dsimp only
    rw [hnext, hprev]
    exact { hr with
      task := by simp only [hr.task, hr.nextTid, hr.ticks]
      nextTid := by simp only [hr.nextTid] }

theorem setupContext_rep (hr : Rep s a) (x : Slot) (entry arg stack : ℕ) :
    Rep (tcbSetupContext s x entry arg stack) (tcbSetupContext a x entry arg stack) := by
  unfold tcbSetupContext
  rw [hr.task, hr.ticks]
  split_ifs
  · exact hr
  · exact hr.modify x _
  · exact hr
  · exact hr.modify x _

theorem create_returns (hr : Rep s a) (hf : NoneFree a) (entry arg priority stack : ℕ) :
    Picks (tcbCreate s entry arg priority stack)
      (ListSched.create a entry arg priority stack) := by
  obtain ⟨hx, hr'⟩ := allocate_rep hr hf
  unfold tcbCreate ListSched.create
  revert hx hr'
  generalize tcbAllocate s = p
  generalize ListSched.allocate a = p'
  obtain ⟨s', o⟩ := p
  obtain ⟨a', o'⟩ := p'
  rintro rfl hr'
  dsimp only at hr'
  cases o with
  | none => exact ⟨s', rfl, hr'⟩
  | some x =>
    have hc := setupContext_rep (hr'.modify x fun t =>
      { t with priority := priority, basePriority := priority }) x entry arg stack
    dsimp only
    rw [hc.initialized]
    split_ifs
    · obtain ⟨s'', hs'', hr''⟩ := addTask_returns hc x
      rw [hs'']
      exact ⟨s'', rfl, hr''⟩
    · exact ⟨_, rfl, hc⟩

theorem free_returns (hr : Rep s a) (x : Slot) : Returns (tcbFree s x) (ListSched.free a x) := by
  unfold tcbFree ListSched.free
  rw [hr.initialized]
  split_ifs
  · obtain ⟨s', hs', hr'⟩ := removeTask_returns hr x
    simp only [hs', Option.bind_eq_bind, Option.bind_some, Option.pure_def, hr'.current]
    refine Returns.pure (Rep.modify ?_ x _)
    by_cases hc : (ListSched.removeTask a x).current = some x
    · simp only [hc, if_true]
      exact hr'.setCurrent none
    · simp only [hc, if_false]
      exact hr'
  · exact Returns.pure (hr.modify x _)

theorem exit_returns (hr : Rep s a) : Returns (tcbExit s) (ListSched.exit a) := by
  unfold tcbExit ListSched.exit
  rw [hr.current]
  cases a.current with
  | none => exact Returns.pure hr
  | some self =>
    exact (removeTask_returns (hr.setState self _) self).bind fun s hr => schedule_returns hr

theorem start_rep (hr : Rep s a) : Rep (schedulerStart s) (ListSched.start a) := by
  unfold schedulerStart ListSched.start
  rw [hr.current, hr.initialized]
  cases a.current with
  | none => exact hr
  | some c =>
    dsimp only
    split_ifs
    · exact hr
    · exact hr.setState c _

theorem yield_returns (hr : Rep s a) : Returns (tcbYield s) (ListSched.yield a) := by
  unfold tcbYield ListSched.yield
  rw [hr.current, hr.initialized]
  cases a.current with
  | none => exact Returns.pure hr
  | some c =>
    dsimp only
    split_ifs
    · exact Returns.pure hr
    · exact schedule_returns (hr.modify c _)

theorem block_returns (hr : Rep s a) (x : Slot) : Returns (tcbBlock s x) (ListSched.block a x) := by
  have hb := hr.setState x .blocked
  unfold tcbBlock ListSched.block
  dsimp only
  rw [hb.current, hb.ticks]
  split_ifs
  · exact schedule_returns hb
  · exact Returns.pure (hb.modify x _)

theorem unblock_returns (hr : Rep s a) (x : Slot) :
    Returns (tcbUnblock s x) (ListSched.unblock a x) := by
  unfold tcbUnblock ListSched.unblock
  rw [hr.state]
  split_ifs
  · exact Returns.pure hr
  · exact ensureQueued_returns (hr.modify x _) x

theorem sleep_returns (hr : Rep s a) (ms : ℕ) : Returns (tcbSleep s ms) (ListSched.sleep a ms) := by
  unfold tcbSleep ListSched.sleep
  rw [hr.current, hr.initialized, hr.ticks]
  cases a.current with
  | none => exact Returns.pure hr
  | some c =>
    dsimp only
    split_ifs
    · exact Returns.pure hr
    · exact yield_returns hr
    · exact schedule_returns (hr.modify c _)

/-- **Simulation**: every call returns and does to the linked runqueue what it does to the list. -/
theorem step_returns (hr : Rep s a) (hf : NoneFree a) (op : Op) :
    Returns (step s op) (ListSched.step a op) := by
  cases op with
  | allocate => exact Returns.pure (allocate_rep hr hf).2
  | create entry arg priority stack =>
    obtain ⟨s', hs', hr'⟩ := create_returns hr hf entry arg priority stack
    exact ⟨s', by simp only [step, hs', Option.map_some], hr'⟩
  | free x => exact free_returns hr x
  | exit => exact exit_returns hr
  | addTask x => exact addTask_returns hr x
  | removeTask x => exact removeTask_returns hr x
  | tick => exact tick_returns hr
  | schedule => exact schedule_returns hr
  | start => exact Returns.pure (start_rep hr)
  | yield => exact yield_returns hr
  | block x => exact block_returns hr x
  | unblock x => exact unblock_returns hr x
  | sleep ms => exact sleep_returns hr ms

/-! ### Initialisation -/

theorem tcbInit_rep : Rep tcbInit (tcbInit.withQueue []) where
  links :=
    { nodup := List.nodup_nil
      head := rfl
      tail := rfl
      next := fun _ => rfl
      prev := fun _ => rfl }
  task := rfl
  nextTid := rfl
  current := rfl
  ticks := rfl
  initialized := rfl
  idle := rfl

theorem startIdle_rep (hr : Rep s a) (idle : Option Slot) :
    Rep (startIdle s idle) (startIdle a idle) := by
  have hr' : Rep { s with idle := idle } { a with idle := idle } := { hr with idle := rfl }
  unfold startIdle
  dsimp only
  by_cases hc : a.current = none
  · rw [if_pos hc, if_pos (hr.current.trans hc)]
    cases idle with
    | none => exact hr'
    | some i => exact (hr'.setCurrent (some i)).setState i _
  · rw [if_neg hc, if_neg fun e => hc (hr.current.symm.trans e)]
    exact hr'

theorem init_returns (entry stack : ℕ) :
    Returns (schedulerInit entry stack) (ListSched.init entry stack) := by
  have hf : NoneFree (tcbInit.withQueue []) := fun _ hy => absurd hy List.not_mem_nil
  obtain ⟨s, hs, hr⟩ := create_returns tcbInit_rep hf entry 0 0 stack
  unfold schedulerInit ListSched.init
  rw [hs]
  exact Returns.pure (startIdle_rep hr _)

end Kerneloid.Tcb.Simulation
