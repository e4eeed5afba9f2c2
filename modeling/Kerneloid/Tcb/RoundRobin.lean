import Kerneloid.Tcb.Runqueue
import Mathlib.Data.List.Rotate

/-! # Round robin

`tcb_yield` puts the current task behind all others and runs the first ready task of the runqueue.
So the runnable tasks, in the order of the runqueue, stand in a line (`line`): a yield moves the
current task to the end of the line, and the head of the line becomes current (`yield_turn`). From
the second yield on the current task is the head of the line, and the line turns (`yields_turn`). -/

namespace Kerneloid.Tcb.RoundRobin

open Lib.Runs Types ListSched States Simulation Runqueue
open Ops hiding ensureQueued pickReady tickWake tickTasks step

variable {a b : ListSched} {c n x : Slot}

/-- The runnable tasks in the order of the runqueue. -/
def line (a : ListSched) : List Slot := a.queue.filter (runnable a)

/-- Task `c` is current, runs and is on the runqueue, and no other task of the runqueue runs. -/
structure Running (a : ListSched) (c : Slot) : Prop where
  initialized : a.initialized = true
  nodup : a.queue.Nodup
  current : a.current = some c
  mem : c ∈ a.queue
  running : a.state c = .running
  single : ∀ x ∈ a.queue, a.state x = .running → x = c

/-- The state after the slice of `c` is taken away and used up. -/
def stepBack (a : ListSched) (c : Slot) : ListSched :=
  expire (a.modify c fun t => { t with timeSlice := 0 }) c

theorem stepBack_queue (h : Running a c) : (stepBack a c).queue = a.queue.erase c ++ [c] := by
  have hrun : (a.modify c fun t => { t with timeSlice := 0 }).state c = .running := by
    rw [state_modify, if_pos rfl]
    exact h.running
  unfold stepBack expire
  rw [if_pos ⟨hrun, by simp⟩]
  exact if_pos h.mem

theorem stepBack_state (h : Running a c) (x : Slot) :
    (stepBack a c).state x = if x = c then .ready else a.state x := by
  have hrun : (a.modify c fun t => { t with timeSlice := 0 }).state c = .running := by
    rw [state_modify, if_pos rfl]
    exact h.running
  have hexp : (stepBack a c).state x = ((a.modify c fun t =>
      { t with timeSlice := 0 }).modify c expireTask).state x := by
    unfold stepBack expire
    rw [if_pos ⟨hrun, by simp⟩]
  rw [hexp, state_modify, state_modify]
  by_cases hx : x = c
  · rw [if_pos hx, if_pos hx]
    rfl
  · rw [if_neg hx, if_neg hx, if_neg hx]

theorem stepBack_fixed (a : ListSched) (c : Slot) :
    (stepBack a c).current = a.current ∧ (stepBack a c).initialized = a.initialized := by
  unfold stepBack expire
  split_ifs <;> exact ⟨rfl, rfl⟩

theorem stepBack_ready (h : Running a c) (hq : x ∈ a.queue) :
    decide ((stepBack a c).state x = .ready) = runnable a x := by
  unfold runnable
  rw [stepBack_state h, decide_eq_decide]
  by_cases hx : x = c
  · subst hx
    simp [h.running]
  · rw [if_neg hx]
    constructor
    · exact Or.inl
    · rintro (hr | hr)
      · exact hr
      · exact absurd (h.single x hq hr) hx

theorem perm_back (h : Running a c) : (a.queue.erase c ++ [c]).Perm a.queue :=
  (List.perm_append_singleton c _).trans (List.perm_cons_erase h.mem).symm

theorem filter_back (h : Running a c) :
    (a.queue.erase c ++ [c]).filter (runnable a) = (line a).erase c ++ [c] := by
  have hc : runnable a c = true := by simp [runnable, h.running]
  unfold line
  rw [List.filter_append, (h.nodup.filter _).erase_eq_filter, h.nodup.erase_eq_filter,
    List.filter_filter, List.filter_filter]
  congr 1
  · exact List.filter_congr fun x _ => Bool.and_comm _ _
  · simp [hc]

theorem pickNext_back (h : Running a c) :
    ∃ n, ((line a).erase c ++ [c]).head? = some n ∧
      pickNext (stepBack a c) = (stepBack a c, some n) := by
  have hq := stepBack_queue h
  have hcur : (stepBack a c).current = some c := (stepBack_fixed a c).1.trans h.current
  have hnot : c ∉ a.queue.erase c := h.nodup.not_mem_erase
  have horder : pickOrder (stepBack a c) = a.queue.erase c ++ [c] := by
    unfold pickOrder
    rw [hcur, hq]
    exact (turn_split hnot).trans (by simp)
  have hkeep : ¬ keepsRunning (stepBack a c) c := by
    intro hk
    have := hk.1
    rw [stepBack_state h, if_pos rfl] at this
    cases this
  have hfind : (pickOrder (stepBack a c)).find?
      (fun it => decide ((stepBack a c).state it = .ready)) = ((line a).erase c ++ [c]).head? := by
    have hready : ∀ x ∈ a.queue.erase c ++ [c],
        decide ((stepBack a c).state x = .ready) = runnable a x :=
      fun x hx => stepBack_ready h ((perm_back h).mem_iff.mp hx)
    rw [← filter_back h, horder, ← List.head?_filter, List.filter_congr hready]
  obtain ⟨n, hn⟩ : ∃ n, ((line a).erase c ++ [c]).head? = some n := by
    cases (line a).erase c with
    | nil => exact ⟨c, rfl⟩
    | cons y _ => exact ⟨y, rfl⟩
  refine ⟨n, hn, ?_⟩
  have hne : (stepBack a c).queue ≠ [] := by
    rw [hq]
    simp
  unfold pickNext
  rw [if_neg hne, hcur]
  dsimp only
  rw [if_neg hkeep]
  unfold ListSched.pickReady
  rw [hfind, hn]

/-- The processor is handed to task `n`, and nothing else changes. -/
structure Handed (a b : ListSched) (n : Slot) : Prop where
  queue : b.queue = a.queue
  current : b.current = some n
  initialized : b.initialized = a.initialized
  state : ∀ x, b.state x = if x = n then .running else a.state x

theorem dispatch_handed (a : ListSched) (n : Slot) : Handed a (dispatch a n) n :=
  ⟨rfl, rfl, rfl, fun _ => state_modify _ _ _ _⟩

theorem switchTo_handed (hc : b.state c ≠ .running) (hcur : b.current = some c) (n : Slot) :
    Handed b (switchTo b c n) n := by
  unfold switchTo
  by_cases hn : n = c
  · subst hn
    rw [if_pos rfl, if_neg hc]
    exact ⟨rfl, hcur, rfl, fun x => state_modify _ _ _ _⟩
  · rw [if_neg hn, if_neg hc]
    exact dispatch_handed b n

theorem schedule_back (h : Running a c) :
    ∃ n, ((line a).erase c ++ [c]).head? = some n ∧
      Handed (stepBack a c) (schedule (a.modify c fun t => { t with timeSlice := 0 })) n := by
  obtain ⟨n, hn, hpick⟩ := pickNext_back h
  have hinit : (a.modify c fun t => { t with timeSlice := 0 }).initialized ≠ false := by
    rw [modify_initialized, h.initialized]
    simp
  have hback : (stepBack a c).state c ≠ .running := by
    rw [stepBack_state h, if_pos rfl]
    simp
  refine ⟨n, hn, ?_⟩
  unfold schedule
  rw [if_neg hinit, modify_current, h.current]
  dsimp only
  rw [show expire _ c = stepBack a c from rfl, hpick]
  exact switchTo_handed hback ((stepBack_fixed a c).1.trans h.current) n

theorem yield_eq (h : Running a c) :
    ListSched.yield a = schedule (a.modify c fun t => { t with timeSlice := 0 }) := by
  unfold ListSched.yield
  rw [h.current]
  exact if_neg (by rw [h.initialized]; simp)

/-- **One yield**: the line moves up by one behind the old current task, and its head runs. -/
theorem yield_turn (h : Running a c) :
    ∃ n, ((line a).erase c ++ [c]).head? = some n ∧ Running (ListSched.yield a) n ∧
      line (ListSched.yield a) = (line a).erase c ++ [c] ∧
      ∀ x, a.state x = .blocked → (ListSched.yield a).state x = .blocked := by
  obtain ⟨n, hn, hto⟩ := schedule_back h
  rw [← yield_eq h] at hto
  have hq : (ListSched.yield a).queue = a.queue.erase c ++ [c] := hto.queue.trans (stepBack_queue h)
  -- the head of the line is a runnable task of the runqueue
  have hmem : n ∈ (a.queue.erase c ++ [c]).filter (runnable a) := by
    rw [filter_back h]
    exact List.mem_of_head? hn
  rw [List.mem_filter] at hmem
  obtain ⟨hnq, hnrun⟩ := hmem
  have hstate : ∀ x, (ListSched.yield a).state x =
      if x = n then .running else if x = c then .ready else a.state x := by
    intro x
    rw [hto.state, stepBack_state h]
  have hrunnable : runnable (ListSched.yield a) = runnable a := by
    funext x
    unfold runnable
    rw [hstate]
    by_cases hxn : x = n
    · subst hxn
      simpa [runnable] using hnrun
    · by_cases hxc : x = c
      · subst hxc
        simp [hxn, h.running]
      · simp [hxn, hxc]
  refine ⟨n, hn, ⟨?_, ?_, hto.current, ?_, ?_, ?_⟩, ?_, ?_⟩
  · rw [hto.initialized, (stepBack_fixed a c).2, h.initialized]
  · rw [hq]
    exact (perm_back h).nodup_iff.mpr h.nodup
  · rw [hq]
    exact hnq
  · rw [hstate, if_pos rfl]
  · intro x hxq hx
    rw [hq, (perm_back h).mem_iff] at hxq
    rw [hstate] at hx
    split_ifs at hx with h₁ h₂
    · exact h₁
    · exact absurd (h.single x hxq hx) h₂
  · unfold line
    rw [hrunnable, hq]
    exact filter_back h
  · intro x hx
    have hxn : x ≠ n := by
      rintro rfl
      simp [runnable, hx] at hnrun
    have hxc : x ≠ c := by
      rintro rfl
      rw [h.running] at hx
      cases hx
    rw [hstate, if_neg hxn, if_neg hxc]
    exact hx

theorem erase_head_turn {l : List Slot} (h : l.head? = some c) : l.erase c ++ [c] = l.rotate 1 := by
  cases l with
  | nil => cases h
  | cons y l =>
    obtain rfl : y = c := by simpa using h
    simp

/-- **A run of yields**: after `i + 1` of them the line of the first yield has turned `i` times and
its head runs. -/
theorem yields_turn (h : Running a c) (i : ℕ) (hi : i < (line a).length) :
    ∃ n, ((line a).erase c ++ [c])[i]? = some n ∧ Running (ListSched.yield^[i + 1] a) n ∧
      line (ListSched.yield^[i + 1] a) = ((line a).erase c ++ [c]).rotate i ∧
      ∀ x, a.state x = .blocked → (ListSched.yield^[i + 1] a).state x = .blocked := by
  have hcl : c ∈ line a := List.mem_filter.mpr ⟨h.mem, by simp [runnable, h.running]⟩
  have hlen : ((line a).erase c ++ [c]).length = (line a).length := by
    have hpos := List.length_pos_of_mem hcl
    simp [List.length_erase_of_mem hcl]
    omega
  induction i with
  | zero =>
    obtain ⟨n, hn, hrun, hline, hb⟩ := yield_turn h
    exact ⟨n, by rw [← List.head?_eq_getElem?]; exact hn, hrun, by simpa using hline, hb⟩
  | succ i ih =>
    obtain ⟨d, hd, hrun, hline, hb⟩ := ih (by omega)
    obtain ⟨n, hn, hrun', hline', hb'⟩ := yield_turn hrun
    have hhead : (line (ListSched.yield^[i + 1] a)).head? = some d := by
      rw [hline, List.head?_rotate (by omega)]
      exact hd
    rw [erase_head_turn hhead, hline, List.rotate_rotate] at hn hline'
    rw [List.head?_rotate (by omega)] at hn
    rw [Function.iterate_succ_apply']
    exact ⟨n, hn, hrun', hline', fun x hx => hb' x (hb x hx)⟩

theorem yields_return {s : Kernel} (hr : Rep s a) (i : ℕ) :
    ∃ s', (List.replicate i Op.yield).foldl (lift Ops.step) (some s) = some s' ∧
      Rep s' (ListSched.yield^[i] a) := by
  induction i with
  | zero => exact ⟨s, rfl, hr⟩
  | succ i ih =>
    obtain ⟨s', hs', hr'⟩ := ih
    obtain ⟨s'', hs'', hr''⟩ := yield_returns hr'
    refine ⟨s'', ?_, ?_⟩
    · rw [List.replicate_succ', List.foldl_append, hs']
      exact hs''
    · rw [Function.iterate_succ_apply']
      exact hr''

/-- **Round-robin fairness of `tcb_yield`.** If the current task is on the runqueue and is the one
that runs, as many yields as there are runnable tasks on the runqueue make each of these current
exactly once, and no blocked task is dispatched. -/
theorem yield_fair {s : Kernel} {l : List Slot} (hw : WellLinked s l)
    (hinit : s.initialized = true) (hcur : s.current = some c) (hmem : c ∈ l)
    (hrun : s.state c = .running) (hsingle : ∀ x ∈ l, s.state x = .running → x = c) :
    ∃ order : List Slot, order.Perm (l.filter (runnable s)) ∧ order.Nodup ∧
      ∀ (i : ℕ) (hi : i < order.length),
        ∃ s', (List.replicate (i + 1) Op.yield).foldl (lift Ops.step) (some s) = some s' ∧
          s'.current = some order[i] ∧
          ∀ x, s.state x = .blocked → s'.state x = .blocked := by
  have hr : Rep s (s.withQueue l) := ⟨hw.isList, rfl, rfl, rfl, rfl, rfl, rfl⟩
  have h : Running (s.withQueue l) c := ⟨hinit, hw.nodup, hcur, hmem, hrun, hsingle⟩
  have hcl : c ∈ line (s.withQueue l) :=
    List.mem_filter.mpr ⟨hmem, by simp [runnable, h.running]⟩
  have hperm : ((line (s.withQueue l)).erase c ++ [c]).Perm (l.filter (runnable s)) :=
    (List.perm_append_singleton c _).trans (List.perm_cons_erase hcl).symm
  refine ⟨_, hperm, hperm.nodup_iff.mpr (hw.nodup.filter _), ?_⟩
  intro i hi
  have hi' : i < (line (s.withQueue l)).length := hperm.length_eq ▸ hi
  obtain ⟨n, hn, hrun', -, hb⟩ := yields_turn h i hi'
  obtain ⟨s', hs', hr'⟩ := yields_return hr (i + 1)
  refine ⟨s', hs', ?_, ?_⟩
  · rw [hr'.current, hrun'.current, ← hn, List.getElem?_eq_getElem hi]
  · intro x hx
    rw [hr'.state]
    exact hb x hx

/-- Three tasks on the runqueue: the first runs, the second is blocked, the third is ready. -/
def threeTasks : Kernel where
  task x :=
    { initTask with
      state := if x = 0 then .running else if x = 1 then .blocked else if x = 2 then .ready else .free
      timeSlice := 3 }
  nextTid := 4
  queue :=
    { next := fun x => if x = 0 then some 1 else if x = 1 then some 2 else none
      prev := fun x => if x = 1 then some 0 else if x = 2 then some 1 else none
      head := some 0
      tail := some 2 }
  current := some 0
  ticks := 0
  initialized := true
  idle := some 0

theorem threeTasks_wellLinked : WellLinked threeTasks [0, 1, 2] where
  reached := .cons (.cons (.cons .nil))
  nodup := by decide
  head_prev := by decide +kernel
  tail_next := by decide +kernel
  next_prev := by decide +kernel
  tail_last := rfl
  head_tail := by decide +kernel
  off := by decide +kernel

theorem yield_fair_three :
    ∃ order : List Slot, order.Perm ([0, 1, 2].filter (runnable threeTasks)) ∧ order.Nodup ∧
      ∀ (i : ℕ) (hi : i < order.length),
        ∃ s', (List.replicate (i + 1) Op.yield).foldl (lift Ops.step) (some threeTasks) = some s' ∧
          s'.current = some order[i] ∧
          ∀ x, threeTasks.state x = .blocked → s'.state x = .blocked :=
  yield_fair threeTasks_wellLinked rfl rfl (by decide) rfl (by decide +kernel)

end Kerneloid.Tcb.RoundRobin
