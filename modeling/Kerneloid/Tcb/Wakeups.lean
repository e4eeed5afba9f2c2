import Kerneloid.Tcb.Runqueue

/-! # Wake-ups by the timer

A task that sleeps is blocked and has the time to wake up in its accounting field `sleep_time`,
which `scheduler_tick` compares with the clock. The calls are watched: beside the state stands the
number of ticks there were and how each task was blocked the last time.

`tcb_sleep` sets the field, and nothing but a wake-up by the timer clears it. So the field may be
left over from a sleep that was ended by `tcb_unblock`, and wakes the task from a later block that
was no sleep. And `tcb_sleep` rounds up in 32 bits, where the greatest values of `ms` come out as
one tick. With neither of the two, wake-ups are exact (`timer_wakeups`). -/

namespace Kerneloid.Tcb.Wakeups

open Lib.Runs Types ListSched States Simulation Runqueue
open Ops hiding ensureQueued pickReady tickWake tickTasks step

variable {s : Kernel}

/-! ### The system -/

/-- How a task was blocked: by `tcb_sleep(ms)` at the time `since`, or by `tcb_block`. -/
inductive Block
  | sleep (ms since : ℕ)
  | block
  deriving DecidableEq

/-- The state, the number of ticks so far, and how each task was blocked the last time. -/
structure Watched where
  kernel : Kernel
  clock : ℕ
  last : Slot → Option Block

/-- The calls that are watched. -/
inductive Call
  | sleep (ms : UInt32)
  | block (x : Slot)
  | unblock (x : Slot)
  | tick
  | schedule
  deriving DecidableEq

/-- The task that `tcb_sleep(ms)` blocks. -/
def sleeper {Q : Type} (s : Sched Q) (ms : ℕ) : Option Slot :=
  if s.initialized = false ∨ ms = 0 then none else s.current

/-- Task `x`, if there is one, is blocked by `b`. -/
def note (last : Slot → Option Block) (x : Option Slot) (b : Block) : Slot → Option Block :=
  match x with
  | none => last
  | some x => Function.update last x (some b)

/-- A call that is watched. -/
def watch (w : Watched) : Call → Option Watched
  | .sleep ms => (tcbSleep w.kernel ms.toNat).map fun s =>
      ⟨s, w.clock, note w.last (sleeper w.kernel ms.toNat) (.sleep ms.toNat w.clock)⟩
  | .block x => (tcbBlock w.kernel x).map fun s => ⟨s, w.clock, note w.last (some x) .block⟩
  | .unblock x => (tcbUnblock w.kernel x).map fun s => ⟨s, w.clock, w.last⟩
  | .tick => (schedulerTick w.kernel).map fun s => ⟨s, w.clock + 1, w.last⟩
  | .schedule => (schedulerSchedule w.kernel).map fun s => ⟨s, w.clock, w.last⟩

/-- The watch begins. -/
def Watched.start (s : Kernel) : Watched := ⟨s, s.ticks, fun _ => none⟩

/-- Task `x` was blocked the last time by a sleep of `ms`, and `⌈ms / 10⌉` ticks have passed. -/
def Rested (w : Watched) (x : Slot) : Prop :=
  ∃ ms since, w.last x = some (.sleep ms since) ∧ since + (ms + 9) / 10 ≤ w.clock

/-- **The tick from `w` to `w'` is exact**: every task that it made ready is rested. -/
def Exact (w w' : Watched) : Prop :=
  ∀ x, w.kernel.state x = .blocked → w'.kernel.state x = .ready → Rested w' x

variable {a b d : ListSched} {x y c : Slot} {ms : ℕ}

/-! ### What the calls do to the times -/

/-- The clock and the times until which tasks sleep stay. -/
structure SameTimes (a b : ListSched) : Prop where
  ticks : b.ticks = a.ticks
  sleepTime : ∀ y, (b.task y).accounting.sleepTime = (a.task y).accounting.sleepTime

theorem dispatching_times : Dispatching SameTimes where
  refl _ := ⟨rfl, fun _ => rfl⟩
  trans h h' := ⟨h'.ticks.trans h.ticks, fun y => (h'.sleepTime y).trans (h.sleepTime y)⟩
  modify a x f hf := by
    refine ⟨rfl, fun y => ?_⟩
    by_cases e : y = x
    · rw [e, modify_self]
      exact hf.sleepTime _
    · rw [modify_ne _ _ e]
  current _ _ := ⟨rfl, fun _ => rfl⟩
  queue _ _ _ := ⟨rfl, fun _ => rfl⟩

theorem sleep_times (a : ListSched) (ms : ℕ) :
    (ListSched.sleep a ms).ticks = a.ticks ∧
      ∀ y, ((ListSched.sleep a ms).task y).accounting.sleepTime =
        if sleeper a ms = some y then (a.ticks + ticksToSleep ms) % 2 ^ 64
        else (a.task y).accounting.sleepTime := by
  unfold ListSched.sleep sleeper
  cases hc : a.current with
  | none => simp
  | some c =>
    dsimp only
    by_cases hi : a.initialized = false
    · rw [if_pos hi, if_pos (Or.inl hi)]
      exact ⟨rfl, fun _ => rfl⟩
    by_cases hms : ms = 0
    · rw [if_neg hi, if_pos hms, if_pos (Or.inr hms)]
      exact ⟨(dispatching_times.yield a).ticks, (dispatching_times.yield a).sleepTime⟩
    rw [if_neg hi, if_neg hms, if_neg (not_or.mpr ⟨hi, hms⟩)]
    have hsched := dispatching_times.schedule
      (a.modify c (sleepTask ((a.ticks + ticksToSleep ms) % 2 ^ 64)))
    refine ⟨hsched.ticks, fun y => (hsched.sleepTime y).trans ?_⟩
    by_cases e : c = y
    · rw [e, modify_self, if_pos rfl]
      rfl
    · rw [modify_ne _ _ (Ne.symm e), if_neg fun h => e (Option.some.inj h)]

theorem tickWake_task (a : ListSched) (x y : Slot) :
    (tickWake a x).ticks = a.ticks ∧ (tickWake a x).task y =
      if y = x ∧ sleepOver a.ticks (a.task y) then wakeSleeper (a.task y) else a.task y := by
  have hqueued : ∀ b : ListSched, (ensureQueued b x).ticks = b.ticks ∧
      (ensureQueued b x).task = b.task := by
    intro b
    unfold ensureQueued
    split_ifs <;> exact ⟨rfl, rfl⟩
  unfold tickWake
  by_cases hover : sleepOver a.ticks (a.task x)
  · rw [if_pos hover, (hqueued _).1, (hqueued _).2]
    refine ⟨rfl, ?_⟩
    by_cases e : y = x
    · rw [e, modify_self, if_pos ⟨rfl, hover⟩]
    · rw [modify_ne _ _ e, if_neg fun h => e h.1]
  · rw [if_neg hover]
    refine ⟨rfl, (if_neg ?_).symm⟩
    rintro ⟨rfl, h⟩
    exact hover h

theorem tickWakes_task (y : Slot) : ∀ (xs : List Slot) (a : ListSched),
    (xs.foldl tickWake a).ticks = a.ticks ∧ (xs.foldl tickWake a).task y =
      if y ∈ xs ∧ sleepOver a.ticks (a.task y) then wakeSleeper (a.task y) else a.task y
  | [], a => ⟨rfl, by simp⟩
  | x :: xs, a => by
    obtain ⟨hticks, htask⟩ := tickWake_task a x y
    obtain ⟨hticks', htask'⟩ := tickWakes_task y xs (tickWake a x)
    rw [List.foldl_cons]
    refine ⟨hticks'.trans hticks, htask'.trans ?_⟩
    rw [hticks]
    by_cases hwoken : y = x ∧ sleepOver a.ticks (a.task y)
    · -- a task that was woken is not woken again
      have hdone : ¬ sleepOver a.ticks (wakeSleeper (a.task y)) := fun h => nomatch h.1
      rw [if_pos hwoken] at htask
      rw [htask, if_neg fun h => hdone h.2, if_pos ⟨hwoken.1 ▸ List.mem_cons_self, hwoken.2⟩]
    · rw [if_neg hwoken] at htask
      rw [htask]
      refine if_congr ⟨fun h => ⟨List.mem_cons_of_mem x h.1, h.2⟩, fun h => ⟨?_, h.2⟩⟩ rfl rfl
      exact (List.mem_cons.mp h.1).resolve_left fun e => hwoken ⟨e, h.2⟩

/-- The next tick wakes task `x`. -/
def Due {Q : Type} (s : Sched Q) (x : Slot) : Prop :=
  s.initialized = true ∧ s.current ≠ none ∧ sleepOver ((s.ticks + 1) % 2 ^ 64) (s.task x)

instance {Q : Type} (s : Sched Q) (x : Slot) : Decidable (Due s x) :=
  inferInstanceAs (Decidable (_ ∧ _ ∧ _))

theorem due_blocked (h : Due a x) : a.state x = .blocked := h.2.2.1

/-- The loop on a state `b` in which the clock is at `now` and task `y` has the state and the time
of the task `t`. -/
theorem tickWakes_due {now : ℕ} {t : Task} (hticks : b.ticks = now) (hstate : b.state y = t.state)
    (hsleep : (b.task y).accounting.sleepTime = t.accounting.sleepTime) :
    ((List.finRange 256).foldl tickWake b).ticks = now ∧
      (sleepOver now t → ((List.finRange 256).foldl tickWake b).state y = .ready ∧
        (((List.finRange 256).foldl tickWake b).task y).accounting.sleepTime = 0) ∧
      (¬ sleepOver now t → ((List.finRange 256).foldl tickWake b).state y = t.state ∧
        (((List.finRange 256).foldl tickWake b).task y).accounting.sleepTime =
          t.accounting.sleepTime) := by
  obtain ⟨hticks', htask⟩ := tickWakes_task y (List.finRange 256) b
  have hover : sleepOver b.ticks (b.task y) ↔ sleepOver now t := by
    unfold sleepOver
    rw [hticks, hsleep, show (b.task y).state = t.state from hstate]
  generalize (List.finRange 256).foldl tickWake b = b' at hticks' htask ⊢
  unfold Sched.state
  rw [htask]
  refine ⟨hticks'.trans hticks, fun h => ?_, fun h => ?_⟩
  · rw [if_pos ⟨List.mem_finRange y, hover.mpr h⟩]
    exact ⟨rfl, rfl⟩
  · rw [if_neg fun h' => h (hover.mp h'.2)]
    exact ⟨hstate, hsleep⟩

theorem tick_task (a : ListSched) (y : Slot) :
    (tick a).ticks = (a.ticks + 1) % 2 ^ 64 ∧
      (Due a y → (tick a).state y = .ready ∧ ((tick a).task y).accounting.sleepTime = 0) ∧
      (¬ Due a y → (tick a).state y = a.state y ∧
        ((tick a).task y).accounting.sleepTime = (a.task y).accounting.sleepTime) := by
  unfold tick tickTasks Due
  generalize (a.ticks + 1) % 2 ^ 64 = now
  by_cases hi : a.initialized = false
  · rw [if_pos hi]
    exact ⟨rfl, fun h => by simp [hi] at h, fun _ => ⟨rfl, rfl⟩⟩
  rw [if_neg hi]
  cases hc : a.current with
  | none => exact ⟨rfl, fun h => absurd rfl h.2.1, fun _ => ⟨rfl, rfl⟩⟩
  | some c =>
    dsimp only
    generalize hb : Sched.modify _ c tickTask = b
    have hstate : b.state y = a.state y := by
      rw [← hb]
      exact state_modify_same _ _ _ rfl
    have hsleep : (b.task y).accounting.sleepTime = (a.task y).accounting.sleepTime := by
      rw [← hb]
      by_cases e : y = c
      · rw [e, modify_self]
        rfl
      · rw [modify_ne _ _ e]
    have hticks : b.ticks = now := by
      rw [← hb]
      rfl
    obtain ⟨h₁, h₂, h₃⟩ := tickWakes_due (t := a.task y) hticks hstate hsleep
    refine ⟨h₁, fun h => h₂ h.2.2, fun h => h₃ fun ho => h ⟨by simpa using hi, nofun, ho⟩⟩

/-! ### Runs -/

/-- The clock is far from its end. -/
def Timed (w : Watched) (_ : Call) : Prop := w.clock + 2 ^ 32 ≤ 2 ^ 64

/-- **The calls that keep wake-ups exact**: `ms` can be rounded up in 32 bits, and a task that is
blocked otherwise has no time left over from a sleep. -/
def Orderly (w : Watched) (call : Call) : Prop :=
  Timed w call ∧ match call with
    | .sleep ms => ms.toNat + 9 < 2 ^ 32
    | .block x => (w.kernel.task x).accounting.sleepTime = 0
    | _ => True

instance (w : Watched) (call : Call) : Decidable (Timed w call) :=
  inferInstanceAs (Decidable (_ ≤ _))

instance (w : Watched) : ∀ call, Decidable (Orderly w call)
  | .sleep _ => inferInstanceAs (Decidable (_ ∧ _ < _))
  | .block _ => inferInstanceAs (Decidable (_ ∧ _ = _))
  | .unblock _ | .tick | .schedule => inferInstanceAs (Decidable (_ ∧ True))

/-- A relation between the last block of a task and the time until which it sleeps, which the calls
that `ok` admits keep. -/
structure Tracking (ok : Watched → Call → Prop) (D : Option Block → ℕ → Prop) : Prop where
  timed : ∀ {w call}, ok w call → Timed w call
  start : D none 0
  woken : ∀ {b n}, D b n → D b 0
  slept : ∀ {w ms}, ok w (.sleep ms) →
    D (some (.sleep ms.toNat w.clock)) (w.clock + ticksToSleep ms.toNat)
  blocked : ∀ {w x}, ok w (.block x) → D (some .block) (w.kernel.task x).accounting.sleepTime

/-- What holds in every state that is watched. -/
structure Clocked (D : Option Block → ℕ → Prop) (w : Watched) (a : ListSched) : Prop where
  rep : Rep w.kernel a
  clock : a.ticks = w.clock
  last : ∀ x, D (w.last x) (a.task x).accounting.sleepTime

variable {ok : Watched → Call → Prop} {D : Option Block → ℕ → Prop} {w : Watched}

theorem Clocked.same (h : Clocked D w a) (hr : Rep s b) (hb : SameTimes a b) :
    Clocked D ⟨s, w.clock, w.last⟩ b :=
  ⟨hr, hb.ticks.trans h.clock, fun x => (hb.sleepTime x).symm ▸ h.last x⟩

theorem ticksToSleep_lt (ms : ℕ) : ticksToSleep ms < 2 ^ 32 := by
  unfold ticksToSleep
  dsimp only
  split_ifs <;> omega

theorem Clocked.sleep (h : Clocked D w a) (hD : Tracking ok D) {ms : UInt32}
    (hok : ok w (.sleep ms)) (hr : Rep s (ListSched.sleep a ms.toNat)) :
    Clocked D ⟨s, w.clock, note w.last (sleeper w.kernel ms.toNat) (.sleep ms.toNat w.clock)⟩
      (ListSched.sleep a ms.toNat) := by
  obtain ⟨hticks, hsleep⟩ := sleep_times a ms.toNat
  have hsleeper : sleeper w.kernel ms.toNat = sleeper a ms.toNat := by
    unfold sleeper
    rw [h.rep.initialized, h.rep.current]
  have hwake : (a.ticks + ticksToSleep ms.toNat) % 2 ^ 64 = w.clock + ticksToSleep ms.toNat := by
    have hlt := ticksToSleep_lt ms.toNat
    have htimed : w.clock + 2 ^ 32 ≤ 2 ^ 64 := hD.timed hok
    rw [h.clock]
    exact Nat.mod_eq_of_lt (by omega)
  refine ⟨hr, hticks.trans h.clock, fun x => ?_⟩
  dsimp only
  rw [hsleep x, hwake, hsleeper]
  cases hx : sleeper a ms.toNat with
  | none =>
    rw [if_neg nofun]
    exact h.last x
  | some c =>
    dsimp only [note]
    by_cases e : x = c
    · rw [e, Function.update_self, if_pos rfl]
      exact hD.slept hok
    · rw [Function.update_of_ne e, if_neg fun h' => e (Option.some.inj h').symm]
      exact h.last x

theorem Clocked.block (h : Clocked D w a) (hD : Tracking ok D) {x : Slot}
    (hok : ok w (.block x)) (hr : Rep s (ListSched.block a x)) :
    Clocked D ⟨s, w.clock, note w.last (some x) .block⟩ (ListSched.block a x) := by
  have htimes := dispatching_times.block a x
  refine ⟨hr, htimes.ticks.trans h.clock, fun y => ?_⟩
  dsimp only [note]
  rw [htimes.sleepTime y]
  by_cases e : y = x
  · rw [e, Function.update_self, ← h.rep.task]
    exact hD.blocked hok
  · rw [Function.update_of_ne e]
    exact h.last y

theorem Clocked.tick (h : Clocked D w a) (hD : Tracking ok D) (htimed : Timed w .tick)
    (hr : Rep s (ListSched.tick a)) : Clocked D ⟨s, w.clock + 1, w.last⟩ (ListSched.tick a) := by
  have hclock : (a.ticks + 1) % 2 ^ 64 = w.clock + 1 := by
    have hlt : w.clock + 2 ^ 32 ≤ 2 ^ 64 := htimed
    rw [h.clock]
    exact Nat.mod_eq_of_lt (by omega)
  refine ⟨hr, (tick_task a 0).1.trans hclock, fun x => ?_⟩
  obtain ⟨-, hdue, hnot⟩ := tick_task a x
  by_cases hx : Due a x
  · rw [(hdue hx).2]
    exact hD.woken (h.last x)
  · rw [(hnot hx).2]
    exact h.last x

theorem Clocked.step (h : Clocked D w a) (hD : Tracking ok D) {call : Call} (hok : ok w call) :
    ∃ w' a', watch w call = some w' ∧ Clocked D w' a' := by
  cases call with
  | sleep ms =>
    obtain ⟨s, hs, hr⟩ := sleep_returns h.rep ms.toNat
    refine ⟨_, _, ?_, h.sleep hD hok hr⟩
    rw [watch, hs]
    rfl
  | block x =>
    obtain ⟨s, hs, hr⟩ := block_returns h.rep x
    refine ⟨_, _, ?_, h.block hD hok hr⟩
    rw [watch, hs]
    rfl
  | unblock x =>
    obtain ⟨s, hs, hr⟩ := unblock_returns h.rep x
    refine ⟨_, _, ?_, h.same hr (dispatching_times.unblock a x)⟩
    rw [watch, hs]
    rfl
  | tick =>
    obtain ⟨s, hs, hr⟩ := tick_returns h.rep
    refine ⟨_, _, ?_, h.tick hD (hD.timed hok) hr⟩
    rw [watch, hs]
    rfl
  | schedule =>
    obtain ⟨s, hs, hr⟩ := schedule_returns h.rep
    refine ⟨_, _, ?_, h.same hr (dispatching_times.schedule a)⟩
    rw [watch, hs]
    rfl

theorem run_clocked (hD : Tracking ok D) {l : List Slot} (hl : WellLinked s l)
    (hfresh : ∀ x, (s.task x).accounting.sleepTime = 0) {st : Option Watched}
    (h : Reach (Lifted ok) (lift watch) (some (.start s)) st) :
    ∃ w, st = some w ∧ ∃ a, Clocked D w a := by
  refine h.returns (I := fun w => ∃ a, Clocked D w a) ?_ ?_
  · have hr : Rep s (s.withQueue l) := ⟨hl.isList, rfl, rfl, rfl, rfl, rfl, rfl⟩
    refine ⟨_, rfl, _, hr, rfl, fun x => ?_⟩
    show D none (s.task x).accounting.sleepTime
    rw [hfresh x]
    exact hD.start
  · rintro w call ⟨a, ha⟩ hok
    obtain ⟨w', a', hw', ha'⟩ := ha.step hD hok
    exact ⟨w', hw', a', ha'⟩

/-! ### Results -/

/-- In every run: the time is that of the last sleep, unless the task was blocked otherwise
since. -/
def Left : Option Block → ℕ → Prop
  | none, n => n = 0
  | some (.sleep ms since), n => n = 0 ∨ n = since + ticksToSleep ms
  | some .block, _ => True

theorem tracking_left : Tracking Timed Left where
  timed h := h
  start := rfl
  woken {b n} h := by
    cases b with
    | none => rfl
    | some b =>
      cases b with
      | sleep ms since => exact Or.inl rfl
      | block => trivial
  slept _ := Or.inr rfl
  blocked _ := trivial

/-- In an orderly run: only a sleep that can be rounded up leaves a time. -/
def Proper : Option Block → ℕ → Prop
  | some (.sleep ms _), _ => ms + 9 < 2 ^ 32
  | _, n => n = 0

theorem tracking_proper : Tracking Orderly Proper where
  timed h := h.1
  start := rfl
  woken {b n} h := by
    cases b with
    | none => rfl
    | some b =>
      cases b with
      | sleep ms since => exact h
      | block => rfl
  slept h := h.2
  blocked h := h.2

/-- The time of task `x` is that of its last block, and the rounding of `ms` does not cut the sleep
short. -/
def Genuine (w : Watched) (x : Slot) : Prop :=
  ∃ ms since, w.last x = some (.sleep ms since) ∧
    (ms + 9 < 2 ^ 32 ∨ since + (ms + 9) / 10 ≤ w.clock + 1)

theorem rested_iff (hleft : Left (w.last x) (a.task x).accounting.sleepTime)
    (hclock : (a.ticks + 1) % 2 ^ 64 = w.clock + 1) (hdue : Due a x) :
    Rested ⟨s, w.clock + 1, w.last⟩ x ↔ Genuine w x := by
  obtain ⟨-, -, -, hpos, htime⟩ := hdue
  rw [hclock] at htime
  unfold Rested Genuine
  refine exists₂_congr fun ms since => and_congr_right fun hlast => ?_
  dsimp only
  refine ⟨Or.inr, fun h => h.elim (fun hms => ?_) id⟩
  have hsleep : (a.task x).accounting.sleepTime = since + ticksToSleep ms := by
    rw [hlast] at hleft
    exact hleft.resolve_left hpos
  have hle : (ms + 9) / 10 ≤ ticksToSleep ms := by
    unfold ticksToSleep
    rw [Nat.mod_eq_of_lt hms]
    dsimp only
    split_ifs <;> omega
  omega

theorem Clocked.exact_iff (h : Clocked Left w a) (htimed : Timed w .tick) :
    ∃ w', watch w .tick = some w' ∧ (Exact w w' ↔ ∀ x, Due w.kernel x → Genuine w x) := by
  obtain ⟨s, hs, hr⟩ := tick_returns h.rep
  have hclock : (a.ticks + 1) % 2 ^ 64 = w.clock + 1 := by
    have hlt : w.clock + 2 ^ 32 ≤ 2 ^ 64 := htimed
    rw [h.clock]
    exact Nat.mod_eq_of_lt (by omega)
  refine ⟨⟨s, w.clock + 1, w.last⟩, by rw [watch, hs]; rfl, ?_⟩
  have hmoved : ∀ x, (w.kernel.state x = .blocked ∧ s.state x = .ready) ↔ Due a x := by
    intro x
    obtain ⟨-, hdue, hnot⟩ := tick_task a x
    rw [h.rep.state, hr.state]
    refine ⟨fun hx => by_contra fun hx' => ?_, fun hx => ⟨due_blocked hx, (hdue hx).1⟩⟩
    rw [(hnot hx').1, hx.1] at hx
    exact nomatch hx.2
  have hdue : ∀ x, Due w.kernel x ↔ Due a x := by
    intro x
    unfold Due
    rw [h.rep.initialized, h.rep.current, h.rep.ticks, h.rep.task]
  refine forall_congr' fun x => ?_
  rw [← and_imp, hmoved, hdue]
  exact imp_congr_right fun hx => rested_iff (h.last x) hclock hx

/-- **Wake-ups by the timer.** A tick makes a task ready that is not rested exactly if the time of
some task that is due is left over from an earlier block, or was cut short by the rounding. In runs
of orderly calls this does not happen. -/
theorem timer_wakeups {s : Kernel} {l : List Slot} (hl : WellLinked s l)
    (hfresh : ∀ x, (s.task x).accounting.sleepTime = 0) :
    (∀ st, Reach (Lifted Timed) (lift watch) (some (.start s)) st → ∃ w, st = some w ∧
      (Timed w .tick → ∃ w', watch w .tick = some w' ∧
        (Exact w w' ↔ ∀ x, Due w.kernel x → Genuine w x))) ∧
    (∀ st, Reach (Lifted Orderly) (lift watch) (some (.start s)) st → ∃ w, st = some w ∧
      (Timed w .tick → ∃ w', watch w .tick = some w' ∧ Exact w w')) := by
  refine ⟨fun st hst => ?_, fun st hst => ?_⟩
  · obtain ⟨w, rfl, a, ha⟩ := run_clocked tracking_left hl hfresh hst
    exact ⟨w, rfl, ha.exact_iff⟩
  · have htimed : ∀ st call, Lifted Orderly st call → Lifted Timed st call := by
      intro st call h
      cases st with
      | none => trivial
      | some w => exact h.1
    obtain ⟨w, rfl, a, ha⟩ := run_clocked tracking_left hl hfresh (hst.mono htimed)
    obtain ⟨_, hw, b, hb⟩ := run_clocked tracking_proper hl hfresh hst
    cases hw
    refine ⟨w, rfl, fun htimed => ?_⟩
    obtain ⟨w', hw', hiff⟩ := ha.exact_iff htimed
    refine ⟨w', hw', hiff.mpr fun x hdue => ?_⟩
    have hlast := hb.last x
    rw [← hb.rep.task] at hlast
    have hpos : (w.kernel.task x).accounting.sleepTime ≠ 0 := hdue.2.2.2.1
    unfold Genuine
    cases hx : w.last x with
    | none => exact absurd (by rwa [hx] at hlast) hpos
    | some b =>
      rw [hx] at hlast
      cases b with
      | sleep ms since => exact ⟨ms, since, rfl, Or.inl hlast⟩
      | block => exact absurd hlast hpos

def twoTasks : List Op := [.create 1 0 5 0x500000, .create 1 0 5 0x502000]

def napping : List Call := [.schedule, .sleep 20, .tick]

theorem timer_wakeups_two :
    ∃ s, twoTasks.foldl (lift Ops.step) (schedulerInit 1 0x400000) = some s ∧
      ∃ w, napping.foldl (lift watch) (some (.start s)) = some w ∧ Due w.kernel 1 ∧
        ∃ w', watch w .tick = some w' ∧ Exact w w' := by
  obtain ⟨s, hs, a, hr, -⟩ := run_sound 1 0x400000
    (Reach.foldl twoTasks .init (Admits.always twoTasks _ fun _ _ _ => trivial))
  refine ⟨s, hs, ?_⟩
  have hfresh : (twoTasks.foldl (lift Ops.step) (schedulerInit 1 0x400000)).all fun s =>
      decide (∀ x, (s.task x).accounting.sleepTime = 0) := by
    decide +kernel
  have hadmits : (twoTasks.foldl (lift Ops.step) (schedulerInit 1 0x400000)).all fun s =>
      decide (Admits (Lifted Orderly) (lift watch) (some (.start s)) napping) := by
    decide +kernel
  have hdue : (twoTasks.foldl (lift Ops.step) (schedulerInit 1 0x400000)).all fun s =>
      (napping.foldl (lift watch) (some (.start s))).all fun w =>
        decide (Timed w .tick ∧ Due w.kernel 1) := by
    decide +kernel
  rw [hs, Option.all_some, decide_eq_true_eq] at hfresh hadmits
  rw [hs, Option.all_some] at hdue
  obtain ⟨w, hw, hexact⟩ := (timer_wakeups (wellLinked_of_rep hr) hfresh).2 _
    (Reach.foldl napping .init hadmits)
  rw [hw, Option.all_some, decide_eq_true_eq] at hdue
  exact ⟨w, hw, hdue.2, hexact hdue.1⟩

/-- The state of task `x` before and after a tick that follows on `calls`, how it was blocked the
last time, and the clock. -/
def aroundTick (calls : List Call) (x : Slot) :
    Option ((TaskState × TaskState) × Option Block × ℕ) := do
  let s ← twoTasks.foldl (lift Ops.step) (schedulerInit 1 0x400000)
  let w ← calls.foldl (lift watch) (some (.start s))
  let w' ← watch w .tick
  return ((w.kernel.state x, w'.kernel.state x), w'.last x, w'.clock)

/-- **A tick wakes tasks too early.** Task 1 sleeps, is unblocked and blocked by `tcb_block`: the
time of its sleep wakes it. And a sleep of `2 ^ 32 - 9` milliseconds is over after one tick. -/
theorem wakeup_not_exact :
    aroundTick [.schedule, .sleep 20, .unblock 1, .block 1, .tick] 1 =
        some ((.blocked, .ready), some .block, 2) ∧
      aroundTick [.schedule, .sleep 0xfffffff7] 1 =
        some ((.blocked, .ready), some (.sleep 0xfffffff7 0), 1) := by
  decide +kernel

end Kerneloid.Tcb.Wakeups
