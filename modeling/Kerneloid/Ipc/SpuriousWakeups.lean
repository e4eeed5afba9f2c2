import Kerneloid.Ipc.Machine
import Kerneloid.Ipc.Reasons

/-! # No spurious wake-ups

`ipc_send` and `ipc_reply` wake the receiver if its `waiting_for` is the sender or `-1`, and
`ipc_recv` wakes its caller and those whose `waiting_for` is the caller. Neither looks at why the
task is blocked: a task that sleeps, or is blocked by `tcb_block`, has `-1` there, and a task in
`ipc_recv` can wait for a message from the very task that receives. `Intended` names the calls that
meet only tasks blocked for the right reason. In runs of such calls, `ipc.c` wakes a task only when
what it waits for is there (`Served`). -/

namespace Kerneloid.Ipc.SpuriousWakeups

open Lib.Linked Lib.Runs Tcb.Types Tcb.States Tcb.Simulation Tcb.Runqueue
open Tcb.Ops hiding step
open Types Ops Frames Ports Effects Views Reasons
open Machine hiding step

/-- What a task that is blocked for the reason waits for is there: a message its filter accepts, or
room in the queue of the receiver. -/
def Served {Q B : Type} [MsgQueue B] (s : System Q B) (x : Slot) : Reason → Prop
  | .other => False
  | .recv fromTid => MsgQueue.holds (s.queueAt (boxOf s x)) fromTid = true
  | .send r => MsgQueue.isFull (s.queueAt (boxOf s r)) = false

instance {Q B : Type} [MsgQueue B] (s : System Q B) (x : Slot) : ∀ r, Decidable (Served s x r)
  | .other => isFalse id
  | .recv _ => inferInstanceAs (Decidable (_ = true))
  | .send _ => inferInstanceAs (Decidable (_ = false))

/-- Queue `b'` once queue `b` is `q`. -/
def queueWith (v : View) (b : Box) (q : Fifo) (b' : Box) : Fifo :=
  if b' = b then q else v.queueAt b'

/-- A task that a message wakes, and that is blocked for the reason, waits in `ipc_recv`, or in a
send to a task whose queue has room when queue `b` is `q`. -/
def MayReceive (v : View) (b : Box) (q : Fifo) : Reason → Prop
  | .other => False
  | .recv _ => True
  | .send r => MsgQueue.isFull (queueWith v b q (boxOf v r)) = false

instance (v : View) (b : Box) (q : Fifo) : ∀ r, Decidable (MayReceive v b q r)
  | .other => isFalse id
  | .recv _ => isTrue trivial
  | .send _ => inferInstanceAs (Decidable (_ = false))

/-- Task `y` waits in a send, or for a message that its queue has when queue `b` is `q`. -/
def MaySend (v : View) (b : Box) (q : Fifo) (y : Slot) : Reason → Prop
  | .other => False
  | .recv f => MsgQueue.holds (queueWith v b q (boxOf v y)) f = true
  | .send _ => True

instance (v : View) (b : Box) (q : Fifo) (y : Slot) : ∀ r, Decidable (MaySend v b q y r)
  | .other => isFalse id
  | .recv _ => inferInstanceAs (Decidable (_ = true))
  | .send _ => isTrue trivial

/-- The receiver of a message that waits for its sender or for anyone can do with the message. -/
def Awaited (v : View) (why : Slot → Reason) (o : Option Posting) : Prop :=
  ∀ p ∈ o, MsgQueue.isFull (v.queueAt (boxOf v p.dest)) = false →
    awaits (v.task p.dest) p.msg.senderTid →
      MayReceive v (boxOf v p.dest) (MsgQueue.put (v.queueAt (boxOf v p.dest)) p.msg) (why p.dest)

instance (v : View) (why : Slot → Reason) (o : Option Posting) : Decidable (Awaited v why o) :=
  inferInstanceAs (Decidable (∀ _ ∈ _, _))

/-- Task `x` takes a message out of its queue, which is `q` then: `x` is not blocked, or its queue
has another message or there is room where it sends to; and those who wait for `x` can go on. -/
def Alone (v : View) (why : Slot → Reason) (x : Slot) (q : Fifo) : Prop :=
  (v.state x = .blocked → MayReceive v (boxOf v x) q (why x) ∧ MaySend v (boxOf v x) q x (why x)) ∧
    ∀ y ≠ x, blockedOn (v.task y) (v.tid x) → 1 ≤ v.tid y → v.tid y ≤ 2047 →
      MaySend v (boxOf v x) q y (why y)

instance (v : View) (why : Slot → Reason) (x : Slot) (q : Fifo) : Decidable (Alone v why x q) :=
  inferInstanceAs (Decidable (_ ∧ _))

/-- **The calls that meet only tasks blocked for the right reason.** -/
def Intended (v : View) (why : Slot → Reason) : Input → Prop
  | .ipc (.createPort _) | .ipc (.bindPort _ _) | .ipc (.unbindPort _ _) => True
  | .ipc (.send f t m) => Awaited v why (sendPosting v f t m)
  | .ipc (.reply t m) => Awaited v why (replyPosting v t m)
  | .ipc (.recv x fromTid) =>
    ∀ r ∈ MsgQueue.take (v.queueAt (boxOf v x)) fromTid, Alone v why x r.2
  | .tcb .tick | .tcb .schedule | .tcb .yield | .tcb (.block _) | .tcb (.unblock _)
  | .tcb (.sleep _) => True
  | _ => False

instance (v : View) (why : Slot → Reason) : DecidablePred (Intended v why)
  | .ipc (.send _ _ _) | .ipc (.reply _ _) => inferInstanceAs (Decidable (Awaited _ _ _))
  | .ipc (.recv _ _) => inferInstanceAs (Decidable (∀ _ ∈ _, Alone _ _ _ _))
  | .ipc (.createPort _) | .ipc (.bindPort _ _) | .ipc (.unbindPort _ _) | .tcb .tick
  | .tcb .schedule | .tcb .yield | .tcb (.block _) | .tcb (.unblock _) | .tcb (.sleep _) =>
    isTrue trivial
  | .tcb .allocate | .tcb (.create _ _ _ _) | .tcb (.free _) | .tcb .exit | .tcb (.addTask _)
  | .tcb (.removeTask _) | .tcb .start | .ipc (.destroyPort _) | .ipc (.waitForMessage _ _)
  | .ipc (.waitingTask _) | .ipc (.wakeupWaiters _) | .ipc (.trySend _ _ _) | .ipc (.tryRecv _ _)
  | .ipc (.portSend _ _ _) | .ipc (.portRecv _ _ _) => isFalse id

variable {v v' : View} {why : Slot → Reason} {x y : Slot}

/-! ### What is woken -/

/-- In a state whose queue `b` is `q`, both conditions together say that what the task waits for is
there. -/
theorem served_of_may {b : Box} {q : Fifo} {r : Reason} (hbox : ∀ y, boxOf v' y = boxOf v y)
    (hq : ∀ b', v'.queueAt b' = queueWith v b q b') (hrecv : MayReceive v b q r)
    (hsend : MaySend v b q x r) : Served v' x r := by
  cases r with
  | other => exact hrecv
  | recv f =>
    show MsgQueue.holds (v'.queueAt (boxOf v' x)) f = true
    rw [hbox, hq]
    exact hsend
  | send r =>
    show MsgQueue.isFull (v'.queueAt (boxOf v' r)) = false
    rw [hbox, hq]
    exact hrecv

theorem holds_put {q : Fifo} {f : ℤ} {m : Message} (h : Types.accepts f m = true) :
    MsgQueue.holds (MsgQueue.put q m) f = true := by
  cases htake : MsgQueue.take (MsgQueue.put q m) f with
  | none =>
    have := take_none htake m (by rw [put_list]; simp)
    rw [h] at this
    cases this
  | some r =>
    unfold MsgQueue.holds
    rw [htake]
    rfl

theorem wait_blocked {t : Slot} {w : ℤ} (hx : v.state x = .blocked) :
    (ipcWaitForMessage v t w).state x = .blocked := by
  rw [System.state, ipcWaitForMessage, modify_task]
  split_ifs
  · rfl
  · exact hx

theorem deliver_served (h : Recorded v why) {p : Posting} (hs : p.Sound v)
    (hok : awaits (v.task p.dest) p.msg.senderTid → MayReceive v (boxOf v p.dest)
      (MsgQueue.put (v.queueAt (boxOf v p.dest)) p.msg) (why p.dest))
    (hx : v.state x = .blocked)
    (hx' : (deliver v (boxOf v p.dest) p.receiver p.msg).state x = .ready) :
    Served (deliver v (boxOf v p.dest) p.receiver p.msg) x (why x) := by
  have hk := deliver_keeps v (boxOf v p.dest) p.receiver p.msg
  have hdest : p.receiver = p.dest := h.pool.findLive hs.receiver
  rw [System.state, deliver_task] at hx'
  by_cases hwake : x = p.receiver ∧ awaits (v.task p.receiver) p.msg.senderTid
  · obtain ⟨hxr, hawaits⟩ := hwake
    have hxd : x = p.dest := hxr.trans hdest
    rw [hdest] at hawaits
    subst hxd
    refine served_of_may hk.boxOf (deliver_queueAt _ _ _ _) (hok hawaits) ?_
    cases hr : why p.dest with
    | other =>
      have hno := hok hawaits
      rw [hr] at hno
      exact hno
    | send r => trivial
    | recv f =>
      -- `waiting_for` is the filter, which accepts the message
      have hacc := (h.awaits_iff hx hr p.msg).mp hawaits
      show MsgQueue.holds (queueWith _ _ _ _) _ = true
      rw [queueWith, if_pos rfl]
      exact holds_put hacc
  · rw [if_neg hwake] at hx'
    rw [System.state] at hx
    rw [hx] at hx'
    cases hx'

theorem posted_served (h : Recorded v why) {o : Option Posting}
    (hs : ∀ p, o = some p → p.Sound v) (hok : Awaited v why o) (hx : v.state x = .blocked)
    (hx' : (posted v o).1.state x = .ready) : Served (posted v o).1 x (why x) := by
  rcases posted_cases v o with ⟨e, -⟩ | ⟨p, f, rfl, -, -, e, -⟩ | ⟨p, rfl, hroom, e, -⟩
  · rw [e, hx] at hx'
    cases hx'
  · rw [e, wait_blocked hx] at hx'
    cases hx'
  · rw [e] at hx' ⊢
    exact deliver_served h (hs p rfl) (hok p rfl hroom) hx hx'

theorem receive_served (h : Recorded v why) (hlive : v.tid x ≠ invalidTid) {q : Fifo}
    (hok : Alone v why x q) (hy : v.state y = .blocked)
    (hy' : (receive v (boxOf v x) x q).state y = .ready) :
    Served (receive v (boxOf v x) x q) y (why y) := by
  have hk := receive_keeps v (boxOf v x) x q
  have hq : ∀ b, (receive v (boxOf v x) x q).queueAt b = queueWith v (boxOf v x) q b :=
    receive_queueAt _ _ _ _
  by_cases hyx : y = x
  · rw [hyx] at hy ⊢
    exact served_of_may hk.boxOf hq (hok.1 hy).1 (hok.1 hy).2
  · have hsame : (taken v (boxOf v x) x q).task y = v.task y := taken_task hyx
    obtain ⟨-, hout⟩ := wakeLoop_task (fixed_hasSpace x) (v.tid x) (taken v (boxOf v x) x q) y
    by_cases hit : blockedOn ((taken v (boxOf v x) x q).task y) (v.tid x) ∧
        hasSpace x (taken v (boxOf v x) x q) = true ∧ Reached (taken v (boxOf v x) x q) y
    · obtain ⟨hb, hspace, hreached⟩ := hit
      rw [hsame] at hb
      unfold Reached System.tid at hreached
      rw [hsame] at hreached
      have hmay := hok.2 y hyx hb hreached.1 hreached.2.1
      refine served_of_may hk.boxOf hq ?_ hmay
      cases hr : why y with
      | other =>
        rw [hr] at hmay
        exact hmay
      | recv f => trivial
      | send r =>
        -- the task waits for `x`, whose queue has room
        have hwait := h.noted y hb.1 (v.tid r) (by rw [hr]; rfl)
        obtain rfl : x = r := h.pool.distinct x r (hb.2.symm.trans hwait) hlive
        unfold hasSpace at hspace
        rw [(taken_keeps v (boxOf v x) x q).boxOf, taken_queueAt, Bool.not_eq_true'] at hspace
        exact hspace
    · rw [System.state, receive_eq, hout hit, hsame] at hy'
      rw [System.state, hy'] at hy
      cases hy

theorem recv_served (h : Recorded v why) {fromTid : ℤ}
    (hok : Intended v why (.ipc (.recv x fromTid))) (hy : v.state y = .blocked)
    (hy' : (ipcRecv v x fromTid).1.state y = .ready) :
    Served (ipcRecv v x fromTid).1 y (why y) := by
  rcases recv_cases v x fromTid with ⟨e, -⟩ | ⟨t, -, -, e, -⟩ | ⟨t, m, q, ht, htake, e, -⟩
  · rw [e, hy] at hy'
    cases hy'
  · rw [e, wait_blocked hy] at hy'
    cases hy'
  · have htx := h.pool.findLive ht
    subst htx
    rw [e] at hy' ⊢
    exact receive_served h (findLive_spec ht).1 (hok (m, q) htake) hy hy'

/-! ### Runs -/

/-- The task that a call of `tcb.c` blocks. -/
def blockedBy (s : Statics) : Op → Option Slot
  | .block x => some x
  | .sleep ms => if ms = 0 ∨ s.sched.initialized = false then none else s.sched.current
  | _ => none

/-- The reasons after a call of `tcb.c`: a task it blocks is not blocked by `ipc.c`. -/
def reasons (l : Tracked (Links Slot)) (op : Op) (y : Slot) : Reason :=
  if l.sys.state y = .blocked ∧ blockedBy l.sys op ≠ some y then l.why y else .other

def step (l : Tracked (Links Slot)) : Input → Option (Tracked (Links Slot))
  | .tcb op => (Machine.step l.sys (.tcb op)).map fun s => ⟨s, reasons l op⟩
  | .ipc c => some (callStep l c)

def MeetsIntended (l : Tracked (Links Slot)) (i : Input) : Prop := Intended (view l.sys) l.why i

instance (l : Tracked (Links Slot)) (i : Input) : Decidable (MeetsIntended l i) :=
  inferInstanceAs (Decidable (Intended _ _ _))

variable {l : Tracked (Links Slot)}

theorem tcb_recorded {a : ListSched} {op : Op} {s : Statics} (hr : Rep l.sys.sched a)
    (hr' : Rep s.sched (Tcb.ListSched.step a op)) (hop : schedules op = true)
    (h : Recorded (view l.sys) l.why) : Recorded (view s) (reasons l op) := by
  have hlabels : ∀ y, s.tid y = l.sys.tid y ∧
      (s.task y).waitingFor = (l.sys.task y).waitingFor := by
    intro y
    unfold System.tid System.task
    rw [hr'.task, hr.task]
    exact scheduling_labels.step a hop y
  have hfree : ∀ y, s.state y = .free → l.sys.state y = .free := by
    intro y hy
    by_contra hused
    refine (scheduling_grows.step a hop).used y ?_ ?_
    · rwa [← hr.state]
    · rwa [← hr'.state]
  refine ⟨⟨?_, ?_⟩, ?_⟩
  · intro y hy
    exact (hlabels y).1.trans (h.pool.free y (hfree y hy))
  · intro y z hyz hy
    refine h.pool.distinct y z ?_ ?_
    · exact (hlabels y).1.symm.trans (hyz.trans (hlabels z).1)
    · exact fun e => hy ((hlabels y).1.trans e)
  · intro y _ w hw
    unfold reasons at hw
    split_ifs at hw with hold
    · rw [waitingFor_congr (v := view l.sys) fun z => (hlabels z).1] at hw
      exact (hlabels y).2.trans (h.noted y hold.1 w hw)
    · cases hw

theorem ipc_recorded (hrings : Rings l.sys) (h : Recorded (view l.sys) l.why) {c : Call}
    (hok : MeetsIntended l (.ipc c)) : Recorded (view (callStep l c).sys) (callStep l c).why := by
  show Recorded (view (call l.sys c).1) (note l.why (blocks (view l.sys) c))
  rw [(call_view hrings c).1]
  cases c with
  | createPort n => exact h.woken (Woken.of_sched (createPort_boxes _ n).1)
  | bindPort x p => exact h.woken (Woken.of_sched (bindPort_boxes _ x p).sched)
  | unbindPort x p => exact h.woken (Woken.of_sched (unbindPort_boxes _ x p).sched)
  | send f t m =>
    show Recorded (ipcSend _ f t m).1 (note l.why (stalled _ (sendPosting _ f t m)))
    rw [send_eq]
    exact posted_recorded h fun p hp => sendPosting_sound hp
  | reply t m =>
    show Recorded (ipcReply _ t m).1 (note l.why (stalled _ (replyPosting _ t m)))
    rw [reply_eq]
    exact posted_recorded h fun p hp => replyPosting_sound hp
  | recv x i => exact recv_recorded h x i
  | _ => exact hok.elim

theorem served_view {s : Statics} (hr : Rings s) {r : Reason} (h : Served (view s) x r) :
    Served s x r := by
  have ha := hr.alike
  cases r with
  | other => exact h
  | recv f =>
    show MsgQueue.holds (s.queueAt (boxOf s x)) f = true
    rw [ha.boxOf agree_shadow, (ha.stores _).holds]
    exact h
  | send r =>
    show MsgQueue.isFull (s.queueAt (boxOf s r)) = false
    rw [ha.boxOf agree_shadow, ha.isFull]
    exact h

theorem call_served (hrings : Rings l.sys) (h : Recorded (view l.sys) l.why) {c : Call}
    (hok : MeetsIntended l (.ipc c)) (hx : l.sys.state x = .blocked)
    (hx' : (call l.sys c).1.state x = .ready) : Served (call l.sys c).1 x (l.why x) := by
  obtain ⟨hv, -, hrings'⟩ := call_view hrings c
  have hx'' : (call (view l.sys) c).1.state x = .ready := by
    rw [← hv]
    exact hx'
  have hchanged : (call (view l.sys) c).1.sched ≠ (view l.sys).sched := by
    intro e
    rw [System.state, System.task, e] at hx''
    cases hx.symm.trans hx''
  refine served_view hrings' ?_
  rw [hv]
  cases c with
  | createPort n => exact absurd (createPort_boxes _ n).1 hchanged
  | bindPort y p => exact absurd (bindPort_boxes _ y p).sched hchanged
  | unbindPort y p => exact absurd (unbindPort_boxes _ y p).sched hchanged
  | send f t m =>
    change (ipcSend _ f t m).1.state x = .ready at hx''
    show Served (ipcSend _ f t m).1 x _
    rw [send_eq] at hx'' ⊢
    exact posted_served h (fun p hp => sendPosting_sound hp) hok hx hx''
  | reply t m =>
    change (ipcReply _ t m).1.state x = .ready at hx''
    show Served (ipcReply _ t m).1 x _
    rw [reply_eq] at hx'' ⊢
    exact posted_served h (fun p hp => replyPosting_sound hp) hok hx hx''
  | recv y i => exact recv_served h hok hx hx''
  | _ => exact hok.elim

/-- **No wake-up is spurious.** In every run of calls that meet only tasks blocked for the right
reason: a call of `ipc.c` makes a blocked task ready only if what the task waits for is there. -/
theorem wakes_served {s₀ : Statics} {a : ListSched} (hin : InRun s₀ a) (hpool : Pool s₀.sched.task)
    {st : Option (Tracked (Links Slot))}
    (h : Reach (Lifted MeetsIntended) (lift step) (some ⟨s₀, fun _ => .other⟩) st) :
    ∃ l, st = some l ∧ ∀ c, MeetsIntended l (.ipc c) → ∀ x, l.sys.state x = .blocked →
      (call l.sys c).1.state x = .ready → Served (call l.sys c).1 x (l.why x) := by
  have hkept : ∃ l, st = some l ∧ ∃ a, InRun l.sys a ∧ Recorded (view l.sys) l.why := by
    refine h.returns (I := fun l => ∃ a, InRun l.sys a ∧ Recorded (view l.sys) l.why) ?_ ?_
    · exact ⟨_, rfl, a, hin, hpool, fun _ _ _ hr => by cases hr⟩
    · rintro l i ⟨a, hin, hrec⟩ hok
      obtain ⟨s', hs', hin'⟩ := hin.step i
      cases i with
      | ipc c =>
        obtain rfl := Option.some.inj hs'
        exact ⟨_, rfl, _, hin', ipc_recorded hin.rings hrec hok⟩
      | tcb op =>
        have hop : schedules op = true := by
          cases op with
          | tick | schedule | yield | block | unblock | sleep => rfl
          | _ => exact hok.elim
        refine ⟨⟨s', reasons l op⟩, ?_, _, hin', tcb_recorded hin.rep hin'.rep hop hrec⟩
        show (Machine.step l.sys (.tcb op)).map _ = _
        rw [hs']
        rfl
  obtain ⟨l, rfl, a, hin, hrec⟩ := hkept
  exact ⟨l, rfl, fun c hok x hx hx' => call_served hin.rings hrec hok hx hx'⟩

def twoTasks : Option Statics :=
  (boot 1 0x400000).bind fun s => Machine.step s (.tcb (.create 1 0 5 0x500000))

theorem twoTasks_inRun : ∃ s a, twoTasks = some s ∧ InRun s a ∧ Pool s.sched.task := by
  obtain ⟨s, hs, hin⟩ := boot_inRun 1 0x400000
  obtain ⟨s', hs', hin'⟩ := hin.step (.tcb (.create 1 0 5 0x500000))
  have htwo : twoTasks = some s' := by
    unfold twoTasks
    rw [hs]
    exact hs'
  refine ⟨s', _, htwo, hin', ?_⟩
  have htids : ∀ s ∈ twoTasks, ∀ x,
      s.tid x = if x = 0 then 1 else if x = 1 then 2 else invalidTid := by
    decide +kernel
  have hused : ∀ s ∈ twoTasks, ∀ x, s.state x = .free → x ≠ 0 ∧ x ≠ 1 := by
    decide +kernel
  exact Pool.two (htids s' htwo) (hused s' htwo)

def waitRun : List Input := [.ipc (.recv 1 (-1)), .tcb .tick]

theorem wakes_served_wait :
    ∃ l, waitRun.foldl (lift step) (twoTasks.map fun s => ⟨s, fun _ => .other⟩) = some l ∧
      l.sys.state 1 = .blocked ∧ (call l.sys (.send 0 1 .zero)).1.state 1 = .ready ∧
      Served (call l.sys (.send 0 1 .zero)).1 1 (l.why 1) := by
  obtain ⟨s, a, htwo, hin, hpool⟩ := twoTasks_inRun
  have hadmits : Admits (Lifted MeetsIntended) (lift step)
      (twoTasks.map fun s => ⟨s, fun _ => .other⟩) waitRun := by decide +kernel
  have hend : ∀ l ∈ waitRun.foldl (lift step) (twoTasks.map fun s => ⟨s, fun _ => .other⟩),
      MeetsIntended l (.ipc (.send 0 1 .zero)) ∧ l.sys.state 1 = .blocked ∧
        (call l.sys (.send 0 1 .zero)).1.state 1 = .ready := by decide +kernel
  rw [htwo] at hadmits hend ⊢
  obtain ⟨l, hl, hserved⟩ := wakes_served hin hpool (Reach.foldl waitRun .init hadmits)
  obtain ⟨hok, h₁, h₂⟩ := hend l hl
  exact ⟨l, hl, h₁, h₂, hserved _ hok 1 h₁ h₂⟩

def blockRun : List Input := [.tcb (.block 1)]

/-- **A spurious wake-up**: a message for slot 1 makes it ready, although `tcb_block` blocked it. -/
theorem block_undone :
    ∃ l, blockRun.foldl (lift step) (twoTasks.map fun s => ⟨s, fun _ => .other⟩) = some l ∧
      l.sys.state 1 = .blocked ∧ l.why 1 = .other ∧
      (call l.sys (.send 0 1 .zero)).1.state 1 = .ready := by
  refine ⟨_, rfl, ?_, ?_, ?_⟩ <;> decide +kernel

end Kerneloid.Ipc.SpuriousWakeups
