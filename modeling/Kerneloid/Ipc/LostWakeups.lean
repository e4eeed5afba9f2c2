import Kerneloid.Ipc.Reasons
import Kerneloid.Ipc.Stranded

/-! # No lost wake-ups

A task that waits in `ipc_send` waits on the queue its receiver had then, and a task that waits in
`ipc_recv` on its own queue. Binding, unbinding and destroying ports give a task another queue and
wake nobody on it; two tasks can share a mailbox, and only the addressee of a message is woken; and
the loop that wakes senders goes through the thread ids from 1 to 2047. `WakesAll` names the calls
at which none of this leaves a task behind. In runs of such calls every task that `ipc.c` has
blocked still has a reason to wait (`Settled`). -/

namespace Kerneloid.Ipc.LostWakeups

open Lib.Runs Tcb.Types Types Ops Frames Ports Effects Views Reasons

/-- A message that is put into a queue is not what another task, with the same queue, waits for. -/
def ForOne (v : View) (why : Slot → Reason) (o : Option Posting) : Prop :=
  ∀ p ∈ o, MsgQueue.isFull (v.queueAt (boxOf v p.dest)) = false →
    ∀ y ≠ p.dest, v.state y = .blocked → boxOf v y = boxOf v p.dest → (why y).accepts p.msg = false

instance (v : View) (why : Slot → Reason) (o : Option Posting) : Decidable (ForOne v why o) :=
  inferInstanceAs (Decidable (∀ _ ∈ _, _))

/-- The loop that wakes senders finds `y` if it waits for room in the queue of `x`: `y` waits for
`x` and not for another task with the same queue, and its thread id is among those tried. -/
def Found (v : View) (x y : Slot) : Reason → Prop
  | .send r => boxOf v r = boxOf v x → r = x ∧ 1 ≤ v.tid y ∧ v.tid y ≤ 2047
  | _ => True

instance (v : View) (x y : Slot) : ∀ r, Decidable (Found v x y r)
  | .send _ => inferInstanceAs (Decidable (_ → _))
  | .recv _ => isTrue trivial
  | .other => isTrue trivial

/-- Task `y` would have to be woken if `b` became the queue of task `x`: it waits in a send to `x`, and
there is room; or it is `x` and waits for a message that is there. -/
def Due (v : View) (why : Slot → Reason) (x : Slot) (b : Box) (y : Slot) : Prop :=
  v.state y = .blocked ∧ ((why y = .send x ∧ MsgQueue.isFull (v.queueAt b) = false) ∨
    (y = x ∧ ∃ m ∈ (v.queueAt b).list, (why x).accepts m = true))

instance (v : View) (why : Slot → Reason) (x : Slot) (b : Box) (y : Slot) :
    Decidable (Due v why x b y) := inferInstanceAs (Decidable (_ ∧ (_ ∨ _)))

/-- **The calls that leave no task behind.** -/
def WakesAll (v : View) (why : Slot → Reason) : Call → Prop
  | .createPort _ => True
  | .destroyPort portId =>
    ∀ i ∈ usedPort v portId, ∀ x ∈ (v.ports i).owner, findPortForTask v x = some i →
      ∀ y, ¬ Due v why x (boxWithout v x i) y
  | .bindPort x portId => ∀ i ∈ gains v x portId, ∀ y, ¬ Due v why x (.port i) y
  | .unbindPort x portId => ∀ i ∈ givesUp v x portId, ∀ y, ¬ Due v why x (boxWithout v x i) y
  | .send f t m => ForOne v why (sendPosting v f t m)
  | .reply t m => ForOne v why (replyPosting v t m)
  | .recv x fromTid =>
    MsgQueue.holds (v.queueAt (boxOf v x)) fromTid = true →
      ∀ y ≠ x, v.state y = .blocked → Found v x y (why y)
  | _ => False

instance (v : View) (why : Slot → Reason) : DecidablePred (WakesAll v why)
  | .createPort _ => isTrue trivial
  | .destroyPort _ => inferInstanceAs (Decidable (∀ _ ∈ _, ∀ _ ∈ _, _ → ∀ _, ¬ Due _ _ _ _ _))
  | .bindPort _ _ | .unbindPort _ _ => inferInstanceAs (Decidable (∀ _ ∈ _, ∀ _, ¬ Due _ _ _ _ _))
  | .send _ _ _ | .reply _ _ => inferInstanceAs (Decidable (ForOne _ _ _))
  | .recv _ _ => inferInstanceAs (Decidable (_ → ∀ _, _ → _ → Found _ _ _ _))
  | .waitForMessage _ _ | .waitingTask _ | .wakeupWaiters _ | .trySend _ _ _ | .tryRecv _ _
  | .portSend _ _ _ | .portRecv _ _ _ => isFalse id

/-- If `b` is the queue of task `x`: those who wait in a send to `x` and `x` itself, if it waits for
a message, have a reason to. -/
def Waits (v : View) (why : Slot → Reason) (x : Slot) (b : Box) : Prop :=
  (∀ y, v.state y = .blocked → why y = .send x → MsgQueue.isFull (v.queueAt b) = true) ∧
    (v.state x = .blocked → ∀ m ∈ (v.queueAt b).list, (why x).accepts m = false)

/-- **The invariant**: every task that `ipc.c` has blocked has a reason to wait. -/
structure Settled (v : View) (why : Slot → Reason) : Prop where
  recorded : Recorded v why
  waits : ∀ x, Waits v why x (boxOf v x)

variable {v v' : View} {why : Slot → Reason} {x y : Slot}

theorem Settled.full (h : Settled v why) {r : Slot} (hy : v.state y = .blocked)
    (hr : why y = .send r) : MsgQueue.isFull (v.queueAt (boxOf v r)) = true := (h.waits r).1 y hy hr

/-! ### Ports -/

theorem waits_of_none_due {b : Box} (h : ∀ y, ¬ Due v why x b y) : Waits v why x b := by
  refine ⟨fun y hy hwhy => ?_, fun hx m hm => ?_⟩
  · by_contra hroom
    exact h y ⟨hy, Or.inl ⟨hwhy, Bool.eq_false_of_not_eq_true hroom⟩⟩
  · by_contra hacc
    exact h x ⟨hx, Or.inr ⟨rfl, m, hm, Bool.eq_true_of_not_eq_false hacc⟩⟩

/-- Tasks are at most woken, and each queue in use holds the same; where a task has another queue
now, nobody is due on it. -/
theorem Settled.moved (h : Settled v why) (hw : Woken v v')
    (hbox : ∀ x, v'.queueAt (boxOf v' x) = v.queueAt (boxOf v' x) ∧
      (boxOf v' x = boxOf v x ∨ ∀ y, ¬ Due v why x (boxOf v' x) y)) : Settled v' why := by
  refine ⟨h.recorded.woken hw, ?_⟩
  intro x
  obtain ⟨hq, hb⟩ := hbox x
  have hwaits : Waits v why x (boxOf v' x) := by
    rcases hb with e | hnone
    · rw [e]
      exact h.waits x
    · exact waits_of_none_due hnone
  unfold Waits
  rw [hq]
  exact ⟨fun y hy => hwaits.1 y (hw.blocked hy), fun hx => hwaits.2 (hw.blocked hx)⟩

theorem createPort_settled (h : Settled v why) (n : ℕ) : Settled (ipcCreatePort v n).1 why := by
  obtain ⟨hs, hbox⟩ := createPort_boxes v n
  refine h.moved (Woken.of_sched hs) ?_
  intro x
  rw [(hbox x).1]
  exact ⟨(hbox x).2, Or.inl rfl⟩

theorem Settled.rebinds (h : Settled v why) {o : Option (Fin 128)} {box : Fin 128 → Box}
    (hr : Rebinds v v' x o box) (hok : ∀ i ∈ o, ∀ y, ¬ Due v why x (box i) y) : Settled v' why := by
  refine h.moved (Woken.of_sched hr.sched) ?_
  intro y
  refine ⟨hr.queue _, ?_⟩
  rcases hr.box y with hsame | ⟨rfl, i, hi, e⟩
  · exact Or.inl hsame
  · rw [e]
    exact Or.inr (hok i hi)

theorem destroyPort_settled (h : Settled v why) {portId : ℤ}
    (hok : WakesAll v why (.destroyPort portId)) : Settled (ipcDestroyPort v portId) why := by
  rcases destroyPort_boxes v portId with e | ⟨i, hi, hs, hbox⟩
  · rw [e]
    exact h
  · have hw : Woken v (ipcDestroyPort v portId) := (woken_wakeupPort v i).trans (Woken.of_sched hs)
    refine h.moved hw ?_
    intro y
    obtain ⟨hq, hb⟩ := hbox y
    refine ⟨hq, ?_⟩
    rcases hb with hsame | ⟨hfirst, e⟩
    · exact Or.inl hsame
    · rw [e]
      exact Or.inr (hok i hi y (findPort_spec hfirst).2 hfirst)

/-! ### Waiting -/

theorem Settled.wait (h : Settled v why) (hx : v.state x ≠ .free) {r : Reason} {w : ℤ}
    (hr : r.waitingFor v = some w)
    (hsend : ∀ d, r = .send d → MsgQueue.isFull (v.queueAt (boxOf v d)) = true)
    (hrecv : ∀ m ∈ (v.queueAt (boxOf v x)).list, r.accepts m = false) :
    Settled (ipcWaitForMessage v x w) (Function.update why x r) := by
  have hk := Keeps.wait hx w
  have hstate : ∀ y ≠ x, (ipcWaitForMessage v x w).state y = v.state y := by
    intro y hy
    rw [System.state, ipcWaitForMessage, modify_task, if_neg hy]
  refine ⟨h.recorded.wait hx hr, ?_⟩
  intro z
  rw [hk.boxOf]
  refine ⟨?_, ?_⟩
  · intro y hy hwhy
    by_cases e : y = x
    · rw [e, Function.update_self] at hwhy
      exact hsend z hwhy
    · rw [Function.update_of_ne e] at hwhy
      exact h.full ((hstate y e).symm.trans hy) hwhy
  · intro hz m hm
    by_cases e : z = x
    · rw [e, Function.update_self]
      rw [e] at hm
      exact hrecv m hm
    · rw [Function.update_of_ne e]
      exact (h.waits z).2 ((hstate z e).symm.trans hz) m hm

/-! ### Sending -/

theorem deliver_settled (h : Settled v why) {p : Posting} (hs : p.Sound v)
    (hroom : MsgQueue.isFull (v.queueAt (boxOf v p.dest)) = false)
    (hok : ∀ y ≠ p.dest, v.state y = .blocked → boxOf v y = boxOf v p.dest → (why y).accepts p.msg =
      false) :
    Settled (deliver v (boxOf v p.dest) p.receiver p.msg) why := by
  have hw := woken_deliver v (boxOf v p.dest) p.receiver p.msg
  have hk := deliver_keeps v (boxOf v p.dest) p.receiver p.msg
  have hdest : p.receiver = p.dest := h.recorded.pool.findLive hs.receiver
  refine ⟨h.recorded.woken hw, ?_⟩
  intro x
  rw [hk.boxOf]
  refine ⟨?_, ?_⟩
  · intro y hy hwhy
    have hfull := h.full (hw.blocked hy) hwhy
    rw [deliver_queueAt]
    split_ifs with e
    · rw [e, hroom] at hfull
      cases hfull
    · exact hfull
  · intro hx m hm
    have hold := (h.waits x).2 (hw.blocked hx)
    rw [deliver_queueAt] at hm
    split_ifs at hm with e
    · rw [put_list, List.mem_append, List.mem_singleton] at hm
      rcases hm with hm | rfl
      · rw [e] at hold
        exact hold m hm
      · by_cases hxd : x = p.dest
        · -- the receiver would have been woken
          by_contra hacc
          rw [Bool.not_eq_false] at hacc
          cases hr : why x with
          | recv f =>
            rw [hr] at hacc
            have hawaits : awaits (v.task p.receiver) p.msg.senderTid := by
              rw [hdest, ← hxd]
              exact (h.recorded.awaits_iff (hw.blocked hx) hr p.msg).mpr hacc
            rw [System.state, deliver_task, if_pos ⟨hxd.trans hdest.symm, hawaits⟩] at hx
            cases hx
          | other =>
            rw [hr] at hacc
            cases hacc
          | send r =>
            rw [hr] at hacc
            cases hacc
        · exact hok x hxd (hw.blocked hx) e
    · exact hold m hm

theorem posted_settled (h : Settled v why) {o : Option Posting} (hs : ∀ p, o = some p → p.Sound v)
    (hok : ForOne v why o) : Settled (posted v o).1 (note why (stalled v o)) := by
  rcases posted_cases v o with ⟨e, e'⟩ | ⟨p, f, rfl, hfull, hb, e, e'⟩ | ⟨p, rfl, hroom, e, e'⟩
  · rw [e, e']
    exact h
  · rw [e, e']
    refine h.wait ((hs p rfl).blocks f hb) rfl ?_ fun _ _ => rfl
    rintro d ⟨⟩
    exact hfull
  · rw [e, e']
    exact deliver_settled h (hs p rfl) hroom (hok p rfl hroom)

/-! ### Receiving -/

theorem receive_awake (v : View) (b : Box) (x : Slot) (q : Fifo) :
    (receive v b x q).state x ≠ .blocked := by
  intro hx
  rw [receive_eq] at hx
  have htaken := (woken_wakeLoop (hasSpace x) (v.tid x) (taken v b x q)).blocked hx
  have hold := (woken_taken v b x q).blocked htaken
  unfold taken at htaken
  rw [if_pos hold, System.state, modify_task, if_pos rfl] at htaken
  cases htaken

theorem receive_wakes (h : Recorded v why) {b : Box} {q : Fifo} (hy : v.state y = .blocked)
    (hyx : y ≠ x) (hwhy : why y = .send x) (htid : 1 ≤ v.tid y ∧ v.tid y ≤ 2047)
    (hroom : MsgQueue.isFull ((receive v b x q).queueAt (boxOf v x)) = false) :
    (receive v b x q).state y ≠ .blocked := by
  have hk := taken_keeps v b x q
  have hsame : (taken v b x q).task y = v.task y := taken_task hyx
  have hblocked : blockedOn ((taken v b x q).task y) (v.tid x) := by
    rw [hsame]
    exact ⟨hy, h.noted y hy _ (by rw [hwhy]; rfl)⟩
  have hspace : hasSpace x (taken v b x q) = true := by
    rw [receive_queueAt, ← taken_queueAt v b x q] at hroom
    unfold hasSpace
    rw [hk.boxOf, hroom]
    rfl
  have hreached : Reached (taken v b x q) y := by
    unfold Reached
    rw [hk.tid, hk.getByTid]
    exact ⟨htid.1, htid.2, h.pool.getByTid (by rw [hy]; simp) (by unfold invalidTid; omega)⟩
  rw [System.state, receive_eq, (wakeLoop_task (fixed_hasSpace x) _ _ y).1 hblocked hspace hreached]
  simp [wakeTask]

theorem receive_settled (h : Settled v why) {fromTid : ℤ} {m : Message} {q : Fifo}
    (htake : MsgQueue.take (v.queueAt (boxOf v x)) fromTid = some (m, q))
    (hok : ∀ y ≠ x, v.state y = .blocked → Found v x y (why y)) :
    Settled (receive v (boxOf v x) x q) why := by
  have hw := woken_receive v (boxOf v x) x q
  have hk := receive_keeps v (boxOf v x) x q
  refine ⟨h.recorded.woken hw, ?_⟩
  intro z
  rw [hk.boxOf]
  refine ⟨?_, ?_⟩
  · intro y hy hwhy
    have hold := hw.blocked hy
    by_cases hbox : boxOf v z = boxOf v x
    · by_contra hroom
      rw [Bool.not_eq_true, hbox] at hroom
      have hyx : y ≠ x := by
        rintro rfl
        exact receive_awake v _ y q hy
      have hfound := hok y hyx hold
      rw [hwhy] at hfound
      obtain ⟨rfl, htid⟩ := hfound hbox
      exact receive_wakes h.recorded hold hyx hwhy htid hroom hy
    · rw [receive_queueAt, if_neg hbox]
      exact h.full hold hwhy
  · intro hz m' hm'
    have hold := (h.waits z).2 (hw.blocked hz)
    rw [receive_queueAt] at hm'
    split_ifs at hm' with hbox
    · rw [(take_cases htake).2.2] at hm'
      rw [hbox] at hold
      exact hold m' (List.mem_of_mem_eraseP hm')
    · exact hold m' hm'

theorem recv_settled (h : Settled v why) {fromTid : ℤ} (hok : WakesAll v why (.recv x fromTid)) :
    Settled (ipcRecv v x fromTid).1 (note why (blocks v (.recv x fromTid))) := by
  rcases recv_cases v x fromTid with
    ⟨e, e'⟩ | ⟨t, ht, htake, e, e'⟩ | ⟨t, m, q, ht, htake, e, e'⟩
  · rw [e, e']
    exact h
  · have htx := h.recorded.pool.findLive ht
    subst htx
    rw [e, e']
    refine h.wait (findLive_spec ht).2.2.1 rfl ?_ (take_none htake)
    rintro d ⟨⟩
  · have htx := h.recorded.pool.findLive ht
    subst htx
    rw [e, e']
    refine receive_settled h htake (hok ?_)
    unfold MsgQueue.holds
    rw [htake]
    rfl

/-! ### Runs -/

theorem call_settled (h : Settled v why) {c : Call} (hok : WakesAll v why c) :
    Settled (call v c).1 (note why (blocks v c)) := by
  cases c with
  | createPort n => exact createPort_settled h n
  | destroyPort p => exact destroyPort_settled h hok
  | bindPort x p => exact h.rebinds (bindPort_boxes v x p) hok
  | unbindPort x p => exact h.rebinds (unbindPort_boxes v x p) hok
  | send f t m =>
    show Settled (ipcSend v f t m).1 (note why (stalled v (sendPosting v f t m)))
    rw [send_eq]
    exact posted_settled h (fun p hp => sendPosting_sound hp) hok
  | reply t m =>
    show Settled (ipcReply v t m).1 (note why (stalled v (replyPosting v t m)))
    rw [reply_eq]
    exact posted_settled h (fun p hp => replyPosting_sound hp) hok
  | recv x i => exact recv_settled h hok
  | _ => exact hok.elim

def LeavesNone {Q : Type} (l : Tracked Q) (c : Call) : Prop := WakesAll (view l.sys) l.why c

instance {Q : Type} (l : Tracked Q) (c : Call) : Decidable (LeavesNone l c) :=
  inferInstanceAs (Decidable (WakesAll _ _ _))

/-- **No wake-up is lost.** In every run of calls that leave no task behind: a task blocked in a
send waits for a queue that is full, and a task blocked in `ipc_recv` for a message that is not
there. -/
theorem blocked_with_reason {Q : Type} {sched : Sched Q} (hpool : Pool sched.task) {l : Tracked Q}
    (h : Reach LeavesNone callStep ⟨ipcInit sched, fun _ => .other⟩ l) :
    (∀ x r, l.sys.state x = .blocked → l.why x = .send r →
      MsgQueue.isFull (l.sys.queueAt (boxOf l.sys r)) = true) ∧
    (∀ x f, l.sys.state x = .blocked → l.why x = .recv f →
      MsgQueue.holds (l.sys.queueAt (boxOf l.sys x)) f = false) := by
  have hinv : Rings l.sys ∧ Settled (view l.sys) l.why := by
    refine h.inv (I := fun l => Rings l.sys ∧ Settled (view l.sys) l.why) ?_ ?_
    · refine ⟨init_rings sched, ⟨hpool, fun _ _ _ hr => by cases hr⟩, ?_⟩
      exact fun x => ⟨fun _ _ hr => (by cases hr), fun _ _ _ => rfl⟩
    · rintro l c ⟨hr, hs⟩ hok
      obtain ⟨hv, -, hr'⟩ := call_view hr c
      refine ⟨hr', ?_⟩
      show Settled (view (call l.sys c).1) _
      rw [hv]
      exact call_settled hs hok
  obtain ⟨hr, hs⟩ := hinv
  have ha := hr.alike
  refine ⟨?_, ?_⟩
  · intro x r hx hwhy
    rw [ha.boxOf agree_shadow, ha.isFull]
    exact hs.full hx hwhy
  · intro x f hx hwhy
    have hnone := (hs.waits x).2 hx
    rw [hwhy] at hnone
    rw [ha.boxOf agree_shadow, (ha.stores _).holds]
    cases htake : MsgQueue.take ((view l.sys).queueAt (boxOf (view l.sys) x)) f with
    | none =>
      unfold MsgQueue.holds
      rw [htake]
      rfl
    | some r =>
      obtain ⟨m, q⟩ := r
      have hfind := (take_cases htake).1
      have := hnone m (List.mem_of_find?_eq_some hfind)
      rw [Reason.accepts, List.find?_some hfind] at this
      cases this

def idle : Tracked Unit := ⟨ipcInit Stranded.twoTasks, fun _ => .other⟩

/-- Slot 1 fills the queue of slot 0 and waits for room, and slot 0 waits for another sender. -/
def bothWait : List Call :=
  [.createPort 1, .bindPort 0 0, .send 1 0 .zero, .send 1 0 .zero, .recv 0 7]

theorem blocked_with_reason_both :
    (bothWait.foldl callStep idle).sys.state 0 = .blocked ∧
      (bothWait.foldl callStep idle).sys.state 1 = .blocked ∧
      (bothWait.foldl callStep idle).why 1 = .send 0 ∧
      MsgQueue.isFull ((bothWait.foldl callStep idle).sys.queueAt
        (boxOf (bothWait.foldl callStep idle).sys 0)) = true := by
  have hadmits : Admits LeavesNone callStep idle bothWait := by decide +kernel
  have h₁ : (bothWait.foldl callStep idle).sys.state 1 = .blocked := by decide +kernel
  have hwhy : (bothWait.foldl callStep idle).why 1 = .send 0 := by decide +kernel
  refine ⟨by decide +kernel, h₁, hwhy, ?_⟩
  have hall := blocked_with_reason Stranded.twoTasks_pool (Reach.foldl bothWait .init hadmits)
  exact hall.1 1 0 h₁ hwhy

/-- Slot 1 sends to the port of slot 0, which waits for a message without the port and then gets it
back. -/
def portReturns : List Call :=
  [.createPort 4, .bindPort 0 0, .send 1 0 .zero, .unbindPort 0 0, .recv 0 (-1), .bindPort 0 0]

/-- **A wake-up is lost**: slot 0 waits for any message, and one is in its queue. -/
theorem wakeup_lost : let l := portReturns.foldl callStep idle
    l.sys.state 0 = .blocked ∧ l.why 0 = .recv (-1) ∧
      MsgQueue.holds (l.sys.queueAt (boxOf l.sys 0)) (-1) = true := by
  refine ⟨?_, ?_, ?_⟩ <;> decide +kernel

end Kerneloid.Ipc.LostWakeups
