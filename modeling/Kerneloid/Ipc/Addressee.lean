import Kerneloid.Ipc.Machine

/-! # Delivery to the addressee only

A mailbox belongs to all thread ids with the same remainder by 256, a port stays with a slot of the
pool when the task in it is freed, and the messages of a port stay when it changes hands. `Private`
names the calls after which each queue holds messages for the task that uses it only: a task comes
to use a queue only if it holds no message for another one, and a message is put only into a queue
that no other task uses. Then `ipc_recv` gives a task only what was sent to it. -/

namespace Kerneloid.Ipc.Addressee

open Lib.Runs Tcb.Types Tcb.States Tcb.Simulation Tcb.Runqueue
open Tcb.Ops hiding step
open Types Ops Queues Frames Ports Effects Views Machine

variable {sched : Sched Unit}

/-- Every message of the queue is for `tid`. -/
def Own (v : View) (b : Box) (tid : ℤ) : Prop := ∀ m ∈ (v.queueAt b).list, m.receiverTid = tid

instance (v : View) (b : Box) (tid : ℤ) : Decidable (Own v b tid) :=
  inferInstanceAs (Decidable (∀ _ ∈ _, _))

/-- No task with another thread id uses the queue in which a message is put. -/
def Unshared (v : View) (o : Option Posting) : Prop :=
  ∀ p ∈ o, MsgQueue.isFull (v.queueAt (boxOf v p.dest)) = false →
    ∀ y, v.tid y ≠ invalidTid → boxOf v y = boxOf v p.dest → v.tid y = v.tid p.dest

instance (v : View) (o : Option Posting) : Decidable (Unshared v o) :=
  inferInstanceAs (Decidable (∀ _ ∈ _, _))

/-- The queue of a task in slot `x` with the thread id `tid`. -/
def boxFor (v : View) (x : Slot) (tid : ℤ) : Box :=
  match findPortForTask v x with
  | some i => .port i
  | none => .mailbox (tidToMboxIdx tid)

/-- **The calls that keep queues private.** -/
def Private (v : View) : Input → Prop
  | .tcb .allocate =>
    ∀ x ∈ freeSlot v.sched, v.sched.nextTid ≠ invalidTid →
      Own v (boxFor v x v.sched.nextTid) v.sched.nextTid
  | .tcb (.free _) => True
  | .ipc (.createPort _) => True
  | .ipc (.bindPort x portId) => ∀ i ∈ gains v x portId, Own v (.port i) (v.tid x)
  | .ipc (.unbindPort x portId) => ∀ i ∈ givesUp v x portId, Own v (boxWithout v x i) (v.tid x)
  | .ipc (.send f t m) => Unshared v (sendPosting v f t m)
  | .ipc (.reply t m) => Unshared v (replyPosting v t m)
  | .ipc (.recv _ _) => True
  | _ => False

instance (v : View) : DecidablePred (Private v)
  | .tcb .allocate => inferInstanceAs (Decidable (∀ _ ∈ _, _ → Own _ _ _))
  | .ipc (.bindPort _ _) | .ipc (.unbindPort _ _) =>
    inferInstanceAs (Decidable (∀ _ ∈ _, Own _ _ _))
  | .ipc (.send _ _ _) | .ipc (.reply _ _) => inferInstanceAs (Decidable (Unshared _ _))
  | .tcb (.free _) | .ipc (.createPort _) | .ipc (.recv _ _) => isTrue trivial
  | .tcb (.create _ _ _ _) | .tcb .exit | .tcb (.addTask _) | .tcb (.removeTask _) | .tcb .tick
  | .tcb .schedule | .tcb .start | .tcb .yield | .tcb (.block _) | .tcb (.unblock _)
  | .tcb (.sleep _) | .ipc (.destroyPort _) | .ipc (.waitForMessage _ _) | .ipc (.waitingTask _)
  | .ipc (.wakeupWaiters _) | .ipc (.trySend _ _ _) | .ipc (.tryRecv _ _)
  | .ipc (.portSend _ _ _) | .ipc (.portRecv _ _ _) => isFalse id

/-- **The invariant**: the queue of each task holds messages for this task only. -/
structure Addressed (v : View) : Prop where
  free : ∀ x, v.state x = .free → v.tid x = invalidTid
  own : ∀ x, v.tid x ≠ invalidTid → Own v (boxOf v x) (v.tid x)

variable {v v' : View} {x : Slot}

theorem Addressed.moved (h : Addressed v) (hfree : ∀ x, v'.state x = .free → v.state x = .free)
    (htid : ∀ x, v'.tid x = v.tid x)
    (hbox : ∀ x, (boxOf v' x = boxOf v x ∧ ∀ m ∈ (v'.queueAt (boxOf v x)).list, m ∈ (v.queueAt
      (boxOf v x)).list) ∨ (v.tid x ≠ invalidTid → Own v' (boxOf v' x) (v.tid x))) :
    Addressed v' := by
  refine ⟨fun x hx => (htid x).trans (h.free x (hfree x hx)), ?_⟩
  intro x hx
  rw [htid] at hx ⊢
  rcases hbox x with ⟨hb, hsub⟩ | hown
  · intro m hm
    rw [hb] at hm
    exact h.own x hx m (hsub m hm)
  · exact hown hx

theorem Addressed.ports (h : Addressed v) (hs : v'.sched = v.sched)
    (hq : ∀ b, v'.queueAt b = v.queueAt b)
    (hbox : ∀ x, boxOf v' x = boxOf v x ∨ Own v (boxOf v' x) (v.tid x)) : Addressed v' := by
  have htask : ∀ x, v'.task x = v.task x := by
    intro x
    unfold System.task
    rw [hs]
  refine h.moved (fun x hx => by rwa [System.state, htask] at hx)
    (fun x => by rw [System.tid, htask]) ?_
  intro x
  rcases hbox x with hb | hown
  · exact Or.inl ⟨hb, fun m hm => by rwa [hq] at hm⟩
  · refine Or.inr fun _ m hm => ?_
    rw [hq] at hm
    exact hown m hm

theorem createPort_addressed (h : Addressed v) (n : ℕ) : Addressed (ipcCreatePort v n).1 := by
  obtain ⟨hs, hbox⟩ := createPort_boxes v n
  have htask : ∀ x, (ipcCreatePort v n).1.task x = v.task x := by
    intro x
    unfold System.task
    rw [hs]
  refine h.moved (fun x hx => by rwa [System.state, htask] at hx)
    (fun x => by rw [System.tid, htask]) ?_
  intro x
  obtain ⟨hb, hq⟩ := hbox x
  exact Or.inl ⟨hb, fun m hm => by rwa [hq] at hm⟩

theorem Addressed.rebinds (h : Addressed v) {o : Option (Fin 128)} {box : Fin 128 → Box}
    (hr : Rebinds v v' x o box) (hok : ∀ i ∈ o, Own v (box i) (v.tid x)) : Addressed v' := by
  refine h.ports hr.sched hr.queue ?_
  intro y
  rcases hr.box y with hb | ⟨rfl, i, hi, hb⟩
  · exact Or.inl hb
  · rw [hb]
    exact Or.inr (hok i hi)

theorem posted_addressed (h : Addressed v) {o : Option Posting} (hs : ∀ p ∈ o, p.Sound v)
    (hok : Unshared v o) : Addressed (posted v o).1 := by
  cases o with
  | none => exact h
  | some p =>
    have hp := hs p rfl
    unfold posted post
    dsimp only
    split_ifs with hfull
    · cases hb : p.blocks with
      | none => exact h
      | some f =>
        have hk := Keeps.wait (hp.blocks f hb) (v.tid p.dest)
        exact h.moved (fun x hx => (hk.free x).mp hx) hk.tid
          fun x => Or.inl ⟨hk.boxOf x, fun m hm => by rwa [wait_queueAt] at hm⟩
    · have hk := deliver_keeps v (boxOf v p.dest) p.receiver p.msg
      refine h.moved (fun x hx => (hk.free x).mp hx) hk.tid ?_
      intro x
      by_cases hb : boxOf v x = boxOf v p.dest
      · refine Or.inr fun hx m hm => ?_
        have htid := hok p rfl (by simpa using hfull) x hx hb
        rw [hk.boxOf, deliver_queueAt, if_pos hb, put_list, List.mem_append,
          List.mem_singleton] at hm
        rcases hm with hm | rfl
        · exact h.own x hx m (hb ▸ hm)
        · exact hp.addressed.trans htid.symm
      · exact Or.inl ⟨hk.boxOf x, fun m hm => by rwa [deliver_queueAt, if_neg hb] at hm⟩

theorem recv_addressed (h : Addressed v) (x : Slot) (fromTid : ℤ) :
    Addressed (ipcRecv v x fromTid).1 := by
  cases ht : findLive v (v.tid x) with
  | none =>
    rw [recv_dead ht]
    exact h
  | some t =>
    rw [recv_eq ht]
    cases htake : MsgQueue.take (v.queueAt (boxOf v x)) fromTid with
    | none =>
      have hk := Keeps.wait (s := v) (findLive_spec ht).2.2.1 fromTid
      exact h.moved (fun x hx => (hk.free x).mp hx) hk.tid
        fun x => Or.inl ⟨hk.boxOf x, fun m hm => by rwa [wait_queueAt] at hm⟩
    | some r =>
      obtain ⟨m, q⟩ := r
      obtain ⟨-, -, hlist⟩ := take_cases htake
      have hk := receive_keeps v (boxOf v x) t q
      show Addressed (receive v (boxOf v x) t q)
      refine h.moved (fun x hx => (hk.free x).mp hx) hk.tid ?_
      intro y
      refine Or.inl ⟨hk.boxOf y, fun m' hm' => ?_⟩
      rw [receive_queueAt] at hm'
      split_ifs at hm' with hb
      · rw [hlist] at hm'
        rw [hb]
        exact List.mem_of_mem_eraseP hm'
      · exact hm'

/-! ### Allocation and freeing of tasks -/

theorem boxOf_withSched (h : (sched.task x).tid = v.tid x) :
    boxOf (v.withSched sched) x = boxOf v x :=
  boxOf_congr (fun _ => rfl) (fun _ => rfl) h

theorem allocate_addressed (h : Addressed v) {tid : ℤ} {now : ℕ}
    (htask : sched.task = Function.update v.sched.task x (allocatedTask tid now))
    (hok : tid ≠ invalidTid → Own v (boxFor v x tid) tid) : Addressed (v.withSched sched) := by
  have hself : (v.withSched sched).task x = allocatedTask tid now := by
    show sched.task x = _
    rw [htask, Function.update_self]
  have hother : ∀ y ≠ x, (v.withSched sched).task y = v.task y := by
    intro y hy
    show sched.task y = _
    rw [htask, Function.update_of_ne hy]
  refine ⟨?_, ?_⟩
  · intro y hy
    by_cases e : y = x
    · rw [e, System.state, hself] at hy
      cases hy
    · rw [System.state, hother y e] at hy
      rw [System.tid, hother y e]
      exact h.free y hy
  · intro y hy m hm
    rw [withSched_queueAt] at hm
    by_cases e : y = x
    · subst e
      have htid : (v.withSched sched).tid y = tid := by
        rw [System.tid, hself]
        rfl
      have hbox : boxOf (v.withSched sched) y = boxFor v y tid := by
        unfold boxOf boxFor
        rw [htid]
        rfl
      rw [htid] at hy ⊢
      rw [hbox] at hm
      exact hok hy m hm
    · have htid : (v.withSched sched).tid y = v.tid y := by rw [System.tid, hother y e]
      have hbox : boxOf (v.withSched sched) y = boxOf v y := boxOf_withSched htid
      rw [htid] at hy ⊢
      rw [hbox] at hm
      exact h.own y hy m hm

theorem free_addressed (h : Addressed v)
    (htid : ∀ y, (sched.task y).tid = if y = x then invalidTid else v.tid y)
    (hused : ∀ y ≠ x, sched.state y = .free → v.state y = .free) :
    Addressed (v.withSched sched) := by
  refine ⟨?_, ?_⟩
  · intro y hy
    show (sched.task y).tid = _
    rw [htid]
    split_ifs with e
    · rfl
    · exact h.free y (hused y e hy)
  · intro y hy m hm
    have hy' : (sched.task y).tid ≠ invalidTid := hy
    rw [htid] at hy'
    split_ifs at hy' with e
    · exact absurd rfl hy'
    · have hsame : (sched.task y).tid = v.tid y := by rw [htid, if_neg e]
      rw [withSched_queueAt, boxOf_withSched hsame] at hm
      exact (h.own y hy' m hm).trans hsame.symm

/-! ### Runs -/

def KeepsPrivate (s : Statics) (i : Input) : Prop := Private (view s) i

instance (s : Statics) (i : Input) : Decidable (KeepsPrivate s i) :=
  inferInstanceAs (Decidable (Private _ _))

theorem step_addressed {s s' : Statics} {a : Tcb.Types.ListSched} {i : Input} (hin : InRun s a)
    (h : Addressed (view s)) (hok : KeepsPrivate s i) (hs' : step s i = some s') :
    Addressed (view s') := by
  cases i with
  | ipc c =>
    obtain rfl := Option.some.inj hs'
    rw [(call_view hin.rings c).1]
    cases c with
    | createPort n => exact createPort_addressed h n
    | bindPort x p => exact h.rebinds (bindPort_boxes _ x p) hok
    | unbindPort x p => exact h.rebinds (unbindPort_boxes _ x p) hok
    | send f t m =>
      show Addressed (ipcSend (view s) f t m).1
      rw [send_eq]
      exact posted_addressed h (fun p hp => sendPosting_sound hp) hok
    | reply t m =>
      show Addressed (ipcReply (view s) t m).1
      rw [reply_eq]
      exact posted_addressed h (fun p hp => replyPosting_sound hp) hok
    | recv x j => exact recv_addressed h x j
    | _ => exact hok.elim
  | tcb op =>
    obtain ⟨k, hk, rfl⟩ := Option.map_eq_some_iff.mp hs'
    show Addressed ((view s).withSched (k.withQueue ()))
    cases op with
    | allocate =>
      obtain rfl := Option.some.inj hk
      unfold tcbAllocate
      cases hslot : freeSlot s.sched with
      | none => exact ⟨h.free, h.own⟩
      | some x => exact allocate_addressed h rfl (hok x hslot)
    | free x =>
      obtain ⟨k', hk', hr'⟩ := step_returns hin.rep hin.sound.noneFree (.free x)
      obtain rfl := Option.some.inj (hk'.symm.trans hk)
      have htask : (k'.withQueue ()).task = (Tcb.ListSched.free a x).task := hr'.task
      refine free_addressed (x := x) h ?_ ?_
      · intro y
        rw [htask, free_tid, ← hin.rep.task]
        rfl
      · intro y hy hf
        rw [Sched.state, htask] at hf
        have := free_used hf hy
        rw [← hin.rep.state] at this
        exact this
    | _ => exact hok.elim

theorem boot_addressed (entry stack : ℕ) :
    ∃ s, boot entry stack = some s ∧ ∃ a, InRun s a ∧ Addressed (view s) := by
  obtain ⟨k, hk, hr⟩ := init_returns entry stack
  obtain ⟨s, hs, hin⟩ := boot_inRun entry stack
  obtain ⟨-, -, -, -, hrun, hother⟩ := init_spec entry stack
  obtain rfl : s = ipcInit k := by
    unfold boot at hs
    rw [hk] at hs
    exact (Option.some.inj hs).symm
  refine ⟨_, hs, _, hin, ?_, ?_⟩
  · intro x hx
    have hx' : k.state x = .free := hx
    show (k.task x).tid = _
    rw [hr.state] at hx'
    by_cases e : x = 0
    · rw [e, hrun] at hx'
      cases hx'
    · rw [hr.task, hother x e]
      rfl
  · intro x _ m hm
    rw [init_view] at hm
    cases boxOf (ipcInit (k.withQueue ()) : View) x <;> cases hm

/-- **Delivery to the addressee only.** In every run of calls that keep queues private, `ipc_recv`
gives a task only messages that were sent to its thread id. -/
theorem recv_own {entry stack : ℕ} {st : Option Statics}
    (h : Reach (Lifted KeepsPrivate) (lift step) (boot entry stack) st) :
    ∃ s, st = some s ∧ ∀ x fromTid m, (ipcRecv s x fromTid).2.2 = some m →
      m.receiverTid = s.tid x := by
  have hkept : ∃ s, st = some s ∧ ∃ a, InRun s a ∧ Addressed (view s) := by
    refine h.returns (I := fun s => ∃ a, InRun s a ∧ Addressed (view s))
      (boot_addressed entry stack) ?_
    rintro s i ⟨a, hin, hadd⟩ hok
    obtain ⟨s', hs', hin'⟩ := hin.step i
    exact ⟨s', hs', _, hin', step_addressed hin hadd hok hs'⟩
  obtain ⟨s, rfl, a, hin, hadd⟩ := hkept
  refine ⟨s, rfl, ?_⟩
  intro x fromTid m hm
  obtain ⟨-, hans, -⟩ := call_view hin.rings (.recv x fromTid)
  have hm' : (ipcRecv (view s) x fromTid).2.2 = some m := (congrArg Answer.msg hans).symm.trans hm
  cases ht : findLive (view s) ((view s).tid x) with
  | none =>
    rw [recv_dead ht] at hm'
    cases hm'
  | some t =>
    rw [recv_eq ht] at hm'
    cases htake : MsgQueue.take ((view s).queueAt (boxOf (view s) x)) fromTid with
    | none =>
      rw [htake] at hm'
      cases hm'
    | some r =>
      obtain ⟨m', q⟩ := r
      rw [htake] at hm'
      obtain rfl := Option.some.inj hm'
      exact hadd.own x (findLive_spec ht).1 m' (List.mem_of_find?_eq_some (take_cases htake).1)

/-- Two tasks, a port for the first one and a message in each direction. -/
def privateRun : List Input :=
  [.tcb .allocate, .tcb .allocate, .ipc (.createPort 4), .ipc (.bindPort 1 0),
    .ipc (.send 2 1 .zero), .ipc (.send 1 2 .zero), .tcb (.free 0)]

theorem recv_own_private :
    ((privateRun.foldl (lift step) (boot 1 0x400000)).bind fun s =>
        (ipcRecv s 1 (-1)).2.2.map fun m => (m.senderTid, m.receiverTid)) = some (3, 2) ∧
      ∃ s, privateRun.foldl (lift step) (boot 1 0x400000) = some s ∧
        ∀ x fromTid m, (ipcRecv s x fromTid).2.2 = some m → m.receiverTid = s.tid x := by
  refine ⟨by decide +kernel, recv_own (Reach.foldl privateRun .init ?_)⟩
  decide +kernel

/-- A port with a queued message changes hands. -/
def reboundRun : List Input :=
  [.tcb .allocate, .tcb .allocate, .ipc (.createPort 4), .ipc (.bindPort 1 0),
    .ipc (.send 2 1 .zero), .ipc (.unbindPort 1 0), .ipc (.bindPort 2 0)]

/-- **A message for another task**: the task in slot 2, with thread id 3, receives a message for
thread id 2. -/
theorem message_misdelivered :
    ∃ s, reboundRun.foldl (lift step) (boot 1 0x400000) = some s ∧ s.tid 2 = 3 ∧
      (ipcRecv s 2 (-1)).2.2.map Message.receiverTid = some 2 := by
  refine ⟨_, rfl, ?_, ?_⟩ <;> decide +kernel

end Kerneloid.Ipc.Addressee
