import Kerneloid.Lib.Runs
import Kerneloid.Ipc.Ports
import Kerneloid.Ipc.Views

/-! # Messages stay within reach

`ipc_send` and `ipc_recv` each choose the queue of a task when they are called: that of its first
port, or its mailbox. A message in the queue of the time of the send is out of reach once the task
has another queue. In a run in which a task changes its queue only when no message for it is in the
old one, every message that was accepted and not yet received is in the queue of its receiver
(`Within`). -/

namespace Kerneloid.Ipc.Stranded

open Lib.RingBuffer Lib.Runs Tcb.Types Tcb.Ops Types Ops Queues Frames Ports Effects Views

variable {Q B : Type} [MsgQueue B]

/-- The state with the messages for which `ipc_send` answered `0` and that were not received yet. -/
structure Ledger (Q B : Type) where
  sys : System Q B
  pending : List Message

def record (s : System Q B) (pending : List Message) (c : Call) (ans : Answer) : List Message :=
  match c with
  | .send f t m =>
    if ans.ret = 0 then pending ++ [{ m with senderTid := s.tid f, receiverTid := s.tid t }]
    else pending
  | .recv _ _ =>
    match ans.msg with
    | none => pending
    | some m => pending.erase m
  | _ => pending

def step (l : Ledger Q B) (c : Call) : Ledger Q B :=
  ⟨(call l.sys c).1, record l.sys l.pending c (call l.sys c).2⟩

/-- No message for task `x` is in its queue. -/
def NoMail (v : View) (x : Slot) : Prop :=
  ∀ m ∈ (v.queueAt (boxOf v x)).list, m.receiverTid ≠ v.tid x

instance (v : View) (x : Slot) : Decidable (NoMail v x) := inferInstanceAs (Decidable (∀ _ ∈ _, _))

/-- **The calls that leave no message behind.** A task gets another queue when it is bound to a port
before its first one, or when it gives up its first port: then no message for it is in its queue. -/
def Leaves (v : View) : Call → Prop
  | .createPort _ => True
  | .bindPort x portId => gains v x portId ≠ none → NoMail v x
  | .unbindPort x portId => givesUp v x portId ≠ none → NoMail v x
  | .send _ _ _ => True
  | .recv _ _ => True
  | _ => False

/-- **The invariant**: each pending message is in the queue of its receiver, as often as it is
pending. -/
structure Within (v : View) (pending : List Message) : Prop where
  pool : Pool v.sched.task
  kept : ∀ x, v.tid x ≠ invalidTid → ∀ m : Message, m.receiverTid = v.tid x →
    pending.count m ≤ (v.queueAt (boxOf v x)).list.count m

variable {v v' : View} {pending : List Message} {x : Slot}

theorem Within.moved (h : Within v pending) (htask : v'.sched = v.sched)
    (hbox : ∀ x, (boxOf v' x = boxOf v x ∧ v'.queueAt (boxOf v x) = v.queueAt (boxOf v x)) ∨ NoMail
      v x) :
    Within v' pending := by
  have htid : ∀ x, v'.tid x = v.tid x := by
    intro x
    unfold System.tid System.task
    rw [htask]
  refine ⟨by rw [htask]; exact h.pool, ?_⟩
  intro x hx m hm
  rw [htid] at hx hm
  have hkept := h.kept x hx m hm
  rcases hbox x with ⟨hb, hq⟩ | hnone
  · rw [hb, hq]
    exact hkept
  · have hzero : (v.queueAt (boxOf v x)).list.count m = 0 := by
      rw [List.count_eq_zero]
      intro hmem
      exact hnone m hmem hm
    omega

theorem createPort_within (h : Within v pending) (n : ℕ) :
    Within (ipcCreatePort v n).1 pending := by
  obtain ⟨htask, hbox⟩ := createPort_boxes v n
  exact h.moved htask fun x => Or.inl (hbox x)

theorem Within.rebinds (h : Within v pending) {o : Option (Fin 128)} {box : Fin 128 → Box}
    (hr : Rebinds v v' x o box) (hok : o ≠ none → NoMail v x) : Within v' pending := by
  refine h.moved hr.sched ?_
  intro y
  rcases hr.box y with hsame | ⟨rfl, i, hi, -⟩
  · exact Or.inl ⟨hsame, hr.queue _⟩
  · exact Or.inr (hok (by rw [hi]; simp))

theorem Within.keeps (h : Within v pending) (hk : Keeps v v')
    (hq : ∀ b, v'.queueAt b = v.queueAt b) : Within v' pending := by
  refine ⟨h.pool.keeps hk, ?_⟩
  intro x hx m hm
  rw [hk.tid] at hx hm
  rw [hk.boxOf, hq]
  exact h.kept x hx m hm

theorem deliver_within (h : Within v pending) {p : Posting} (hs : p.Sound v) :
    Within (deliver v (boxOf v p.dest) p.receiver p.msg) (pending ++ [p.msg]) := by
  have hk := deliver_keeps v (boxOf v p.dest) p.receiver p.msg
  refine ⟨h.pool.keeps hk, ?_⟩
  intro x hx m hm
  rw [hk.tid] at hx hm
  rw [hk.boxOf, deliver_queueAt, List.count_append]
  have hkept := h.kept x hx m hm
  by_cases hxt : x = p.dest
  · subst hxt
    rw [if_pos rfl, put_list, List.count_append]
    omega
  · -- the message is for another task
    have hne : m ≠ p.msg := by
      rintro rfl
      have htid : v.tid x = v.tid p.dest := hm.symm.trans hs.addressed
      exact hxt (h.pool.distinct x p.dest htid hx)
    have hzero : List.count m [p.msg] = 0 := by simp [Ne.symm hne]
    split_ifs with hbox
    · rw [put_list, List.count_append, ← hbox]
      omega
    · omega

theorem send_within (h : Within v pending) (f t : Slot) (m : Message) :
    ((ipcSend v f t m).2 = 0 → Within (ipcSend v f t m).1
      (pending ++ [{ m with senderTid := v.tid f, receiverTid := v.tid t }])) ∧
    ((ipcSend v f t m).2 ≠ 0 → Within (ipcSend v f t m).1 pending) := by
  rw [send_eq]
  cases hp : sendPosting v f t m with
  | none => exact ⟨fun e => by simp [posted] at e, fun _ => h⟩
  | some p =>
    have hs := sendPosting_sound hp
    have hmsg : p.dest = t ∧ p.msg = { m with senderTid := v.tid f, receiverTid := v.tid t } := by
      unfold sendPosting at hp
      split at hp
      · obtain rfl := Option.some.inj hp
        exact ⟨rfl, rfl⟩
      · cases hp
    obtain ⟨rfl, hmsg⟩ := hmsg
    rw [← hmsg]
    unfold posted post
    dsimp only
    split_ifs with hfull
    · cases hb : p.blocks with
      | none => exact ⟨fun e => by simp at e, fun _ => h⟩
      | some g =>
        have hk := Keeps.wait (hs.blocks g hb) (v.tid p.dest)
        exact ⟨fun e => by simp at e, fun _ => h.keeps hk fun b => wait_queueAt _ _ _⟩
    · exact ⟨fun _ => deliver_within h hs, fun e => absurd rfl e⟩

theorem perm_eraseP {l : List Message} {p : Message → Bool} {m : Message}
    (h : l.find? p = some m) : l.Perm (m :: l.eraseP p) := by
  obtain ⟨hp, as, bs, rfl, has⟩ := List.find?_eq_some_iff_append.mp h
  have hbefore : ∀ a ∈ as, ¬ p a = true := by
    intro a ha
    simpa using has a ha
  rw [List.eraseP_append_right _ hbefore, List.eraseP_cons_of_pos hp]
  exact List.perm_middle

theorem recv_within (h : Within v pending) (x : Slot) (fromTid : ℤ) :
    Within (ipcRecv v x fromTid).1
      (record v pending (.recv x fromTid) (call v (.recv x fromTid)).2) := by
  unfold record call
  dsimp only
  cases ht : findLive v (v.tid x) with
  | none =>
    rw [recv_dead ht]
    exact h
  | some t =>
    rw [recv_eq ht]
    cases htake : MsgQueue.take (v.queueAt (boxOf v x)) fromTid with
    | none =>
      have hk := Keeps.wait (s := v) (findLive_spec ht).2.2.1 fromTid
      exact h.keeps hk fun b => wait_queueAt _ _ _
    | some r =>
      obtain ⟨m, q⟩ := r
      obtain ⟨hfind, -, hlist⟩ := take_cases htake
      have hk := receive_keeps v (boxOf v x) t q
      refine ⟨h.pool.keeps hk, ?_⟩
      intro y hy m' hm'
      dsimp only at hy hm' ⊢
      rw [hk.tid] at hy hm'
      rw [hk.boxOf, receive_queueAt, List.count_erase]
      have hkept := h.kept y hy m' hm'
      by_cases hbox : boxOf v y = boxOf v x
      · -- the message is taken out of the queue of `y`, and is not pending any more
        have hcount := (perm_eraseP hfind).count_eq m'
        rw [List.count_cons] at hcount
        rw [hbox] at hkept
        rw [if_pos hbox, hlist]
        split_ifs at hcount ⊢ <;> omega
      · rw [if_neg hbox]
        omega

/-! ### Runs -/

/-- The ledger without ring buffers and runqueue. -/
def viewOf (l : Ledger Q (RingBuf Message)) : Ledger Unit Fifo := ⟨view l.sys, l.pending⟩

def NothingLeft (l : Ledger Q (RingBuf Message)) (c : Call) : Prop := Leaves (view l.sys) c

theorem step_within {l : Ledger Unit Fifo} (h : Within l.sys l.pending) {c : Call}
    (hok : Leaves l.sys c) : Within (step l c).sys (step l c).pending := by
  obtain ⟨v, pending⟩ := l
  cases c with
  | createPort n => exact createPort_within h n
  | bindPort x p => exact h.rebinds (bindPort_boxes v x p) hok
  | unbindPort x p => exact h.rebinds (unbindPort_boxes v x p) hok
  | send f t m =>
    obtain ⟨hsent, hnot⟩ := send_within h f t m
    show Within (ipcSend v f t m).1 (record v pending (.send f t m) ⟨(ipcSend v f t m).2, none⟩)
    by_cases hret : (ipcSend v f t m).2 = 0
    · rw [record, if_pos hret]
      exact hsent hret
    · rw [record, if_neg hret]
      exact hnot hret
  | recv x i => exact recv_within h x i
  | _ => exact hok.elim

theorem step_view {l : Ledger Q (RingBuf Message)} (h : Rings l.sys) (c : Call) :
    viewOf (step l c) = step (viewOf l) c ∧ Rings (step l c).sys := by
  obtain ⟨hv, hans, hr⟩ := call_view h c
  refine ⟨?_, hr⟩
  have hrec : record l.sys l.pending c (call l.sys c).2 =
      record (view l.sys) l.pending c (call (view l.sys) c).2 := by
    rw [hans]
    cases c <;> rfl
  unfold viewOf step
  dsimp only
  rw [hv, hrec]

/-- **No message is stranded.** In every run in which a task changes its queue only when no message
for it is in the old one: when `ipc_recv` blocks a task, no message for it that its filter accepts
is pending. -/
theorem recv_blocks_without_mail {sched : Sched Q} (hpool : Pool sched.task)
    {l : Ledger Q (RingBuf Message)} (h : Reach NothingLeft step ⟨ipcInit sched, []⟩ l) {x t : Slot}
    (ht : findLive l.sys (l.sys.tid x) = some t) {fromTid : ℤ}
    (hblock : (ipcRecv l.sys x fromTid).2.1 = -1) :
    ∀ m ∈ l.pending, m.receiverTid = l.sys.tid x → accepts fromTid m = false := by
  have hinv : Rings l.sys ∧ Within (viewOf l).sys (viewOf l).pending := by
    refine h.inv (I := fun l => Rings l.sys ∧ Within (viewOf l).sys (viewOf l).pending) ?_ ?_
    · refine ⟨init_rings sched, ?_, ?_⟩
      · exact hpool
      · intro x _ m _
        exact Nat.zero_le _
    · rintro l c ⟨hr, hw⟩ hok
      obtain ⟨hv, hr'⟩ := step_view hr c
      rw [hv]
      exact ⟨hr', step_within hw hok⟩
  obtain ⟨hr, hw⟩ := hinv
  -- the queue of `x` holds no message the filter accepts
  obtain ⟨-, hans, -⟩ := call_view hr (.recv x fromTid)
  have hret : (ipcRecv (view l.sys) x fromTid).2.1 = -1 :=
    (congrArg Answer.ret hans).symm.trans hblock
  have ht' : findLive (view l.sys) ((view l.sys).tid x) = some t := by
    rw [← ht]
    exact (hr.alike.findLive agree_shadow _).symm
  rw [recv_eq ht'] at hret
  intro m hm htid
  have hx : (view l.sys).tid x ≠ invalidTid := (findLive_spec ht').1
  have hmem : m ∈ ((view l.sys).queueAt (boxOf (view l.sys) x)).list := by
    have hkept := hw.kept x hx m htid
    have hpos : 0 < l.pending.count m := List.count_pos_iff.mpr hm
    exact List.count_pos_iff.mp (lt_of_lt_of_le hpos hkept)
  cases htake : MsgQueue.take ((view l.sys).queueAt (boxOf (view l.sys) x)) fromTid with
  | none =>
    exact take_none htake m hmem
  | some r =>
    rw [htake] at hret
    simp at hret

def twoTasks : Sched Unit where
  task x :=
    { initTask with
      tid := if x = 0 then 1 else if x = 1 then 2 else invalidTid
      state := if x = 0 ∨ x = 1 then .ready else .free }
  nextTid := 3
  queue := ()
  current := none
  ticks := 0
  initialized := true
  idle := none

theorem twoTasks_pool : Pool twoTasks.task := Pool.two (fun _ => rfl) (by decide +kernel)

def empty : Ledger Unit (RingBuf Message) := ⟨ipcInit twoTasks, []⟩

def bindEarly : List Call := [.createPort 4, .bindPort 0 0, .send 1 0 .zero]

theorem bindEarly_admits : Admits NothingLeft step empty bindEarly := by
  refine ⟨trivial, ?_, trivial, trivial⟩
  show gains _ _ _ ≠ none → NoMail _ _
  decide +kernel

theorem recv_blocks_without_mail_early :
    (bindEarly.foldl step empty).pending = [{ Message.zero with senderTid := 2, receiverTid := 1 }] ∧
      (ipcRecv (bindEarly.foldl step empty).sys 0 5).2.1 = -1 ∧
      ∀ m ∈ (bindEarly.foldl step empty).pending,
        m.receiverTid = (bindEarly.foldl step empty).sys.tid 0 → accepts 5 m = false := by
  have hblock : (ipcRecv (bindEarly.foldl step empty).sys 0 5).2.1 = -1 := by decide +kernel
  have hlive : findLive (bindEarly.foldl step empty).sys
      ((bindEarly.foldl step empty).sys.tid 0) = some 0 := by decide +kernel
  exact ⟨by decide +kernel, hblock, recv_blocks_without_mail twoTasks_pool
    (Reach.foldl bindEarly .init bindEarly_admits) hlive hblock⟩

def bindLate : List Call := [.createPort 4, .send 1 0 .zero, .bindPort 0 0]

/-- **A message is stranded**: it was put into the mailbox of slot 0, and `ipc_recv` then looks for
it in the port. -/
theorem message_stranded : let l := bindLate.foldl step empty
    l.pending = [{ Message.zero with senderTid := 2, receiverTid := 1 }] ∧ l.sys.tid 0 = 1 ∧
      (ipcRecv l.sys 0 (-1)).2.1 = -1 ∧ (ipcRecv l.sys 0 (-1)).1.state 0 = .blocked := by
  refine ⟨?_, ?_, ?_, ?_⟩ <;> decide +kernel

end Kerneloid.Ipc.Stranded
