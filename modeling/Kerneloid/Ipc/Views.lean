import Kerneloid.Ipc.Effects

/-! # The state without ring buffers and runqueue

What the calls of `ipc.c` do depends on the tasks and on the messages of each queue, in order.
`view` is that part of the state: the ring buffers are read as lists, and the runqueue is left out.
A call does the same to the view as to the state (`call_view`), so that invariants of runs are
proved about views. -/

namespace Kerneloid.Ipc.Views

open Lib.RingBuffer Tcb.Types Tcb.Ops Types Ops Queues Frames

variable {Q : Type}

/-- The tasks and the messages of each queue. -/
abbrev View := System Unit Fifo

def fifoOf (r : RingBuf Message) : Fifo := ⟨r.size, r.items⟩

def view (s : System Q (RingBuf Message)) : View where
  sched := s.sched.withQueue ()
  ports i := ⟨(s.ports i).used, (s.ports i).owner, fifoOf (s.ports i).queue⟩
  mailboxes i := fifoOf (s.mailboxes i)

/-- Every ring buffer is in order. -/
def Rings (s : System Q (RingBuf Message)) : Prop := ∀ b, (s.queueAt b).Valid

/-- The scheduler state without its runqueue. -/
def Shadow (s : Sched Q) (v : Sched Unit) : Prop := v = s.withQueue ()

theorem agree_shadow : Agree (Shadow (Q := Q)) where
  task := by
    rintro s _ rfl
    rfl
  modify := by
    rintro s _ rfl x f
    rfl

variable {s : System Q (RingBuf Message)} {v : View}

theorem view_queueAt (s : System Q (RingBuf Message)) (b : Box) :
    (view s).queueAt b = fifoOf (s.queueAt b) := by cases b <;> rfl

theorem Rings.alike (h : Rings s) : Alike Shadow s (view s) := by
  refine ⟨rfl, fun _ => rfl, fun _ => rfl, ?_⟩
  intro b
  rw [view_queueAt]
  exact ⟨h b, rfl, rfl⟩

theorem fifoOf_eq {r : RingBuf Message} {q : Fifo} (h : Stores r q) : fifoOf r = q := by
  unfold fifoOf
  rw [h.size, h.items]

theorem view_eq (h : Alike Shadow s v) : view s = v := by
  obtain ⟨sched, ports, mailboxes⟩ := v
  have hsched : sched = s.sched.withQueue () := h.sched
  subst hsched
  have hports : ∀ i, (view s).ports i = ports i := by
    intro i
    have h₁ := h.used i
    have h₂ := h.owner i
    have h₃ := fifoOf_eq (h.stores (.port i))
    dsimp only [System.queueAt] at h₁ h₂ h₃
    unfold view
    dsimp only
    rw [h₁, h₂, h₃]
  have hboxes : ∀ i, (view s).mailboxes i = mailboxes i := fun i => fifoOf_eq (h.stores (.mailbox i))
  rw [← funext hports, ← funext hboxes]
  rfl

theorem call_view (h : Rings s) (c : Call) :
    view (call s c).1 = (call (view s) c).1 ∧ (call s c).2 = (call (view s) c).2 ∧
      Rings (call s c).1 := by
  obtain ⟨ha, hans⟩ := call_same agree_shadow h.alike c
  exact ⟨view_eq ha, hans, fun b => (ha.stores b).valid⟩

theorem init_rings (sched : Sched Q) : Rings (ipcInit sched) :=
  fun b => ((init_alike (R := Shadow) (s := sched) rfl).stores b).valid

theorem init_view (sched : Sched Q) : view (ipcInit sched) = ipcInit (sched.withQueue ()) :=
  view_eq (init_alike rfl)

/-! ### Lists of messages -/

theorem put_list (q : Fifo) (m : Message) : (MsgQueue.put q m : Fifo).list = q.list ++ [m] := rfl

theorem take_cases {q q' : Fifo} {fromTid : ℤ} {m : Message}
    (h : MsgQueue.take q fromTid = some (m, q')) :
    q.list.find? (accepts fromTid) = some m ∧ q'.size = q.size ∧
      q'.list = q.list.eraseP (accepts fromTid) := by
  have h' : ((q.list.find? (accepts fromTid)).map fun m =>
      (m, ({ q with list := q.list.eraseP (accepts fromTid) } : Fifo))) = some (m, q') := h
  rw [Option.map_eq_some_iff] at h'
  obtain ⟨m', hm', e⟩ := h'
  obtain ⟨rfl, rfl⟩ := Prod.mk.inj e
  exact ⟨hm', rfl, rfl⟩

theorem take_none {q : Fifo} {fromTid : ℤ} (h : MsgQueue.take q fromTid = none) :
    ∀ m ∈ q.list, accepts fromTid m = false := by
  have h' : q.list.find? (accepts fromTid) = none := Option.map_eq_none_iff.mp h
  rw [List.find?_eq_none] at h'
  intro m hm
  simpa using h' m hm

/-! ### The pool of tasks -/

/-- The thread ids name the tasks: a free slot has none, and no two slots have the same one. -/
structure Pool (task : Slot → Task) : Prop where
  free : ∀ x, (task x).state = .free → (task x).tid = invalidTid
  distinct : ∀ x y, (task x).tid = (task y).tid → (task x).tid ≠ invalidTid → x = y

theorem Pool.two {task : Slot → Task}
    (htid : ∀ x, (task x).tid = if x = 0 then 1 else if x = 1 then 2 else invalidTid)
    (hused : ∀ x, (task x).state = .free → x ≠ 0 ∧ x ≠ 1) : Pool task := by
  refine ⟨?_, ?_⟩
  · intro x hx
    obtain ⟨h₀, h₁⟩ := hused x hx
    rw [htid, if_neg h₀, if_neg h₁]
  · intro x y hxy hx
    rw [htid] at hx hxy
    rw [htid] at hxy
    unfold invalidTid at hx hxy
    split_ifs at hxy hx <;> simp_all

theorem Pool.keeps {B : Type} {s s' : System Q B} (h : Pool s.sched.task) (hk : Keeps s s') :
    Pool s'.sched.task := by
  refine ⟨?_, ?_⟩
  · intro x hx
    exact (hk.tid x).trans (h.free x ((hk.free x).mp hx))
  · intro x y hxy hx
    refine h.distinct x y ?_ ?_
    · exact (hk.tid x).symm.trans (hxy.trans (hk.tid y))
    · exact fun e => hx ((hk.tid x).trans e)

theorem Pool.findLive {B : Type} {s : System Q B} (h : Pool s.sched.task) {x t : Slot}
    (ht : findLive s (s.tid x) = some t) : t = x := by
  obtain ⟨hne, htid, -, -⟩ := findLive_spec ht
  exact (h.distinct x t htid.symm hne).symm

theorem Pool.getByTid {B : Type} {s : System Q B} (h : Pool s.sched.task) {x : Slot}
    (hx : s.state x ≠ .free) (htid : s.tid x ≠ invalidTid) :
    tcbGetByTid s.sched (s.tid x) = some x := by
  cases hget : tcbGetByTid s.sched (s.tid x) with
  | none =>
    unfold tcbGetByTid at hget
    rw [if_neg htid, List.find?_eq_none] at hget
    exact absurd (decide_eq_true ⟨rfl, hx⟩) (hget x (List.mem_finRange x))
  | some y =>
    obtain ⟨-, hy, -⟩ := getByTid_spec hget
    rw [h.distinct x y hy.symm htid]

end Kerneloid.Ipc.Views
