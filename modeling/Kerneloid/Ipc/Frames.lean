import Kerneloid.Ipc.Queues

/-! # What the calls leave alone

Which queue a task uses depends on the ports and the thread ids (`boxOf_congr`), and the calls that
only make tasks wait or wake them change neither (`Keeps`). The loop that wakes senders is given by
what it does to each task (`wakeLoop_task`). -/

namespace Kerneloid.Ipc.Frames

open Tcb.Types Tcb.Ops Types Ops

variable {tid : ℤ} {i : Fin 128}

variable {Q B : Type} {s s' : System Q B} {x y : Slot}

/-! ### Lookups -/

theorem getByTid_spec {sched : Sched Q} (h : tcbGetByTid sched tid = some x) :
    tid ≠ invalidTid ∧ (sched.task x).tid = tid ∧ sched.state x ≠ .free := by
  unfold tcbGetByTid at h
  split_ifs at h with hi
  have := List.find?_some h
  simp only [decide_eq_true_eq] at this
  exact ⟨hi, this.1, this.2⟩

theorem findLive_spec (h : findLive s tid = some x) :
    tid ≠ invalidTid ∧ s.tid x = tid ∧ s.state x ≠ .free ∧ s.state x ≠ .zombie := by
  unfold findLive at h
  rw [Option.filter_eq_some_iff] at h
  obtain ⟨hget, hst⟩ := h
  obtain ⟨h₁, h₂, -⟩ := getByTid_spec hget
  simp only [decide_eq_true_eq] at hst
  exact ⟨h₁, h₂, hst⟩

theorem findPort_spec (h : findPortForTask s x = some i) :
    (s.ports i).used = true ∧ (s.ports i).owner = some x := by
  have := List.find?_some h
  simpa using this

theorem usedPort_used {portId : ℤ} (h : usedPort s portId = some i) : (s.ports i).used = true := by
  unfold usedPort at h
  rw [Option.filter_eq_some_iff] at h
  exact h.2

theorem findPort_congr {Q' B' : Type} {t : System Q' B'}
    (hused : ∀ i, (t.ports i).used = (s.ports i).used)
    (howner : ∀ i, (t.ports i).owner = (s.ports i).owner) (x : Slot) :
    findPortForTask t x = findPortForTask s x := by
  unfold findPortForTask
  congr 1
  funext i
  rw [hused, howner]

theorem boxOf_congr {Q' B' : Type} {t : System Q' B'}
    (hused : ∀ i, (t.ports i).used = (s.ports i).used)
    (howner : ∀ i, (t.ports i).owner = (s.ports i).owner) (htid : t.tid x = s.tid x) :
    boxOf t x = boxOf s x := by
  unfold boxOf
  rw [findPort_congr hused howner, htid]

theorem find?_ports {p : Fin 128 → Bool} :
    (List.finRange 128).find? p = some i ↔ p i = true ∧ ∀ j < i, p j = false := by
  rw [List.find?_eq_some_iff_getElem]
  simp only [List.getElem_finRange, Fin.cast_mk, Bool.not_eq_true']
  constructor
  · rintro ⟨hp, k, hk, rfl, hlt⟩
    exact ⟨hp, fun j hj => hlt j hj⟩
  · rintro ⟨hp, hlt⟩
    exact ⟨hp, i, by simp, rfl, fun j hj => hlt ⟨j, by omega⟩ hj⟩

theorem findPort_iff :
    findPortForTask s x = some i ↔
      ((s.ports i).used = true ∧ (s.ports i).owner = some x) ∧
        ∀ j < i, ¬ ((s.ports j).used = true ∧ (s.ports j).owner = some x) := by
  unfold findPortForTask
  rw [find?_ports]
  simp only [decide_eq_true_eq, decide_eq_false_iff_not]

theorem findPort_none :
    findPortForTask s x = none ↔
      ∀ i, ¬ ((s.ports i).used = true ∧ (s.ports i).owner = some x) := by
  unfold findPortForTask
  rw [List.find?_eq_none]
  simp

/-! ### The ports and the thread ids stay -/

/-- No port changes hands, and no thread id changes. -/
structure Keeps (s s' : System Q B) : Prop where
  used : ∀ i, (s'.ports i).used = (s.ports i).used
  owner : ∀ i, (s'.ports i).owner = (s.ports i).owner
  tid : ∀ x, s'.tid x = s.tid x
  free : ∀ x, s'.state x = .free ↔ s.state x = .free

theorem Keeps.refl (s : System Q B) : Keeps s s :=
  ⟨fun _ => rfl, fun _ => rfl, fun _ => rfl, fun _ => Iff.rfl⟩

theorem Keeps.trans {s'' : System Q B} (h : Keeps s s') (h' : Keeps s' s'') : Keeps s s'' :=
  ⟨fun i => (h'.used i).trans (h.used i), fun i => (h'.owner i).trans (h.owner i),
    fun x => (h'.tid x).trans (h.tid x), fun x => (h'.free x).trans (h.free x)⟩

theorem Keeps.findPort (h : Keeps s s') (x : Slot) : findPortForTask s' x = findPortForTask s x :=
  findPort_congr h.used h.owner x

theorem Keeps.boxOf (h : Keeps s s') (x : Slot) : boxOf s' x = boxOf s x :=
  boxOf_congr h.used h.owner (h.tid x)

theorem Keeps.modify {f : Task → Task} (hx : s.state x ≠ .free) (htid : ∀ t, (f t).tid = t.tid)
    (hst : ∀ t, (f t).state ≠ .free) : Keeps s (s.modify x f) := by
  refine ⟨fun _ => rfl, fun _ => rfl, ?_, ?_⟩
  · intro y
    unfold System.tid
    rw [modify_task]
    split_ifs with e
    · rw [htid, e]
    · rfl
  · intro y
    unfold System.state
    rw [modify_task]
    split_ifs with e
    · subst e
      simp [hst, hx]
    · rfl

theorem Keeps.wait (hx : s.state x ≠ .free) (tid : ℤ) : Keeps s (ipcWaitForMessage s x tid) :=
  Keeps.modify hx (fun _ => rfl) fun _ => by simp [waitTask]

theorem Keeps.wake (hx : s.state x = .blocked) : Keeps s (s.modify x wakeTask) :=
  Keeps.modify (by rw [hx]; simp) (fun _ => rfl) fun _ => by simp [wakeTask]

theorem Keeps.setQueue (s : System Q B) (b : Box) (q : B) : Keeps s (s.setQueue b q) := by
  refine ⟨setQueue_used s b q, setQueue_owner s b q, ?_, ?_⟩
  · intro y
    unfold System.tid System.task
    rw [setQueue_sched]
  · intro y
    unfold System.state System.task
    rw [setQueue_sched]

theorem Keeps.getByTid (h : Keeps s s') (tid : ℤ) :
    tcbGetByTid s'.sched tid = tcbGetByTid s.sched tid := by
  have hp : (fun i => decide ((s'.sched.task i).tid = tid ∧ s'.sched.state i ≠ .free)) =
      fun i => decide ((s.sched.task i).tid = tid ∧ s.sched.state i ≠ .free) := by
    funext i
    have h₁ : (s'.sched.task i).tid = (s.sched.task i).tid := h.tid i
    have h₂ : s'.sched.state i = .free ↔ s.sched.state i = .free := h.free i
    rw [h₁, decide_eq_decide, ne_eq, h₂]
  unfold tcbGetByTid
  rw [hp]

/-! ### The loop that wakes senders -/

/-- What a room test of the loop may look at: nothing that the loop changes. -/
def Fixed (room : System Q B → Bool) : Prop :=
  ∀ s x, s.state x = .blocked → room (s.modify x wakeTask) = room s

theorem fixed_hasSpace [MsgQueue B] (x : Slot) : Fixed (hasSpace (Q := Q) (B := B) x) := by
  intro s y hy
  unfold hasSpace
  rw [(Keeps.wake hy).boxOf, modify_queueAt]

theorem wakeRound_cases (room : System Q B → Bool) (tid : ℤ) (s : System Q B) (i : ℕ) :
    (∃ x, tcbGetByTid s.sched i = some x ∧ blockedOn (s.task x) tid ∧ room s = true ∧
      wakeRound room tid s i = s.modify x wakeTask) ∨
    (wakeRound room tid s i = s ∧
      ∀ y, tcbGetByTid s.sched i = some y → ¬ (blockedOn (s.task y) tid ∧ room s = true)) := by
  unfold wakeRound
  cases hget : tcbGetByTid s.sched i with
  | none => exact Or.inr ⟨rfl, fun y e => by cases e⟩
  | some x =>
    by_cases hx : blockedOn (s.task x) tid ∧ room s = true
    · exact Or.inl ⟨x, rfl, hx.1, hx.2, if_pos hx⟩
    · refine Or.inr ⟨if_neg hx, ?_⟩
      intro y e
      rwa [← Option.some.inj e]

/-- A task that the loop over the thread ids `l` wakes: it is found and waits for `tid`. -/
def Hit (room : System Q B → Bool) (tid : ℤ) (l : List ℕ) (s : System Q B) (y : Slot) : Prop :=
  blockedOn (s.task y) tid ∧ room s = true ∧ ∃ i ∈ l, tcbGetByTid s.sched (i : ℤ) = some y

theorem wakeRounds_task {room : System Q B → Bool} (hroom : Fixed room) (tid : ℤ) (l : List ℕ) :
    ∀ (s : System Q B) (y : Slot),
      (Hit room tid l s y → (l.foldl (wakeRound room tid) s).task y = wakeTask (s.task y)) ∧
      (¬ Hit room tid l s y → (l.foldl (wakeRound room tid) s).task y = s.task y) := by
  induction l with
  | nil =>
    intro s y
    refine ⟨?_, fun _ => rfl⟩
    rintro ⟨-, -, i, hi, -⟩
    cases hi
  | cons i l ih =>
    intro s y
    rw [List.foldl_cons]
    rcases wakeRound_cases room tid s i with ⟨x, hget, hx, hr, e⟩ | ⟨e, hnot⟩
    · rw [e]
      obtain ⟨hin, hout⟩ := ih (s.modify x wakeTask) y
      have htask := modify_task s x wakeTask y
      by_cases hyx : y = x
      · -- the task is awake now, and stays so
        subst hyx
        rw [if_pos rfl] at htask
        have hawake : ¬ Hit room tid l (s.modify y wakeTask) y := by
          rintro ⟨hb, -, -⟩
          rw [htask] at hb
          cases hb.1
        refine ⟨fun _ => (hout hawake).trans htask, fun hn => ?_⟩
        exact absurd ⟨hx, hr, i, List.mem_cons_self, hget⟩ hn
      · rw [if_neg hyx] at htask
        have hiff : Hit room tid l (s.modify x wakeTask) y ↔ Hit room tid (i :: l) s y := by
          unfold Hit
          rw [htask, hroom s x hx.1]
          simp only [(Keeps.wake hx.1).getByTid, List.mem_cons, exists_eq_or_imp, hget,
            Option.some.injEq, Ne.symm hyx, false_or]
        rw [hiff, htask] at hin hout
        exact ⟨hin, hout⟩
    · rw [e]
      obtain ⟨hin, hout⟩ := ih s y
      have hiff : Hit room tid l s y ↔ Hit room tid (i :: l) s y := by
        refine ⟨fun ⟨hb, hr, j, hj, hg⟩ => ⟨hb, hr, j, List.mem_cons_of_mem i hj, hg⟩, ?_⟩
        rintro ⟨hb, hr, j, hj, hg⟩
        rcases List.mem_cons.mp hj with rfl | hj
        · exact absurd ⟨hb, hr⟩ (hnot y hg)
        · exact ⟨hb, hr, j, hj, hg⟩
      rw [hiff] at hin hout
      exact ⟨hin, hout⟩

theorem mem_wakeTids {i : ℕ} : i ∈ wakeTids ↔ 1 ≤ i ∧ i < 2048 := by
  unfold wakeTids
  rw [List.mem_range'_1]

/-- The tasks that the loop can find. -/
def Reached (s : System Q B) (y : Slot) : Prop :=
  1 ≤ s.tid y ∧ s.tid y ≤ 2047 ∧ tcbGetByTid s.sched (s.tid y) = some y

theorem reached_iff (s : System Q B) (y : Slot) :
    (∃ i ∈ wakeTids, tcbGetByTid s.sched (i : ℤ) = some y) ↔ Reached s y := by
  constructor
  · rintro ⟨i, hi, hget⟩
    have htid : s.tid y = i := (getByTid_spec hget).2.1
    rw [mem_wakeTids] at hi
    exact ⟨by omega, by omega, htid ▸ hget⟩
  · rintro ⟨h₁, h₂, hget⟩
    refine ⟨(s.tid y).toNat, ?_, ?_⟩
    · rw [mem_wakeTids]
      omega
    · rwa [Int.toNat_of_nonneg (by omega)]

/-- **The loop, task by task**: it wakes the tasks it can find that wait for `tid`, if there is
room, and leaves the others. -/
theorem wakeLoop_task {room : System Q B → Bool} (hroom : Fixed room) (tid : ℤ) (s : System Q B)
    (y : Slot) :
    (blockedOn (s.task y) tid → room s = true → Reached s y →
      (wakeLoop room tid s).task y = wakeTask (s.task y)) ∧
    (¬ (blockedOn (s.task y) tid ∧ room s = true ∧ Reached s y) →
      (wakeLoop room tid s).task y = s.task y) := by
  have hloop : wakeLoop room tid s = wakeTids.foldl (wakeRound room tid) s := rfl
  obtain ⟨hin, hout⟩ := wakeRounds_task hroom tid wakeTids s y
  unfold Hit at hin hout
  rw [reached_iff, ← hloop] at hin hout
  exact ⟨fun h₁ h₂ h₃ => hin ⟨h₁, h₂, h₃⟩, hout⟩

theorem wakeLoop_inv {room : System Q B → Bool} {I : System Q B → Prop}
    (hstep : ∀ s x, I s → s.state x = .blocked → I (s.modify x wakeTask)) (h : I s) :
    I (wakeLoop room tid s) := by
  have hround : ∀ s i, I s → I (wakeRound room tid s i) := by
    intro s i hs
    unfold wakeRound
    split
    · exact hs
    · split_ifs with hx
      · exact hstep s _ hs hx.1.1
      · exact hs
  unfold wakeLoop
  generalize wakeTids = l
  induction l generalizing s with
  | nil => exact h
  | cons i l ih => exact ih (hround s i h)

theorem wakeLoop_keeps (room : System Q B → Bool) (tid : ℤ) (s : System Q B) :
    Keeps s (wakeLoop room tid s) :=
  wakeLoop_inv (I := fun s' => Keeps s s') (fun _ _ h hx => h.trans (Keeps.wake hx)) (Keeps.refl s)

@[simp] theorem wakeLoop_queueAt (room : System Q B → Bool) (tid : ℤ) (s : System Q B) (b : Box) :
    (wakeLoop room tid s).queueAt b = s.queueAt b :=
  wakeLoop_inv (I := fun s' => s'.queueAt b = s.queueAt b)
    (fun s' x h _ => by rw [modify_queueAt, h]) rfl

theorem wakeupPort_inv [MsgQueue B] {I : System Q B → Prop}
    (hstep : ∀ s x, I s → s.state x = .blocked → I (s.modify x wakeTask)) (h : I s) :
    I (wakeupPort s i) := by
  unfold wakeupPort
  split
  · exact h
  · rename_i owner _
    have howner : I (wakeOwner s i owner) := by
      unfold wakeOwner
      split_ifs with hb
      · exact hstep s owner h hb.1
      · exact h
    dsimp only
    split_ifs
    · exact howner
    · exact wakeLoop_inv hstep howner

theorem wakeupPort_keeps [MsgQueue B] (s : System Q B) (i : Fin 128) : Keeps s (wakeupPort s i) :=
  wakeupPort_inv (I := fun s' => Keeps s s') (fun _ _ h hx => h.trans (Keeps.wake hx))
    (Keeps.refl s)

theorem wakeupPort_queueAt [MsgQueue B] (s : System Q B) (i : Fin 128) (b : Box) :
    (wakeupPort s i).queueAt b = s.queueAt b :=
  wakeupPort_inv (I := fun s' => s'.queueAt b = s.queueAt b)
    (fun s' x h _ => by rw [modify_queueAt, h]) rfl

end Kerneloid.Ipc.Frames
