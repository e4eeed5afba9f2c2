import Kerneloid.Ipc.Frames

/-! # Ports change hands

When a port is created, bound, given up or destroyed, a task may get another queue: the port it
gains (`gains`), or the queue it has without the port it gives up (`givesUp`, `boxWithout`). -/

namespace Kerneloid.Ipc.Ports

open Tcb.Types Types Ops Frames

variable {Q B : Type} {s : System Q B} {x y : Slot} {i : Fin 128}

/-- Port `i` gets another owner, or other contents: the queue of a task that does not own it before
or after is the same. -/
theorem boxOf_setPort {p : Port B} (hold : ¬ ((s.ports i).used = true ∧ (s.ports i).owner = some x))
    (hnew : ¬ (p.used = true ∧ p.owner = some x)) : boxOf (s.setPort i p) x = boxOf s x := by
  have hfind : findPortForTask (s.setPort i p) x = findPortForTask s x := by
    unfold findPortForTask
    congr 1
    funext j
    rw [setPort_ports]
    split_ifs with e
    · subst e
      rw [decide_eq_decide]
      exact ⟨fun h => absurd h hnew, fun h => absurd h hold⟩
    · rfl
  unfold boxOf
  rw [hfind]
  rfl

/-- A task comes to own port `i`: its queue is the same, or it is now that of port `i` and its
ports, if any, come after. -/
theorem boxOf_bound {p : Port B} (hp : p.used = true ∧ p.owner = some x) :
    boxOf (s.setPort i p) x = boxOf s x ∨
      (boxOf (s.setPort i p) x = .port i ∧ ∀ j, findPortForTask s x = some j → i ≤ j) := by
  cases hnew : findPortForTask (s.setPort i p) x with
  | none =>
    have := findPort_none.mp hnew i
    rw [setPort_ports, if_pos rfl] at this
    exact absurd hp this
  | some j =>
    obtain ⟨hj, hlt⟩ := findPort_iff.mp hnew
    have hold : ∀ k < j, ¬ ((s.ports k).used = true ∧ (s.ports k).owner = some x) := by
      intro k hk h
      refine hlt k hk ?_
      rw [setPort_ports]
      split_ifs
      · exact hp
      · exact h
    by_cases hji : j = i
    · subst hji
      refine Or.inr ⟨by unfold boxOf; rw [hnew], ?_⟩
      intro k hk
      by_contra hkj
      exact hold k (not_le.mp hkj) (findPort_iff.mp hk).1
    · rw [setPort_ports, if_neg hji] at hj
      have hfind : findPortForTask s x = some j := findPort_iff.mpr ⟨hj, hold⟩
      refine Or.inl ?_
      unfold boxOf
      rw [hnew, hfind]

/-- A task loses port `i`: its queue is the same, unless port `i` was its first one. -/
theorem boxOf_unbound {p : Port B} (hp : ¬ (p.used = true ∧ p.owner = some x))
    (hfirst : findPortForTask s x ≠ some i) : boxOf (s.setPort i p) x = boxOf s x := by
  have hfind : findPortForTask (s.setPort i p) x = findPortForTask s x := by
    cases hold : findPortForTask s x with
    | none =>
      rw [findPort_none] at hold ⊢
      intro j
      rw [setPort_ports]
      split_ifs
      · exact hp
      · exact hold j
    | some j =>
      obtain ⟨hj, hlt⟩ := findPort_iff.mp hold
      have hji : j ≠ i := by
        rintro rfl
        exact hfirst hold
      refine findPort_iff.mpr ⟨by rw [setPort_ports, if_neg hji]; exact hj, ?_⟩
      intro k hk
      rw [setPort_ports]
      split_ifs
      · exact hp
      · exact hlt k hk
  unfold boxOf
  rw [hfind]
  rfl

theorem boxOf_port (h : boxOf s x = .port i) :
    (s.ports i).used = true ∧ (s.ports i).owner = some x := by
  unfold boxOf at h
  split at h
  · rename_i j hj
    obtain rfl := Box.port.inj h
    exact findPort_spec hj
  · cases h

theorem createPort_cases [MsgQueue B] (s : System Q B) (n : ℕ) :
    (ipcCreatePort s n).1 = s ∨ ∃ i k, (s.ports i).used = false ∧
      (ipcCreatePort s n).1 = s.setPort i ⟨true, none, MsgQueue.new k⟩ := by
  unfold ipcCreatePort
  dsimp only
  split
  · exact Or.inl rfl
  · rename_i i hi
    exact Or.inr ⟨i, _, by simpa using List.find?_some hi, rfl⟩

theorem bindPort_cases (s : System Q B) (x : Slot) (portId : ℤ) :
    (ipcBindPort s x portId).1 = s ∨ ∃ i, usedPort s portId = some i ∧
      findLive s (s.tid x) ≠ none ∧ ((s.ports i).owner = none ∨ (s.ports i).owner = some x) ∧
      (ipcBindPort s x portId).1 = s.setPort i { s.ports i with owner := some x } := by
  unfold ipcBindPort
  split
  · rename_i i t hi ht
    split_ifs with ho
    · exact Or.inl rfl
    · rw [not_and_or, not_not, not_not] at ho
      exact Or.inr ⟨i, hi, by rw [ht]; simp, ho, rfl⟩
  · exact Or.inl rfl

theorem unbindPort_cases (s : System Q B) (x : Slot) (portId : ℤ) :
    (ipcUnbindPort s x portId).1 = s ∨ ∃ i, usedPort s portId = some i ∧
      (s.ports i).owner = some x ∧
      (ipcUnbindPort s x portId).1 = s.setPort i { s.ports i with owner := none } := by
  unfold ipcUnbindPort
  split
  · exact Or.inl rfl
  · rename_i i hi
    split_ifs with ho
    · exact Or.inl rfl
    · exact Or.inr ⟨i, hi, not_not.mp ho, rfl⟩

theorem setOwner_queueAt (s : System Q B) (i : Fin 128) (owner : Option Slot) (b : Box) :
    (s.setPort i { s.ports i with owner := owner }).queueAt b = s.queueAt b := by
  rw [setPort_queueAt]
  split_ifs with e
  · rw [e]
    rfl
  · rfl

/-- The port that becomes the queue of the task when it is bound to `portId`: a free one before its
first port. -/
def gains (s : System Q B) (x : Slot) (portId : ℤ) : Option (Fin 128) :=
  (usedPort s portId).filter fun i =>
    findLive s (s.tid x) ≠ none ∧ (s.ports i).owner = none ∧ ∀ j ∈ findPortForTask s x, i < j

/-- The port that is the queue of the task no more when it gives up `portId`: its first one. -/
def givesUp (s : System Q B) (x : Slot) (portId : ℤ) : Option (Fin 128) :=
  (usedPort s portId).filter fun i => findPortForTask s x = some i

/-- The queue of the task without port `i`. -/
def boxWithout (s : System Q B) (x : Slot) (i : Fin 128) : Box :=
  match (List.finRange 128).find? fun j =>
    j ≠ i ∧ (s.ports j).used ∧ (s.ports j).owner = some x with
  | some j => .port j
  | none => .mailbox (tidToMboxIdx (s.tid x))

theorem boxOf_without {p : Port B} (hp : ¬ (p.used = true ∧ p.owner = some x)) :
    boxOf (s.setPort i p) x = boxWithout s x i := by
  have hfind : findPortForTask (s.setPort i p) x = (List.finRange 128).find? fun j =>
      j ≠ i ∧ (s.ports j).used ∧ (s.ports j).owner = some x := by
    unfold findPortForTask
    congr 1
    funext j
    rw [setPort_ports, decide_eq_decide]
    split_ifs with e
    · exact ⟨fun h => absurd h hp, fun h => absurd e h.1⟩
    · exact ⟨fun h => ⟨e, h⟩, fun h => h.2⟩
  unfold boxOf boxWithout
  rw [hfind]
  rfl

theorem keeps_boxWithout {s' : System Q B} (h : Keeps s s') (x : Slot) (i : Fin 128) :
    boxWithout s' x i = boxWithout s x i := by
  unfold boxWithout
  simp only [h.used, h.owner, h.tid]

/-- From `s` to `s'` only the queue of task `x` can change, to `box i` if `i` is the port `o`. -/
structure Rebinds (s s' : System Q B) (x : Slot) (o : Option (Fin 128)) (box : Fin 128 → Box) :
    Prop where
  sched : s'.sched = s.sched
  queue : ∀ b, s'.queueAt b = s.queueAt b
  box : ∀ y, boxOf s' y = boxOf s y ∨ (y = x ∧ ∃ i ∈ o, boxOf s' y = box i)

theorem bindPort_boxes (s : System Q B) (x : Slot) (portId : ℤ) :
    Rebinds s (ipcBindPort s x portId).1 x (gains s x portId) .port := by
  rcases bindPort_cases s x portId with e | ⟨i, hi, hlive, howner, e⟩
  · rw [e]
    exact ⟨rfl, fun _ => rfl, fun _ => Or.inl rfl⟩
  rw [e]
  refine ⟨rfl, setOwner_queueAt s i _, ?_⟩
  intro y
  by_cases hy : y = x
  · subst hy
    rcases boxOf_bound (s := s) (i := i) (p := { s.ports i with owner := some y })
      ⟨usedPort_used hi, rfl⟩ with hsame | ⟨hport, hle⟩
    · exact Or.inl hsame
    · rcases howner with hnone | hown
      · refine Or.inr ⟨rfl, i, ?_, hport⟩
        refine Option.filter_eq_some_iff.mpr ⟨hi, decide_eq_true ⟨hlive, hnone, ?_⟩⟩
        intro j hj
        refine lt_of_le_of_ne (hle j hj) ?_
        rintro rfl
        rw [(findPort_spec hj).2] at hnone
        cases hnone
      · -- the task has owned the port before, so nothing changes
        have hid : s.setPort i { s.ports i with owner := some y } = s := by
          rw [← hown]
          unfold System.setPort
          rw [Function.update_eq_self]
        exact Or.inl (by rw [hid])
  · refine Or.inl (boxOf_setPort ?_ (by simp [Ne.symm hy]))
    rintro ⟨-, ho⟩
    rcases howner with hn | hx
    · rw [hn] at ho
      cases ho
    · rw [hx, Option.some.injEq] at ho
      exact hy ho.symm

theorem unbindPort_boxes (s : System Q B) (x : Slot) (portId : ℤ) :
    Rebinds s (ipcUnbindPort s x portId).1 x (givesUp s x portId) (boxWithout s x) := by
  rcases unbindPort_cases s x portId with e | ⟨i, hi, howner, e⟩
  · rw [e]
    exact ⟨rfl, fun _ => rfl, fun _ => Or.inl rfl⟩
  rw [e]
  refine ⟨rfl, setOwner_queueAt s i _, ?_⟩
  intro y
  by_cases hy : y = x
  · subst hy
    by_cases hfirst : findPortForTask s y = some i
    · exact Or.inr ⟨rfl, i, Option.filter_eq_some_iff.mpr ⟨hi, decide_eq_true hfirst⟩,
        boxOf_without (by simp)⟩
    · exact Or.inl (boxOf_unbound (by simp) hfirst)
  · refine Or.inl (boxOf_setPort ?_ (by simp))
    rintro ⟨-, ho⟩
    rw [howner, Option.some.injEq] at ho
    exact hy ho.symm

/-- **Destruction**: tasks are woken, and only the queue of the owner can change, if the port was
its first one. No task uses the port any more. -/
theorem destroyPort_boxes [MsgQueue B] (s : System Q B) (portId : ℤ) :
    ipcDestroyPort s portId = s ∨ ∃ i, usedPort s portId = some i ∧
      (ipcDestroyPort s portId).sched = (wakeupPort s i).sched ∧
      ∀ y, (ipcDestroyPort s portId).queueAt (boxOf (ipcDestroyPort s portId) y) =
          s.queueAt (boxOf (ipcDestroyPort s portId) y) ∧
        (boxOf (ipcDestroyPort s portId) y = boxOf s y ∨
          (findPortForTask s y = some i ∧
            boxOf (ipcDestroyPort s portId) y = boxWithout s y i)) := by
  unfold ipcDestroyPort
  cases hi : usedPort s portId with
  | none => exact Or.inl rfl
  | some i =>
    have hk := wakeupPort_keeps s i
    refine Or.inr ⟨i, rfl, rfl, ?_⟩
    dsimp only
    intro y
    refine ⟨?_, ?_⟩
    · rw [setPort_queueAt, if_neg, wakeupPort_queueAt]
      intro hy
      have := (boxOf_port hy).1
      rw [setPort_ports, if_pos rfl] at this
      cases this
    · by_cases hfirst : findPortForTask (wakeupPort s i) y = some i
      · rw [hk.findPort] at hfirst
        rw [boxOf_without (by simp), keeps_boxWithout hk]
        exact Or.inr ⟨hfirst, rfl⟩
      · rw [boxOf_unbound (by simp) hfirst, hk.boxOf]
        exact Or.inl rfl

theorem createPort_boxes [MsgQueue B] (s : System Q B) (n : ℕ) :
    (ipcCreatePort s n).1.sched = s.sched ∧ ∀ y, boxOf (ipcCreatePort s n).1 y = boxOf s y ∧
      (ipcCreatePort s n).1.queueAt (boxOf s y) = s.queueAt (boxOf s y) := by
  rcases createPort_cases s n with e | ⟨i, k, hi, e⟩
  · rw [e]
    exact ⟨rfl, fun _ => ⟨rfl, rfl⟩⟩
  rw [e]
  refine ⟨rfl, ?_⟩
  intro y
  refine ⟨boxOf_setPort (by simp [hi]) (by simp), ?_⟩
  have hne : boxOf s y ≠ .port i := by
    intro hy
    have := (boxOf_port hy).1
    rw [hi] at this
    cases this
  rw [setPort_queueAt, if_neg hne]

end Kerneloid.Ipc.Ports
