import Mathlib.Tactic

/-! # Guarded runs of a step function

A system is a step function `step : σ → ι → σ` on states and inputs. `Reach ok step s₀ s` says that
`s` is reached from `s₀` by finitely many steps, each taken on an input that the guard `ok` admits
in the state before it; the unguarded runs are those of the guard that is always true (`Any`).

A step that may fail to return is a function `step : σ → ι → Option σ`. Its runs are those of
`lift step` on `Option σ`, where `none` is a call that never returned. -/

namespace Kerneloid.Lib.Runs

variable {σ ι : Type*}

/-- The states reached by steps the guard admits. -/
inductive Reach (ok : σ → ι → Prop) (step : σ → ι → σ) (s₀ : σ) : σ → Prop
  | init : Reach ok step s₀ s₀
  | next {s : σ} (i : ι) (h : Reach ok step s₀ s) (hi : ok s i) : Reach ok step s₀ (step s i)

/-- The guard that admits every input. -/
def Any (_ : σ) (_ : ι) : Prop := True

variable {ok ok' : σ → ι → Prop} {step : σ → ι → σ} {s₀ s : σ}

/-- **The invariant rule**: what holds at the start and is kept by every admitted step holds in
every state reached. -/
theorem Reach.inv {I : σ → Prop} (h : Reach ok step s₀ s) (h0 : I s₀)
    (hstep : ∀ s i, I s → ok s i → I (step s i)) : I s := by
  induction h with
  | init => exact h0
  | next i _ hi ih => exact hstep _ i ih hi

theorem Reach.mono (h : Reach ok step s₀ s) (hok : ∀ s i, ok s i → ok' s i) :
    Reach ok' step s₀ s := by
  induction h with
  | init => exact .init
  | next i _ hi ih => exact .next i ih (hok _ i hi)

/-- The guard holds along a list of inputs. -/
def Admits (ok : σ → ι → Prop) (step : σ → ι → σ) : σ → List ι → Prop
  | _, [] => True
  | s, i :: is => ok s i ∧ Admits ok step (step s i) is

instance Admits.decidable [∀ s i, Decidable (ok s i)] :
    ∀ (s : σ) (is : List ι), Decidable (Admits ok step s is)
  | _, [] => isTrue trivial
  | s, i :: is =>
    have := Admits.decidable (step s i) is
    inferInstanceAs (Decidable (ok s i ∧ Admits ok step (step s i) is))

theorem Reach.foldl :
    ∀ (is : List ι) {s : σ}, Reach ok step s₀ s → Admits ok step s is →
      Reach ok step s₀ (is.foldl step s)
  | [], _, h, _ => h
  | i :: is, _, h, hi => Reach.foldl is (.next i h hi.1) hi.2

theorem Admits.any : ∀ (is : List ι) {s : σ}, Admits Any step s is
  | [], _ => trivial
  | _ :: is, _ => ⟨trivial, Admits.any is⟩

/-- The property holds at the start and after every input of a list. -/
def Along (P : σ → Prop) (step : σ → ι → σ) : σ → List ι → Prop
  | s, [] => P s
  | s, i :: is => P s ∧ Along P step (step s i) is

theorem Along.head {P : σ → Prop} : ∀ {is : List ι} {s : σ}, Along P step s is → P s
  | [], _, h => h
  | _ :: _, _, h => h.1

instance Along.decidable {P : σ → Prop} [∀ s, Decidable (P s)] :
    ∀ (s : σ) (is : List ι), Decidable (Along P step s is)
  | s, [] => inferInstanceAs (Decidable (P s))
  | s, i :: is =>
    have := Along.decidable (P := P) (step s i) is
    inferInstanceAs (Decidable (P s ∧ Along P step (step s i) is))

/-- Two copies of the system on the same inputs. -/
def pair (step : σ → ι → σ) (st : σ × σ) (i : ι) : σ × σ := (step st.1 i, step st.2 i)

/-! ### Steps that may not return -/

variable {pstep : σ → ι → Option σ} {st₀ st : Option σ}

/-- The step after a call that returned. -/
def lift (pstep : σ → ι → Option σ) (st : Option σ) (i : ι) : Option σ := st.bind (pstep · i)

/-- The guard on the state a call returned. -/
def Lifted (ok : σ → ι → Prop) (st : Option σ) (i : ι) : Prop :=
  match st with
  | none => True
  | some s => ok s i

instance Lifted.decidable [h : ∀ s i, Decidable (ok s i)] :
    ∀ (st : Option σ) (i : ι), Decidable (Lifted ok st i)
  | none, _ => isTrue trivial
  | some s, i => h s i

theorem Admits.always {step : Option σ → ι → Option σ} :
    ∀ (is : List ι) (st : Option σ), (∀ i ∈ is, ∀ s, ok s i) → Admits (Lifted ok) step st is
  | [], _, _ => trivial
  | i :: is, none, h => ⟨trivial, Admits.always is _ fun j hj => h j (List.mem_cons_of_mem i hj)⟩
  | i :: is, some s, h =>
    ⟨h i List.mem_cons_self s, Admits.always is _ fun j hj => h j (List.mem_cons_of_mem i hj)⟩

/-- **The invariant rule with termination**: if every admitted step from a state with the invariant
returns a state with the invariant, every run returns. -/
theorem Reach.returns {I : σ → Prop} (h : Reach (Lifted ok) (lift pstep) st₀ st)
    (h0 : ∃ s, st₀ = some s ∧ I s)
    (hstep : ∀ s i, I s → ok s i → ∃ s', pstep s i = some s' ∧ I s') :
    ∃ s, st = some s ∧ I s := by
  refine h.inv (I := fun st => ∃ s, st = some s ∧ I s) h0 ?_
  rintro _ i ⟨s, rfl, hs⟩ hi
  exact hstep s i hs hi

end Kerneloid.Lib.Runs
