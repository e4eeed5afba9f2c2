import Mathlib.Tactic

/-! # Caches of a partial function

A cache has slots `ι`; `holds i k x` says that slot `i` answers `x` for the key `k`. It is coherent
with a partial function `f` from keys to values if every answer is that of `f`. The function may
change over time: what has to be shown for a step is `Coherent.step`, that every answer the cache
still gives, or gives now, is one of the new function. -/

namespace Kerneloid.Lib.Cache

variable {ι κ ν : Type*}

/-- Every answer of the cache is one of the function. -/
def Coherent (holds : ι → κ → ν → Prop) (f : κ → Option ν) : Prop :=
  ∀ i k x, holds i k x → f k = some x

variable {holds holds' : ι → κ → ν → Prop} {f f' : κ → Option ν}

theorem Coherent.empty (h : ∀ i k x, ¬ holds i k x) : Coherent holds f :=
  fun i k x hx => absurd hx (h i k x)

/-- **The step rule.** An answer after the step is new and right, or it was there before and the
function still has it. -/
theorem Coherent.step (h : Coherent holds f)
    (hs : ∀ i k x, holds' i k x → f' k = some x ∨ (holds i k x ∧ (f k = some x → f' k = some x))) :
    Coherent holds' f' := by
  intro i k x hx
  rcases hs i k x hx with hf | ⟨hold, hf⟩
  · exact hf
  · exact hf (h i k x hold)

theorem Coherent.mono (h : Coherent holds f) (hs : ∀ i k x, holds' i k x → holds i k x) :
    Coherent holds' f :=
  h.step fun i k x hx => Or.inr ⟨hs i k x hx, id⟩

end Kerneloid.Lib.Cache
