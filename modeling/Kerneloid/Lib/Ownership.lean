import Mathlib.Tactic

/-! # Owned blocks

Owners `ι` hold blocks `β`: `own i b` says that `b` belongs to `i`, `used b` that the allocator
has `b` marked. `Owned own used` is the safety of an allocator: what is owned is marked, and no
block has two owners. `Owned.change` is the rule for every step of an allocator: one owner's blocks
change, the new ones were its own or were not marked, and the marks follow. `Exact` adds that
nothing else but the reserved blocks is marked, so no block is lost. -/

namespace Kerneloid.Lib.Ownership

variable {ι β : Type*}

/-- What is owned is marked, by one owner only. -/
structure Owned (own : ι → β → Prop) (used : β → Prop) : Prop where
  marked : ∀ i b, own i b → used b
  apart : ∀ i j b, own i b → own j b → i = j

/-- The marked blocks are the reserved ones and those owned. -/
def Exact (own : ι → β → Prop) (used reserved : β → Prop) : Prop :=
  ∀ b, used b ↔ reserved b ∨ ∃ i, own i b

variable {own own' : ι → β → Prop} {used used' reserved : β → Prop} {i : ι}

/-- **The step rule.** The blocks of `i` change; new ones were not marked before. -/
theorem Owned.change (h : Owned own used) (hother : ∀ j, j ≠ i → ∀ b, own' j b ↔ own j b)
    (hnew : ∀ b, own' i b → own i b ∨ ¬ used b)
    (hused : ∀ b, own' i b ∨ (used b ∧ ¬ own i b) → used' b) : Owned own' used' := by
  -- a block of another owner stays marked and is not one of the new blocks
  have hkeep : ∀ j b, j ≠ i → own' j b → used' b ∧ ¬ own' i b := by
    intro j b hj hb
    have hb' := (hother j hj b).mp hb
    have hni : ¬ own i b := fun hi => hj (h.apart j i b hb' hi)
    refine ⟨hused b (Or.inr ⟨h.marked j b hb', hni⟩), fun hi => ?_⟩
    rcases hnew b hi with hi | hi
    · exact hni hi
    · exact hi (h.marked j b hb')
  refine ⟨fun j b hb => ?_, fun j k b hj hk => ?_⟩
  · by_cases hj : j = i
    · subst hj; exact hused b (Or.inl hb)
    · exact (hkeep j b hj hb).1
  · by_cases hji : j = i
    · by_cases hki : k = i
      · rw [hji, hki]
      · subst hji; exact absurd hj (hkeep k b hki hk).2
    · by_cases hki : k = i
      · subst hki; exact absurd hk (hkeep j b hji hj).2
      · exact h.apart j k b ((hother j hji b).mp hj) ((hother k hki b).mp hk)

theorem Exact.change (h : Exact own used reserved) (ho : Owned own used)
    (hres : ∀ b, reserved b → ¬ own i b) (hother : ∀ j, j ≠ i → ∀ b, own' j b ↔ own j b)
    (hused : ∀ b, used' b ↔ own' i b ∨ (used b ∧ ¬ own i b)) : Exact own' used' reserved := by
  intro b
  rw [hused, h b]
  constructor
  · rintro (hb | ⟨hb | ⟨j, hj⟩, hni⟩)
    · exact Or.inr ⟨i, hb⟩
    · exact Or.inl hb
    · have hji : j ≠ i := fun he => hni (he ▸ hj)
      exact Or.inr ⟨j, (hother j hji b).mpr hj⟩
  · rintro (hb | ⟨j, hj⟩)
    · exact Or.inr ⟨Or.inl hb, hres b hb⟩
    · by_cases hji : j = i
      · subst hji; exact Or.inl hj
      · have hj' := (hother j hji b).mp hj
        exact Or.inr ⟨Or.inr ⟨j, hj'⟩, fun hi => hji (ho.apart j i b hj' hi)⟩

theorem Owned.mono (h : Owned own used) (hsub : ∀ j b, own' j b → own j b) : Owned own' used :=
  ⟨fun j b hb => h.marked j b (hsub j b hb),
    fun j k b hj hk => h.apart j k b (hsub j b hj) (hsub k b hk)⟩

theorem sum_change [DecidableEq ι] {S : Finset ι} (f g : ι → ℕ) (hi : i ∈ S)
    (h : ∀ j ∈ S, j ≠ i → g j = f j) : ∑ j ∈ S, g j + f i = ∑ j ∈ S, f j + g i := by
  rw [← Finset.add_sum_erase S f hi, ← Finset.add_sum_erase S g hi]
  have he : ∑ j ∈ S.erase i, g j = ∑ j ∈ S.erase i, f j :=
    Finset.sum_congr rfl fun j hj => h j (Finset.mem_of_mem_erase hj) (Finset.ne_of_mem_erase hj)
  rw [he]
  omega

end Kerneloid.Lib.Ownership
