import Mathlib.Tactic

/-! # Parent-linked trees

Nodes of an arbitrary type `ι`, some of them live, each with a parent link. A node is *anchored* if
following links from it through live nodes ends at the root. `Rooted` is the tree shape: the root is
live and its own parent, and every live node is anchored. The two lemmas `Rooted.insert` and
`Rooted.erase` are the ways a tree changes one node at a time: a dead node becomes a leaf under a
live one, and a live node that is nobody's parent dies. -/

namespace Kerneloid.Lib.Forest

variable {ι : Type*}

/-- The links from `i` lead through live nodes to the root. -/
inductive Anchored (live : ι → Prop) (parent : ι → ι) (root : ι) : ι → Prop
  | root : Anchored live parent root root
  | child {i : ι} (hl : live i) (hp : Anchored live parent root (parent i)) :
      Anchored live parent root i

variable {live live' : ι → Prop} {parent parent' : ι → ι} {root : ι}

theorem Anchored.live_or_root {i : ι} (h : Anchored live parent root i) : i = root ∨ live i := by
  cases h with
  | root => exact Or.inl rfl
  | child hl _ => exact Or.inr hl

theorem Anchored.up {i : ι} (h : Anchored live parent root i) (hi : i ≠ root) :
    Anchored live parent root (parent i) := by
  cases h with
  | root => exact absurd rfl hi
  | child _ hp => exact hp

theorem Anchored.iterate {i : ι} (h : Anchored live parent root i) : ∃ n, parent^[n] i = root := by
  induction h with
  | root => exact ⟨0, rfl⟩
  | child _ _ ih =>
    obtain ⟨n, hn⟩ := ih
    exact ⟨n + 1, by rw [Function.iterate_succ_apply]; exact hn⟩

theorem Anchored.mono {i : ι} (h : Anchored live parent root i)
    (hkeep : ∀ j, live j → live' j ∧ parent' j = parent j) : Anchored live' parent' root i := by
  induction h with
  | root => exact .root
  | child hl _ ih =>
    obtain ⟨hl', hp'⟩ := hkeep _ hl
    exact .child hl' (by rw [hp']; exact ih)

/-- **A tree** of live nodes with parent links. -/
structure Rooted (live : ι → Prop) (parent : ι → ι) (root : ι) : Prop where
  root_live : live root
  root_parent : parent root = root
  anchored : ∀ i, live i → Anchored live parent root i

theorem Rooted.parent_live (h : Rooted live parent root) {i : ι} (hi : live i) :
    live (parent i) := by
  have ha : Anchored live parent root (parent i) := by
    cases h.anchored i hi with
    | root => rw [h.root_parent]; exact .root
    | child _ hp => exact hp
  rcases ha.live_or_root with he | hl
  · rw [he]; exact h.root_live
  · exact hl

/-- **A dead node becomes a leaf** under a live one. -/
theorem Rooted.insert (h : Rooted live parent root) {j : ι} (hj : ¬ live j)
    (hlive : ∀ i, live' i ↔ live i ∨ i = j) (hpar : ∀ i, i ≠ j → parent' i = parent i)
    (hp : live (parent' j)) : Rooted live' parent' root := by
  have hne : ∀ i, live i → i ≠ j := fun i hi he => hj (he ▸ hi)
  have hkeep : ∀ i, live i → live' i ∧ parent' i = parent i := fun i hi =>
    ⟨(hlive i).mpr (Or.inl hi), hpar i (hne i hi)⟩
  refine ⟨(hkeep _ h.root_live).1, ?_, fun i hi => ?_⟩
  · rw [(hkeep _ h.root_live).2, h.root_parent]
  · rcases (hlive i).mp hi with hl | rfl
    · exact (h.anchored i hl).mono hkeep
    · exact .child hi ((h.anchored _ hp).mono hkeep)

/-- **A live node that is nobody's parent dies.** -/
theorem Rooted.erase (h : Rooted live parent root) {j : ι}
    (hleaf : ∀ i, live i → parent i ≠ j) (hlive : ∀ i, live' i ↔ live i ∧ i ≠ j)
    (hpar : ∀ i, i ≠ j → parent' i = parent i) : Rooted live' parent' root := by
  have hroot : root ≠ j := fun he => hleaf root h.root_live (by rw [h.root_parent, he])
  refine ⟨(hlive _).mpr ⟨h.root_live, hroot⟩, ?_, fun i hi => ?_⟩
  · rw [hpar _ hroot, h.root_parent]
  · obtain ⟨hl, hij⟩ := (hlive i).mp hi
    have ha := h.anchored i hl
    -- the way to the root never meets `j`: `j` is not the parent of any live node
    clear hi
    induction ha with
    | root => exact .root
    | @child i hl' hp ih =>
      have hpl := h.parent_live hl'
      refine .child ((hlive _).mpr ⟨hl', hij⟩) ?_
      rw [hpar i hij]
      exact ih hpl (hleaf i hl')

end Kerneloid.Lib.Forest
