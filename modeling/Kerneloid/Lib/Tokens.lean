import Mathlib.Data.List.DropRight
import Mathlib.Tactic

/-! # The tokens of a string

`tokens sep l` are the nonempty pieces of `l` between occurrences of `sep`. Runs of separators and
separators at either end do not count, so a string is as good as its tokens for whoever reads only
those. `split_induction` takes a string apart at its first separator; most facts go through it. -/

namespace Kerneloid.Lib.Tokens

variable {α : Type*} [DecidableEq α] {sep : α} {l a b : List α}

/-- The nonempty pieces of `l` between separators. -/
def tokens (sep : α) (l : List α) : List (List α) := (l.splitOn sep).filter (· ≠ [])

/-- **Induction on a string**, from separator to separator. -/
theorem split_induction (sep : α) {P : List α → Prop} (last : ∀ a, sep ∉ a → P a)
    (more : ∀ a b, sep ∉ a → P b → P (a ++ sep :: b)) (l : List α) : P l := by
  induction hn : l.length using Nat.strong_induction_on generalizing l with
  | _ n ih =>
    by_cases hm : sep ∈ l
    · obtain ⟨a, b, rfl, ha⟩ := List.eq_append_cons_of_mem hm
      have hb : b.length < n := by
        rw [← hn, List.length_append, List.length_cons]
        omega
      exact more a b ha (ih b.length hb b rfl)
    · exact last l hm

theorem tokens_nil : tokens sep [] = [] := by simp [tokens]

theorem tokens_append : tokens sep (a ++ sep :: b) = tokens sep a ++ tokens sep b := by
  simp [tokens, List.splitOn_append_cons_self]

theorem tokens_cons_sep : tokens sep (sep :: l) = tokens sep l := by
  have h : tokens sep ([] ++ sep :: l) = tokens sep [] ++ tokens sep l := tokens_append
  rwa [tokens_nil, List.nil_append, List.nil_append] at h

theorem tokens_concat_sep : tokens sep (l ++ [sep]) = tokens sep l := by
  rw [tokens_append, tokens_nil, List.append_nil]

theorem tokens_of_not_mem (h : sep ∉ l) (hl : l ≠ []) : tokens sep l = [l] := by
  have hs : l.splitOn sep = [l] := List.splitOn_eq_singleton h
  simp [tokens, hs, hl]

theorem mem_tokens {t : List α} (l : List α) :
    t ∈ tokens sep l → t ≠ [] ∧ sep ∉ t ∧ ∀ x ∈ t, x ∈ l := by
  have hlast : ∀ a : List α, sep ∉ a → t ∈ tokens sep a → t ≠ [] ∧ sep ∉ t ∧ ∀ x ∈ t, x ∈ a := by
    intro a ha ht
    by_cases hnil : a = []
    · rw [hnil, tokens_nil] at ht
      exact absurd ht (by simp)
    · rw [tokens_of_not_mem ha hnil, List.mem_singleton] at ht
      subst ht
      exact ⟨hnil, ha, fun x hx => hx⟩
  induction l using split_induction sep with
  | last a ha => exact hlast a ha
  | more a b ha ih =>
    rw [tokens_append, List.mem_append]
    rintro (ht | ht)
    · obtain ⟨hne, hsep, hmem⟩ := hlast a ha ht
      exact ⟨hne, hsep, fun x hx => List.mem_append_left _ (hmem x hx)⟩
    · obtain ⟨hne, hsep, hmem⟩ := ih ht
      exact ⟨hne, hsep, fun x hx => List.mem_append_right _ (List.mem_cons_of_mem _ (hmem x hx))⟩

theorem tokens_rdropWhile (l : List α) : tokens sep (l.rdropWhile (· = sep)) = tokens sep l := by
  induction l using List.reverseRecOn with
  | nil => rfl
  | append_singleton l a ih =>
    rw [List.rdropWhile_concat]
    split_ifs with ha
    · have hsep : a = sep := by simpa using ha
      rw [ih, hsep, tokens_concat_sep]
    · rfl

theorem sum_tokens_le (l : List α) :
    ((tokens sep l).map fun t => t.length + 1).sum ≤ l.length + 1 := by
  have hlast : ∀ a : List α, sep ∉ a →
      ((tokens sep a).map fun t => t.length + 1).sum ≤ a.length + 1 := fun a ha => by
    by_cases hnil : a = []
    · rw [hnil, tokens_nil]; simp
    · rw [tokens_of_not_mem ha hnil]; simp
  induction l using split_induction sep with
  | last a ha => exact hlast a ha
  | more a b ha ih =>
    have := hlast a ha
    rw [tokens_append, List.map_append, List.sum_append]
    simp only [List.length_append, List.length_cons]
    omega

/-- **A string whose separators stand alone inside it** is its tokens joined. -/
theorem intercalate_tokens (l : List α) : l.IsChain (fun a b => a = sep → b ≠ sep) →
    l.head? ≠ some sep → l.getLast? ≠ some sep → [sep].intercalate (tokens sep l) = l := by
  induction l using split_induction sep with
  | last a ha =>
    intro _ _ _
    by_cases hnil : a = []
    · rw [hnil, tokens_nil]
      rfl
    · rw [tokens_of_not_mem ha hnil, List.intercalate_singleton]
  | more a b ha ih =>
    intro hlone hhead hlast
    -- neither piece is empty: the separator between them is not at an end
    have hane : a ≠ [] := by
      rintro rfl
      exact hhead rfl
    have hbne : b ≠ [] := by
      rintro rfl
      simp at hlast
    obtain ⟨-, hrest, -⟩ := List.isChain_append.mp hlone
    obtain ⟨hmeet, hloneb⟩ := List.isChain_cons.mp hrest
    have hheadb : b.head? ≠ some sep := fun hh => hmeet sep hh rfl rfl
    have hlastb : b.getLast? ≠ some sep := by
      rwa [List.getLast?_append_of_ne_nil _ (by simp), List.getLast?_cons_of_ne_nil hbne] at hlast
    have hb := ih hloneb hheadb hlastb
    rw [tokens_append, tokens_of_not_mem ha hane, List.singleton_append]
    cases ht : tokens sep b with
    | nil =>
      rw [ht] at hb
      exact absurd hb.symm hbne
    | cons t ts =>
      rw [ht] at hb
      rw [List.intercalate_cons_cons, hb, List.append_assoc]
      rfl

end Kerneloid.Lib.Tokens
