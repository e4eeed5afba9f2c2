import Mathlib.Tactic
import Mathlib.Data.List.Nodup

/-! # Doubly linked lists

Nodes of an arbitrary type `ι`, each with a `next` and a `prev` link, and a `head` and a `tail`
pointer; `none` is the null pointer. `IsList L l` says that the links `L` are those of the list `l`:
the next node of `x` is the one after it in `l` (`after l x`), the previous node is the one after it
in the reversed list, and a node that is not on the list has null links. `append` and `unlink` are
the two edits, and `IsList.append` and `IsList.unlink` say what they do to the list.

`scan` and `fold` are the loops that follow `next` from a node to the null pointer. They are given
as many steps as there are nodes; a loop that needs more goes round in a circle and is `none`. -/

namespace Kerneloid.Lib.Linked

variable {ι : Type*} {β : Type*}

/-- The links of the nodes and the two ends. -/
structure Links (ι : Type*) where
  next : ι → Option ι
  prev : ι → Option ι
  head : Option ι
  tail : Option ι

/-! ### The element after another in a list -/

section After

variable [DecidableEq ι] {l : List ι} {x y z : ι}

/-- The element after the first `x` in a list. -/
def after : List ι → ι → Option ι
  | [], _ => none
  | y :: l, x => if y = x then l.head? else after l x

theorem after_of_not_mem (h : x ∉ l) : after l x = none := by
  induction l with
  | nil => rfl
  | cons y l ih =>
    have hne : y ≠ x := fun e => h (by simp [e])
    rw [after, if_neg hne]
    exact ih fun hm => h (List.mem_cons_of_mem _ hm)

theorem after_append_cons {l₁ l₂ : List ι} (h : x ∉ l₁) : after (l₁ ++ x :: l₂) x = l₂.head? := by
  induction l₁ with
  | nil => simp [after]
  | cons y l₁ ih =>
    have hne : y ≠ x := fun e => h (by simp [e])
    rw [List.cons_append, after, if_neg hne]
    exact ih fun hm => h (List.mem_cons_of_mem _ hm)

theorem after_split (h : after l x = some y) : ∃ l₁ l₂, l = l₁ ++ x :: y :: l₂ := by
  induction l with
  | nil => cases h
  | cons a l ih =>
    rw [after] at h
    split at h
    · rename_i e
      subst e
      cases l with
      | nil => cases h
      | cons b l =>
        simp only [List.head?_cons, Option.some.injEq] at h
        subst h
        exact ⟨[], l, rfl⟩
    · obtain ⟨l₁, l₂, e⟩ := ih h
      exact ⟨a :: l₁, l₂, by rw [e]; rfl⟩

theorem after_of_split {l₁ l₂ : List ι} (hn : (l₁ ++ x :: y :: l₂).Nodup) :
    after (l₁ ++ x :: y :: l₂) x = some y := by
  have hx : x ∉ l₁ := fun hm => (List.nodup_append.mp hn).2.2 x hm x (by simp) rfl
  rw [after_append_cons hx]
  rfl

theorem after_mem (h : after l x = some y) : x ∈ l ∧ y ∈ l := by
  obtain ⟨l₁, l₂, rfl⟩ := after_split h
  simp

/-- In a list without repetition the element before `y` is the one after it in the reversed list. -/
theorem after_reverse (hn : l.Nodup) : after l.reverse y = some x ↔ after l x = some y := by
  constructor
  · intro h
    obtain ⟨l₁, l₂, e⟩ := after_split h
    have e' : l = l₂.reverse ++ x :: y :: l₁.reverse := by
      rw [← List.reverse_reverse l, e]
      simp
    rw [e'] at hn ⊢
    exact after_of_split hn
  · intro h
    obtain ⟨l₁, l₂, e⟩ := after_split h
    have e' : l.reverse = l₂.reverse ++ y :: x :: l₁.reverse := by
      rw [e]
      simp
    rw [e']
    exact after_of_split (e' ▸ List.nodup_reverse.mpr hn)

theorem after_ne (hn : l.Nodup) (h : after l x = some y) : x ≠ y := by
  obtain ⟨l₁, l₂, rfl⟩ := after_split h
  rintro rfl
  have := (List.nodup_append.mp hn).2.1
  simp at this

theorem after_concat (hn : l.Nodup) :
    after (l ++ [x]) z = if l.getLast? = some z then some x else after l z := by
  induction l with
  | nil => by_cases h : x = z <;> simp [after]
  | cons a l ih =>
    have hn' := (List.nodup_cons.mp hn).2
    rw [List.cons_append, after]
    by_cases ha : a = z
    · subst ha
      rw [if_pos rfl]
      cases l with
      | nil => simp
      | cons b l =>
        have hlast : (b :: l).getLast? ≠ some a := fun e =>
          (List.nodup_cons.mp hn).1 (List.mem_of_getLast? e)
        rw [List.getLast?_cons_cons, if_neg hlast]
        simp [after]
    · rw [if_neg ha, ih hn']
      cases l with
      | nil => simp [after, ha]
      | cons b l =>
        have hstep : after (a :: b :: l) z = after (b :: l) z := if_neg ha
        rw [List.getLast?_cons_cons, hstep]

theorem after_erase (hn : l.Nodup) :
    after (l.erase x) z =
      if z = x then none else if after l z = some x then after l x else after l z := by
  induction l with
  | nil => simp [after]
  | cons a l ih =>
    obtain ⟨ha, hn'⟩ := List.nodup_cons.mp hn
    by_cases hax : a = x
    · subst hax
      rw [List.erase_cons_head]
      by_cases hz : z = a
      · subst hz
        rw [if_pos rfl, after_of_not_mem ha]
      · have hne : after l z ≠ some a := fun e => ha (after_mem e).2
        rw [if_neg hz, after, if_neg (Ne.symm hz), if_neg hne]
    · rw [List.erase_cons_tail (by simpa using hax)]
      by_cases hz : a = z
      · subst hz
        rw [after, if_pos rfl, if_neg hax, after, if_pos rfl, after, if_neg hax]
        cases l with
        | nil => simp
        | cons b l =>
          by_cases hb : b = x
          · subst hb
            simp [after]
          · rw [List.erase_cons_tail (by simpa using hb)]
            simp [hb]
      · rw [after, if_neg hz, ih hn']
        simp only [after, if_neg hz, if_neg hax]

theorem reverse_erase (hn : l.Nodup) : (l.erase x).reverse = l.reverse.erase x := by
  rw [hn.erase_eq_filter, (List.nodup_reverse.mpr hn).erase_eq_filter, List.filter_reverse]

theorem head?_erase (hn : l.Nodup) :
    (l.erase x).head? = if l.head? = some x then after l x else l.head? := by
  cases l with
  | nil => simp
  | cons a l =>
    by_cases ha : a = x
    · subst ha
      simp [after]
    · rw [List.erase_cons_tail (by simpa using ha)]
      simp [ha]

end After

/-! ### Edits -/

section Edits

variable [DecidableEq ι]

/-- `x->next = NULL; x->prev = tail;`, then `x` is linked behind the tail, or is the whole list if
the list is empty. A list with a head and no tail is a null pointer followed, `none`. -/
def Links.append (L : Links ι) (x : ι) : Option (Links ι) :=
  let next := Function.update L.next x none
  let prev := Function.update L.prev x L.tail
  match L.head with
  | none => some ⟨next, prev, some x, some x⟩
  | some h =>
    match L.tail with
    | none => none
    | some t => some ⟨Function.update next t (some x), prev, some h, some x⟩

/-- The neighbours of `x`, or the ends of the list where there is none, are linked to each other;
then the links of `x` are cleared. -/
def Links.unlink (L : Links ι) (x : ι) : Links ι :=
  let L₁ : Links ι :=
    match L.prev x with
    | some p => { L with next := Function.update L.next p (L.next x) }
    | none => { L with head := L.next x }
  let L₂ : Links ι :=
    match L₁.next x with
    | some n => { L₁ with prev := Function.update L₁.prev n (L₁.prev x) }
    | none => { L₁ with tail := L₁.prev x }
  { L₂ with next := Function.update L₂.next x none, prev := Function.update L₂.prev x none }

/-- **The links are those of the list `l`.** -/
structure IsList (L : Links ι) (l : List ι) : Prop where
  nodup : l.Nodup
  head : L.head = l.head?
  tail : L.tail = l.getLast?
  next : ∀ x, L.next x = after l x
  prev : ∀ x, L.prev x = after l.reverse x

variable {L : Links ι} {l : List ι} {x : ι}

theorem IsList.next_none (h : IsList L l) (hx : x ∉ l) : L.next x = none := by
  rw [h.next]
  exact after_of_not_mem hx

theorem IsList.prev_none (h : IsList L l) (hx : x ∉ l) : L.prev x = none := by
  rw [h.prev]
  exact after_of_not_mem (by simpa using hx)

theorem IsList.append (h : IsList L l) (hx : x ∉ l) :
    ∃ L', L.append x = some L' ∧ IsList L' (l ++ [x]) := by
  have hn : (l ++ [x]).Nodup := by
    rw [List.nodup_append]
    refine ⟨h.nodup, by simp, ?_⟩
    rintro a ha b hb rfl
    simp only [List.mem_singleton] at hb
    exact hx (hb ▸ ha)
  have hprev : ∀ z, Function.update L.prev x L.tail z = after (l ++ [x]).reverse z := by
    intro z
    rw [List.reverse_append, List.reverse_singleton, List.singleton_append, after,
      List.head?_reverse, Function.update_apply, h.tail, h.prev]
    by_cases hz : z = x
    · rw [if_pos hz, if_pos hz.symm]
    · rw [if_neg hz, if_neg (Ne.symm hz)]
  unfold Links.append
  cases hl : l with
  | nil =>
    have hh : L.head = none := by rw [h.head, hl]; rfl
    rw [hh]
    refine ⟨_, rfl, by rwa [hl] at hn, rfl, rfl, ?_, by rwa [hl] at hprev⟩
    intro z
    have hz : L.next z = none := by rw [h.next, hl]; rfl
    by_cases hzx : z = x
    · subst hzx; simp [after]
    · simp [after, hzx, hz]
  | cons a l' =>
    rw [← hl]
    have hne : l ≠ [] := by simp [hl]
    have hh : L.head = some a := by rw [h.head, hl]; rfl
    obtain ⟨t, ht⟩ : ∃ t, l.getLast? = some t := ⟨_, List.getLast?_eq_some_getLast hne⟩
    have htail : L.tail = some t := by rw [h.tail, ht]
    have hhead : (l ++ [x]).head? = some a := by simp [hl]
    rw [hh, htail]
    rw [htail] at hprev
    refine ⟨_, rfl, hn, hhead.symm, by simp, ?_, hprev⟩
    intro z
    simp only [Function.update_apply]
    rw [after_concat h.nodup, ht, h.next]
    by_cases hzt : z = t
    · subst hzt; simp
    · have hlast : ¬ some t = some z := fun e => hzt (Option.some.inj e).symm
      rw [if_neg hzt, if_neg hlast]
      by_cases hzx : z = x
      · subst hzx; rw [if_pos rfl, after_of_not_mem hx]
      · rw [if_neg hzx]

theorem relinked {f g : ι → Option ι} (hback : ∀ p, g x = some p ↔ f p = some x) (z : ι) :
    (match g x with
      | some p => Function.update f p (f x)
      | none => f) z = if f z = some x then f x else f z := by
  cases hp : g x with
  | none =>
    have hne : f z ≠ some x := fun e => by simp [(hback z).mpr e] at hp
    rw [if_neg hne]
  | some p =>
    have hiff : f z = some x ↔ z = p := by
      rw [← hback z, hp, Option.some.injEq, eq_comm]
    dsimp only
    simp only [Function.update_apply, hiff]

theorem IsList.unlink_next (h : IsList L l) (z : ι) :
    (L.unlink x).next z =
      if z = x then none else if L.next z = some x then L.next x else L.next z := by
  have hback : ∀ p, L.prev x = some p ↔ L.next p = some x := by
    intro p
    rw [h.prev, h.next]
    exact after_reverse h.nodup
  rw [← relinked hback z]
  unfold Links.unlink
  dsimp only
  cases L.prev x <;> dsimp only <;> split <;> rw [Function.update_apply]

theorem IsList.unlink_prev (h : IsList L l) (z : ι) :
    (L.unlink x).prev z =
      if z = x then none else if L.prev z = some x then L.prev x else L.prev z := by
  have hfwd : ∀ n, L.next x = some n ↔ L.prev n = some x := by
    intro n
    rw [h.prev, h.next]
    exact (after_reverse h.nodup).symm
  have hself : ∀ p, L.prev x = some p → p ≠ x := by
    intro p hp
    rw [h.prev] at hp
    exact (after_ne (List.nodup_reverse.mpr h.nodup) hp).symm
  rw [← relinked hfwd z]
  unfold Links.unlink
  dsimp only
  cases hp : L.prev x with
  | none => cases L.next x <;> simp only [Function.update_apply, hp]
  | some p =>
    dsimp only
    rw [Function.update_of_ne (hself p hp).symm]
    cases L.next x <;> simp only [Function.update_apply, hp]

theorem after_reverse_none {l : List ι} (hn : l.Nodup) (hx : x ∈ l) :
    after l.reverse x = none ↔ l.head? = some x := by
  obtain ⟨l₁, l₂, rfl⟩ := List.append_of_mem hx
  have hx₂ : x ∉ l₂.reverse := by
    have := (List.nodup_append.mp hn).2.1
    simpa using (List.nodup_cons.mp this).1
  have hx₁ : ∀ a ∈ l₁, a ≠ x := fun a ha => (List.nodup_append.mp hn).2.2 a ha x (by simp)
  have e : (l₁ ++ x :: l₂).reverse = l₂.reverse ++ x :: l₁.reverse := by simp
  rw [e, after_append_cons hx₂, List.head?_reverse]
  cases l₁ with
  | nil => simp
  | cons a l₁ => simp [hx₁ a (by simp)]

theorem IsList.unlink (h : IsList L l) (hx : x ∈ l) : IsList (L.unlink x) (l.erase x) := by
  have hr := List.nodup_reverse.mpr h.nodup
  have hxr : x ∈ l.reverse := by simpa using hx
  have hself : ∀ p, L.prev x = some p → p ≠ x := by
    intro p hp
    rw [h.prev] at hp
    exact (after_ne hr hp).symm
  refine ⟨h.nodup.erase x, ?_, ?_, ?_, ?_⟩
  · rw [head?_erase h.nodup, ← h.next, ← h.head]
    have hfirst := after_reverse_none h.nodup hx
    rw [← h.prev, ← h.head] at hfirst
    unfold Links.unlink
    dsimp only
    cases hp : L.prev x with
    | none =>
      rw [if_pos (hfirst.mp hp)]
      cases L.next x <;> rfl
    | some p =>
      have : L.head ≠ some x := fun e => by simp [hfirst.mpr e] at hp
      rw [if_neg this]
      dsimp only
      rw [Function.update_of_ne (hself p hp).symm]
      cases L.next x <;> rfl
  · have hlast := after_reverse_none hr hxr
    rw [List.reverse_reverse, List.head?_reverse, ← h.next, ← h.tail] at hlast
    rw [← List.head?_reverse, reverse_erase h.nodup, head?_erase hr, List.head?_reverse, ← h.prev,
      ← h.tail]
    have htail : (L.unlink x).tail = match L.next x with | some _ => L.tail | none => L.prev x := by
      unfold Links.unlink
      dsimp only
      cases hp : L.prev x with
      | none => cases L.next x <;> simp [hp]
      | some p =>
        dsimp only
        rw [Function.update_of_ne (hself p hp).symm]
        cases L.next x <;> simp [hp]
    rw [htail]
    cases hq : L.next x with
    | none => rw [if_pos (hlast.mp hq)]
    | some n =>
      have : L.tail ≠ some x := fun e => by simp [hlast.mpr e] at hq
      rw [if_neg this]
  · intro z
    rw [h.unlink_next, after_erase h.nodup, h.next, h.next]
  · intro z
    rw [h.unlink_prev, reverse_erase h.nodup, after_erase hr, h.prev, h.prev]

end Edits

/-! ### Loops along the list -/

/-- `for (it = start; it; it = it->next) if (p(it)) break;` with the node it stops at, if any. -/
def scan (next : ι → Option ι) (p : ι → Bool) : ℕ → Option ι → Option (Option ι)
  | _, none => some none
  | 0, some _ => none
  | n + 1, some x => if p x then some (some x) else scan next p n (next x)

/-- `for (it = start; it; it = it->next) acc = f(acc, it);` -/
def fold (next : ι → Option ι) (f : β → ι → β) : ℕ → Option ι → β → Option β
  | _, none, b => some b
  | 0, some _, _ => none
  | n + 1, some x, b => fold next f n (next x) (f b x)

/-- The nodes met from a node on, ending at the null pointer. -/
inductive Path (next : ι → Option ι) : Option ι → List ι → Prop
  | nil : Path next none []
  | cons {x : ι} {l : List ι} (h : Path next (next x) l) : Path next (some x) (x :: l)

variable {next : ι → Option ι} {l : List ι} {a : Option ι}

theorem Path.scan (h : Path next a l) (p : ι → Bool) {n : ℕ} (hn : l.length ≤ n) :
    scan next p n a = some (l.find? p) := by
  induction h generalizing n with
  | nil => cases n <;> rfl
  | cons _ ih =>
    rename_i x l _
    cases n with
    | zero => simp at hn
    | succ n =>
      rw [Linked.scan, List.find?_cons]
      cases p x with
      | true => rfl
      | false => exact ih (by simpa using hn)

theorem Path.fold (h : Path next a l) (f : β → ι → β) (b : β) {n : ℕ} (hn : l.length ≤ n) :
    fold next f n a b = some (l.foldl f b) := by
  induction h generalizing n b with
  | nil => cases n <;> rfl
  | cons _ ih =>
    cases n with
    | zero => simp at hn
    | succ n => exact ih _ (by simpa using hn)

theorem Path.congr {next' : ι → Option ι} (h : Path next a l) (hn : ∀ x ∈ l, next' x = next x) :
    Path next' a l := by
  induction h with
  | nil => exact .nil
  | @cons x l _ ih =>
    refine .cons ?_
    rw [hn x List.mem_cons_self]
    exact ih fun y hy => hn y (List.mem_cons_of_mem x hy)

theorem Path.head (h : Path next a l) : a = l.head? := by
  cases h <;> rfl

theorem Path.tail {x : ι} (h : Path next a (x :: l)) : Path next (next x) l := by
  cases h with
  | cons h => exact h

theorem Path.next_split {l₁ l₂ : List ι} {x : ι} (h : Path next a (l₁ ++ x :: l₂)) :
    next x = l₂.head? := by
  induction l₁ generalizing a with
  | nil =>
    cases h with
    | cons h => exact h.head
  | cons y l₁ ih =>
    cases h with
    | cons h => exact ih h

theorem Path.foldl_push {σ : Type*} (link : σ → ι → Option ι) (first : σ → Option ι)
    {push : σ → ι → σ}
    (hpush : ∀ s x l, Path (link s) (first s) l → x ∉ l → Path (link (push s x)) (first (push s x))
      (x :: l)) :
    ∀ (xs l : List ι) (s : σ), Path (link s) (first s) l → (xs.reverse ++ l).Nodup →
      Path (link (xs.foldl push s)) (first (xs.foldl push s)) (xs.reverse ++ l)
  | [], _, _, h, _ => h
  | x :: xs, l, s, h, hn => by
    have happ : (x :: xs).reverse ++ l = xs.reverse ++ x :: l := by simp
    rw [happ] at hn ⊢
    have hx : x ∉ l := (List.nodup_cons.mp (List.nodup_append.mp hn).2.1).1
    exact Path.foldl_push link first hpush xs (x :: l) (push s x) (hpush s x l h hx) hn

variable [DecidableEq ι] {L : Links ι}

theorem Path.push {x : ι} (h : Path next a l) (hx : x ∉ l) :
    Path (Function.update next x a) (some x) (x :: l) := by
  refine .cons ?_
  rw [Function.update_self]
  refine h.congr fun y hy => Function.update_of_ne ?_ _ _
  exact fun e => hx (e ▸ hy)

theorem IsList.path (h : IsList L l) : Path L.next L.head l := by
  have key : ∀ l₂ l₁ : List ι, l = l₁ ++ l₂ → Path L.next l₂.head? l₂ := by
    intro l₂
    induction l₂ with
    | nil => intro _ _; exact .nil
    | cons x l₂ ih =>
      intro l₁ e
      have hx : x ∉ l₁ := by
        have := h.nodup
        rw [e] at this
        exact fun hm => (List.nodup_append.mp this).2.2 x hm x (by simp) rfl
      have hnext : L.next x = l₂.head? := by
        rw [h.next, e]
        exact after_append_cons hx
      have hrest := ih (l₁ ++ [x]) (by rw [e]; simp)
      rw [← hnext] at hrest
      exact .cons hrest
  rw [h.head]
  exact key l [] rfl

end Kerneloid.Lib.Linked
