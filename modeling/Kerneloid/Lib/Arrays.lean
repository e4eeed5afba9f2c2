import Mathlib.Data.List.GetD
import Mathlib.Tactic

/-! # Arrays with checked indices, and counted loops

An array of C is a function of the index together with its size. `readAt` and `writeAt` answer
`none` for an index out of range, so that a function that returns has used valid indices only.
`Stored R t i l` says that the entries of `t` from `i` on stand for those of the list `l`.

A loop whose counter runs through a range that the body does not change is a fold over the values of
the counter. `loop_returns` is the rule of such loops: an invariant of the number of turns that each
turn keeps, and under which each turn returns, holds at the end. -/

namespace Kerneloid.Lib.Arrays

variable {α β σ ι : Type} {size i j : ℕ} {t : ℕ → β} {x : β}

/-! ### Arrays -/

def readAt (size : ℕ) (t : ℕ → β) (i : ℤ) : Option β :=
  if 0 ≤ i ∧ i < size then some (t i.toNat) else none

def writeAt (size : ℕ) (t : ℕ → β) (i : ℤ) (x : β) : Option (ℕ → β) :=
  if 0 ≤ i ∧ i < size then some (Function.update t i.toNat x) else none

theorem readAt_natCast (h : i < size) : readAt size t i = some (t i) := by
  unfold readAt
  rw [if_pos ⟨by omega, by omega⟩, Int.toNat_natCast]

theorem writeAt_natCast (h : i < size) : writeAt size t i x = some (Function.update t i x) := by
  unfold writeAt
  rw [if_pos ⟨by omega, by omega⟩, Int.toNat_natCast]

/-! ### Lists in arrays -/

/-- The entries from `i` on stand for those of `l`. -/
def Stored (R : β → α → Prop) (t : ℕ → β) (i : ℕ) (l : List α) : Prop :=
  ∀ k x, l[k]? = some x → R (t (i + k)) x

variable {R : β → α → Prop} {t' : ℕ → β} {a : α} {l l' : List α}

theorem stored_nil : Stored R t i [] := nofun

theorem stored_cons : Stored R t i (a :: l) ↔ R (t i) a ∧ Stored R t (i + 1) l := by
  constructor
  · intro h
    refine ⟨h 0 a rfl, fun k x hx => ?_⟩
    rw [add_assoc, add_comm 1 k]
    exact h (k + 1) x hx
  · rintro ⟨h₁, h₂⟩ (_ | k) x hx
    · cases hx
      exact h₁
    · rw [add_comm k 1, ← add_assoc]
      exact h₂ k x hx

theorem stored_append : Stored R t i (l ++ l') ↔ Stored R t i l ∧ Stored R t (i + l.length) l' := by
  induction l generalizing i with
  | nil => simp [stored_nil]
  | cons a l ih =>
    rw [List.cons_append, stored_cons, stored_cons, ih, and_assoc, List.length_cons, add_assoc,
      add_comm 1]

theorem Stored.moved (h : Stored R t i l)
    (hcopy : ∀ k < l.length, ∀ x, R (t (i + k)) x → R (t' (j + k)) x) : Stored R t' j l :=
  fun k x hx => hcopy k (List.getElem?_eq_some_iff.mp hx).1 x (h k x hx)

theorem Stored.congr (h : Stored R t i l) (heq : ∀ k < l.length, t' (i + k) = t (i + k)) :
    Stored R t' i l := h.moved fun k hk x hx => by rwa [heq k hk]

theorem map_range_getD {n : ℕ} (hn : n = l.length) {d : α} {f : ℕ → α}
    (h : ∀ j < n, f j = l.getD j d) : (List.range n).map f = l := by
  refine List.ext_getElem (by simp [hn]) fun j hj hj' => ?_
  rw [List.getElem_map, List.getElem_range, h j (by omega), List.getD_eq_getElem _ _ hj']

theorem stored_iff_map_range {t : ℕ → α} : Stored Eq t 0 l ↔ (List.range l.length).map t = l := by
  constructor
  · intro h
    refine List.ext_getElem (by simp) fun k hk hk' => ?_
    have hslot := h k l[k] (List.getElem?_eq_getElem hk')
    rw [List.getElem_map, List.getElem_range, ← hslot, zero_add]
  · intro h k x hx
    rw [← h, List.getElem?_map] at hx
    obtain ⟨j, hj, rfl⟩ := Option.map_eq_some_iff.mp hx
    obtain ⟨-, rfl⟩ := List.getElem?_eq_some_iff.mp hj
    rw [zero_add, List.getElem_range]

/-! ### Loops -/

/-- The values of `i` in `for (i = a; i < b; i++)`. -/
def upFrom (a b : ℤ) : List ℤ := (List.range (b - a).toNat).map fun k : ℕ => a + (k : ℤ)

/-- The values of `i` in `for (i = a; i > b; i--)`. -/
def downFrom (a b : ℤ) : List ℤ := (List.range (a - b).toNat).map fun k : ℕ => a - (k : ℤ)

theorem mem_upFrom {a b x : ℤ} : x ∈ upFrom a b ↔ a ≤ x ∧ x < b := by
  simp only [upFrom, List.mem_map, List.mem_range]
  constructor
  · rintro ⟨k, hk, rfl⟩
    omega
  · rintro ⟨h₁, h₂⟩
    exact ⟨(x - a).toNat, by omega, by omega⟩

theorem upFrom_cons {a b : ℤ} (h : a < b) : upFrom a b = a :: upFrom (a + 1) b := by
  unfold upFrom
  have hturns : (b - a).toNat = (b - (a + 1)).toNat + 1 := by omega
  rw [hturns, List.range_succ_eq_map, List.map_cons, List.map_map]
  congr 1
  · simp
  · refine List.map_congr_left fun k _ => ?_
    simp only [Function.comp_apply, Nat.succ_eq_add_one]
    push_cast
    ring

theorem mapM_returns {f : ι → Option β} :
    ∀ {l : List ι}, (∀ i ∈ l, ∃ b, f i = some b) → ∃ bs, l.mapM f = some bs
  | [], _ => ⟨[], rfl⟩
  | i :: l, h => by
    obtain ⟨b, hb⟩ := h i List.mem_cons_self
    obtain ⟨bs, hbs⟩ := mapM_returns fun j hj => h j (List.mem_cons_of_mem i hj)
    exact ⟨b :: bs, by simp [hb, hbs]⟩

theorem foldlM_map {f : σ → ι → Option σ} {g : σ → σ} (h : ∀ s i, f (g s) i = (f s i).map g)
    (l : List ι) (s : σ) : l.foldlM f (g s) = (l.foldlM f s).map g := by
  induction l generalizing s with
  | nil => rfl
  | cons i l ih =>
    rw [List.foldlM_cons, List.foldlM_cons, h]
    cases f s i with
    | none => rfl
    | some s' => exact ih s'

/-- **The rule of counted loops.** -/
theorem loop_returns {f : σ → ι → Option σ} {g : ℕ → ι} (I : ℕ → σ → Prop) {n : ℕ} {s : σ}
    (h0 : I 0 s) (hstep : ∀ k < n, ∀ s, I k s → ∃ s', f s (g k) = some s' ∧ I (k + 1) s') :
    ∃ s', ((List.range n).map g).foldlM f s = some s' ∧ I n s' := by
  induction n with
  | zero => exact ⟨s, rfl, h0⟩
  | succ n ih =>
    obtain ⟨s', hs', hI⟩ := ih fun k hk => hstep k (by omega)
    obtain ⟨s'', hs'', hI'⟩ := hstep n (by omega) s' hI
    refine ⟨s'', ?_, hI'⟩
    rw [List.range_succ, List.map_append, List.foldlM_append, hs']
    simp [hs'']

theorem upFrom_returns {f : σ → ℤ → Option σ} (I : ℕ → σ → Prop) {a n : ℕ} {b : ℤ} {s : σ}
    (hb : b = a + n) (h0 : I 0 s)
    (hstep : ∀ k < n, ∀ s, I k s → ∃ s', f s (a + k : ℕ) = some s' ∧ I (k + 1) s') :
    ∃ s', (upFrom a b).foldlM f s = some s' ∧ I n s' := by
  unfold upFrom
  rw [hb, add_sub_cancel_left, Int.toNat_natCast]
  exact loop_returns I h0 fun k hk s hI => by simpa using hstep k hk s hI

theorem downFrom_returns {f : σ → ℤ → Option σ} (I : ℕ → σ → Prop) {a n : ℕ} {b : ℤ} {s : σ}
    (hb : (a : ℤ) = b + n) (hn : n ≤ a + 1) (h0 : I 0 s)
    (hstep : ∀ k < n, ∀ s, I k s → ∃ s', f s (a - k : ℕ) = some s' ∧ I (k + 1) s') :
    ∃ s', (downFrom a b).foldlM f s = some s' ∧ I n s' := by
  unfold downFrom
  have hturns : ((a : ℤ) - b).toNat = n := by omega
  rw [hturns]
  refine loop_returns I h0 fun k hk s hI => ?_
  have hcast : ((a - k : ℕ) : ℤ) = a - k := by omega
  have h := hstep k hk s hI
  rwa [hcast] at h

/-- **Moving entries down**: a loop whose turn `n` copies entry `n + 1` to `n`. The turn needs to be
known only for arrays in which the entry that it reads is still the old one. -/
theorem upFrom_shift {f : (ℕ → β) → ℤ → Option (ℕ → β)} {x len : ℕ} (hx : x ≤ len)
    (hf : ∀ n, x ≤ n → n < len → ∀ t', t' (n + 1) = t (n + 1) → f t' n = some (Function.update t' n
      (t (n + 1)))) :
    ∃ t', (upFrom x len).foldlM f t = some t' ∧
      ∀ j, t' j = if x ≤ j ∧ j < len then t (j + 1) else t j := by
  have hturns : (len : ℤ) = x + (len - x : ℕ) := by omega
  obtain ⟨t', ht', hmoved⟩ := upFrom_returns (f := f)
    (fun k t' => ∀ j, t' j = if x ≤ j ∧ j < x + k then t (j + 1) else t j)
    hturns (s := t) (fun j => by rw [if_neg (by omega)]) (by
      intro k hk t' ht'
      have hnext : t' (x + k + 1) = t (x + k + 1) := by rw [ht', if_neg (by omega)]
      refine ⟨_, hf (x + k) (by omega) (by omega) t' hnext, fun j => ?_⟩
      rw [Function.update_apply, ht']
      grind)
  refine ⟨t', ht', fun j => ?_⟩
  rw [hmoved, Nat.add_sub_of_le hx]

end Kerneloid.Lib.Arrays
