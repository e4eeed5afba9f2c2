import Kerneloid.XnuMemory.Zones

/-! # When a zone has nothing left

`zalloc` lets a zone grow only while `cur_elements + free_count` is below `max_elements`. But
`free_count` counts all frees there ever were, and not the free elements. So a zone that does not
start with all its elements stops growing after enough of them, although few elements are in use
(`zone_available`). -/

namespace Kerneloid.XnuMemory.ZoneGrowth

open Lib.Runs Zones

/-- **The runs in which memory never runs out**: elements are freed and written only while they are
in use, and every `kmalloc` succeeds. The elements have different addresses of 32 bits. -/
def Served (t : Tracked) (op : Op) : Prop :=
  Lent t op ∧ op ≠ .alloc false ∧ (track t op).zone.backed < 2 ^ 32

instance (t : Tracked) (op : Op) : Decidable (Served t op) :=
  inferInstanceAs (Decidable (_ ∧ _ ∧ _))

variable {z : Zone} {t t₀ : Tracked} {l u : List ℕ} {e : ℕ}

/-! ### The elements there are -/

/-- **All elements** that the zone has memory for are free or in use. -/
structure Stocked (t : Tracked) (l : List ℕ) : Prop where
  slots : Slots t.zone l t.inUse
  cur : t.zone.curElements = t.inUse.length
  whole : l.length + t.inUse.length = t.zone.backed

theorem Stocked.add (h : Stocked ⟨z, u⟩ l) (n : ℕ) :
    Stocked ⟨addSlots z n, u⟩ ((List.range' z.backed n).reverse ++ l) := by
  have hslots := h.slots.add n
  have hwhole := h.whole
  obtain ⟨link, freeList, hrest⟩ := addSlots_rest z n
  rw [hrest] at hslots ⊢
  refine ⟨hslots, h.cur, ?_⟩
  dsimp only at hwhole ⊢
  rw [List.length_append, List.length_reverse, List.length_range']
  omega

theorem Stocked.refill (h : Stocked ⟨z, u⟩ l) (got : Bool) :
    ∃ l', Stocked ⟨refill z got, u⟩ l' := by
  rcases refill_cases z got with heq | ⟨n, -, -, -, heq⟩
  · rw [heq]
    exact ⟨l, h⟩
  · rw [heq]
    exact ⟨_, h.add n⟩

theorem Stocked.pop (h : Stocked ⟨z, u⟩ (e :: l)) (hlt : z.backed < 2 ^ 32) :
    Stocked ⟨popSlot z e, e :: u⟩ l := by
  have hwhole := h.whole
  have hcur := h.cur
  dsimp only at hwhole hcur
  rw [List.length_cons] at hwhole
  refine ⟨h.slots.pop, ?_, ?_⟩
  · show (z.curElements + 1) % 2 ^ 32 = u.length + 1
    omega
  · show l.length + (u.length + 1) = z.backed
    omega

theorem track_alloc (t : Tracked) (got : Bool) :
    track t (.alloc got) = match (refill t.zone got).freeList with
      | none => ⟨refill t.zone got, t.inUse⟩
      | some e => ⟨popSlot (refill t.zone got) e, e :: t.inUse⟩ := by
  rw [track]
  unfold zalloc
  dsimp only
  cases (refill t.zone got).freeList <;> rfl

theorem Stocked.alloc (h : Stocked t l) {got : Bool}
    (hlt : (track t (.alloc got)).zone.backed < 2 ^ 32) :
    ∃ l', Stocked (track t (.alloc got)) l' := by
  obtain ⟨l', h'⟩ := h.refill got
  have hhead := h'.slots.list.head
  dsimp only at hhead
  rw [track_alloc, hhead] at hlt ⊢
  cases l' with
  | nil => exact ⟨[], h'⟩
  | cons e l' => exact ⟨l', h'.pop hlt⟩

theorem Stocked.free (h : Stocked t l) (he : e ∈ t.inUse) :
    Stocked (track t (.free e)) (e :: l) := by
  have hcur := h.cur
  have hwhole := h.whole
  have hpos := List.length_pos_of_mem he
  have hlen := List.length_erase_of_mem he
  rw [track]
  unfold zfree
  rw [if_neg (by omega)]
  refine ⟨⟨(h.slots.push he).list, (h.slots.push he).nodup, (h.slots.push he).backed⟩, ?_, ?_⟩
  · show t.zone.curElements - 1 = (t.inUse.erase e).length
    omega
  · show (e :: l).length + (t.inUse.erase e).length = t.zone.backed
    rw [List.length_cons]
    omega

theorem Stocked.step (h : Stocked t l) {op : Op} (hop : Served t op) :
    ∃ l', Stocked (track t op) l' := by
  cases op with
  | alloc got => exact h.alloc hop.2.2
  | free e => exact ⟨e :: l, h.free hop.1⟩
  | write e v => exact ⟨l, h.slots.write hop.1 v, h.cur, h.whole⟩

theorem refill_bounds (z : Zone) (got : Bool) :
    (refill z got).maxElements = z.maxElements ∧ z.backed ≤ (refill z got).backed := by
  rcases refill_cases z got with heq | ⟨n, -, -, -, heq⟩
  · rw [heq]
    exact ⟨rfl, le_rfl⟩
  · obtain ⟨link, freeList, hrest⟩ := addSlots_rest z n
    rw [heq, hrest]
    exact ⟨rfl, Nat.le_add_right _ _⟩

theorem track_bounds (t : Tracked) (op : Op) :
    (track t op).zone.maxElements = t.zone.maxElements ∧
      t.zone.backed ≤ (track t op).zone.backed := by
  cases op with
  | alloc got =>
    have hrefill := refill_bounds t.zone got
    rw [track_alloc]
    split
    · exact hrefill
    · exact hrefill
  | free e =>
    rw [track]
    unfold zfree
    split_ifs <;> exact ⟨rfl, le_rfl⟩
  | write e v => exact ⟨rfl, le_rfl⟩

/-- **Nothing is left** exactly if the free list is empty after it was filled up. -/
theorem zalloc_none (z : Zone) (got : Bool) :
    (zalloc z got).2 = none ↔ (refill z got).freeList = none := by
  unfold zalloc
  dsimp only
  cases (refill z got).freeList <;> simp

theorem Stocked.none_left (h : Stocked t l) {got : Bool} (hnone : (zalloc t.zone got).2 = none) :
    t.zone.backed ≤ t.inUse.length := by
  obtain ⟨l', h'⟩ := h.refill got
  obtain rfl := h'.slots.empty ((zalloc_none t.zone got).mp hnone)
  have hwhole := h'.whole
  have hback := (refill_bounds t.zone got).2
  dsimp only [List.length_nil] at hwhole
  omega

/-! ### How to use up the bound -/

theorem alloc_cons (h : Stocked t (e :: l)) :
    track t (.alloc true) = ⟨popSlot t.zone e, e :: t.inUse⟩ := by
  have hhead : t.zone.freeList = some e := h.slots.list.head
  have hrefill : refill t.zone true = t.zone := if_neg (by rw [hhead]; simp)
  rw [track_alloc, hrefill, hhead]

theorem drain : ∀ (l : List ℕ) (t : Tracked), Reach Served track t₀ t → Stocked t l →
    t.zone.backed < 2 ^ 32 → ∃ t', Reach Served track t₀ t' ∧ Stocked t' [] ∧
      t'.zone.freeCount = t.zone.freeCount ∧ t'.zone.backed = t.zone.backed ∧
      t'.zone.maxElements = t.zone.maxElements
  | [], t, hr, h, _ => ⟨t, hr, h, rfl, rfl, rfl⟩
  | e :: l, t, hr, h, hlt => by
    have halloc := alloc_cons h
    have hr' : Reach Served track t₀ (track t (.alloc true)) :=
      .next _ hr ⟨trivial, nofun, by rw [halloc]; exact hlt⟩
    rw [halloc] at hr'
    exact drain l ⟨popSlot t.zone e, e :: t.inUse⟩ hr' (h.pop hlt) hlt

theorem free_counts (h : Stocked t l) (he : e ∈ t.inUse) :
    (track t (.free e)).zone.freeCount = (t.zone.freeCount + 1) % 2 ^ 32 ∧
      (track t (.free e)).zone.backed = t.zone.backed := by
  have hcur := h.cur
  have hpos := List.length_pos_of_mem he
  rw [track]
  unfold zfree
  rw [if_neg (by omega)]
  exact ⟨rfl, rfl⟩

theorem cycle (hr : Reach Served track t₀ t) (h : Stocked t []) (hpos : 0 < t.zone.backed)
    (hlt : t.zone.backed < 2 ^ 32) : ∃ t', Reach Served track t₀ t' ∧ Stocked t' [] ∧
      t'.zone.freeCount = (t.zone.freeCount + 1) % 2 ^ 32 ∧ t'.zone.backed = t.zone.backed ∧
      t'.zone.maxElements = t.zone.maxElements := by
  have hwhole : t.inUse.length = t.zone.backed := (Nat.zero_add _).symm.trans h.whole
  obtain ⟨e, he⟩ := List.exists_mem_of_length_pos (hwhole ▸ hpos)
  obtain ⟨hcount, hback⟩ := free_counts h he
  have hmax := (track_bounds t (.free e)).1
  have hr' : Reach Served track t₀ (track t (.free e)) :=
    .next _ hr ⟨he, nofun, hback ▸ hlt⟩
  obtain ⟨t', hr', h', hcount', hback', hmax'⟩ := drain _ _ hr' (h.free he) (hback ▸ hlt)
  exact ⟨t', hr', h', hcount'.trans hcount, hback'.trans hback, hmax'.trans hmax⟩

theorem spend : ∀ (k : ℕ) (t : Tracked), Reach Served track t₀ t → Stocked t [] →
    0 < t.zone.backed → t.zone.backed < 2 ^ 32 → t.zone.freeCount + k < 2 ^ 32 →
      ∃ t', Reach Served track t₀ t' ∧ Stocked t' [] ∧
        t'.zone.freeCount = t.zone.freeCount + k ∧ t'.zone.backed = t.zone.backed ∧
        t'.zone.maxElements = t.zone.maxElements
  | 0, t, hr, h, _, _, _ => ⟨t, hr, h, rfl, rfl, rfl⟩
  | k + 1, t, hr, h, hpos, hlt, hcount => by
    obtain ⟨t₁, hr₁, h₁, hcount₁, hback₁, hmax₁⟩ := cycle hr h hpos hlt
    rw [Nat.mod_eq_of_lt (by omega)] at hcount₁
    obtain ⟨t', hr', h', hcount', hback', hmax'⟩ :=
      spend k t₁ hr₁ h₁ (by omega) (by omega) (by omega)
    exact ⟨t', hr', h', by omega, hback'.trans hback₁, hmax'.trans hmax₁⟩

theorem zalloc_refused (h : Stocked t []) (hmax : t.zone.maxElements < 2 ^ 32)
    (hsum : t.zone.backed + t.zone.freeCount = t.zone.maxElements) :
    (zalloc t.zone true).2 = none := by
  have hnil : t.zone.freeList = none := h.slots.list.head
  have hwhole := h.whole
  have hcur := h.cur
  rw [List.length_nil, Nat.zero_add] at hwhole
  have hwanted : wanted t.zone = 0 := by
    unfold wanted
    rw [Nat.mod_eq_of_lt (by omega)]
    dsimp only
    split_ifs <;> omega
  rw [zalloc_none]
  unfold refill
  rw [hwanted, if_neg (by omega)]
  exact hnil

/-! ### Results -/

/-- The elements that a zone starts with are as many as asked for, but at least one and at most
`max`. -/
theorem zinit_stocked {size max alloc : ℕ} {gotZone gotMemory : Bool}
    (hinit : zinit size max alloc gotZone gotMemory = some z) :
    ∃ l, Stocked ⟨z, []⟩ l ∧ z.maxElements = max ∧ z.freeCount = 0 ∧ 0 < z.backed ∧
      z.backed ≤ max ∧ (z.backed = max ↔ max ≤ alloc ∨ max = 1) := by
  obtain ⟨hpos, rfl⟩ := zinit_eq hinit
  have hempty : Stocked
      ⟨⟨none, if size < 4 then 4 else size, max, 0, 0, 0, 0, fun _ => none⟩, []⟩ [] :=
    ⟨⟨.nil, List.nodup_nil, fun e he => absurd he List.not_mem_nil⟩, rfl, rfl⟩
  generalize hi : (if (if alloc < max then alloc else max) = 0 then 1
    else if alloc < max then alloc else max) = initial
  have hstart := hempty.add initial
  obtain ⟨link, freeList, hrest⟩ :=
    addSlots_rest ⟨none, if size < 4 then 4 else size, max, 0, 0, 0, 0, fun _ => none⟩ initial
  rw [hrest] at hstart ⊢
  refine ⟨_, hstart, rfl, rfl, ?_⟩
  dsimp only
  split_ifs at hi <;> omega

/-- **Availability of a zone.** For every zone that `zinit` makes with 32-bit sizes: in every run in
which memory never runs out, `zalloc` returns null only when `max` elements are in use, exactly if
the zone has all of its elements from the start. -/
theorem zone_available {size max alloc : ℕ} {gotZone gotMemory : Bool} (hmax : max < 2 ^ 32)
    {z : Zone} (hinit : zinit size max alloc gotZone gotMemory = some z) :
    (∀ t, Reach Served track ⟨z, []⟩ t → (zalloc t.zone true).2 = none → max ≤ t.inUse.length) ↔
      max ≤ alloc ∨ max = 1 := by
  obtain ⟨l, hl, hzmax, hcount, hpos, hle, hall⟩ := zinit_stocked hinit
  rw [← hall]
  constructor
  · -- all elements are taken, and then one is freed and taken as often as there are more to come
    intro havail
    have hlt : z.backed < 2 ^ 32 := by omega
    obtain ⟨t₁, hr₁, h₁, hcount₁, hback₁, hmax₁⟩ := drain l ⟨z, []⟩ .init hl hlt
    dsimp only at hcount₁ hback₁ hmax₁
    obtain ⟨t₂, hr₂, h₂, hcount₂, hback₂, hmax₂⟩ :=
      spend (max - z.backed) t₁ hr₁ h₁ (by omega) (by omega) (by omega)
    have hnone := zalloc_refused h₂ (by omega) (by omega)
    have hused := havail t₂ hr₂ hnone
    have hwhole := h₂.whole
    rw [List.length_nil] at hwhole
    omega
  · intro hstart t ht hnone
    obtain ⟨⟨l', ht'⟩, hback⟩ := ht.inv (I := fun t => (∃ l, Stocked t l) ∧ z.backed ≤ t.zone.backed)
      ⟨⟨l, hl⟩, le_rfl⟩ fun t op ⟨⟨l, ht⟩, hb⟩ hop =>
        ⟨ht.step hop, hb.trans (track_bounds t op).2⟩
    have hused := ht'.none_left hnone
    omega

/-- A zone for three elements that starts with all of them. -/
theorem zone_available_three :
    ∃ z, zinit 16 3 3 true true = some z ∧ ∀ t, Reach Served track ⟨z, []⟩ t →
      (zalloc t.zone true).2 = none → 3 ≤ t.inUse.length := by
  have hsome : (zinit 16 3 3 true true).isSome = true := by decide +kernel
  obtain ⟨z, hz⟩ := Option.isSome_iff_exists.mp hsome
  exact ⟨z, hz, (zone_available (by decide) hz).mpr (by decide)⟩

/-- The only element that a zone for two starts with is taken, freed and taken again. -/
def spentRun : List Op := [.alloc true, .free 0, .alloc true]

/-- **A zone that has room has nothing left.** It was made for two elements, one is in use, and
`zalloc` returns null although every `kmalloc` succeeds. -/
theorem zone_exhausted :
    Admits Served track ⟨pair, []⟩ spentRun ∧
      (spentRun.foldl track ⟨pair, []⟩).zone.maxElements = 2 ∧
      (spentRun.foldl track ⟨pair, []⟩).inUse = [0] ∧
      (zalloc (spentRun.foldl track ⟨pair, []⟩).zone true).2 = none := by
  decide +kernel

end Kerneloid.XnuMemory.ZoneGrowth
