import Kerneloid.XnuMemory.VmLayout

/-! # Virtual memory maps as functions of addresses

What a map says of an address is its `view`: the protection and the inheritance of the entry that
`vm_map_lookup` finds, if there is one. The calls are compared with what they mean for views.

* `vm_map_pointwise`: `vm_map_remove` unmaps the range and `vm_map_protect` changes its protection,
  and nothing else happens to any address.
* `vm_map_errors`: a call that fails leaves every address as it was, but for one case. When
  `vm_map_protect` runs out of memory at the right end of the range, the entries before have the new
  protection already. -/

namespace Kerneloid.XnuMemory.VmViews

open XnuMemory.Heap (alignUp)
open Types VmMaps VmLayout

/-! ### Views -/

/-- What a list of entries says of an address. -/
def attrs (es : List Entry) (a : ℕ) : Option (ℕ × ℕ) :=
  (es.find? fun e => e.start ≤ a ∧ a < e.stop).map fun e => (e.protection, e.inheritance)

/-- **The view of a map**: the protection and the inheritance of an address that is mapped. -/
def view (m : VmMap) (a : ℕ) : Option (ℕ × ℕ) :=
  (vmMapLookup m a).map fun e => (e.protection, e.inheritance)

variable {m : VmMap} {es ds : List Entry} {e : Entry} {start stop prot n a hi lo : ℕ}
variable {mem : List Bool} {p : Pass}

@[simp] theorem attrs_nil : attrs [] a = none := rfl

theorem attrs_cons : attrs (e :: es) a =
    if e.start ≤ a ∧ a < e.stop then some (e.protection, e.inheritance) else attrs es a := by
  unfold attrs
  rw [List.find?_cons]
  split_ifs with hin
  · rw [decide_eq_true hin]
    rfl
  · rw [decide_eq_false hin]

theorem attrs_append : attrs (ds ++ es) a = (attrs ds a).or (attrs es a) := by
  unfold attrs
  rw [List.find?_append, Option.map_or]

/-- The range from `start` to `stop` is unmapped. -/
def cut (start stop a : ℕ) (v : Option (ℕ × ℕ)) : Option (ℕ × ℕ) :=
  if start ≤ a ∧ a < stop then none else v

/-- The range from `start` to `stop` has the protection `prot`, where it is mapped. -/
def paint (start stop prot a : ℕ) (v : Option (ℕ × ℕ)) : Option (ℕ × ℕ) :=
  if start ≤ a ∧ a < stop then v.map fun w => (prot, w.2) else v

theorem cut_or (v w : Option (ℕ × ℕ)) :
    cut start stop a (v.or w) = (cut start stop a v).or (cut start stop a w) := by
  unfold cut
  split_ifs <;> rfl

theorem paint_or (v w : Option (ℕ × ℕ)) :
    paint start stop prot a (v.or w) = (paint start stop prot a v).or (paint start stop prot a w) := by
  unfold paint
  split_ifs
  · exact Option.map_or
  · rfl

theorem paint_empty (h : stop ≤ start) (v : Option (ℕ × ℕ)) : paint start stop prot a v = v :=
  if_neg (by omega)

theorem cut_outside (h : e.stop ≤ start ∨ stop ≤ e.start) :
    attrs [e] a = cut start stop a (attrs [e] a) := by
  unfold cut
  simp only [attrs_cons, attrs_nil]
  split_ifs <;> first | rfl | omega

theorem paint_outside (h : e.stop ≤ start ∨ stop ≤ e.start) :
    attrs [e] a = paint start stop prot a (attrs [e] a) := by
  unfold paint
  simp only [attrs_cons, attrs_nil]
  split_ifs <;> first | rfl | omega

theorem paint_inside (hlo : start ≤ e.start) (hhi : e.stop ≤ stop) :
    attrs [{ e with protection := prot }] a = paint start stop prot a (attrs [e] a) := by
  unfold paint
  simp only [attrs_cons, attrs_nil]
  split_ifs <;> first | rfl | omega

theorem attrs_after {T : Option (ℕ × ℕ) → Option (ℕ × ℕ)} (hT : ∀ v w, T (v.or w) = (T v).or (T w))
    (hds : attrs ds a = T (attrs [e] a)) (hrest : attrs p.entries a = T (attrs es a)) :
    attrs (p.after ds).entries a = T (attrs (e :: es) a) := by
  show attrs (ds ++ p.entries) a = T (attrs ([e] ++ es) a)
  rw [attrs_append, attrs_append, hT, hds, hrest]

/-! ### Removing -/

theorem removeLoop_attrs (hlt : start < stop) : ∀ (es : List Entry) (n : ℕ) (mem : List Bool),
    (removeLoop start stop es n mem).result = .success → ∀ a,
      attrs (removeLoop start stop es n mem).entries a = cut start stop a (attrs es a)
  | [], _, _, _, a => by
    show none = cut start stop a none
    unfold cut
    rw [ite_self]
  | e :: es, n, mem, hres, a => by
    have hrest := fun n mem h => removeLoop_attrs hlt es n mem h a
    rw [removeLoop] at hres ⊢
    split_ifs at hres ⊢ with hout hin hmid hmem hleft
    · exact attrs_after cut_or (cut_outside hout) (hrest n mem hres)
    · rw [hrest (countDown n) mem hres]
      unfold cut
      simp only [attrs_cons]
      split_ifs <;> first | rfl | omega
    · refine attrs_after cut_or ?_ (hrest (countUp n) mem.tail hres)
      unfold cut
      simp only [attrs_cons, attrs_nil]
      split_ifs <;> first | rfl | omega
    · refine attrs_after cut_or ?_ (hrest n mem hres)
      unfold cut
      simp only [attrs_cons, attrs_nil]
      split_ifs <;> first | rfl | omega
    · refine attrs_after cut_or ?_ (hrest n mem hres)
      unfold cut
      simp only [attrs_cons, attrs_nil]
      split_ifs <;> first | rfl | omega

theorem removeLoop_short : ∀ (es : List Entry) (n : ℕ) (mem : List Bool),
    (removeLoop start stop es n mem).result ≠ .success →
      ∃ e ∈ es, e.start < start ∧ stop < e.stop
  | [], _, _, hres => absurd rfl hres
  | e :: es, n, mem, hres => by
    have hrest : ∀ n mem, (removeLoop start stop es n mem).result ≠ .success →
        ∃ d ∈ e :: es, d.start < start ∧ stop < d.stop := by
      intro n mem h
      obtain ⟨d, hd, hin⟩ := removeLoop_short es n mem h
      exact ⟨d, List.mem_cons_of_mem e hd, hin⟩
    rw [removeLoop] at hres
    split_ifs at hres with hout hin hmid hmem hleft
    · exact hrest n mem hres
    · exact hrest (countDown n) mem hres
    · exact ⟨e, List.mem_cons_self, hmid⟩
    · exact ⟨e, List.mem_cons_self, hmid⟩
    · exact hrest n mem hres
    · exact hrest n mem hres

/-- **A removal that runs out of memory** has changed nothing: the entries before the one that the
range lies inside of end before the range. -/
theorem removeLoop_failed : ∀ (es : List Entry) {lo : ℕ} (n : ℕ) (mem : List Bool), Row hi lo es →
    (removeLoop start stop es n mem).result ≠ .success →
      (removeLoop start stop es n mem).entries = es
  | [], _, _, _, _, hres => absurd rfl hres
  | e :: es, lo, n, mem, h, hres => by
    have ⟨_, _, hrow⟩ := h
    -- an entry that the loop changes ends inside the range, and the next ones do not start before it
    have hlast : ¬ (e.stop ≤ start ∨ stop ≤ e.start) → ∀ n mem,
        (removeLoop start stop es n mem).result = .success := by
      intro hover n mem
      by_contra hshort
      obtain ⟨d, hd, hin⟩ := removeLoop_short es n mem hshort
      have hafter := (hrow.mem d hd).1
      omega
    rw [removeLoop] at hres ⊢
    split_ifs at hres ⊢ with hout hin hmid hmem hleft
    · exact congrArg (e :: ·) (removeLoop_failed es n mem hrow hres)
    · exact absurd (hlast hout _ mem) hres
    · rfl
    · exact absurd (hlast hout _ mem.tail) hres
    · exact absurd (hlast hout n mem) hres
    · exact absurd (hlast hout n mem) hres

/-! ### Protecting -/

theorem attrs_split {x : ℕ} (hlo : e.start ≤ x) (hhi : x ≤ e.stop) :
    attrs ({ e with stop := x } :: { e with start := x } :: es) a = attrs (e :: es) a := by
  simp only [attrs_cons]
  split_ifs <;> first | rfl | omega

theorem protectRight_attrs {rest : ℕ → List Bool → Pass} (hstart : start ≤ e.start)
    (hstop : e.start < stop)
    (hrest : ∀ n mem, (rest n mem).result ≠ .resourceShortage → attrs (rest n mem).entries a = paint
      start stop prot a (attrs es a))
    (hres : (protectRight stop prot e es n mem rest).result ≠ .resourceShortage) :
    attrs (protectRight stop prot e es n mem rest).entries a =
      paint start stop prot a (attrs (e :: es) a) := by
  unfold protectRight at hres ⊢
  split_ifs at hres ⊢ with hright hmem
  · exact absurd rfl hres
  · refine attrs_after paint_or ?_ (hrest (countUp n) mem.tail hres)
    unfold paint
    simp only [attrs_cons, attrs_nil]
    split_ifs <;> first | rfl | omega
  · exact attrs_after paint_or (paint_inside hstart (by omega)) (hrest n mem hres)

theorem protectLoop_attrs (hlt : start < stop) : ∀ (es : List Entry) (n : ℕ) (mem : List Bool)
    (found : Bool), (protectLoop start stop prot es n mem found).result ≠ .resourceShortage → ∀ a,
      attrs (protectLoop start stop prot es n mem found).entries a =
        paint start stop prot a (attrs es a)
  | [], _, _, _, _, a => by
    show none = paint start stop prot a none
    unfold paint
    split_ifs <;> rfl
  | e :: es, n, mem, found, hres, a => by
    have hrest := fun found n mem h => protectLoop_attrs hlt es n mem found h a
    rw [protectLoop] at hres ⊢
    split_ifs at hres ⊢ with hout hleft hmem
    · exact attrs_after paint_or (paint_outside hout) (hrest found n mem hres)
    · exact absurd rfl hres
    · -- the part before the range is split off, and the loop goes on with the other one
      rw [← attrs_split (x := start) hleft.le (by omega)]
      exact attrs_after paint_or (paint_outside (Or.inl le_rfl))
        (protectRight_attrs le_rfl hlt (hrest true) hres)
    · exact protectRight_attrs (not_lt.mp hleft) (by omega) (hrest true) hres

theorem protectRight_found {rest : ℕ → List Bool → Pass}
    (hrest : ∀ n mem, (rest n mem).result = .success ∨ (rest n mem).result = .resourceShortage) :
    (protectRight stop prot e es n mem rest).result = .success ∨
      (protectRight stop prot e es n mem rest).result = .resourceShortage := by
  unfold protectRight
  split_ifs
  · exact Or.inr rfl
  · exact hrest (countUp n) mem.tail
  · exact hrest n mem

theorem protectLoop_found : ∀ (es : List Entry) (n : ℕ) (mem : List Bool),
    (protectLoop start stop prot es n mem true).result = .success ∨
      (protectLoop start stop prot es n mem true).result = .resourceShortage
  | [], _, _ => Or.inl rfl
  | e :: es, n, mem => by
    rw [protectLoop]
    split_ifs
    · exact protectLoop_found es n mem
    · exact Or.inr rfl
    · exact protectRight_found (protectLoop_found es)
    · exact protectRight_found (protectLoop_found es)

theorem protectLoop_notFound : ∀ (es : List Entry) (n : ℕ) (mem : List Bool),
    (protectLoop start stop prot es n mem false).result ≠ .success →
      (protectLoop start stop prot es n mem false).result ≠ .resourceShortage →
        (protectLoop start stop prot es n mem false).entries = es ∧
          ∀ e ∈ es, e.stop ≤ start ∨ stop ≤ e.start
  | [], _, _, _, _ => ⟨rfl, fun e he => absurd he List.not_mem_nil⟩
  | e :: es, n, mem, hres, hshort => by
    have hright : ∀ {d n mem}, (protectRight stop prot d es n mem
        fun n mem => protectLoop start stop prot es n mem true).result = .success ∨
          (protectRight stop prot d es n mem
            fun n mem => protectLoop start stop prot es n mem true).result = .resourceShortage :=
      protectRight_found (protectLoop_found es)
    rw [protectLoop] at hres hshort ⊢
    split_ifs at hres hshort ⊢ with hout hleft hmem
    · obtain ⟨hsame, hall⟩ := protectLoop_notFound es n mem hres hshort
      exact ⟨congrArg (e :: ·) hsame, List.forall_mem_cons.mpr ⟨hout, hall⟩⟩
    · exact absurd rfl hshort
    · exact absurd hright (not_or.mpr ⟨hres, hshort⟩)
    · exact absurd hright (not_or.mpr ⟨hres, hshort⟩)

/-! ### Protecting without memory -/

/-- The first split of a change of protection fails: an entry begins before the range. -/
def LeftFails (start : ℕ) (es : List Entry) (mem : List Bool) : Prop :=
  mem.head? = some false ∧ ∃ e ∈ es, e.start < start ∧ start < e.stop

/-- **What a loop that ran out of memory has left.** Either the first split failed and nothing has
changed, or the last one failed, for an entry `e` that ends behind the range, and what comes before
`e` has the new protection. -/
def Halted (start stop prot : ℕ) (es : List Entry) (mem : List Bool) (p : Pass) : Prop :=
  (LeftFails start es mem ∧ p.entries = es) ∨
    ∃ e ∈ es, e.start < stop ∧ stop < e.stop ∧
      ∀ a, attrs p.entries a = paint start e.start prot a (attrs es a)

theorem Halted.last (h : Halted start stop prot es mem p) (hrow : Row hi e.stop es)
    (hover : start < e.stop) :
    ∃ d ∈ es, e.stop ≤ d.start ∧ d.start < stop ∧ stop < d.stop ∧
      ∀ a, attrs p.entries a = paint start d.start prot a (attrs es a) := by
  rcases h with ⟨⟨-, d, hd, hbefore, -⟩, -⟩ | ⟨d, hd, hlo, hhi, hview⟩
  · have hafter := (hrow.mem d hd).1
    omega
  · exact ⟨d, hd, (hrow.mem d hd).1, hlo, hhi, hview⟩

theorem attrs_below (hrow : Row hi lo es) (ha : a < lo) : attrs es a = none := by
  unfold attrs
  rw [Option.map_eq_none_iff, List.find?_eq_none]
  intro e he
  have := (hrow.mem e he).1
  simp only [decide_eq_true_eq]
  omega

theorem protectRight_halted {d : Entry} {rest : ℕ → List Bool → Pass} (hrow : Row hi d.stop es)
    (hstart : start ≤ d.start) (hne : d.start < d.stop) (hstop : d.start < stop)
    (hrest : ∀ n mem, (rest n mem).result = .resourceShortage → Halted start stop prot es mem (rest
      n mem)) (hres : (protectRight stop prot d es n mem rest).result = .resourceShortage) :
    ∃ c ∈ d :: es, d.start ≤ c.start ∧ c.start < stop ∧ stop < c.stop ∧
      ∀ a, attrs (protectRight stop prot d es n mem rest).entries a =
        paint start c.start prot a (attrs (d :: es) a) := by
  have hall : Row hi d.start (d :: es) := ⟨le_rfl, hne, hrow⟩
  unfold protectRight at hres ⊢
  split_ifs at hres ⊢ with hright hmem
  · refine ⟨d, List.mem_cons_self, le_rfl, hstop, hright, fun a => ?_⟩
    unfold paint
    split_ifs with hin
    · rw [attrs_below hall hin.2]
      rfl
    · rfl
  · -- the entries behind `d` are behind the range
    obtain ⟨c, hc, hafter, hlo, -⟩ := (hrest (countUp n) mem.tail hres).last hrow (by omega)
    omega
  · obtain ⟨c, hc, hafter, hlo, hhi, hview⟩ := (hrest n mem hres).last hrow (by omega)
    refine ⟨c, List.mem_cons_of_mem d hc, by omega, hlo, hhi, fun a => ?_⟩
    exact attrs_after paint_or (paint_inside (by omega) (by omega)) (hview a)

theorem protectLoop_halted (hlt : start < stop) : ∀ (es : List Entry) {lo : ℕ} (n : ℕ)
    (mem : List Bool) (found : Bool), Row hi lo es →
      (protectLoop start stop prot es n mem found).result = .resourceShortage →
        Halted start stop prot es mem (protectLoop start stop prot es n mem found)
  | [], _, _, _, found, _, hres => by cases found <;> cases hres
  | e :: es, lo, n, mem, found, h, hres => by
    have ⟨_, hne, hrow⟩ := h
    have hrest := fun found n mem => protectLoop_halted hlt es n mem found hrow
    rw [protectLoop] at hres ⊢
    split_ifs at hres ⊢ with hout hleft hmem
    · rcases hrest found n mem hres with ⟨⟨hfail, d, hd, hin⟩, hsame⟩ | ⟨d, hd, hlo, hhi, hview⟩
      · exact Or.inl ⟨⟨hfail, d, List.mem_cons_of_mem e hd, hin⟩, congrArg (e :: ·) hsame⟩
      · have hafter := (hrow.mem d hd).1
        refine Or.inr ⟨d, List.mem_cons_of_mem e hd, hlo, hhi, fun a => ?_⟩
        exact attrs_after paint_or (paint_outside (by omega)) (hview a)
    · exact Or.inl ⟨⟨hmem, e, List.mem_cons_self, hleft, by omega⟩, rfl⟩
    · -- the part before the range is split off
      obtain ⟨c, hc, -, hlo, hhi, hview⟩ := protectRight_halted (d := { e with start := start })
        hrow (le_refl start) (by show start < e.stop; omega) hlt (hrest true) hres
      have hall : ∀ a, attrs ((protectRight stop prot { e with start := start } es (countUp n) mem.tail
            fun n mem => protectLoop start stop prot es n mem true).after
              [{ e with stop := start }]).entries a =
          paint start c.start prot a (attrs (e :: es) a) := by
        intro a
        rw [← attrs_split (x := start) hleft.le (by omega)]
        exact attrs_after paint_or (paint_outside (Or.inl le_rfl)) (hview a)
      rcases List.mem_cons.mp hc with rfl | hc
      · refine Or.inr ⟨e, List.mem_cons_self, by omega, hhi, fun a => (hall a).trans ?_⟩
        rw [paint_empty le_rfl, paint_empty hleft.le]
      · exact Or.inr ⟨c, List.mem_cons_of_mem e hc, hlo, hhi, hall⟩
    · obtain ⟨c, hc, -, hhi, hend, hview⟩ :=
        protectRight_halted hrow (not_lt.mp hleft) hne (by omega) (hrest true) hres
      exact Or.inr ⟨c, hc, hhi, hend, hview⟩

theorem protectLoop_left (hlt : start < stop) : ∀ (es : List Entry) {lo : ℕ} (n : ℕ)
    (mem : List Bool) (found : Bool), Row hi lo es → LeftFails start es mem →
      (protectLoop start stop prot es n mem found).entries = es
  | [], _, _, _, _, _, ⟨_, _, he, _⟩ => absurd he List.not_mem_nil
  | e :: es, lo, n, mem, found, h, ⟨hfail, d, hd, hin⟩ => by
    have ⟨_, _, hrow⟩ := h
    have hcase : d = e ∨ d ∈ es ∧ e.stop ≤ d.start :=
      (List.mem_cons.mp hd).imp_right fun hd => ⟨hd, (hrow.mem d hd).1⟩
    rw [protectLoop]
    split_ifs with hout hleft
    · rcases hcase with rfl | ⟨hd, -⟩
      · omega
      · exact congrArg (e :: ·) (protectLoop_left hlt es n mem found hrow ⟨hfail, d, hd, hin⟩)
    · rfl
    · rcases hcase with rfl | ⟨-, hafter⟩ <;> omega

/-! ### Results -/

theorem attrs_of_mem (hrow : Row hi lo es) {d : Entry} (hd : d ∈ es)
    (hin : d.start ≤ a ∧ a < d.stop) : attrs es a = some (d.protection, d.inheritance) := by
  induction es generalizing lo with
  | nil => exact absurd hd List.not_mem_nil
  | cons e es ih =>
    obtain ⟨-, -, hrow⟩ := hrow
    rw [attrs_cons]
    rcases List.mem_cons.mp hd with rfl | hd
    · exact if_pos hin
    · have hafter := (hrow.mem d hd).1
      rw [if_neg (by omega)]
      exact ih hrow hd

theorem mem_of_attrs {v : ℕ × ℕ} (h : attrs es a = some v) :
    ∃ d ∈ es, (d.start ≤ a ∧ a < d.stop) ∧ v = (d.protection, d.inheritance) := by
  obtain ⟨d, hfind, rfl⟩ := Option.map_eq_some_iff.mp h
  have hin := List.find?_some hfind
  rw [decide_eq_true_eq] at hin
  exact ⟨d, List.mem_of_find?_eq_some hfind, hin, rfl⟩

/-- **Removing and protecting, pointwise.** For every well-formed map with 32-bit addresses and
every range that is not empty: a removal that succeeds unmaps the range and leaves all other
addresses as they are, a change of protection that succeeds changes the protection of the addresses
of the range that are mapped and nothing else, and the map is well formed again. -/
theorem vm_map_pointwise (h : WellFormed m) (hword : ∀ e ∈ m.entries, e.stop < 2 ^ 32)
    (hlt : start < stop) (prot : ℕ) (mem : List Bool) :
    ((vmMapRemove m start stop mem).2 = .success →
      (∀ a, view (vmMapRemove m start stop mem).1 a =
        if start ≤ a ∧ a < stop then none else view m a) ∧
      WellFormed (vmMapRemove m start stop mem).1) ∧
    ((vmMapProtect m start stop prot mem).2 = .success →
      (∀ a, view (vmMapProtect m start stop prot mem).1 a =
        if start ≤ a ∧ a < stop then (view m a).map fun v => (prot, v.2) else view m a) ∧
      WellFormed (vmMapProtect m start stop prot mem).1) := by
  refine ⟨fun hres => ?_, fun hres => ?_⟩
  · unfold vmMapRemove at hres ⊢
    rw [if_neg (not_le.mpr hlt)] at hres ⊢
    split_ifs at hres ⊢ with hout
    exact ⟨removeLoop_attrs hlt m.entries m.numEntries mem hres,
      h.loop hword (removeLoop_passes hlt m.entries m.numEntries mem)⟩
  · unfold vmMapProtect at hres ⊢
    rw [if_neg (not_le.mpr hlt)] at hres ⊢
    have hshort : (protectLoop start stop prot m.entries m.numEntries mem false).result ≠
        .resourceShortage := by
      rw [show (protectLoop start stop prot m.entries m.numEntries mem false).result = .success
        from hres]
      nofun
    exact ⟨protectLoop_attrs hlt m.entries m.numEntries mem false hshort,
      h.loop hword (protectLoop_passes hlt m.entries m.numEntries mem false)⟩

/-- Two entries in use, of which a removal and a change of protection cut both. -/
def twoEntries : VmMap := ⟨[⟨0x1000, 0x3000, 3, 1⟩, ⟨0x4000, 0x6000, 1, 0⟩], 2, 0x10000, 0x1000⟩

theorem vm_map_pointwise_two :
    (vmMapRemove twoEntries 0x2000 0x5000 []).2 = .success ∧
      (vmMapProtect twoEntries 0x2000 0x5000 7 []).2 = .success ∧
      (∀ a, view (vmMapRemove twoEntries 0x2000 0x5000 []).1 a =
        if 0x2000 ≤ a ∧ a < 0x5000 then none else view twoEntries a) ∧
      (∀ a, view (vmMapProtect twoEntries 0x2000 0x5000 7 []).1 a =
        if 0x2000 ≤ a ∧ a < 0x5000 then (view twoEntries a).map fun v => (7, v.2)
        else view twoEntries a) := by
  have h := vm_map_pointwise (m := twoEntries) (by decide) (by decide)
    (by decide : 0x2000 < 0x5000) 7 []
  exact ⟨by decide, by decide, (h.1 (by decide)).1, (h.2 (by decide)).1⟩

/-! ### Errors -/

/-- What a call returns. -/
def outcome (m : VmMap) : Op → KernReturn
  | .enter addr size mask flags prot inherit got =>
    (vmMapEnter m addr size mask flags prot inherit got).2.1
  | .remove start stop mem => (vmMapRemove m start stop mem).2
  | .protect start stop prot mem => (vmMapProtect m start stop prot mem).2

/-- **The calls that may fail**: those that change nothing before they fail. A change of protection
that does not fail at once has changed the entries that end in the range, unless they have the
protection already. -/
def Atomic (m : VmMap) : Op → Prop
  | .protect start stop prot mem =>
    LeftFails start m.entries mem ∨
      ∀ e ∈ m.entries, start < e.stop → e.stop ≤ stop → e.protection = prot
  | _ => True

theorem vmMapEnter_failed {addr size mask flags prot inherit : ℕ} {got : Bool}
    (hres : (vmMapEnter m addr size mask flags prot inherit got).2.1 ≠ .success) :
    (vmMapEnter m addr size mask flags prot inherit got).1 = m := by
  unfold vmMapEnter at hres ⊢
  by_cases hzero : size = 0
  · rw [if_pos hzero]
  rw [if_neg hzero] at hres ⊢
  dsimp only at hres ⊢
  by_cases hsize : alignUp size pageSize = 0
  · rw [if_pos hsize]
  rw [if_neg hsize] at hres ⊢
  cases hplace : place m addr (alignUp size pageSize) (enterAlign mask) (wantsAnywhere addr flags) with
  | error r => rfl
  | ok chosen =>
    rw [hplace] at hres
    cases got with
    | false => rfl
    | true => exact absurd rfl hres

theorem vmMapRemove_failed (h : WellFormed m) (hres : (vmMapRemove m start stop mem).2 ≠ .success) :
    view (vmMapRemove m start stop mem).1 = view m := by
  unfold vmMapRemove at hres ⊢
  split_ifs at hres ⊢ with hlt hout
  · rfl
  · rfl
  · exact congrArg attrs (removeLoop_failed m.entries m.numEntries mem h.row hres)

/-- An entry that ends in the range, or starts before one that sticks out of the range on the right,
ends before that one. -/
theorem before_last (hrow : Row hi lo es) {c d : Entry} (hc : c ∈ es) (hd : d ∈ es)
    (hin : c.start < stop ∧ stop < c.stop) (hbefore : d.start < c.start ∨ d.stop ≤ stop) :
    d.stop ≤ c.start := by
  have hne := hrow.mem d hd
  rcases hrow.apart hc hd with rfl | hafter | hle
  · omega
  · omega
  · exact hle

/-- **A change of protection that runs out of memory** leaves all addresses as they were exactly if
it failed at once, or if there was nothing to change. -/
theorem protectLoop_atomic (h : Row hi lo es) (hlt : start < stop)
    (hres : (protectLoop start stop prot es n mem false).result = .resourceShortage) :
    (∀ a, attrs (protectLoop start stop prot es n mem false).entries a = attrs es a) ↔
      LeftFails start es mem ∨ ∀ e ∈ es, start < e.stop → e.stop ≤ stop → e.protection = prot := by
  rcases protectLoop_halted hlt es n mem false h hres with ⟨hleft, hsame⟩ | ⟨c, hc, hlo, hhi, hview⟩
  · exact ⟨fun _ => Or.inl hleft, fun _ a => congrArg (attrs · a) hsame⟩
  constructor
  · intro hkeep
    refine Or.inr fun d hd hstart hstop => ?_
    -- the last address of the entry
    have hbefore := before_last h hc hd ⟨hlo, hhi⟩ (Or.inr hstop)
    have hne := (h.mem d hd).2.1
    have hlast := attrs_of_mem h hd (a := d.stop - 1) (by omega)
    have hpaint := (hview (d.stop - 1)).symm.trans (hkeep (d.stop - 1))
    unfold paint at hpaint
    rw [hlast, if_pos (by omega)] at hpaint
    exact (congrArg Prod.fst (Option.some.inj hpaint)).symm
  · rintro (hleft | hall) a
    · rw [protectLoop_left hlt es n mem false h hleft]
    · rw [hview a]
      unfold paint
      split_ifs with hin
      · cases hv : attrs es a with
        | none => rfl
        | some v =>
          obtain ⟨d, hd, hcov, rfl⟩ := mem_of_attrs hv
          have hbefore := before_last h hc hd ⟨hlo, hhi⟩ (Or.inl (by omega))
          rw [Option.map_some, hall d hd (by omega) (by omega)]
      · rfl

/-- **Errors are atomic, with one exception.** For every well-formed map, every call and every
pattern of failures of `kmalloc`: a call that does not succeed leaves the view of the map as it was
exactly if it is one of the `Atomic` ones. -/
theorem vm_map_errors (h : WellFormed m) (op : Op) (hfail : outcome m op ≠ .success) :
    (∀ a, view (step m op) a = view m a) ↔ Atomic m op := by
  cases op with
  | enter addr size mask flags prot inherit got =>
    exact ⟨fun _ => trivial, fun _ a => congrArg (view · a) (vmMapEnter_failed hfail)⟩
  | remove start stop mem =>
    exact ⟨fun _ => trivial, fun _ a => congrFun (vmMapRemove_failed h hfail) a⟩
  | protect start stop prot mem =>
    by_cases hlt : start < stop
    · have hcall : vmMapProtect m start stop prot mem = _ := if_neg (not_le.mpr hlt)
      rw [outcome, hcall] at hfail
      rw [step, hcall]
      by_cases hshort : (protectLoop start stop prot m.entries m.numEntries mem false).result =
          .resourceShortage
      · exact protectLoop_atomic h.row hlt hshort
      · -- no entry overlaps the range
        obtain ⟨hsame, hall⟩ := protectLoop_notFound m.entries m.numEntries mem hfail hshort
        refine ⟨fun _ => Or.inr fun e he hstart hstop => ?_, fun _ a => congrArg (attrs · a) hsame⟩
        have hout := hall e he
        have hne := (h.inside e he).2.1
        omega
    · have hcall : vmMapProtect m start stop prot mem = _ := if_pos (not_lt.mp hlt)
      rw [step, hcall]
      exact ⟨fun _ => Or.inr fun e he hstart hstop => by omega, fun _ _ => rfl⟩

theorem vm_map_errors_split :
    outcome twoEntries (.protect 0x2000 0x5000 7 [false]) = .resourceShortage ∧
      ((∀ a, view (step twoEntries (.protect 0x2000 0x5000 7 [false])) a = view twoEntries a) ↔
        Atomic twoEntries (.protect 0x2000 0x5000 7 [false])) :=
  ⟨by decide, vm_map_errors (by decide) _ (by decide)⟩

/-- **The exception.** The range covers the first entry and a part of the second one, for the split
of which there is no memory. The call fails, and the first entry has the new protection. -/
theorem protect_not_atomic :
    WellFormed twoEntries ∧
      outcome twoEntries (.protect 0x1000 0x5000 7 [false]) = .resourceShortage ∧
      view twoEntries 0x1000 = some (3, 1) ∧
      view (step twoEntries (.protect 0x1000 0x5000 7 [false])) 0x1000 = some (7, 1) := by
  decide

end Kerneloid.XnuMemory.VmViews
