import Kerneloid.Lib.Runs
import Kerneloid.Lib.Spans
import Kerneloid.XnuMemory.VmMaps

/-! # The layout of a virtual memory map

The entries of a map lie one after the other inside the map, and `num_entries` is their number
(`WellFormed`). `vm_map_remove` and `vm_map_protect` keep this for all arguments, also when memory
runs out halfway. `vm_map_enter` keeps it if the 32-bit sums behind the address it picks do not wrap
(`Unwrapped`): the rounding that gave the address, and the end of the new entry. -/

namespace Kerneloid.XnuMemory.VmLayout

open Lib.Runs Lib.Spans
open XnuMemory.Heap (alignUp)
open Types VmMaps

/-- **The invariant**: the entries are sorted and disjoint (each ends before the next one starts),
not empty and inside the map, and they are counted. -/
structure WellFormed (m : VmMap) : Prop where
  sorted : m.entries.Pairwise fun a b => a.stop ≤ b.start
  inside : ∀ e ∈ m.entries, m.base ≤ e.start ∧ e.start < e.stop ∧ e.stop ≤ m.base + m.size
  count : m.numEntries = m.entries.length

instance (m : VmMap) : Decidable (WellFormed m) :=
  decidable_of_iff
    ((m.entries.Pairwise fun a b => a.stop ≤ b.start) ∧
      (∀ e ∈ m.entries, m.base ≤ e.start ∧ e.start < e.stop ∧ e.stop ≤ m.base + m.size) ∧
      m.numEntries = m.entries.length)
    ⟨fun h => ⟨h.1, h.2.1, h.2.2⟩, fun h => ⟨h.sorted, h.inside, h.count⟩⟩

/-! ### The calls that do not wrap -/

/-- What the address found by `firstFit` was rounded up from: `x` at first, then the end of each
entry that is in the way. -/
def origin (size align : ℕ) : List Entry → ℕ → ℕ → ℕ
  | [], _, x => x
  | e :: es, cur, x =>
    if (cur + size) % 2 ^ 32 ≤ e.start then x
    else if cur < e.stop then origin size align es (alignUp e.stop align) e.stop
    else origin size align es cur x

/-- The address that `vm_map_enter` has picked is right: the end of the new entry is not beyond the
32 bits, and neither is, in a search, the value that rounding up should have given. -/
def Sound (m : VmMap) (size align : ℕ) (anywhere : Bool) (chosen : ℕ) : Prop :=
  chosen + size < 2 ^ 32 ∧
    (anywhere = true → origin size align m.entries (alignUp m.base align) m.base ≤ chosen)

/-- **The calls that keep the layout**: if `vm_map_enter` succeeds, nothing has wrapped on the way
to its address. -/
def Unwrapped (m : VmMap) : Op → Prop
  | .enter addr size mask flags _ _ got =>
    got = true → ∀ chosen,
      place m addr (alignUp size pageSize) (enterAlign mask) (wantsAnywhere addr flags) = .ok chosen →
        Sound m (alignUp size pageSize) (enterAlign mask) (wantsAnywhere addr flags) chosen
  | _ => True

instance (m : VmMap) (size align : ℕ) (anywhere : Bool) (chosen : ℕ) :
    Decidable (Sound m size align anywhere chosen) :=
  inferInstanceAs (Decidable (_ ∧ (_ → _ ≤ _)))

instance forallOkDecidable {P : ℕ → Prop} [DecidablePred P] :
    ∀ x : Except KernReturn ℕ, Decidable (∀ c, x = .ok c → P c)
  | .error _ => isTrue fun _ h => nomatch h
  | .ok c => decidable_of_iff (P c) ⟨fun h _ e => Except.ok.inj e ▸ h, fun h => h c rfl⟩

instance (m : VmMap) : ∀ op, Decidable (Unwrapped m op)
  | .enter addr size mask flags _ _ got =>
    have := forallOkDecidable (P := Sound m (alignUp size pageSize) (enterAlign mask)
      (wantsAnywhere addr flags))
      (place m addr (alignUp size pageSize) (enterAlign mask) (wantsAnywhere addr flags))
    inferInstanceAs (Decidable (got = true → _))
  | .remove _ _ _ | .protect _ _ _ _ => isTrue trivial

/-! ### The list of entries -/

/-- The entries between `lo` and `hi`. -/
abbrev Row (hi lo : ℕ) (es : List Entry) : Prop := Laid Entry.start Entry.stop hi lo es

variable {m : VmMap} {hi lo : ℕ} {es : List Entry} {e : Entry}

theorem row_of_pairwise (hlo : lo ≤ hi) (hs : es.Pairwise fun a b => a.stop ≤ b.start)
    (hin : ∀ e ∈ es, lo ≤ e.start ∧ e.start < e.stop ∧ e.stop ≤ hi) : Row hi lo es := by
  induction es generalizing lo with
  | nil => exact hlo
  | cons e es ih =>
    obtain ⟨hlo', hne, hhi⟩ := hin e List.mem_cons_self
    obtain ⟨hfirst, hrest⟩ := List.pairwise_cons.mp hs
    refine ⟨hlo', hne, ih hhi hrest fun a ha => ?_⟩
    exact ⟨hfirst a ha, (hin a (List.mem_cons_of_mem e ha)).2⟩

theorem WellFormed.row (h : WellFormed m) : Row (m.base + m.size) m.base m.entries :=
  row_of_pairwise (Nat.le_add_right _ _) h.sorted h.inside

/-! ### Loops through the entries -/

/-- What a loop through the entries `es` between `lo` and `hi`, with `n` entries counted, may leave:
the entries are still in order, and the count has changed by as much as their number. -/
structure Passes (hi lo n : ℕ) (es : List Entry) (p : Pass) : Prop where
  row : Row hi lo p.entries
  count : (p.count + es.length) % 2 ^ 32 = (n + p.entries.length) % 2 ^ 32
  count_lt : n < 2 ^ 32 → p.count < 2 ^ 32

variable {start stop prot n : ℕ} {mem : List Bool} {p : Pass}

theorem passes_unchanged (h : Row hi lo es) (r : KernReturn) : Passes hi lo n es ⟨es, n, r⟩ :=
  ⟨h, Nat.add_comm es.length n ▸ rfl, fun hn => hn⟩

theorem Passes.put {mid n' : ℕ} {ds es' : List Entry} (h : Passes hi mid n' es' p)
    (hds : Row mid lo ds) (hn : (n' + es.length) % 2 ^ 32 = (n + ds.length + es'.length) % 2 ^ 32)
    (hlt : n < 2 ^ 32 → n' < 2 ^ 32) : Passes hi lo n es (p.after ds) := by
  refine ⟨hds.append h.row, ?_, fun h' => h.count_lt (hlt h')⟩
  have hcount := h.count
  show (p.count + es.length) % 2 ^ 32 = (n + (ds ++ p.entries).length) % 2 ^ 32
  rw [List.length_append]
  omega

theorem countUp_lt (n : ℕ) : countUp n < 2 ^ 32 := Nat.mod_lt _ (Nat.two_pow_pos 32)

theorem countDown_lt (n : ℕ) : countDown n < 2 ^ 32 := Nat.mod_lt _ (Nat.two_pow_pos 32)

theorem Passes.cons {d : Entry} (h : Passes hi e.stop n es p) (hlo : lo ≤ d.start)
    (hne : d.start < d.stop) (hle : d.stop ≤ e.stop) : Passes hi lo n (e :: es) (p.after [d]) := by
  refine h.put ⟨hlo, hne, hle⟩ ?_ id
  rw [List.length_cons, List.length_singleton]
  omega

theorem Passes.split {d d' : Entry} (h : Passes hi e.stop (countUp n) es p) (hlo : lo ≤ d.start)
    (hne : d.start < d.stop) (hmid : d.stop ≤ d'.start) (hne' : d'.start < d'.stop)
    (hle : d'.stop ≤ e.stop) : Passes hi lo n (e :: es) (p.after [d, d']) := by
  refine h.put ⟨hlo, hne, hmid, hne', hle⟩ ?_ fun _ => countUp_lt n
  simp only [List.length_cons, List.length_nil, countUp]
  omega

theorem Passes.drop (h : Passes hi e.stop (countDown n) es p) (hlo : lo ≤ e.stop) :
    Passes hi lo n (e :: es) p := by
  refine ⟨h.row.mono hlo, ?_, fun _ => h.count_lt (countDown_lt n)⟩
  have hcount := h.count
  simp only [List.length_cons, countDown] at hcount ⊢
  omega

theorem removeLoop_passes (hlt : start < stop) : ∀ (es : List Entry) {lo : ℕ} (n : ℕ)
    (mem : List Bool), Row hi lo es → Passes hi lo n es (removeLoop start stop es n mem)
  | [], _, n, _, h => passes_unchanged h _
  | e :: es, lo, n, mem, h => by
    have ⟨hlo, hne, hrow⟩ := h
    have hrest := fun n mem => removeLoop_passes hlt es n mem hrow
    rw [removeLoop]
    split_ifs with hout hin hmid hmem hleft
    · exact (hrest n mem).cons hlo hne le_rfl
    · exact (hrest (countDown n) mem).drop (hlo.trans hne.le)
    · exact passes_unchanged h _
    · exact (hrest (countUp n) mem.tail).split hlo hmid.1 hlt.le hmid.2 le_rfl
    · have hlo' : lo ≤ stop := by omega
      have hne' : stop < e.stop := by omega
      exact (hrest n mem).cons hlo' hne' le_rfl
    · have hne' : e.start < start := by omega
      have hle : start ≤ e.stop := by omega
      exact (hrest n mem).cons hlo hne' hle

theorem protectRight_passes {rest : ℕ → List Bool → Pass} (hlo : lo ≤ e.start)
    (hne : e.start < e.stop) (hstop : e.start < stop) (hrow : Row hi e.stop es)
    (hrest : ∀ n mem, Passes hi e.stop n es (rest n mem)) :
    Passes hi lo n (e :: es) (protectRight stop prot e es n mem rest) := by
  have hall : Row hi lo (e :: es) := ⟨hlo, hne, hrow⟩
  unfold protectRight
  split_ifs with hright hmem
  · exact passes_unchanged hall _
  · exact (hrest (countUp n) mem.tail).split hlo hstop le_rfl hright le_rfl
  · exact (hrest n mem).cons hlo hne le_rfl

theorem protectLoop_passes (hlt : start < stop) : ∀ (es : List Entry) {lo : ℕ} (n : ℕ)
    (mem : List Bool) (found : Bool), Row hi lo es →
      Passes hi lo n es (protectLoop start stop prot es n mem found)
  | [], _, n, _, _, h => passes_unchanged h _
  | e :: es, lo, n, mem, found, h => by
    have ⟨hlo, hne, hrow⟩ := h
    have hrest := fun found n mem => protectLoop_passes hlt es n mem found hrow
    rw [protectLoop]
    split_ifs with hout hleft hmem
    · exact (hrest found n mem).cons hlo hne le_rfl
    · exact passes_unchanged h _
    · -- the part before the range is split off, and the loop goes on with the other one
      have hright : Passes hi start (countUp n) ({ e with start := start } :: es)
          (protectRight stop prot { e with start := start } es (countUp n) mem.tail
            fun n mem => protectLoop start stop prot es n mem true) :=
        protectRight_passes le_rfl (by show start < e.stop; omega) hlt hrow (hrest true)
      refine hright.put ⟨hlo, hleft, le_rfl⟩ ?_ fun _ => countUp_lt n
      simp only [List.length_cons, List.length_nil, countUp]
      omega
    · exact protectRight_passes hlo hne (by omega) hrow (hrest true)

theorem Passes.counted (hp : Passes hi lo n es p) (h : Row hi lo es) (hfit : hi < 2 ^ 32)
    (hn : n = es.length) : p.count = p.entries.length := by
  have hlen := hp.row.length_le
  have hlen' := h.length_le
  have hcount := hp.count
  have hlt := hp.count_lt (by omega)
  omega

theorem WellFormed.pass (h : WellFormed m) (hfit : m.base + m.size < 2 ^ 32)
    (hp : Passes (m.base + m.size) m.base m.numEntries m.entries p) :
    WellFormed { m with entries := p.entries, numEntries := p.count } :=
  ⟨hp.row.pairwise, hp.row.mem, hp.counted h.row hfit h.count⟩

/-- A loop through all the entries keeps the invariant, also if the map reaches beyond the 32 bits
that the ends of its entries have. -/
theorem WellFormed.loop (h : WellFormed m) (hword : ∀ e ∈ m.entries, e.stop < 2 ^ 32)
    (hp : ∀ {hi lo}, Row hi lo m.entries → Passes hi lo m.numEntries m.entries p) :
    WellFormed { m with entries := p.entries, numEntries := p.count } := by
  have hrow : Row (2 ^ 32 - 1) 0 m.entries := by
    refine row_of_pairwise (Nat.zero_le _) h.sorted fun e he => ?_
    have hin := h.inside e he
    have hlt := hword e he
    omega
  exact ⟨(hp h.row).row.pairwise, (hp h.row).row.mem,
    (hp hrow).counted hrow (by decide) h.count⟩

/-! ### Entering -/

/-- **What the search finds**: if the last rounding did not wrap, the address lies behind all that
was passed, and if the end does not wrap either, the new entry overlaps none of the entries. -/
theorem firstFit_free {size align : ℕ} : ∀ (es : List Entry) {lo : ℕ} (cur x : ℕ),
    Row hi lo es → (x ≤ cur → lo ≤ cur) →
      origin size align es cur x ≤ firstFit size align es cur →
        lo ≤ firstFit size align es cur ∧
          (firstFit size align es cur + size < 2 ^ 32 →
            ∀ e ∈ es, e.stop ≤ firstFit size align es cur ∨
              firstFit size align es cur + size ≤ e.start)
  | [], lo, cur, x, _, hx, ho => ⟨hx ho, fun _ e he => absurd he List.not_mem_nil⟩
  | e :: es, lo, cur, x, h, hx, ho => by
    have ⟨hlo, hne, hrow⟩ := h
    rw [origin] at ho
    rw [firstFit] at ho ⊢
    by_cases hbreak : (cur + size) % 2 ^ 32 ≤ e.start
    · rw [if_pos hbreak] at ho ⊢
      rw [if_pos hbreak] at ho
      refine ⟨hx ho, fun hend a ha => Or.inr ?_⟩
      rw [Nat.mod_eq_of_lt hend] at hbreak
      rcases List.mem_cons.mp ha with rfl | ha
      · exact hbreak
      · have := (hrow.mem a ha).1
        omega
    · rw [if_neg hbreak] at ho ⊢
      rw [if_neg hbreak] at ho
      -- the entry is behind the address that is tried next, by the rounding or already before
      have hnext : e.stop ≤ firstFit size align es (if cur < e.stop then alignUp e.stop align else cur) ∧
          (firstFit size align es (if cur < e.stop then alignUp e.stop align else cur) + size < 2 ^ 32 →
            ∀ a ∈ es, a.stop ≤ firstFit size align es
                (if cur < e.stop then alignUp e.stop align else cur) ∨
              firstFit size align es (if cur < e.stop then alignUp e.stop align else cur) + size ≤
                a.start) := by
        by_cases hmove : cur < e.stop
        · rw [if_pos hmove] at ho ⊢
          rw [if_pos hmove] at ho
          exact firstFit_free es _ e.stop hrow id ho
        · rw [if_neg hmove] at ho ⊢
          rw [if_neg hmove] at ho
          exact firstFit_free es cur x hrow (fun _ => not_lt.mp hmove) ho
      generalize firstFit size align es _ = c at hnext ⊢
      refine ⟨by omega, fun hend a ha => ?_⟩
      rcases List.mem_cons.mp ha with rfl | ha
      · exact Or.inl hnext.1
      · exact hnext.2 hend a ha

theorem place_free (h : WellFormed m) (hfit : m.base + m.size < 2 ^ 32) {req size align chosen : ℕ}
    {anywhere : Bool} (hplace : place m req size align anywhere = .ok chosen)
    (hs : Sound m size align anywhere chosen) :
    m.base ≤ chosen ∧ chosen + size ≤ m.base + m.size ∧
      ∀ e ∈ m.entries, e.stop ≤ chosen ∨ chosen + size ≤ e.start := by
  have hlimit : m.limit = m.base + m.size := Nat.mod_eq_of_lt hfit
  obtain ⟨hend, horigin⟩ := hs
  unfold place at hplace
  rw [hlimit] at hplace
  cases anywhere with
  | true =>
    dsimp only at hplace
    rw [if_pos rfl] at hplace
    split_ifs at hplace with hspace
    obtain rfl := Except.ok.inj hplace
    rw [Nat.mod_eq_of_lt hend] at hspace
    obtain ⟨hbase, hfree⟩ :=
      firstFit_free m.entries (alignUp m.base align) m.base h.row id (horigin rfl)
    exact ⟨hbase, by omega, hfree hend⟩
  | false =>
    dsimp only at hplace
    rw [if_neg Bool.false_ne_true] at hplace
    split_ifs at hplace with hout hover
    obtain rfl := Except.ok.inj hplace
    rw [Nat.mod_eq_of_lt hend] at hout hover
    refine ⟨by omega, by omega, fun e he => ?_⟩
    by_contra hcon
    exact hover (List.any_eq_true.mpr ⟨e, he, decide_eq_true (by omega)⟩)

theorem WellFormed.insert (h : WellFormed m) (hfit : m.base + m.size < 2 ^ 32)
    (hlo : m.base ≤ e.start) (hne : e.start < e.stop) (hhi : e.stop ≤ m.base + m.size)
    (hfree : ∀ a ∈ m.entries, a.stop ≤ e.start ∨ e.stop ≤ a.start) :
    WellFormed (insertEntry m e) := by
  have hrow : Row (m.base + m.size) m.base (insertEntry m e).entries :=
    h.row.insert hlo hne hhi hfree
  refine ⟨hrow.pairwise, hrow.mem, ?_⟩
  have hlen := hrow.length_le
  have hcount := h.count
  show (m.numEntries + 1) % 2 ^ 32 = (m.entries.orderedInsert _ e).length
  have hlen' : (m.entries.orderedInsert (fun a b => a.start ≤ b.start) e).length =
      m.entries.length + 1 := List.orderedInsert_length _ _ _
  dsimp only [insertEntry] at hlen
  omega

theorem WellFormed.enter (h : WellFormed m) (hfit : m.base + m.size < 2 ^ 32)
    {addr size mask flags prot inherit : ℕ} {got : Bool}
    (hok : Unwrapped m (.enter addr size mask flags prot inherit got)) :
    WellFormed (vmMapEnter m addr size mask flags prot inherit got).1 := by
  unfold vmMapEnter
  by_cases hzero : size = 0
  · rw [if_pos hzero]
    exact h
  rw [if_neg hzero]
  dsimp only
  by_cases hsize : alignUp size pageSize = 0
  · rw [if_pos hsize]
    exact h
  rw [if_neg hsize]
  cases hplace : place m addr (alignUp size pageSize) (enterAlign mask) (wantsAnywhere addr flags) with
  | error r => exact h
  | ok chosen =>
    cases got with
    | false => exact h
    | true =>
      have hs := hok rfl chosen hplace
      obtain ⟨hbase, hend, hfree⟩ := place_free h hfit hplace hs
      dsimp only
      rw [if_neg (by simp), Nat.mod_eq_of_lt hs.1]
      exact h.insert hfit hbase (by show chosen < chosen + _; omega) hend hfree

/-! ### Runs -/

theorem step_bounds (m : VmMap) (op : Op) :
    (step m op).base = m.base ∧ (step m op).size = m.size := by
  cases op with
  | enter addr size mask flags prot inherit got =>
    show (vmMapEnter m addr size mask flags prot inherit got).1.base = m.base ∧
      (vmMapEnter m addr size mask flags prot inherit got).1.size = m.size
    unfold vmMapEnter
    split_ifs
    · exact ⟨rfl, rfl⟩
    all_goals
      dsimp only
      split_ifs
      · exact ⟨rfl, rfl⟩
      · split <;> exact ⟨rfl, rfl⟩
  | remove start stop mem =>
    show (vmMapRemove m start stop mem).1.base = m.base ∧ (vmMapRemove m start stop mem).1.size = m.size
    unfold vmMapRemove
    split_ifs <;> exact ⟨rfl, rfl⟩
  | protect start stop prot mem =>
    show (vmMapProtect m start stop prot mem).1.base = m.base ∧
      (vmMapProtect m start stop prot mem).1.size = m.size
    unfold vmMapProtect
    split_ifs <;> exact ⟨rfl, rfl⟩

theorem WellFormed.step (h : WellFormed m) (hfit : m.base + m.size < 2 ^ 32) {op : Op}
    (hok : Unwrapped m op) : WellFormed (step m op) := by
  cases op with
  | enter addr size mask flags prot inherit got => exact h.enter hfit hok
  | remove start stop mem =>
    show WellFormed (vmMapRemove m start stop mem).1
    unfold vmMapRemove
    split_ifs with hlt hout
    · exact h
    · exact h
    · exact h.pass hfit (removeLoop_passes (not_le.mp hlt) m.entries m.numEntries mem h.row)
  | protect start stop prot mem =>
    show WellFormed (vmMapProtect m start stop prot mem).1
    unfold vmMapProtect
    split_ifs with hlt
    · exact h
    · exact h.pass hfit
        (protectLoop_passes (not_le.mp hlt) m.entries m.numEntries mem false h.row)

/-- **The layout of a map.** For every map made by `vm_map_init` that ends below `2 ^ 32`, in every
run of `vm_map_enter`, `vm_map_remove` and `vm_map_protect` with any arguments and any failures of
`kmalloc`, in which no `vm_map_enter` succeeds with an address that has wrapped. -/
theorem vm_map_wellFormed {base size : ℕ} (hfit : base + size ≤ 2 ^ 32 - 1) {m₀ : VmMap}
    (hinit : vmMapInit base size = some m₀) {m : VmMap} (h : Reach Unwrapped step m₀ m) :
    WellFormed m := by
  unfold vmMapInit at hinit
  split_ifs at hinit with hsize
  obtain rfl := Option.some.inj hinit
  have hall : WellFormed m ∧ m.base = base ∧ m.size = size := by
    refine h.inv (I := fun m => WellFormed m ∧ m.base = base ∧ m.size = size) ?_ ?_
    · exact ⟨⟨.nil, fun e he => absurd he List.not_mem_nil, rfl⟩, rfl, rfl⟩
    · rintro m op ⟨hm, hb, hs⟩ hok
      obtain ⟨hb', hs'⟩ := step_bounds m op
      exact ⟨hm.step (by omega) hok, hb'.trans hb, hs'.trans hs⟩
  exact hall.1

/-- Entries are made anywhere, at a fixed address and at a multiple of 64 KiB, one is cut in two by
a removal, and memory runs out once for an entry and once between the two splits of a change of
protection. -/
def mixedCalls : List Op :=
  [.enter 0 0x2500 0 1 3 1 true, .enter 0x8000 0x1000 0 0 1 1 true,
    .enter 0 0x3000 0xffff 1 7 0 true, .enter 0 0x1000 0 1 7 0 false, .remove 0x2000 0x3000 [],
    .protect 0x11000 0x12000 5 [true, false], .protect 0x1000 0x1800 1 []]

theorem vm_map_wellFormed_mixed :
    WellFormed (mixedCalls.foldl step ⟨[], 0, 0x100000, 0x1000⟩) ∧
      (mixedCalls.foldl step ⟨[], 0, 0x100000, 0x1000⟩).entries.map Entry.start =
        [0x1000, 0x1800, 0x3000, 0x8000, 0x10000, 0x11000] :=
  ⟨vm_map_wellFormed (by decide : 0x1000 + 0x100000 ≤ 2 ^ 32 - 1) rfl
    (Reach.foldl mixedCalls .init (by decide +kernel)), by decide +kernel⟩

/-- **Addresses that wrap.** At the end of the address space an entry gets the end 0, and a search
that rounds the base up to a multiple of 2 GiB puts an entry at 0, below the map. -/
theorem enter_wraps :
    (step ⟨[], 0, 0xffffe000, 0x1000⟩ (.enter 0xfffff000 0x1000 0 0 3 1 true)).entries =
        [⟨0xfffff000, 0, 3, 1⟩] ∧
      (step ⟨[], 0, 0x10000000, 0x80001000⟩ (.enter 0 0x1000 0x7fffffff 1 3 1 true)).entries =
        [⟨0, 0x1000, 3, 1⟩] ∧
      ¬ WellFormed (step ⟨[], 0, 0xffffe000, 0x1000⟩ (.enter 0xfffff000 0x1000 0 0 3 1 true)) ∧
      ¬ WellFormed (step ⟨[], 0, 0x10000000, 0x80001000⟩ (.enter 0 0x1000 0x7fffffff 1 3 1 true)) := by
  decide +kernel

end Kerneloid.XnuMemory.VmLayout
