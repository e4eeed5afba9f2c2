import Kerneloid.Lib.Linked
import Kerneloid.Lib.Runs
import Kerneloid.XnuMemory.Types

/-! # Zones

`zinit`, `zalloc` and `zfree` of `xnu_memory.c` for one zone. Each memory block a zone gets from
`kmalloc` is a number of fresh slots for elements; the slots are numbered in the order in which they
come, and `backed` is their number. A free element holds the link to the next one in its first word,
`link`; an element in use holds there whatever its owner writes. The counters have 32 bits. Whether
an allocation of memory succeeds is an argument.

`zalloc` bounds the growth of a zone by `cur_elements + free_count`, which can only err on the safe
side as long as this sum of 32 bits does not wrap (`wanted_fits`). When it does, after `2 ^ 32 - 1`
frees, the zone grows beyond `max_elements` (`zone_overfilled`). -/

namespace Kerneloid.XnuMemory.Zones

open Lib.Linked Lib.Runs Types

/-- `memory_zone_t`, without its name and its place in the list of all zones, with the slots it has
and their first words. -/
structure Zone where
  freeList : Option ℕ
  elemSize : ℕ
  maxElements : ℕ
  curElements : ℕ
  allocCount : ℕ
  freeCount : ℕ
  backed : ℕ
  link : ℕ → Option ℕ

/-! ### The functions -/

/-- One round of the loops that link elements into the free list. -/
def pushSlot (z : Zone) (e : ℕ) : Zone :=
  { z with link := Function.update z.link e z.freeList, freeList := some e }

/-- Memory for `n` more elements, all linked into the free list. -/
def addSlots (z : Zone) (n : ℕ) : Zone :=
  { (List.range' z.backed n).foldl pushSlot z with backed := z.backed + n }

def zoneExpand (z : Zone) (n : ℕ) (got : Bool) : Zone × KernReturn :=
  if n = 0 then (z, .invalidArgument)
  else if got = false then (z, .resourceShortage)
  else (addSlots z (if z.maxElements < n then z.maxElements else n), .success)

/-- `zinit`; the two flags say whether there was memory for the zone and for its first elements. -/
def zinit (size max alloc : ℕ) (gotZone gotMemory : Bool) : Option Zone :=
  if size = 0 ∨ max = 0 then none
  else if gotZone = false then none
  else
    let initial := if alloc < max then alloc else max
    let initial := if initial = 0 then 1 else initial
    if gotMemory = false then none
    else some (addSlots ⟨none, if size < 4 then 4 else size, max, 0, 0, 0, 0, fun _ => none⟩ initial)

/-- The number of elements `zalloc` asks for when the free list is empty. -/
def wanted (z : Zone) : ℕ :=
  let used := (z.curElements + z.freeCount) % 2 ^ 32
  let remaining := if used < z.maxElements then z.maxElements - used else 0
  if remaining < 4 then remaining else 4

/-- The first part of `zalloc`: an empty free list is filled up, if that is possible. -/
def refill (z : Zone) (got : Bool) : Zone :=
  if z.freeList = none ∧ 0 < wanted z then (zoneExpand z (wanted z) got).1 else z

/-- The second part of `zalloc`: element `e` is taken off the free list, counted and cleared. -/
def popSlot (z : Zone) (e : ℕ) : Zone :=
  { z with
    freeList := z.link e
    curElements := (z.curElements + 1) % 2 ^ 32
    allocCount := (z.allocCount + 1) % 2 ^ 32
    link := Function.update z.link e none }

def zalloc (z : Zone) (got : Bool) : Zone × Option ℕ :=
  let z := refill z got
  match z.freeList with
  | none => (z, none)
  | some e => (popSlot z e, some e)

def zfree (z : Zone) (e : ℕ) : Zone :=
  if z.curElements = 0 then z
  else
    { pushSlot z e with
      curElements := z.curElements - 1
      freeCount := (z.freeCount + 1) % 2 ^ 32 }

/-! ### The system -/

/-- The zone, and the elements that `zalloc` returned and that are not yet freed. -/
structure Tracked where
  zone : Zone
  inUse : List ℕ

/-- A call, or a write of the owner into the first word of an element. -/
inductive Op
  | alloc (got : Bool)
  | free (e : ℕ)
  | write (e : ℕ) (v : Option ℕ)
  deriving DecidableEq

/-- A call, with the elements kept that are in use. -/
def track (t : Tracked) : Op → Tracked
  | .alloc got => ⟨(zalloc t.zone got).1, (zalloc t.zone got).2.toList ++ t.inUse⟩
  | .free e => ⟨zfree t.zone e, t.inUse.erase e⟩
  | .write e v => ⟨{ t.zone with link := Function.update t.zone.link e v }, t.inUse⟩

/-- The use that is allowed: elements are freed and written only while they are in use. -/
def Lent (t : Tracked) : Op → Prop
  | .alloc _ => True
  | .free e => e ∈ t.inUse
  | .write e _ => e ∈ t.inUse

/-- The growth of the zone is within its bound. -/
def Fits (z : Zone) (got : Bool) : Prop :=
  z.freeList = none → got = true → z.curElements + wanted z ≤ z.maxElements

/-- **The runs in which the bound is kept**: the use is allowed, and a `zalloc` that gets memory
asks for no more elements than are left. -/
def Proper (t : Tracked) (op : Op) : Prop :=
  Lent t op ∧ ∀ got, op = .alloc got → Fits t.zone got

instance (t : Tracked) : ∀ op, Decidable (Lent t op)
  | .alloc _ => isTrue trivial
  | .free e => inferInstanceAs (Decidable (e ∈ t.inUse))
  | .write e _ => inferInstanceAs (Decidable (e ∈ t.inUse))

instance (z : Zone) (got : Bool) : Decidable (Fits z got) :=
  inferInstanceAs (Decidable (_ → _ → _ ≤ _))

instance (t : Tracked) (op : Op) : Decidable (Proper t op) :=
  inferInstanceAs (Decidable (_ ∧ ∀ _, _))

variable {z : Zone} {t : Tracked} {l u : List ℕ} {e : ℕ}

theorem wanted_fits (hcur : z.curElements ≤ z.maxElements)
    (hsum : z.curElements + z.freeCount < 2 ^ 32) (got : Bool) : Fits z got := by
  intro _ _
  unfold wanted
  rw [Nat.mod_eq_of_lt hsum]
  dsimp only
  split_ifs <;> omega

/-! ### The slots -/

/-- **The slots of a zone**: `l` are the free ones in the order of the list, `u` those in use. -/
structure Slots (z : Zone) (l u : List ℕ) : Prop where
  list : Path z.link z.freeList l
  nodup : (l ++ u).Nodup
  backed : ∀ e ∈ l ++ u, e < z.backed

theorem foldl_push_rest : ∀ (es : List ℕ) (z : Zone), ∃ link freeList,
    es.foldl pushSlot z = { z with link := link, freeList := freeList }
  | [], z => ⟨z.link, z.freeList, rfl⟩
  | e :: es, z => foldl_push_rest es (pushSlot z e)

theorem addSlots_rest (z : Zone) (n : ℕ) : ∃ link freeList,
    addSlots z n = { z with link := link, freeList := freeList, backed := z.backed + n } := by
  obtain ⟨link, freeList, hrest⟩ := foldl_push_rest (List.range' z.backed n) z
  refine ⟨link, freeList, ?_⟩
  unfold addSlots
  rw [hrest]

theorem Slots.add (h : Slots z l u) (n : ℕ) :
    Slots (addSlots z n) ((List.range' z.backed n).reverse ++ l) u := by
  have hnew : ∀ e ∈ (List.range' z.backed n).reverse, z.backed ≤ e ∧ e < z.backed + n := by
    intro e he
    rw [List.mem_reverse, List.mem_range'_1] at he
    exact he
  have hnodup : ((List.range' z.backed n).reverse ++ (l ++ u)).Nodup := by
    refine List.nodup_append.mpr ⟨List.nodup_reverse.mpr List.nodup_range', h.nodup, ?_⟩
    rintro a ha _ hb rfl
    have := (hnew a ha).1
    have := h.backed a hb
    omega
  rw [← List.append_assoc] at hnodup
  refine ⟨?_, hnodup, fun e he => ?_⟩
  · exact Path.foldl_push Zone.link Zone.freeList (fun _ _ _ hp hx => hp.push hx) _ l z h.list
      (List.nodup_append.mp hnodup).1
  · rw [List.append_assoc] at he
    show e < z.backed + n
    rcases List.mem_append.mp he with he | he
    · exact (hnew e he).2
    · have := h.backed e he
      omega

theorem Slots.pop (h : Slots z (e :: l) u) : Slots (popSlot z e) l (e :: u) := by
  have he : e ∉ l := fun hm =>
    (List.nodup_cons.mp (List.nodup_append.mp h.nodup).1).1 hm
  refine ⟨?_, ?_, fun x hx => h.backed x ?_⟩
  · refine h.list.tail.congr fun x hx => ?_
    have hne : x ≠ e := fun heq => he (heq ▸ hx)
    exact Function.update_of_ne hne _ _
  · exact (List.perm_middle.nodup_iff).mpr h.nodup
  · exact List.perm_middle.subset hx

theorem Slots.push (h : Slots z l u) (he : e ∈ u) : Slots (pushSlot z e) (e :: l) (u.erase e) := by
  have hperm : (e :: l ++ u.erase e).Perm (l ++ u) :=
    List.perm_middle.symm.trans ((List.perm_cons_erase he).symm.append_left l)
  have hout : e ∉ l := fun hm => (List.nodup_append.mp h.nodup).2.2 e hm e he rfl
  exact ⟨h.list.push hout, hperm.nodup_iff.mpr h.nodup, fun x hx => h.backed x (hperm.subset hx)⟩

theorem Slots.write (h : Slots z l u) (he : e ∈ u) (v : Option ℕ) :
    Slots { z with link := Function.update z.link e v } l u := by
  refine ⟨h.list.congr fun x hx => ?_, h.nodup, h.backed⟩
  have hne : x ≠ e := fun heq => (List.nodup_append.mp h.nodup).2.2 x hx e he heq
  exact Function.update_of_ne hne _ _

theorem refill_cases (z : Zone) (got : Bool) :
    refill z got = z ∨
      ∃ n ≤ wanted z, z.freeList = none ∧ got = true ∧ refill z got = addSlots z n := by
  unfold refill zoneExpand
  by_cases hfill : z.freeList = none ∧ 0 < wanted z
  · rw [if_pos hfill, if_neg (by omega)]
    cases got with
    | false => exact Or.inl rfl
    | true =>
      refine Or.inr ⟨if z.maxElements < wanted z then z.maxElements else wanted z, ?_, hfill.1, rfl,
        rfl⟩
      split_ifs <;> omega
  · rw [if_neg hfill]
    exact Or.inl rfl

theorem Slots.empty (h : Slots z l u) (hz : z.freeList = none) : l = [] := by
  have hhead := h.list.head
  rw [hz] at hhead
  exact List.head?_eq_none_iff.mp hhead.symm

theorem Slots.refill (h : Slots z l u) (got : Bool) : ∃ l', Slots (refill z got) l' u := by
  rcases refill_cases z got with heq | ⟨n, -, -, -, heq⟩
  · rw [heq]
    exact ⟨l, h⟩
  · rw [heq]
    exact ⟨_, h.add n⟩

theorem Slots.zalloc_fresh (h : Slots z l u) {got : Bool} (he : (zalloc z got).2 = some e) :
    e ∉ u := by
  obtain ⟨l', h'⟩ := h.refill got
  have hhead := h'.list.head
  unfold zalloc at he
  dsimp only at he
  rw [hhead] at he
  cases l' with
  | nil => cases he
  | cons x l' =>
    obtain rfl : x = e := by simpa using he
    exact fun hu => (List.nodup_append.mp h'.nodup).2.2 x List.mem_cons_self x hu rfl

/-! ### The counters -/

/-- **The invariant.** -/
structure Accounted (t : Tracked) (l : List ℕ) : Prop where
  slots : Slots t.zone l t.inUse
  cur : t.zone.curElements = t.inUse.length
  balance : t.zone.allocCount = (t.zone.freeCount + t.zone.curElements) % 2 ^ 32
  free_lt : t.zone.freeCount < 2 ^ 32
  total : l.length + t.inUse.length ≤ t.zone.maxElements
  max_lt : t.zone.maxElements < 2 ^ 32

theorem Accounted.add (h : Accounted ⟨z, u⟩ l) {n : ℕ}
    (hroom : n + l.length + u.length ≤ z.maxElements) :
    Accounted ⟨addSlots z n, u⟩ ((List.range' z.backed n).reverse ++ l) := by
  have hslots := h.slots.add n
  obtain ⟨link, freeList, hrest⟩ := addSlots_rest z n
  rw [hrest] at hslots ⊢
  refine ⟨hslots, h.cur, h.balance, h.free_lt, ?_, h.max_lt⟩
  dsimp only
  rw [List.length_append, List.length_reverse, List.length_range']
  exact hroom

theorem Accounted.refill (h : Accounted ⟨z, u⟩ l) {got : Bool} (hfits : Fits z got) :
    ∃ l', Accounted ⟨refill z got, u⟩ l' := by
  rcases refill_cases z got with heq | ⟨n, hn, hempty, hgot, heq⟩
  · rw [heq]
    exact ⟨l, h⟩
  · have hl := h.slots.empty hempty
    have hbound := hfits hempty hgot
    have hcur := h.cur
    dsimp only at hcur
    rw [heq]
    refine ⟨_, h.add ?_⟩
    rw [hl, List.length_nil]
    omega

theorem Accounted.zalloc (h : Accounted t l) {got : Bool} (hfits : Fits t.zone got) :
    ∃ l', Accounted (track t (.alloc got)) l' := by
  obtain ⟨l', h'⟩ := h.refill hfits
  have hhead := h'.slots.list.head
  rw [track]
  unfold Zones.zalloc
  dsimp only at hhead ⊢
  rw [hhead]
  cases l' with
  | nil => exact ⟨[], h'⟩
  | cons e l' =>
    have htotal := h'.total
    have hmax := h'.max_lt
    have hcur := h'.cur
    have hbalance := h'.balance
    dsimp only at htotal hmax hcur hbalance
    rw [List.length_cons] at htotal
    refine ⟨l', h'.slots.pop, ?_, ?_, h'.free_lt, ?_, hmax⟩
    · show ((Zones.refill t.zone got).curElements + 1) % 2 ^ 32 = t.inUse.length + 1
      omega
    · show ((Zones.refill t.zone got).allocCount + 1) % 2 ^ 32 = ((Zones.refill t.zone got).freeCount +
        ((Zones.refill t.zone got).curElements + 1) % 2 ^ 32) % 2 ^ 32
      omega
    · show l'.length + (t.inUse.length + 1) ≤ (Zones.refill t.zone got).maxElements
      omega

theorem Accounted.zfree (h : Accounted t l) {e : ℕ} (he : e ∈ t.inUse) :
    ∃ l', Accounted (track t (.free e)) l' := by
  have hcur := h.cur
  have hpos := List.length_pos_of_mem he
  have hlen := List.length_erase_of_mem he
  have hbalance := h.balance
  have hfree := h.free_lt
  have htotal := h.total
  rw [track]
  unfold Zones.zfree
  rw [if_neg (by omega)]
  refine ⟨e :: l, ⟨(h.slots.push he).list, (h.slots.push he).nodup, (h.slots.push he).backed⟩,
    ?_, ?_, Nat.mod_lt _ (by decide), ?_, h.max_lt⟩
  · show t.zone.curElements - 1 = (t.inUse.erase e).length
    omega
  · show t.zone.allocCount = ((t.zone.freeCount + 1) % 2 ^ 32 + (t.zone.curElements - 1)) % 2 ^ 32
    omega
  · show (e :: l).length + (t.inUse.erase e).length ≤ t.zone.maxElements
    rw [List.length_cons]
    omega

theorem Accounted.step (h : Accounted t l) {op : Op} (hop : Proper t op) :
    ∃ l', Accounted (track t op) l' := by
  cases op with
  | alloc got => exact h.zalloc (hop.2 got rfl)
  | free e => exact h.zfree hop.1
  | write e v =>
    exact ⟨l, h.slots.write hop.1 v, h.cur, h.balance, h.free_lt, h.total, h.max_lt⟩

/-! ### Runs -/

/-- The free elements, from the end of the free list, if it has one. -/
def freeSlots (z : Zone) : Option (List ℕ) := fold z.link (fun l e => e :: l) z.backed z.freeList []

/-- **The accounting of a zone**: `cur_elements` is the number of elements in use and the difference
of the other two counters, the free elements are distinct and not in use, no element in use is
returned, and there are never more elements than allowed. -/
structure Accounting (t : Tracked) : Prop where
  inUse_nodup : t.inUse.Nodup
  cur : t.zone.curElements = t.inUse.length
  counts : t.zone.curElements = (t.zone.allocCount + 2 ^ 32 - t.zone.freeCount) % 2 ^ 32
  free : ∃ l, freeSlots t.zone = some l ∧ l.Nodup ∧ (∀ e ∈ l, e ∉ t.inUse) ∧
    t.inUse.length + l.length ≤ t.zone.maxElements
  zalloc : ∀ got e, (Zones.zalloc t.zone got).2 = some e → e ∉ t.inUse

theorem Accounted.accounting (h : Accounted t l) : Accounting t := by
  obtain ⟨hl, hu, hlu⟩ := List.nodup_append.mp h.slots.nodup
  have hle : l.length ≤ t.zone.backed := by
    have hsub : l ⊆ List.range t.zone.backed := fun e he =>
      List.mem_range.mpr (h.slots.backed e (List.mem_append_left _ he))
    simpa using (hl.subperm hsub).length_le
  have hcur := h.cur
  have hbalance := h.balance
  have hfree := h.free_lt
  have htotal := h.total
  have hmax := h.max_lt
  refine ⟨hu, hcur, by omega, ⟨l.reverse, ?_, List.nodup_reverse.mpr hl, fun e he hin => ?_, ?_⟩,
    fun got e he => h.slots.zalloc_fresh he⟩
  · unfold freeSlots
    rw [h.slots.list.fold _ [] hle, List.foldl_flip_cons_eq_append', List.append_nil]
  · exact hlu e (List.mem_reverse.mp he) e hin rfl
  · rw [List.length_reverse]
    omega

theorem zinit_eq {size max alloc : ℕ} {gotZone gotMemory : Bool}
    (h : zinit size max alloc gotZone gotMemory = some z) :
    max ≠ 0 ∧ z = addSlots ⟨none, if size < 4 then 4 else size, max, 0, 0, 0, 0, fun _ => none⟩
      (if (if alloc < max then alloc else max) = 0 then 1 else if alloc < max then alloc else max) := by
  unfold zinit at h
  by_cases hargs : size = 0 ∨ max = 0
  · rw [if_pos hargs] at h
    cases h
  rw [if_neg hargs] at h
  cases gotZone with
  | false => cases h
  | true =>
    cases gotMemory with
    | false => cases h
    | true =>
      dsimp only at h
      rw [if_neg (by simp), if_neg (by simp)] at h
      exact ⟨fun hmax => hargs (Or.inr hmax), (Option.some.inj h).symm⟩

theorem zinit_accounted {size max alloc : ℕ} {gotZone gotMemory : Bool} (hmax : max < 2 ^ 32)
    (h : zinit size max alloc gotZone gotMemory = some z) : ∃ l, Accounted ⟨z, []⟩ l := by
  obtain ⟨hpos, rfl⟩ := zinit_eq h
  have hempty : Accounted
      ⟨⟨none, if size < 4 then 4 else size, max, 0, 0, 0, 0, fun _ => none⟩, []⟩ [] :=
    ⟨⟨.nil, List.nodup_nil, fun e he => absurd he List.not_mem_nil⟩, rfl, rfl,
      Nat.two_pow_pos 32, Nat.zero_le _, hmax⟩
  refine ⟨_, hempty.add ?_⟩
  dsimp only [List.length_nil]
  split_ifs <;> omega

/-- **Zone accounting.** For every zone that `zinit` makes, in every run in which elements are freed
and written only while they are in use, and in which no growth of the zone exceeds what is left. -/
theorem zone_accounting {size max alloc : ℕ} {gotZone gotMemory : Bool} (hmax : max < 2 ^ 32)
    {z : Zone} (hinit : zinit size max alloc gotZone gotMemory = some z) {t : Tracked}
    (h : Reach Proper track ⟨z, []⟩ t) : Accounting t := by
  obtain ⟨l, hl⟩ := h.inv (I := fun t => ∃ l, Accounted t l) (zinit_accounted hmax hinit)
    fun t op ⟨_, ht⟩ hop => ht.step hop
  exact hl.accounting

/-- A zone for two elements that starts with one. -/
def pair : Zone := (zinit 16 2 0 true true).get (by decide +kernel)

/-- Both elements are taken, one is written and freed, and taken again; a third one is refused. -/
def pairRun : List Op :=
  [.alloc true, .alloc true, .write 0 (some 7), .free 0, .alloc true, .alloc true]

theorem zone_accounting_pair :
    Accounting (pairRun.foldl track ⟨pair, []⟩) ∧
      (pairRun.foldl track ⟨pair, []⟩).inUse = [0, 1] ∧
      (pairRun.foldl track ⟨pair, []⟩).zone.freeCount = 1 :=
  ⟨zone_accounting (by decide : 2 < 2 ^ 32) (Option.some_get (by decide +kernel)).symm
    (Reach.foldl pairRun .init (by decide +kernel)), by decide +kernel, by decide +kernel⟩

/-! ### A sum that wraps -/

/-- A zone for one element, which was taken and freed `k` times. -/
def single (k : ℕ) : Tracked := ⟨⟨some 0, 4, 1, 0, k % 2 ^ 32, k % 2 ^ 32, 1, fun _ => none⟩, []⟩

theorem single_init : zinit 4 1 1 true true = some (single 0).zone := by
  simp [zinit, addSlots, pushSlot, single]

theorem single_cycle (k : ℕ) :
    track (track (single k) (.alloc true)) (.free 0) = single (k + 1) := by
  simp [track, zalloc, refill, popSlot, zfree, pushSlot, single]

theorem single_reach : ∀ k, Reach Lent track (single 0) (single k)
  | 0 => .init
  | k + 1 => by
    have htaken : Reach Lent track (single 0) (track (single k) (.alloc true)) :=
      .next _ (single_reach k) trivial
    have huse : (track (single k) (.alloc true)).inUse = [0] := rfl
    rw [← single_cycle k]
    exact .next _ htaken (by show 0 ∈ _; rw [huse]; exact List.mem_singleton_self 0)

/-- **A zone grows beyond its bound**: it was made for one element, and after `2 ^ 32 - 1` frees two
are in use. -/
theorem zone_overfilled :
    zinit 4 1 1 true true = some (single 0).zone ∧
      ∃ t, Reach Lent track ⟨(single 0).zone, []⟩ t ∧ t.zone.maxElements = 1 ∧
        t.inUse.length = 2 := by
  refine ⟨single_init, track (track (single (2 ^ 32 - 1)) (.alloc true)) (.alloc true), ?_, ?_, ?_⟩
  · exact .next _ (.next _ (single_reach (2 ^ 32 - 1)) trivial) trivial
  · decide +kernel
  · decide +kernel

end Kerneloid.XnuMemory.Zones
