import Kerneloid.Lib.Runs
import Kerneloid.XnuMemory.Segments

/-! # The heap is tiled

`kmalloc` cuts a block of the list from `heap_head` and `kfree` gives one back, so the blocks tile
the heap in every state of every run. `kfree` frees only blocks of the list, whatever the pointer
and whatever is in the memory before it. `kmalloc` is first fit (`kmalloc_first`). -/

namespace Kerneloid.XnuMemory.Tiling

open Lib.Bytes Lib.Runs Lib.Tiling Heap Segments

variable {bs' l r : List Block} {b : Block} {n p sz : ℕ} {s' : Statics}

variable {m : Mem} {stop h : ℕ} {bs : List Block}

/-! ### The blocks of the heap -/

/-- The heap is set up, and its blocks are `bs`. -/
structure Lays (k : Placement) (s : Statics) (bs : List Block) : Prop where
  initialized : s.initialized = true
  head : s.head = k.base
  seg : Seg s.mem k.stop k.base bs
  tiles : Tiles headerSize kernelHeapSize kheapAlign bs

variable {k : Placement} {s : Statics}

theorem stop_lt (k : Placement) : k.stop < 2 ^ 32 := k.fits

theorem Lays.reaches (hl : Lays k s bs) : k.base + span headerSize bs = k.stop := by
  rw [hl.tiles.span]
  rfl

theorem Lays.link (hl : Lays k s bs) : s.head = linkTo k.stop k.base := by
  unfold linkTo Placement.stop kernelHeapSize
  rw [if_neg (by omega), hl.head]

theorem length_lt (h : span headerSize bs = kernelHeapSize) : bs.length < maxSteps := by
  have hlen : headerSize * bs.length ≤ span headerSize bs := length_le bs
  rw [h] at hlen
  unfold maxSteps headerSize kernelHeapSize at *
  omega

theorem dvd_alignUp (v : ℕ) : kheapAlign ∣ alignUp v kheapAlign := by
  rw [show kheapAlign = 2 ^ 3 from rfl, alignUp_pow (by decide)]
  exact Nat.dvd_mul_left _ _

theorem heapInit_of_initialized (hi : s.initialized = true) : heapInit k s = s := if_pos hi

theorem heapInit_initialized (k : Placement) (s : Statics) : (heapInit k s).initialized = true := by
  unfold heapInit
  split_ifs with hi
  · exact hi
  · rfl

theorem heapInit_lays (hi : s.initialized = false) :
    Lays k (heapInit k s) [⟨kernelHeapSize - headerSize, true⟩] := by
  have hfits := k.fits
  unfold heapInit
  rw [hi]
  have hend : k.base + headerSize + (kernelHeapSize - headerSize) = k.stop := by
    unfold Placement.stop headerSize kernelHeapSize
    omega
  refine ⟨rfl, rfl, ⟨newHeader (by decide) ?_ (by decide), trivial⟩, ?_, ?_, ?_⟩
  · exact (if_pos hend).symm
  · rw [span_cons, span_nil]
    decide
  · intro b hb
    rw [List.mem_singleton.mp hb]
    decide
  · exact List.isChain_singleton _

def Kept (k : Placement) (s : Statics) : Prop :=
  (s.initialized = false ∧ s.head = 0) ∨ ∃ bs, Lays k s bs

theorem Kept.ready (h : Kept k s) : ∃ bs, Lays k (heapInit k s) bs := by
  rcases h with ⟨hi, -⟩ | ⟨bs, hl⟩
  · exact ⟨_, heapInit_lays hi⟩
  · refine ⟨bs, ?_⟩
    rw [heapInit_of_initialized hl.initialized]
    exact hl

theorem Lays.congr {m' : Mem} (hl : Lays k s bs)
    (hm : ∀ x, k.base ≤ x → x < k.stop → ¬ InUse headerSize k.base bs x → m' x = s.mem x) :
    Lays k { s with mem := m' } bs := by
  refine ⟨hl.initialized, hl.head, hl.seg.keep ?_, hl.tiles⟩
  rw [hl.reaches]
  exact hm

theorem Lays.header (hl : Lays k s (l ++ b :: r)) :
    Header s.mem k.stop (k.base + span headerSize l) b := (seg_append.mp hl.seg).2.1

theorem Lays.bound (hl : Lays k s (l ++ b :: r)) :
    k.base + span headerSize l + headerSize + b.size ≤ k.stop := by
  have := hl.reaches
  rw [span_append, span_cons] at this
  omega

theorem Lays.payload (hl : Lays k s bs) (hp : (p, sz) ∈ used headerSize k.base bs) :
    k.base + headerSize ≤ p ∧ p + sz ≤ k.stop := by
  have hbound := used_bounds hp
  rw [hl.reaches] at hbound
  exact hbound

theorem not_inUse {x : ℕ} (hp : (p, sz) ∈ used headerSize k.base bs)
    (hx : ¬ InUse headerSize k.base bs x) : x < p ∨ p + sz ≤ x := by
  by_contra hin
  exact hx ⟨_, hp, by dsimp only; omega, by dsimp only; omega⟩

theorem Lays.onList (hl : Lays k s bs) (cand : ℕ) :
    onList s.mem cand maxSteps s.head = some (decide (cand ∈ addrs headerSize k.base bs)) := by
  rw [hl.link]
  exact onList_eq cand hl.seg k.pos hl.reaches (length_lt hl.tiles.span)

/-- The blocks from `cur` on: their addresses, sizes and flags. -/
def blocksFrom (m : Mem) : ℕ → ℕ → Option (List (ℕ × ℕ × Bool))
  | 0, _ => none
  | fuel + 1, cur =>
    if cur = 0 then some []
    else (blocksFrom m fuel (next m cur)).map ((cur, size m cur, free m cur) :: ·)

def blockList (s : Statics) : Option (List (ℕ × ℕ × Bool)) := blocksFrom s.mem maxSteps s.head

theorem blocksFrom_eq (hs : Seg m stop h bs) (hpos : 0 < h)
    (hstop : h + span headerSize bs = stop) {fuel : ℕ} (hfuel : bs.length < fuel) :
    blocksFrom m fuel (linkTo stop h) = some (listed headerSize h bs) := by
  induction bs generalizing h fuel with
  | nil =>
    obtain ⟨fuel, rfl⟩ := Nat.exists_eq_succ_of_ne_zero (Nat.ne_of_gt hfuel)
    rw [linkTo_nil hstop]
    rfl
  | cons b bs ih =>
    obtain ⟨fuel, rfl⟩ := Nat.exists_eq_succ_of_ne_zero (Nat.ne_of_gt (Nat.zero_lt_of_lt hfuel))
    obtain ⟨hlink, hne⟩ := linkTo_cons hpos hstop
    have hrest := ih hs.2 (by omega) (stop_cons hstop) (Nat.lt_of_succ_lt_succ hfuel)
    rw [hlink, blocksFrom, if_neg hne, hs.1.next, hrest, hs.1.size, hs.1.free]
    rfl

theorem Lays.blockList (hl : Lays k s bs) : blockList s = some (listed headerSize k.base bs) := by
  unfold Tiling.blockList
  rw [hl.link]
  exact blocksFrom_eq hl.seg k.pos hl.reaches (length_lt hl.tiles.span)

theorem Lays.unique (hl : Lays k s bs) (hl' : Lays k s bs') : bs = bs' :=
  listed_inj (Option.some.inj (hl.blockList.symm.trans hl'.blockList))

/-! ### A block is taken -/

theorem kmalloc_heapInit (hn : n ≠ 0) : kmalloc k s n = kmalloc k (heapInit k s) n := by
  unfold kmalloc
  rw [if_neg hn, if_neg hn, heapInit_of_initialized (heapInit_initialized k s)]

/-- **`kmalloc` cuts a free block**, or there is none that is large enough. What is in use stays as
it is. -/
theorem kmalloc_lays (hl : Lays k s bs) (n : ℕ) :
    kmalloc k s n = some (s, 0) ∨
      ∃ l b r s', bs = l ++ b :: r ∧ b.free = true ∧ alignUp n kheapAlign ≤ b.size ∧
        kmalloc k s n = some (s', k.base + span headerSize l + headerSize) ∧
        Lays k s' (l ++ (carve headerSize kheapMinSplit (alignUp n kheapAlign) b ++ r)) ∧
        ∀ x, InUse headerSize k.base bs x → s'.mem x = s.mem x := by
  unfold kmalloc
  rw [heapInit_of_initialized hl.initialized]
  by_cases hn : n = 0
  · exact Or.inl (if_pos hn)
  rw [if_neg hn]
  dsimp only
  have hfit := firstFit_cases (alignUp n kheapAlign) hl.seg k.pos hl.reaches
    (length_lt hl.tiles.span)
  rw [← hl.link] at hfit
  rcases hfit with e | ⟨l, b, r, rfl, ⟨hfree, hle⟩, e⟩
  · rw [e]
    exact Or.inl rfl
  · have hstop := stop_lt k
    have hend := hl.bound
    have hpos := k.pos
    obtain ⟨hseg, hout⟩ := takeBlock_spec hl.header hle hend hstop
    rw [e]
    refine Or.inr ⟨l, b, r,
      { s with mem := takeBlock s.mem (k.base + span headerSize l) (alignUp n kheapAlign) },
      rfl, hfree, hle, ?_, ⟨hl.initialized, hl.head, hl.seg.replace hseg (span_carve hle) hout,
        hl.tiles.carve hfree hle (dvd_alignUp n) (by decide)⟩, ?_⟩
    · refine (if_neg (by omega)).trans ?_
      rw [Nat.mod_eq_of_lt (by omega)]
      rfl
    · rintro x ⟨p, hp, h₁, h₂⟩
      have hgap := used_gap hfree hp
      exact hout x (by omega)

/-- From the blocks `bs` a payload of `n` bytes at `p` comes into use, and nothing else that is in
use is touched. -/
structure Taken (k : Placement) (s s' : Statics) (bs bs' : List Block) (p n : ℕ) : Prop where
  lays : Lays k s' bs'
  payloads : ∃ l r sz, n ≤ sz ∧ used headerSize k.base bs = l ++ r ∧
    used headerSize k.base bs' = l ++ (p, sz) :: r
  frame : ∀ x, InUse headerSize k.base bs x → s'.mem x = s.mem x
  ends : Ends kheapMinSplit bs → Ends kheapMinSplit bs'

theorem Taken.keep {q : ℕ × ℕ} (ht : Taken k s s' bs bs' p n) (hq : q ∈ used headerSize k.base bs) :
    q ∈ used headerSize k.base bs' := by
  obtain ⟨l, r, sz, -, hbefore, hafter⟩ := ht.payloads
  rw [hbefore] at hq
  rw [hafter]
  exact List.perm_middle.symm.subset (List.mem_cons_of_mem _ hq)

theorem Taken.mem (ht : Taken k s s' bs bs' p n) :
    ∃ sz, n ≤ sz ∧ (p, sz) ∈ used headerSize k.base bs' := by
  obtain ⟨l, r, sz, hsz, -, hafter⟩ := ht.payloads
  refine ⟨sz, hsz, ?_⟩
  rw [hafter]
  simp

theorem Taken.fresh (ht : Taken k s s' bs bs' p n) : (p, sz) ∉ used headerSize k.base bs := by
  obtain ⟨l, r, sz', -, hbefore, hafter⟩ := ht.payloads
  have hnodup : ((used headerSize k.base bs').map Prod.fst).Nodup := used_nodup (by decide)
  rw [hafter, List.map_append, List.map_cons] at hnodup
  have hnot := (List.nodup_middle.mp hnodup).notMem
  rw [← List.map_append, ← hbefore] at hnot
  intro hmem
  have hmap : p ∈ (used headerSize k.base bs).map Prod.fst := List.mem_map_of_mem hmem
  exact hnot hmap

theorem Taken.mono {n' : ℕ} (ht : Taken k s s' bs bs' p n)
    (hn : n' ≤ n) : Taken k s s' bs bs' p n' := by
  obtain ⟨l, r, sz, hsz, hused⟩ := ht.payloads
  exact ⟨ht.lays, ⟨l, r, sz, hn.trans hsz, hused⟩, ht.frame, ht.ends⟩

theorem Taken.write {m' : Mem} (ht : Taken k s s' bs bs' p n)
    (hm : ∀ x, x < p ∨ p + n ≤ x → m' x = s'.mem x) :
    Taken k s { s' with mem := m' } bs bs' p n := by
  obtain ⟨sz, hsz, hmem⟩ := ht.mem
  refine ⟨ht.lays.congr ?_, ht.payloads, ?_, ht.ends⟩
  · intro x _ _ hx
    have hout := not_inUse hmem hx
    exact hm x (by omega)
  · rintro x ⟨q, hq, hlo, hhi⟩
    refine (hm x (by_contra fun hin => ?_)).trans (ht.frame x ⟨q, hq, hlo, hhi⟩)
    obtain rfl := used_unique (ht.keep hq) hmem ⟨hlo, hhi⟩ (by dsimp only; omega)
    exact ht.fresh hq

theorem kmalloc_taken (hl : Lays k s bs) (n : ℕ) :
    kmalloc k s n = some (s, 0) ∨
      ∃ s' bs' p, kmalloc k s n = some (s', p) ∧ p ≠ 0 ∧
        Taken k s s' bs bs' p (alignUp n kheapAlign) := by
  rcases kmalloc_lays hl n with e | ⟨l, b, r, s', rfl, hfree, hle, e, hl', hframe⟩
  · exact Or.inl e
  · refine Or.inr ⟨s', _, _, e, ?_, hl', used_carve hfree hle, hframe, Ends.carve⟩
    have := k.pos
    omega

theorem kmalloc_kept (h : Kept k s) (n : ℕ) : ∃ r, kmalloc k s n = some r ∧ Kept k r.1 := by
  by_cases hn : n = 0
  · refine ⟨(s, 0), ?_, h⟩
    unfold kmalloc
    exact if_pos hn
  · obtain ⟨bs, hl⟩ := h.ready
    rw [kmalloc_heapInit hn]
    rcases kmalloc_lays hl n with e | ⟨l, b, r, s', -, -, -, e, hl', -⟩
    · exact ⟨_, e, Or.inr ⟨bs, hl⟩⟩
    · exact ⟨_, e, Or.inr ⟨_, hl'⟩⟩

/-! ### A block is given back -/

/-- The payload of a block begins at `p`, which is an address in the heap. -/
def IsPayload (k : Placement) (s : Statics) (p : ℕ) : Prop :=
  k.base + headerSize ≤ p ∧ p < k.stop ∧
    onList s.mem (p - headerSize) maxSteps s.head = some true

instance IsPayload.decidable (k : Placement) (s : Statics) (p : ℕ) : Decidable (IsPayload k s p) :=
  inferInstanceAs (Decidable (_ ∧ _ ∧ _))

theorem Lays.isPayload (hl : Lays k s bs) :
    IsPayload k s p ↔ k.base + headerSize ≤ p ∧ p < k.stop ∧
      p - headerSize ∈ addrs headerSize k.base bs := by
  unfold IsPayload
  rw [hl.onList, Option.some.injEq, decide_eq_true_eq]

theorem blockOf_eq (hl : Lays k s bs) (p : ℕ) :
    blockOf k s p = some (if IsPayload k s p then some (p - headerSize) else none) := by
  unfold blockOf
  dsimp only
  rw [hl.onList]
  by_cases hp : IsPayload k s p
  · rw [if_pos hp]
    obtain ⟨h₁, h₂, hmem⟩ := hl.isPayload.mp hp
    have hcanary : canary s.mem (p - headerSize) = kheapCanary := by
      obtain ⟨l, b, r, rfl, e⟩ := mem_addrs.mp hmem
      rw [e]
      exact hl.header.canary
    rw [if_pos ⟨h₁, h₂, by omega, by omega, hcanary⟩, decide_eq_true hmem]
    rfl
  · rw [if_neg hp]
    split_ifs with hin
    · have hmem : p - headerSize ∉ addrs headerSize k.base bs := fun hmem =>
        hp (hl.isPayload.mpr ⟨hin.1, hin.2.1, hmem⟩)
      rw [decide_eq_false hmem]
      rfl
    · rfl

/-- **A block is released**, and its free neighbours are joined to it. What is in use stays as it
is. -/
theorem releaseBlock_lays (hl : Lays k s (l ++ b :: r)) :
    ∃ s', releaseBlock s (k.base + span headerSize l) = some s' ∧
      Lays k s' (join headerSize (l ++ ⟨b.size, true⟩ :: r)) ∧
      ∀ x, InUse headerSize k.base (l ++ ⟨b.size, true⟩ :: r) x → s'.mem x = s.mem x := by
  have hmarked : Seg (setFree s.mem (k.base + span headerSize l) 1) k.stop k.base
      (l ++ ([⟨b.size, true⟩] ++ r)) := by
    refine hl.seg.replace ⟨hl.header.setFree 1, trivial⟩ rfl ?_
    intro x hx
    exact setFree_outside (by omega)
  have hspan : span headerSize (l ++ ([⟨b.size, true⟩] ++ r)) = kernelHeapSize := by
    rw [← hl.tiles.span]
    simp only [span_append, span_cons, span_nil]
    omega
  have hmark : ∀ x, InUse headerSize k.base (l ++ ([⟨b.size, true⟩] ++ r)) x →
      setFree s.mem (k.base + span headerSize l) 1 x = s.mem x := by
    rintro x ⟨p, hp, h₁, h₂⟩
    have hgap := used_gap (b := ⟨b.size, true⟩) rfl hp
    exact setFree_outside (by omega)
  have hjoined := hl.tiles.release (by decide)
  rw [show l ++ ⟨b.size, true⟩ :: r = l ++ ([⟨b.size, true⟩] ++ r) from rfl] at hjoined ⊢
  obtain ⟨c, cs, e⟩ : ∃ c cs, l ++ ([⟨b.size, true⟩] ++ r) = c :: cs := by
    cases l with
    | nil => exact ⟨_, _, rfl⟩
    | cons c l => exact ⟨c, _, rfl⟩
  rw [e] at hmarked hspan hjoined hmark ⊢
  have hlen := length_lt hspan
  rw [List.length_cons] at hlen
  obtain ⟨m', hm', hs', hout⟩ := heapCoalesce_spec hmarked k.pos (by rw [hspan]; rfl) (stop_lt k)
    (Nat.lt_of_succ_lt hlen)
  refine ⟨{ s with mem := m' }, ?_, ⟨hl.initialized, hl.head, hs', hjoined⟩, ?_⟩
  · unfold releaseBlock
    rw [hl.head, hm']
    rfl
  · intro x hx
    exact (hout x (Or.inr (Or.inr hx))).trans (hmark x hx)

/-- Of the blocks `bs` the payload at `p` is given back, and nothing else that is in use is
touched. -/
structure Released (k : Placement) (s s' : Statics) (bs bs' : List Block) (p : ℕ) : Prop where
  lays : Lays k s' bs'
  payloads : ∃ l r sz, used headerSize k.base bs = l ++ (p, sz) :: r ∧
    used headerSize k.base bs' = l ++ r
  frame : ∀ x, InUse headerSize k.base bs' x → s'.mem x = s.mem x
  ends : Ends kheapMinSplit bs → Ends kheapMinSplit bs'

theorem releaseBlock_released (hl : Lays k s bs) (hp : (p, sz) ∈ used headerSize k.base bs) :
    ∃ s' bs', releaseBlock s (p - headerSize) = some s' ∧ Released k s s' bs bs' p := by
  obtain ⟨l, r, rfl, hpos⟩ := mem_used hp
  dsimp only at hpos hl
  obtain ⟨s', e, hl', hframe⟩ := releaseBlock_lays hl
  have hhdr : p - headerSize = k.base + span headerSize l := by omega
  refine ⟨s', _, hhdr ▸ e, hl', ?_, ?_, ?_⟩
  · obtain ⟨L, R, hbefore, hafter⟩ := used_release (b := ⟨sz, false⟩) rfl
    exact ⟨L, R, sz, hpos ▸ hbefore, hafter⟩
  · intro x hx
    unfold InUse at hx
    rw [used_join] at hx
    exact hframe x hx
  · intro hends
    rw [ends_append] at hends
    refine Ends.join (ends_append.mpr ?_)
    exact (ends_congr (b := ⟨sz, false⟩) (c := ⟨sz, true⟩) rfl).mp hends

/-- The block that `kfree` of `p` would release, if it is in use: the one whose payload begins at
`p` or, where there is none, at the address that stands before `p`. -/
def target (k : Placement) (s : Statics) (p : ℕ) : Option ℕ :=
  if IsPayload k s p then some (p - headerSize)
  else if k.base ≤ p ∧ p < k.stop ∧ 4 ≤ p ∧ IsPayload k s (rd32 s.mem (p - 4)) then
    some (rd32 s.mem (p - 4) - headerSize)
  else none

theorem target_mem (hl : Lays k s bs) (ht : h ∈ target k s p) : h ∈ addrs headerSize k.base bs := by
  unfold target at ht
  split_ifs at ht with hp hw
  · obtain rfl := Option.some.inj ht
    exact (hl.isPayload.mp hp).2.2
  · obtain rfl := Option.some.inj ht
    exact (hl.isPayload.mp hw.2.2.2).2.2
  · cases ht

/-- **`kfree` releases its target**, if this is in use, and does nothing else. -/
theorem kfree_eq (hl : Lays k s bs) (p : ℕ) :
    kfree k s p =
      match target k s p with
      | some h => if free s.mem h = true then some s else releaseBlock s h
      | none => some s := by
  have hinit : ¬ s.initialized = false := by
    rw [hl.initialized]
    decide
  unfold kfree
  by_cases hp0 : p = 0
  · have hnone : target k s p = none := by
      have hbase := k.pos
      have hpay : ¬ IsPayload k s p := fun e => absurd e.1 (by omega)
      unfold target
      rw [if_neg hpay, if_neg (by omega)]
    rw [if_pos hp0, hnone]
  rw [if_neg hp0, if_neg hinit, blockOf_eq hl p, blockOf_eq hl]
  unfold target
  by_cases hp : IsPayload k s p
  · rw [if_pos hp, if_pos hp]
    have hcanary : canary s.mem (p - headerSize) = kheapCanary := by
      obtain ⟨l, b, r, rfl, e⟩ := mem_addrs.mp (hl.isPayload.mp hp).2.2
      rw [e]
      exact hl.header.canary
    show (if free s.mem (p - headerSize) = true then some s
      else if canary s.mem (p - headerSize) ≠ kheapCanary then some s
      else releaseBlock s (p - headerSize)) = _
    rw [hcanary, if_neg (fun e : kheapCanary ≠ kheapCanary => e rfl)]
  · rw [if_neg hp, if_neg hp]
    by_cases hin : k.base ≤ p ∧ p < k.stop ∧ 4 ≤ p
    · refine (if_pos hin).trans ?_
      by_cases hw : IsPayload k s (rd32 s.mem (p - 4))
      · rw [if_pos hw, if_pos ⟨hin.1, hin.2.1, hin.2.2, hw⟩]
        rfl
      · rw [if_neg hw, if_neg fun e => hw e.2.2.2]
        rfl
    · refine (if_neg hin).trans ?_
      rw [if_neg fun e => hin ⟨e.1, e.2.1, e.2.2.1⟩]
      rfl

theorem kfree_lays (hl : Lays k s bs) (p : ℕ) :
    kfree k s p = some s ∨
      ∃ l b r, bs = l ++ b :: r ∧ b.free = false ∧
        target k s p = some (k.base + span headerSize l) ∧
        kfree k s p = releaseBlock s (k.base + span headerSize l) := by
  rw [kfree_eq hl]
  cases ht : target k s p with
  | none => exact Or.inl rfl
  | some h =>
    obtain ⟨l, b, r, rfl, rfl⟩ := mem_addrs.mp (target_mem hl ht)
    dsimp only
    rw [hl.header.free]
    by_cases hb : b.free = true
    · exact Or.inl (if_pos hb)
    · exact Or.inr ⟨l, b, r, rfl, Bool.eq_false_of_not_eq_true hb, rfl, if_neg hb⟩

theorem kfree_early (hi : s.initialized = false) (p : ℕ) : kfree k s p = some s := by
  unfold kfree
  rw [if_pos hi]
  exact ite_self _

theorem kfree_kept (h : Kept k s) (p : ℕ) : ∃ s', kfree k s p = some s' ∧ Kept k s' := by
  rcases h with ⟨hi, hhead⟩ | ⟨bs, hl⟩
  · exact ⟨s, kfree_early hi p, Or.inl ⟨hi, hhead⟩⟩
  · rcases kfree_lays hl p with e | ⟨l, b, r, rfl, -, -, e⟩
    · exact ⟨s, e, Or.inr ⟨bs, hl⟩⟩
    · obtain ⟨s', hs', hl', -⟩ := releaseBlock_lays hl
      exact ⟨s', e.trans hs', Or.inr ⟨_, hl'⟩⟩

/-! ### A byte is written -/

theorem Lays.inUse (hl : Lays k s bs) {hdr x : ℕ}
    (hon : Heap.onList s.mem hdr maxSteps s.head = some true) (hused : free s.mem hdr = false)
    (hlo : hdr + headerSize ≤ x) (hhi : x < hdr + headerSize + size s.mem hdr) :
    InUse headerSize k.base bs x := by
  rw [hl.onList, Option.some.injEq, decide_eq_true_eq] at hon
  obtain ⟨l, b, r, rfl, rfl⟩ := mem_addrs.mp hon
  rw [hl.header.free] at hused
  rw [hl.header.size] at hhi
  refine ⟨(k.base + span headerSize l + headerSize, b.size), ?_, hlo, hhi⟩
  rw [used_append, used_cons hused]
  simp

theorem Lays.write (hl : Lays k s bs) {a : ℕ} (hok : Owned k s a) (v : UInt8) :
    Lays k { s with mem := Function.update s.mem a v } bs := by
  refine hl.congr ?_
  intro x hlo hhi hx
  refine Function.update_of_ne ?_ _ _
  rintro rfl
  rcases hok with hlow | hhigh | ⟨-, hdr, hon, hused, hin⟩
  · omega
  · omega
  · exact hx (hl.inUse hon hused hin.1 hin.2)

theorem write_kept (h : Kept k s) {a : ℕ} (hok : Owned k s a) (v : UInt8) :
    Kept k { s with mem := Function.update s.mem a v } := by
  rcases h with ⟨hi, hhead⟩ | ⟨bs, hl⟩
  · exact Or.inl ⟨hi, hhead⟩
  · exact Or.inr ⟨bs, hl.write hok v⟩

/-! ### Runs -/

/-- Two blocks one after the other: the link of the first leads to the second, which lies where the
first ends, and not both are free. -/
def Adjacent (m : Mem) (h h' : ℕ) : Prop :=
  next m h = h' ∧ h' = h + headerSize + size m h ∧ h < h' ∧ ¬ (free m h = true ∧ free m h' = true)

/-- **The list from `heap_head` tiles the heap**: its headers are `hs`, in this order. -/
structure Tiled (k : Placement) (s : Statics) (hs : List ℕ) : Prop where
  head : hs.head? = some s.head
  first : s.head = k.base
  chain : hs.IsChain (Adjacent s.mem)
  last : ∀ h ∈ hs.getLast?, next s.mem h = 0 ∧
    h + headerSize + size s.mem h = k.base + kernelHeapSize
  canary : ∀ h ∈ hs, canary s.mem h = kheapCanary
  aligned : ∀ h ∈ hs, kheapAlign ∣ size s.mem h

theorem seg_adjacent (hs : Seg m stop h bs) (hpos : 0 < h) (hstop : h + span headerSize bs = stop)
    (hap : bs.IsChain Apart) : (addrs headerSize h bs).IsChain (Adjacent m) := by
  induction bs generalizing h with
  | nil => exact List.isChain_nil
  | cons b bs ih =>
    have hstop' := stop_cons hstop
    cases bs with
    | nil => exact List.isChain_singleton h
    | cons c bs =>
      obtain ⟨hbc, hrest⟩ := List.isChain_cons_cons.mp hap
      obtain ⟨hlink, -⟩ := linkTo_cons (by omega) hstop'
      refine List.isChain_cons_cons.mpr ⟨⟨?_, ?_, ?_, ?_⟩, ih hs.2 (by omega) hstop' hrest⟩
      · rw [hs.1.next, hlink]
      · rw [hs.1.size]
      · unfold headerSize
        omega
      · rw [hs.1.free, hs.2.1.free]
        exact hbc

theorem Lays.tiled (hl : Lays k s bs) : Tiled k s (addrs headerSize k.base bs) := by
  have hreach := hl.reaches
  have hblock : ∀ h ∈ addrs headerSize k.base bs, ∃ b ∈ bs, Header s.mem k.stop h b := by
    intro h hh
    obtain ⟨l, b, r, rfl, rfl⟩ := mem_addrs.mp hh
    exact ⟨b, by simp, (seg_append.mp hl.seg).2.1⟩
  have hne : bs ≠ [] := by
    rintro rfl
    cases hl.tiles.span
  refine ⟨?_, hl.head, seg_adjacent hl.seg k.pos hreach hl.tiles.apart, ?_, ?_, ?_⟩
  · rw [hl.head]
    cases bs with
    | nil => exact absurd rfl hne
    | cons b bs => rfl
  · intro h hh
    obtain ⟨l, b, rfl⟩ : ∃ l b, bs = l ++ [b] :=
      ⟨bs.dropLast, bs.getLast hne, (List.dropLast_append_getLast hne).symm⟩
    have hb := (seg_append.mp hl.seg).2.1
    rw [span_append, span_cons, span_nil] at hreach
    have hend : k.base + span headerSize l + headerSize + b.size = k.stop := by omega
    rw [addrs_append, addrs, addrs, List.getLast?_concat] at hh
    obtain rfl := Option.some.inj hh
    rw [hb.next, hb.size, hend]
    exact ⟨if_pos rfl, rfl⟩
  · intro h hh
    obtain ⟨b, -, hb⟩ := hblock h hh
    exact hb.canary
  · intro h hh
    obtain ⟨b, hmem, hb⟩ := hblock h hh
    rw [hb.size]
    exact hl.tiles.aligned b hmem

theorem step_kept (h : Kept k s) {op : Op} (hok : Disciplined k s op) :
    ∃ s', step k s op = some s' ∧ Kept k s' := by
  cases op with
  | malloc n =>
    obtain ⟨r, hr, hk⟩ := kmalloc_kept h n.toNat
    refine ⟨r.1, ?_, hk⟩
    show (kmalloc k s n.toNat).map Prod.fst = _
    rw [hr]
    rfl
  | free p => exact kfree_kept h p.toNat
  | write a v => exact ⟨_, rfl, write_kept h hok v⟩

/-- **The heap is tiled.** In every state of every run of `kmalloc` and `kfree`, with any sizes and
any pointers, and whatever clients write where they may: once the heap is set up, the list from
`heap_head` tiles it. Before, the list is empty. -/
theorem heap_tiled (k : Placement) (m₀ : Mem) {st : Option Statics}
    (h : Reach (Lifted (Disciplined k)) (lift (step k)) (some (start m₀)) st) :
    ∃ s, st = some s ∧ (s.initialized = true → ∃ hs, Tiled k s hs) ∧
      (s.initialized = false → s.head = 0) := by
  have hkept : ∃ s, st = some s ∧ Kept k s :=
    h.returns (I := Kept k) ⟨_, rfl, Or.inl ⟨rfl, rfl⟩⟩ fun _ _ hs hok => step_kept hs hok
  obtain ⟨s, rfl, hk⟩ := hkept
  refine ⟨s, rfl, ?_, ?_⟩
  · intro hi
    rcases hk with ⟨hi', -⟩ | ⟨bs, hl⟩
    · rw [hi] at hi'
      cases hi'
    · exact ⟨_, hl.tiled⟩
  · intro hi
    rcases hk with ⟨-, hhead⟩ | ⟨bs, hl⟩
    · exact hhead
    · rw [hl.initialized] at hi
      cases hi

def oneMiB : Placement := ⟨0x100000, by decide, by decide⟩

/-- Two blocks are taken, the second one of size 0 because the size wraps round; a byte is written
into the first, a pointer into the first is refused, and both are given back. -/
def heapRun : List Op :=
  [.malloc 100, .malloc 0xffffffff, .write 0x100010 7, .free 0x100020, .free 0x100010, .free 0x100088]

theorem heap_tiled_run :
    ((heapRun.foldl (lift (step oneMiB)) (some (start fun _ => 0))).map fun s =>
        (s.head, size s.mem s.head, next s.mem s.head)) = some (0x100000, 0x3ffff0, 0) ∧
      ∃ s, heapRun.foldl (lift (step oneMiB)) (some (start fun _ => 0)) = some s ∧
        (s.initialized = true → ∃ hs, Tiled oneMiB s hs) ∧ (s.initialized = false → s.head = 0) := by
  refine ⟨by decide +kernel, heap_tiled oneMiB _ (Reach.foldl heapRun .init ?_)⟩
  refine ⟨trivial, trivial, ?_, trivial, trivial, trivial, trivial⟩
  exact Or.inr (Or.inr ⟨by decide +kernel, 0x100000, by decide +kernel⟩)

/-! ### First fit -/

theorem kmalloc_answer (hl : Lays k s bs) (hn : n ≠ 0) :
    (kmalloc k s n).map Prod.snd = some (((listed headerSize k.base bs).find?
      (fits (alignUp n kheapAlign))).elim 0 (·.1 + headerSize)) := by
  have hfit := firstFit_eq (alignUp n kheapAlign) hl.seg k.pos hl.reaches
    (length_lt hl.tiles.span)
  rw [← hl.link] at hfit
  unfold kmalloc
  rw [if_neg hn, heapInit_of_initialized hl.initialized]
  dsimp only
  rw [hfit]
  cases hb : (listed headerSize k.base bs).find? (fits (alignUp n kheapAlign)) with
  | none => rfl
  | some b =>
    obtain ⟨l, c, r, rfl, rfl⟩ := mem_listed (List.mem_of_find?_eq_some hb)
    have hend := hl.bound
    have hpos := k.pos
    have hstop := stop_lt k
    simp only [Option.elim_some, Option.bind_eq_bind, Option.bind_some]
    rw [if_neg (by omega), Nat.mod_eq_of_lt (by omega)]
    rfl

/-- **`kmalloc` is first fit.** In every state of every run it answers the payload of the first block
of the list that is free and large enough, and the null pointer only if there is none. -/
theorem kmalloc_first (k : Placement) (m₀ : Mem) {st : Option Statics}
    (h : Reach (Lifted (Disciplined k)) (lift (step k)) (some (start m₀)) st) {n : ℕ}
    (hn : n ≠ 0) : ∃ s l, st = some s ∧ blockList (heapInit k s) = some l ∧
      (kmalloc k s n).map Prod.snd =
        some ((l.find? (fits (alignUp n kheapAlign))).elim 0 (·.1 + headerSize)) := by
  have hkept : ∃ s, st = some s ∧ Kept k s :=
    h.returns (I := Kept k) ⟨_, rfl, Or.inl ⟨rfl, rfl⟩⟩ fun _ _ hs hok => step_kept hs hok
  obtain ⟨s, rfl, hk⟩ := hkept
  obtain ⟨bs, hl⟩ := hk.ready
  have hans := kmalloc_answer hl hn
  rw [← kmalloc_heapInit hn] at hans
  exact ⟨s, _, rfl, hl.blockList, hans⟩

/-- The first block is free but too small, the second one is in use. -/
def gapRun : List Op := [.malloc 100, .malloc 300, .free 0x100010]

theorem kmalloc_first_gap :
    ∃ s l, gapRun.foldl (lift (step oneMiB)) (some (start fun _ => 0)) = some s ∧
      blockList (heapInit oneMiB s) = some l ∧ (kmalloc oneMiB s 200).map Prod.snd =
        some ((l.find? (fits (alignUp 200 kheapAlign))).elim 0 (·.1 + headerSize)) :=
  kmalloc_first oneMiB (fun _ => 0)
    (Reach.foldl gapRun .init ⟨trivial, trivial, trivial, trivial⟩) (by decide)

end Kerneloid.XnuMemory.Tiling
