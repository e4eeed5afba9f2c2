import Kerneloid.XnuMemory.Recovery

/-! # Aligned memory

`kmalloc_aligned` takes a payload that is larger than what was asked for, answers an aligned address
in it, and leaves the address of the payload in the word before. `kfree` and `kfree_aligned` find the
block through this word.

* For alignments over 8 this works as long as the size that is taken can be rounded up in 32 bits
  (`aligned_placed`), also when `kfree` comes later and whatever the payload holds.
* For smaller alignments the answer is that of `kmalloc`. The word before it is then the link of the
  header, and `kfree_aligned` takes it for the address of a payload (`kfreeAligned_undoes`). -/

namespace Kerneloid.XnuMemory.Aligned

open Lib.Bytes Lib.Runs Lib.Tiling Heap Tiling Requests Payloads SizeSafety Segments
open XnuMemory.Ledger (isPayload_used kfree_inside kfree_payload kfree_word)
open XnuMemory.Recovery (kmalloc_kfree)

/-! ### The system -/

def kfreeAligned (k : Placement) (s : Statics) (p : ℕ) : Option Statics :=
  if p = 0 then some s
  else
    let raw := rd32 s.mem ((p + (2 ^ 32 - 4)) % 2 ^ 32)
    if raw < k.base ∨ k.stop ≤ raw then kfree k s p else kfree k s raw

inductive Op
  | malloc (size : UInt32)
  | zalloc (size : UInt32)
  | aligned (size align : UInt32)
  | free (p : UInt32)
  | freeAligned (p : UInt32)
  | write (a : UInt32) (v : UInt8)
  deriving DecidableEq

def step (k : Placement) (s : Statics) : Op → Option Statics
  | .malloc n => (kmalloc k s n.toNat).map Prod.fst
  | .zalloc n => (kzalloc k s n.toNat).map Prod.fst
  | .aligned n a => (kmallocAligned k s n.toNat a.toNat).map Prod.fst
  | .free p => kfree k s p.toNat
  | .freeAligned p => kfreeAligned k s p.toNat
  | .write a v => some { s with mem := Function.update s.mem a.toNat v }

/-- **The runs**: what `kzalloc` and `kmalloc_aligned` write into the memory they get fits into it,
and clients write only where they may. Anything may be given back. -/
def Sane (k : Placement) (s : Statics) : Op → Prop
  | .zalloc n => Asks n.toNat
  | .aligned n a => Fits (.kmallocAligned n a)
  | .write a _ => Owned k s a.toNat
  | _ => True

def live (s : Statics) : Option (List (ℕ × ℕ)) :=
  (blockList s).map fun bs => (bs.filter fun b => !b.2.2).map fun b => (b.1 + headerSize, b.2.1)

variable {k : Placement} {s s' t : Statics} {bs bs' : List Block} {p q n j align raw sz : ℕ}

theorem live_eq (hl : Lays k s bs) : live s = some (used headerSize k.base bs) := by
  unfold live
  rw [hl.blockList, Option.map_some, listed_used]

/-! ### Memory is taken -/

theorem kzalloc_taken (hl : Lays k s bs) (hn : n < 2 ^ 32) (hask : Asks n) :
    kzalloc k s n = some (s, 0) ∨
      ∃ s' bs' p, kzalloc k s n = some (s', p) ∧ Taken k s s' bs bs' p n := by
  unfold kzalloc
  rcases kmalloc_taken hl n with e | ⟨s', bs', p, e, hne, ht⟩
  · rw [e]
    exact Or.inl rfl
  · have hle : n ≤ alignUp n kheapAlign := by
      rcases hask with hask | hask
      · exact le_alignUp hask
      · rw [Nat.mod_eq_of_lt hn] at hask
        omega
    obtain ⟨sz, hsz, hmem⟩ := ht.mem
    have hbound := ht.lays.payload hmem
    have hstop := stop_lt k
    rw [e]
    refine Or.inr ⟨_, bs', p, if_neg hne, (ht.mono hle).write fun x hx => ?_⟩
    exact libMemset_outside (by omega) hx

/-- From the blocks `bs` a payload at `raw` comes into use, and with it the `n` bytes at the aligned
address `al`. The address of the payload stands before them. -/
structure Shifted (k : Placement) (s s' : Statics) (bs bs' : List Block) (al raw n align : ℕ) :
    Prop where
  taken : Taken k s s' bs bs' raw (n + (align - 1 + 4))
  dvd : align ∣ al
  above : raw + 4 ≤ al
  below : al + n ≤ raw + (n + (align - 1 + 4))
  word : rd32 s'.mem (al - 4) = raw

theorem kmallocAligned_shifted (hl : Lays k s bs) (hround : rounded align = some (2 ^ j))
    (hj : j ≤ 31) (hn : n ≠ 0) (hbig : ¬ 2 ^ j ≤ kheapAlign)
    (hle : n + (2 ^ j - 1 + 4) ≤ 2 ^ 32 - 8) :
    kmallocAligned k s n align = some (s, 0, 0) ∨
      ∃ s₁ s' bs' al raw, kmalloc k s (n + (2 ^ j - 1 + 4)) = some (s₁, raw) ∧ raw ≠ 0 ∧
        Lays k s₁ bs' ∧ kmallocAligned k s n align = some (s', al, raw) ∧
        Shifted k s s' bs bs' al raw n (2 ^ j) := by
  have hmod : (n + (2 ^ j - 1 + 4)) % 2 ^ 32 = n + (2 ^ j - 1 + 4) := Nat.mod_eq_of_lt (by omega)
  rcases kmalloc_taken hl (n + (2 ^ j - 1 + 4)) with e | ⟨s₁, bs', raw, e, hne, ht⟩
  · exact Or.inl (kmallocAligned_null hround hn hbig (hmod.symm ▸ e))
  · have ht' := ht.mono (le_alignUp hle)
    obtain ⟨sz, hsz, hmem⟩ := ht'.mem
    have hbound := ht.lays.payload hmem
    have hstop := stop_lt k
    obtain ⟨al, ha, hdvd, hlo, hhi⟩ :=
      kmallocAligned_eq hround hj hn hbig (hmod.symm ▸ e) hne (by omega)
    refine Or.inr ⟨s₁, _, bs', al, raw, e, hne, ht.lays, ha, ?_, hdvd, hlo, hhi, ?_⟩
    · exact ht'.write fun x hx => wr32_outside _ _ (by omega)
    · exact (rd32_wr32 s₁.mem _ _).trans (Nat.mod_eq_of_lt (by omega))

/-! ### Runs -/

def Whole (k : Placement) (s : Statics) : Prop :=
  (s.initialized = false ∧ s.head = 0) ∨ ∃ bs, Lays k s bs ∧ Ends kheapMinSplit bs

theorem Whole.kept (h : Whole k s) : Kept k s := by
  rcases h with hearly | ⟨bs, hl, -⟩
  · exact Or.inl hearly
  · exact Or.inr ⟨bs, hl⟩

theorem Whole.ready (h : Whole k s) : ∃ bs, Lays k (heapInit k s) bs ∧ Ends kheapMinSplit bs := by
  rcases h with ⟨hi, -⟩ | ⟨bs, hl, hends⟩
  · refine ⟨_, heapInit_lays hi, ?_⟩
    show kheapMinSplit ≤ kernelHeapSize - headerSize
    decide
  · rw [heapInit_of_initialized hl.initialized]
    exact ⟨bs, hl, hends⟩

theorem Whole.taken (hends : Ends kheapMinSplit bs) (ht : Taken k s s' bs bs' p n) : Whole k s' :=
  Or.inr ⟨bs', ht.lays, ht.ends hends⟩

theorem Whole.malloc (h : Whole k s) (n : ℕ) :
    ∃ s' p, kmalloc k s n = some (s', p) ∧ Whole k s' := by
  by_cases hn : n = 0
  · refine ⟨s, 0, ?_, h⟩
    unfold kmalloc
    exact if_pos hn
  · obtain ⟨bs, hl, hends⟩ := h.ready
    rw [kmalloc_heapInit hn]
    rcases kmalloc_taken hl n with e | ⟨s', bs', p, e, -, ht⟩
    · exact ⟨_, 0, e, Or.inr ⟨bs, hl, hends⟩⟩
    · exact ⟨s', p, e, Whole.taken hends ht⟩

theorem kzalloc_heapInit (hn : n ≠ 0) : kzalloc k s n = kzalloc k (heapInit k s) n := by
  unfold kzalloc
  rw [kmalloc_heapInit hn]

theorem Whole.zalloc (h : Whole k s) (hn : n < 2 ^ 32) (hask : Asks n) :
    ∃ s' p, kzalloc k s n = some (s', p) ∧ Whole k s' := by
  by_cases hzero : n = 0
  · refine ⟨s, 0, ?_, h⟩
    rw [hzero]
    rfl
  · obtain ⟨bs, hl, hends⟩ := h.ready
    rw [kzalloc_heapInit hzero]
    rcases kzalloc_taken hl hn hask with e | ⟨s', bs', p, e, ht⟩
    · exact ⟨_, 0, e, Or.inr ⟨bs, hl, hends⟩⟩
    · exact ⟨s', p, e, Whole.taken hends ht⟩

theorem kmallocAligned_heapInit (hn : n ≠ 0) (hround : rounded align = some (2 ^ j))
    (hask : ¬ 2 ^ j ≤ kheapAlign → (n + (2 ^ j - 1 + 4)) % 2 ^ 32 ≠ 0) :
    kmallocAligned k s n align = kmallocAligned k (heapInit k s) n align := by
  unfold kmallocAligned
  rw [if_neg hn, if_neg hn, hround]
  dsimp only [Option.bind_eq_bind, Option.bind_some]
  by_cases hsmall : 2 ^ j ≤ kheapAlign
  · rw [if_pos hsmall, if_pos hsmall, kmalloc_heapInit hn]
  · rw [if_neg hsmall, if_neg hsmall, kmalloc_heapInit (hask hsmall)]

theorem Whole.aligned (h : Whole k s) {size align : UInt32}
    (hfit : Fits (.kmallocAligned size align)) :
    ∃ s' p raw, kmallocAligned k s size.toNat align.toNat = some (s', p, raw) ∧ Whole k s' := by
  rcases hfit with rfl | ⟨ha, hask⟩
  · exact ⟨s, 0, 0, rfl, h⟩
  obtain ⟨j, hj, hround, -⟩ := rounded_pow ha
  have hask' := hask _ hround
  generalize size.toNat = n at hask'
  unfold alignedSize at hask'
  by_cases hn : n = 0
  · exact ⟨s, 0, 0, if_pos hn, h⟩
  by_cases hsmall : 2 ^ j ≤ kheapAlign
  · obtain ⟨s', p, e, hs⟩ := h.malloc n
    exact ⟨s', p, p, kmallocAligned_small hround hn hsmall e, hs⟩
  rw [if_neg hsmall] at hask'
  by_cases hzero : (n + (2 ^ j - 1 + 4)) % 2 ^ 32 = 0
  · -- no memory is given for size 0
    refine ⟨s, 0, 0, kmallocAligned_null hround hn hsmall ?_, h⟩
    rw [hzero]
    rfl
  · obtain ⟨bs, hl, hends⟩ := h.ready
    have hle := hask'.resolve_right hzero
    rw [kmallocAligned_heapInit hn hround fun _ => hzero]
    rcases kmallocAligned_shifted hl hround hj hn hsmall hle with
      e | ⟨_, s', bs', al, raw, -, -, -, e, hsh⟩
    · exact ⟨_, 0, 0, e, Or.inr ⟨bs, hl, hends⟩⟩
    · exact ⟨s', al, raw, e, Whole.taken hends hsh.taken⟩

theorem Whole.free (h : Whole k s) (p : ℕ) : ∃ s', kfree k s p = some s' ∧ Whole k s' := by
  rcases h with ⟨hi, hhead⟩ | ⟨bs, hl, hends⟩
  · exact ⟨s, kfree_early hi p, Or.inl ⟨hi, hhead⟩⟩
  · rcases kfree_lays hl p with e | ⟨l, b, r, rfl, hb, -, e⟩
    · exact ⟨s, e, Or.inr ⟨bs, hl, hends⟩⟩
    · have hmem : (k.base + span headerSize l + headerSize, b.size) ∈
          used headerSize k.base (l ++ b :: r) := by
        rw [used_append, used_cons hb]
        simp
      obtain ⟨s', bs', e', hr⟩ := releaseBlock_released hl hmem
      rw [Nat.add_sub_cancel] at e'
      exact ⟨s', e.trans e', Or.inr ⟨bs', hr.lays, hr.ends hends⟩⟩

theorem Whole.write (h : Whole k s) {a : ℕ} (hok : Owned k s a) (v : UInt8) :
    Whole k { s with mem := Function.update s.mem a v } := by
  rcases h with hearly | ⟨bs, hl, hends⟩
  · exact Or.inl hearly
  · exact Or.inr ⟨bs, hl.write hok v, hends⟩

theorem Whole.step (h : Whole k s) {op : Op} (hok : Sane k s op) :
    ∃ s', step k s op = some s' ∧ Whole k s' := by
  cases op with
  | malloc n =>
    obtain ⟨s', p, e, hs⟩ := h.malloc n.toNat
    exact ⟨s', by rw [Aligned.step, e]; rfl, hs⟩
  | zalloc n =>
    obtain ⟨s', p, e, hs⟩ := h.zalloc n.toNat_lt hok
    exact ⟨s', by rw [Aligned.step, e]; rfl, hs⟩
  | aligned n a =>
    obtain ⟨s', p, raw, e, hs⟩ := h.aligned hok
    exact ⟨s', by rw [Aligned.step, e]; rfl, hs⟩
  | free p => exact h.free p.toNat
  | freeAligned p =>
    show ∃ s', kfreeAligned k s p.toNat = some s' ∧ Whole k s'
    unfold kfreeAligned
    dsimp only
    split_ifs
    · exact ⟨s, rfl, h⟩
    · exact h.free _
    · exact h.free _
  | write a v => exact ⟨_, rfl, h.write hok v⟩

theorem run_whole (h : Whole k s) {st : Option Statics}
    (hst : Reach (Lifted (Sane k)) (lift (Aligned.step k)) (some s) st) :
    ∃ t, st = some t ∧ Whole k t :=
  hst.returns ⟨s, rfl, h⟩ fun _ _ hs hok => hs.step hok

/-! ### Where aligned memory lies -/

/-- **Aligned memory is well placed**: the `size` bytes at `p` and the word before them lie in the
payload of `sz` bytes at `raw`. The payloads in use are now `us`; without this one they are those of
before, and disjoint from the memory. From then on, as long as the payload is in use and the word is
untouched, `kfree` of `p` gives back this payload and no other. -/
structure Placed (k : Placement) (s s' : Statics) (us : List (ℕ × ℕ)) (p raw sz size align : ℕ) :
    Prop where
  aligned : align ∣ p
  after : live s' = some us
  mem : (raw, sz) ∈ us
  before : live (heapInit k s) = some (us.erase (raw, sz))
  inside : raw + 4 ≤ p ∧ p + size ≤ raw + sz
  bound : k.base ≤ raw ∧ raw + sz ≤ k.stop
  apart : ∀ q ∈ us.erase (raw, sz), q.1 + q.2 ≤ p - 4 ∨ p + size ≤ q.1
  freed : ∀ t vs, Reach (Lifted (Sane k)) (lift (step k)) (some s') (some t) → live t = some vs →
    (raw, sz) ∈ vs → rd32 t.mem (p - 4) = raw →
      ∃ t', kfree k t p = some t' ∧ live t' = some (vs.erase (raw, sz))

theorem Taken.erase (ht : Taken k s s' bs bs' p n) (hp : (p, sz) ∈ used headerSize k.base bs') :
    (used headerSize k.base bs').erase (p, sz) = used headerSize k.base bs := by
  obtain ⟨l, r, sz', -, hbefore, hafter⟩ := ht.payloads
  rw [used_erase (by decide) hafter hp, hbefore]

theorem kfree_live (h : Whole k t) {vs : List (ℕ × ℕ)} (hlive : live t = some vs)
    (hmem : (raw, sz) ∈ vs) (hlo : raw + 4 ≤ p) (hhi : p < raw + sz)
    (hword : rd32 t.mem (p - 4) = raw) :
    ∃ t', kfree k t p = some t' ∧ live t' = some (vs.erase (raw, sz)) := by
  rcases h with ⟨-, hhead⟩ | ⟨bs, hl, hends⟩
  · -- without a heap there are no payloads
    have hnone : live t = some [] := by
      unfold live blockList maxSteps
      rw [hhead]
      rfl
    rw [hnone] at hlive
    cases hlive
    cases hmem
  · rw [live_eq hl] at hlive
    cases hlive
    obtain ⟨t', bs', e, hr⟩ := releaseBlock_released hl hmem
    obtain ⟨l, r, sz', hbefore, hafter⟩ := hr.payloads
    refine ⟨t', (kfree_inside hl hends hmem hlo hhi hword).trans e, ?_⟩
    rw [live_eq hr.lays, used_erase (by decide) hbefore hmem, hafter]

theorem Shifted.placed {al : ℕ} (hends : Ends kheapMinSplit bs) (hl : Lays k (heapInit k s) bs)
    (hn : 0 < n) (h : Shifted k (heapInit k s) s' bs bs' al raw n align) :
    ∃ us sz, Placed k s s' us al raw sz n align := by
  obtain ⟨sz, hsz, hmem⟩ := h.taken.mem
  have hbound := h.taken.lays.payload hmem
  have habove := h.above
  have hbelow := h.below
  refine ⟨_, sz, h.dvd, live_eq h.taken.lays, hmem, ?_, ⟨habove, by omega⟩, by omega, ?_, ?_⟩
  · rw [Taken.erase h.taken hmem]
    exact live_eq hl
  · intro q hq
    have hne : q ≠ (raw, sz) := by
      rw [Taken.erase h.taken hmem] at hq
      rintro rfl
      exact h.taken.fresh hq
    have hapart := used_apart (List.mem_of_mem_erase hq) hmem hne
    dsimp only at hapart
    omega
  · intro t vs hreach hlive hin hword
    obtain ⟨_, e, hwhole⟩ := run_whole (Whole.taken hends h.taken) hreach
    cases e
    exact kfree_live hwhole hlive hin habove (by omega) hword

theorem kmallocAligned_returns (h : Kept k s) (hround : rounded align = some (2 ^ j)) (n : ℕ) :
    ∃ s' p raw, kmallocAligned k s n align = some (s', p, raw) := by
  unfold kmallocAligned
  rw [hround]
  dsimp only [Option.bind_eq_bind, Option.bind_some]
  obtain ⟨⟨s₁, p₁⟩, e₁, -⟩ := kmalloc_kept h n
  obtain ⟨⟨s₂, p₂⟩, e₂, -⟩ := kmalloc_kept h ((n + (2 ^ j - 1 + 4)) % 2 ^ 32)
  rw [e₁, e₂]
  dsimp only [Option.bind_some]
  split_ifs
  · exact ⟨_, _, _, rfl⟩
  · exact ⟨_, _, _, rfl⟩
  · exact ⟨_, _, _, rfl⟩
  · exact ⟨_, _, _, rfl⟩

/-- **Aligned allocation.** In every state of every run, for every size and every alignment over 8
for which the size that is taken does not wrap round: aligned memory that is answered is well placed
exactly if `kmalloc` can round that size up. -/
theorem aligned_placed (k : Placement) (m₀ : Mem) {st : Option Statics}
    (h : Reach (Lifted (Sane k)) (lift (step k)) (some (start m₀)) st) :
    ∃ s, st = some s ∧ ∀ size align : UInt32, 0 < size.toNat → 8 < align.toNat →
      align.toNat ≤ 2 ^ 31 → ∀ a ∈ rounded align.toNat, size.toNat + a + 3 < 2 ^ 32 →
        ∃ s' p raw, kmallocAligned k s size.toNat align.toNat = some (s', p, raw) ∧
          (p ≠ 0 → ((∃ us sz, Placed k s s' us p raw sz size.toNat a) ↔
            size.toNat + a + 3 ≤ 2 ^ 32 - 8)) := by
  obtain ⟨s, rfl, hs⟩ := run_whole (Or.inl ⟨rfl, rfl⟩) h
  refine ⟨s, rfl, ?_⟩
  intro size align hsize hlow hhigh a ha hwrap
  obtain ⟨j, hj, hround, hle⟩ := rounded_pow hhigh
  obtain rfl : 2 ^ j = a := Option.some.inj (hround.symm.trans ha)
  generalize size.toNat = n at hsize hwrap
  have hpow : 2 ^ j ≤ 2 ^ 31 := Nat.pow_le_pow_right (by decide) hj
  have hbig : ¬ 2 ^ j ≤ kheapAlign := by
    unfold kheapAlign
    omega
  by_cases hfit : n + 2 ^ j + 3 ≤ 2 ^ 32 - 8
  · obtain ⟨bs, hl, hends⟩ := hs.ready
    have hn : n ≠ 0 := by omega
    have hmod : (n + (2 ^ j - 1 + 4)) % 2 ^ 32 ≠ 0 := by
      rw [Nat.mod_eq_of_lt (by omega)]
      omega
    rw [kmallocAligned_heapInit hn hround fun _ => hmod]
    rcases kmallocAligned_shifted hl hround hj hn hbig (by omega) with
      e | ⟨_, s', bs', al, raw, -, -, -, e, hsh⟩
    · exact ⟨_, 0, 0, e, fun hne => absurd rfl hne⟩
    · exact ⟨s', al, raw, e, fun _ => iff_of_true (hsh.placed hends hl hsize) hfit⟩
  · -- the size is that of more memory than there is
    obtain ⟨s', p, raw, e⟩ := kmallocAligned_returns hs.kept hround n
    refine ⟨s', p, raw, e, fun _ => iff_of_false ?_ hfit⟩
    rintro ⟨us, sz, hplaced⟩
    have hin := hplaced.inside
    have hbound := hplaced.bound
    have hstop : k.stop = k.base + 0x400000 := rfl
    omega

/-- Memory is taken with and without an alignment, and the first block is given back. -/
def alignedRun : List Op := [.malloc 100, .aligned 24 16, .free 0x100010]

theorem alignedRun_sane :
    Reach (Lifted (Sane oneMiB)) (lift (step oneMiB)) (some (start fun _ => 0))
      (alignedRun.foldl (lift (step oneMiB)) (some (start fun _ => 0))) := by
  refine Reach.foldl alignedRun .init (Admits.always alignedRun _ fun op hop s => ?_)
  simp only [alignedRun, List.mem_cons, List.not_mem_nil, or_false] at hop
  rcases hop with rfl | rfl | rfl
  · trivial
  · show Fits (.kmallocAligned 24 16)
    decide +kernel
  · trivial

theorem aligned_placed_run :
    ∃ s, alignedRun.foldl (lift (step oneMiB)) (some (start fun _ => 0)) = some s ∧
      ∃ s' p raw, kmallocAligned oneMiB s 40 48 = some (s', p, raw) ∧
        (p ≠ 0 → ((∃ us sz, Placed oneMiB s s' us p raw sz 40 64) ↔ 40 + 64 + 3 ≤ 2 ^ 32 - 8)) := by
  obtain ⟨s, hs, h⟩ := aligned_placed oneMiB _ alignedRun_sane
  exact ⟨s, hs, h 40 48 (by decide) (by decide) (by decide) 64 (by decide) (by decide)⟩

/-- **A size that is rounded up to 0.** `size + align + 3` is `2 ^ 32 - 1` here; `kmalloc` answers a
block of no bytes, and the memory does not lie in the heap. -/
theorem aligned_misplaced :
    ∃ s' p raw, kmallocAligned oneMiB (start fun _ => 0) 0xffffffec 16 = some (s', p, raw) ∧
      p ≠ 0 ∧ ∀ us sz, ¬ Placed oneMiB (start fun _ => 0) s' us p raw sz 0xffffffec 16 := by
  have hrun : (kmallocAligned oneMiB (start fun _ => 0) 0xffffffec 16).map Prod.snd =
      some (0x100020, 0x100010) := by
    decide +kernel
  obtain ⟨⟨s', p, raw⟩, e, hp⟩ := Option.map_eq_some_iff.mp hrun
  cases hp
  refine ⟨s', _, _, e, by decide, fun us sz hplaced => ?_⟩
  have hin := hplaced.inside
  have hbound := hplaced.bound
  have hstop : oneMiB.stop = 0x500000 := rfl
  omega

/-! ### What `kfree_aligned` gives back -/

theorem kfree_keeps (hl : Lays k t bs) (hmem : (p, sz) ∈ used headerSize k.base bs)
    (ht : target k t q ≠ some (p - headerSize)) :
    ∃ t' bs', kfree k t q = some t' ∧ Lays k t' bs' ∧ (p, sz) ∈ used headerSize k.base bs' := by
  rcases kfree_lays hl q with e | ⟨l, b, r, rfl, hb, htarget, e⟩
  · exact ⟨t, bs, e, hl, hmem⟩
  · have hfound : (k.base + span headerSize l + headerSize, b.size) ∈
        used headerSize k.base (l ++ b :: r) := by
      rw [used_append, used_cons hb]
      simp
    obtain ⟨t', bs', e', hr⟩ := releaseBlock_released hl hfound
    rw [Nat.add_sub_cancel] at e'
    refine ⟨t', bs', e.trans e', hr.lays, ?_⟩
    have hne : p ≠ k.base + span headerSize l + headerSize := by
      rintro rfl
      rw [Nat.add_sub_cancel] at ht
      exact ht htarget
    obtain ⟨L, R, sz', hbefore, hafter⟩ := hr.payloads
    rw [hbefore] at hmem
    rw [hafter]
    rcases List.mem_append.mp hmem with hin | hin
    · exact List.mem_append_left R hin
    · rcases List.mem_cons.mp hin with heq | hin
      · exact absurd (congrArg Prod.fst heq) hne
      · exact List.mem_append_right L hin

theorem link_used (hl : Lays k t bs) (hmem : (p, sz) ∈ used headerSize k.base bs) :
    rd32 t.mem (p - 4) = linkTo k.stop (p + sz) := by
  obtain ⟨l, r, rfl, hp⟩ := mem_used hmem
  dsimp only at hp
  rw [hp]
  exact hl.header.next

/-- **The link of a header, taken for the address of a payload**: the block behind `p` is not one in
use, so that `kfree` looks at the last word of the payload at `p`. -/
theorem target_next (hl : Lays k t bs) (hends : Ends kheapMinSplit bs)
    (hmem : (p, sz) ∈ used headerSize k.base bs) (hlast : p + sz ≠ k.stop)
    (hword : rd32 t.mem (p - 4) = p + sz) :
    target k t (p + sz) = some (p - headerSize) ↔ rd32 t.mem (p + sz - 4) = p := by
  have hbound := hl.payload hmem
  have hh : headerSize = 16 := rfl
  have hpay := isPayload_used hl hends hmem
  obtain ⟨l, r, rfl, hp⟩ := mem_used hmem
  dsimp only at hp hl
  -- a payload begins where another one ends only if that has no bytes
  have hempty : IsPayload k t (p + sz) → sz = 0 := by
    intro hpay'
    have hgap := addrs_gap (hl.isPayload.mp hpay').2.2
    dsimp only at hgap
    omega
  unfold target
  by_cases hpay' : IsPayload k t (p + sz)
  · obtain rfl := hempty hpay'
    rw [if_pos hpay']
    exact iff_of_true rfl hword
  · rw [if_neg hpay']
    constructor
    · intro htarget
      split_ifs at htarget with hin
      have hhdr := Option.some.inj htarget
      have hlow := hin.2.2.2.1
      omega
    · intro heq
      rw [heq, if_pos ⟨by omega, by omega, by omega, hpay⟩]

theorem kfreeAligned_plain (hl : Lays k s bs) (hends : Ends kheapMinSplit bs)
    (e : kmalloc k s n = some (s', p)) (hp : p ≠ 0) :
    ∃ t, kfreeAligned k s' p = some t ∧ (blockList t = blockList s ↔
      rd32 s'.mem (p - 4) = 0 ∨ rd32 s'.mem (rd32 s'.mem (p - 4) - 4) = p) := by
  obtain ⟨bs', hl', hback⟩ := kmalloc_kfree hl hends e hp
  obtain ⟨t, ht, hlt⟩ := hback s' hl'
  have hsame : blockList t = blockList s := hlt.blockList.trans hl.blockList.symm
  rcases kmalloc_taken hl n with e₀ | ⟨s₁, bs₁, p₁, e₁, -, htaken⟩
  · rw [e] at e₀
    cases e₀
    exact absurd rfl hp
  obtain ⟨rfl, rfl⟩ := Prod.mk.inj (Option.some.inj (e₁.symm.trans e))
  obtain rfl := hl'.unique htaken.lays
  obtain ⟨sz, -, hmem⟩ := htaken.mem
  have hbound := hl'.payload hmem
  have hstop := stop_lt k
  have hh : headerSize = 16 := rfl
  have hpos := k.pos
  have hlink := link_used hl' hmem
  unfold kfreeAligned
  rw [if_neg hp, show (p₁ + (2 ^ 32 - 4)) % 2 ^ 32 = p₁ - 4 by omega]
  dsimp only
  unfold linkTo at hlink
  by_cases hlast : p₁ + sz = k.stop
  · rw [if_pos hlast] at hlink
    rw [hlink, if_pos (Or.inl hpos)]
    exact ⟨t, ht, iff_of_true hsame (Or.inl rfl)⟩
  · rw [if_neg hlast] at hlink
    have hends' := htaken.ends hends
    rw [hlink, if_neg (by omega), or_iff_right (by omega),
      ← target_next hl' hends' hmem hlast hlink]
    by_cases htarget : target k s₁ (p₁ + sz) = some (p₁ - headerSize)
    · refine ⟨t, ?_, iff_of_true hsame htarget⟩
      have hself : target k s₁ p₁ = some (p₁ - headerSize) :=
        if_pos (isPayload_used hl' hends' hmem)
      rw [kfree_eq hl', htarget]
      rw [kfree_eq hl', hself] at ht
      exact ht
    · obtain ⟨t', bs'', e', hlt', hkept⟩ := kfree_keeps hl' hmem htarget
      refine ⟨t', e', iff_of_false ?_ htarget⟩
      intro heq
      rw [hlt'.blockList, hl.blockList] at heq
      obtain rfl := listed_inj (Option.some.inj heq)
      exact htaken.fresh hkept

theorem kfreeAligned_shifted {al : ℕ} {s₁ : Statics} (hl : Lays k s bs)
    (hends : Ends kheapMinSplit bs) (e : kmalloc k s (n + (align - 1 + 4)) = some (s₁, raw))
    (hraw : raw ≠ 0) (hl₁ : Lays k s₁ bs') (h : Shifted k s s' bs bs' al raw n align)
    (hn : 0 < n) : ∃ t, kfreeAligned k s' al = some t ∧ blockList t = blockList s := by
  obtain ⟨bs₁, hl₁', hback⟩ := kmalloc_kfree hl hends e hraw
  obtain rfl := hl₁.unique hl₁'
  obtain ⟨t, ht, hlt⟩ := hback s' h.taken.lays
  obtain ⟨sz, hsz, hmem⟩ := h.taken.mem
  have hbound := h.taken.lays.payload hmem
  have habove := h.above
  have hbelow := h.below
  have hstop := stop_lt k
  refine ⟨t, ?_, hlt.blockList.trans hl.blockList.symm⟩
  unfold kfreeAligned
  rw [if_neg (by omega), show (al + (2 ^ 32 - 4)) % 2 ^ 32 = al - 4 by omega, h.word]
  dsimp only
  rw [if_neg (by omega)]
  exact ht

/-- **`kfree_aligned` undoes `kmalloc_aligned`**, in every state of every run and for every size
that can be rounded up, exactly if the alignment is over 8, or the block is the last one, or the
last word of the payload happens to be its address. A sum above `2 ^ 32 - 8` is rounded up to 0: the
payload is empty then, and the word before the aligned address is written over what lies behind it,
a header or not. -/
theorem kfreeAligned_undoes (k : Placement) (m₀ : Mem) {st : Option Statics}
    (h : Reach (Lifted (Sane k)) (lift (step k)) (some (start m₀)) st) :
    ∃ s, st = some s ∧ ∀ size align : UInt32, 0 < size.toNat → align.toNat ≤ 2 ^ 31 →
      ∀ a ∈ rounded align.toNat, (8 < a → size.toNat + a + 3 ≤ 2 ^ 32 - 8) →
        ∃ s' p raw, kmallocAligned k s size.toNat align.toNat = some (s', p, raw) ∧
          (p ≠ 0 → ∃ t, kfreeAligned k s' p = some t ∧
            (blockList t = blockList (heapInit k s) ↔ 8 < a ∨ rd32 s'.mem (p - 4) = 0 ∨
              rd32 s'.mem (rd32 s'.mem (p - 4) - 4) = p)) := by
  obtain ⟨s, rfl, hs⟩ := run_whole (Or.inl ⟨rfl, rfl⟩) h
  refine ⟨s, rfl, ?_⟩
  intro size align hsize hhigh a ha hfit
  obtain ⟨j, hj, hround, hle⟩ := rounded_pow hhigh
  obtain rfl : 2 ^ j = a := Option.some.inj (hround.symm.trans ha)
  generalize size.toNat = n at hsize hfit
  have hn : n ≠ 0 := by omega
  obtain ⟨bs, hl, hends⟩ := hs.ready
  by_cases hbig : 8 < 2 ^ j
  · have hfit' := hfit hbig
    have hmod : (n + (2 ^ j - 1 + 4)) % 2 ^ 32 ≠ 0 := by
      rw [Nat.mod_eq_of_lt (by omega)]
      omega
    have hnot : ¬ 2 ^ j ≤ kheapAlign := not_le.mpr hbig
    rw [kmallocAligned_heapInit hn hround fun _ => hmod]
    rcases kmallocAligned_shifted hl hround hj hn hnot (by omega) with
      e | ⟨s₁, s', bs', al, raw, e₁, hraw, hl₁, e, hsh⟩
    · exact ⟨_, 0, 0, e, fun hne => absurd rfl hne⟩
    · obtain ⟨t, ht, hsame⟩ := kfreeAligned_shifted hl hends e₁ hraw hl₁ hsh hsize
      exact ⟨s', al, raw, e, fun _ => ⟨t, ht, iff_of_true hsame (Or.inl hbig)⟩⟩
  · obtain ⟨s', p, e, -⟩ := hs.malloc n
    have hsmall : 2 ^ j ≤ kheapAlign := not_lt.mp hbig
    refine ⟨s', p, p, kmallocAligned_small hround hn hsmall e, fun hp => ?_⟩
    rw [kmalloc_heapInit hn] at e
    obtain ⟨t, ht, hiff⟩ := kfreeAligned_plain hl hends e hp
    exact ⟨t, ht, hiff.trans (or_iff_right hbig).symm⟩

theorem kfreeAligned_undoes_run :
    ∃ s, alignedRun.foldl (lift (step oneMiB)) (some (start fun _ => 0)) = some s ∧
      ∃ s' p raw, kmallocAligned oneMiB s 40 48 = some (s', p, raw) ∧
        (p ≠ 0 → ∃ t, kfreeAligned oneMiB s' p = some t ∧
          (blockList t = blockList (heapInit oneMiB s) ↔ 8 < 64 ∨ rd32 s'.mem (p - 4) = 0 ∨
            rd32 s'.mem (rd32 s'.mem (p - 4) - 4) = p)) := by
  obtain ⟨s, hs, h⟩ := kfreeAligned_undoes oneMiB _ alignedRun_sane
  exact ⟨s, hs, h 40 48 (by decide) (by decide) 64 (by decide) (by decide)⟩

def undone (size align : ℕ) : Option (List (ℕ × ℕ × Bool) × List (ℕ × ℕ × Bool)) := do
  let before ← blockList (heapInit oneMiB (start fun _ => 0))
  let (s, p, _) ← kmallocAligned oneMiB (start fun _ => 0) size align
  let after ← blockList (← kfreeAligned oneMiB s p)
  return (before, after)

/-- **The block stays in use**: 16 bytes are taken with an alignment of 8 and given back. -/
theorem kfreeAligned_leaks :
    undone 16 8 = some ([(0x100000, 0x3ffff0, true)],
      [(0x100000, 16, false), (0x100020, 0x3fffd0, true)]) := by
  decide +kernel

end Kerneloid.XnuMemory.Aligned
