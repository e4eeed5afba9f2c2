import Kerneloid.XnuMemory.Requests
import Kerneloid.XnuMemory.Tiling

/-! # Payloads that hold what was asked for

The sizes that `kmalloc` gets as they are meant (`Asks`), the alignments that `kmalloc_aligned`
rounds to a power of two (`rounded_pow`), and those for which its loop never ends (`double_stuck`).
`Holds` says that a payload in use has at least so many bytes; it is what `kmalloc`, `kzalloc` and
`kmalloc_aligned` establish, and what is written into the payload keeps it. -/

namespace Kerneloid.XnuMemory.Payloads

open Lib.Bytes Lib.Tiling Heap Tiling Requests

variable {align j : ℕ} {s₁ : Statics}

/-! ### Sizes and alignments -/

/-- A size, computed without bound, that `kmalloc` gets as it is meant: it can be rounded up, or it
wraps round to 0, for which there is no memory. -/
def Asks (size : ℕ) : Prop := size ≤ 2 ^ 32 - 8 ∨ size % 2 ^ 32 = 0

instance (size : ℕ) : Decidable (Asks size) := inferInstanceAs (Decidable (_ ∨ _))

theorem le_alignUp {n : ℕ} (hn : n ≤ 2 ^ 32 - 8) : n ≤ alignUp n kheapAlign := by
  rw [show kheapAlign = 2 ^ 3 from rfl, alignUp_pow (by decide)]
  omega

theorem double_pow (ha : align ≤ 2 ^ 31) (d : ℕ) :
    ∀ {i fuel : ℕ}, i + d = 31 → d < fuel →
      ∃ j ≤ 31, double align fuel (2 ^ i) = some (2 ^ j) ∧ align ≤ 2 ^ j := by
  induction d with
  | zero =>
    intro i fuel hi hfuel
    obtain ⟨fuel, rfl⟩ := Nat.exists_eq_succ_of_ne_zero (Nat.ne_of_gt hfuel)
    obtain rfl : i = 31 := hi
    exact ⟨31, le_rfl, if_neg (Nat.not_lt.mpr ha), ha⟩
  | succ d ih =>
    intro i fuel hi hfuel
    obtain ⟨fuel, rfl⟩ := Nat.exists_eq_succ_of_ne_zero (Nat.ne_of_gt (Nat.zero_lt_of_lt hfuel))
    rw [double]
    by_cases hlt : 2 ^ i < align
    · have htwice : 2 ^ i * 2 % 2 ^ 32 = 2 ^ (i + 1) := by
        rw [← Nat.pow_succ]
        exact Nat.mod_eq_of_lt (Nat.pow_lt_pow_right (by decide) (by omega))
      rw [if_pos hlt, htwice]
      exact ih (by omega) (Nat.lt_of_succ_lt_succ hfuel)
    · exact ⟨i, by omega, if_neg hlt, not_lt.mp hlt⟩

theorem rounded_pow (ha : align ≤ 2 ^ 31) :
    ∃ j ≤ 31, rounded align = some (2 ^ j) ∧ align ≤ 2 ^ j := by
  unfold rounded
  dsimp only
  by_cases hzero : align = 0
  · rw [if_pos hzero]
    exact ⟨3, by decide, rfl, by omega⟩
  · rw [if_neg hzero]
    by_cases hpow : align &&& (align - 1) = 0
    · rw [if_neg (not_not.mpr hpow)]
      obtain ⟨j, rfl⟩ := (Nat.and_sub_one_eq_zero_iff_isPowerOfTwo hzero).mp hpow
      exact ⟨j, (Nat.pow_le_pow_iff_right (by decide)).mp ha, rfl, le_rfl⟩
    · rw [if_pos hpow]
      exact double_pow ha 31 rfl (by decide)

/-- **The loop never ends** for a larger alignment: `a` is doubled until it is 0. -/
theorem double_stuck (ha : 2 ^ 31 < align) :
    ∀ fuel a, (a = 0 ∨ ∃ i ≤ 31, a = 2 ^ i) → double align fuel a = none := by
  intro fuel
  induction fuel with
  | zero => intro _ _; rfl
  | succ fuel ih =>
    rintro a hpow
    rw [double]
    rcases hpow with rfl | ⟨i, hi, rfl⟩
    · rw [if_pos (by omega)]
      exact ih _ (Or.inl rfl)
    · have hle : 2 ^ i ≤ 2 ^ 31 := Nat.pow_le_pow_right (by decide) hi
      rw [if_pos (by omega), ← Nat.pow_succ]
      refine ih _ ?_
      rcases Nat.lt_or_ge i 31 with hlt | hge
      · exact Or.inr ⟨i + 1, hlt, Nat.mod_eq_of_lt (Nat.pow_lt_pow_right (by decide) (by omega))⟩
      · obtain rfl : i = 31 := by omega
        exact Or.inl rfl

/-! ### Payloads -/

/-- The `n` bytes from `a` on lie in the payload of the block with header `h`, which is in use. -/
def InBlock (s : Statics) (h a n : ℕ) : Prop :=
  onList s.mem h maxSteps s.head = some true ∧ free s.mem h = false ∧
    h + headerSize ≤ a ∧ a + n ≤ h + headerSize + size s.mem h

instance (s : Statics) (h a n : ℕ) : Decidable (InBlock s h a n) :=
  inferInstanceAs (Decidable (_ ∧ _ ∧ _ ∧ _))

/-- In the state `s`, the payload at `p` is in use and has at least `n` bytes. -/
def Holds (k : Placement) (s : Statics) (p n : ℕ) : Prop :=
  ∃ bs sz, Lays k s bs ∧ (p, sz) ∈ used headerSize k.base bs ∧ n ≤ sz

variable {k : Placement} {s s' : Statics} {m m' : Mem} {bs : List Block} {p n a : ℕ}

theorem lays_inBlock {sz : ℕ} (hl : Lays k s bs) (hp : (p, sz) ∈ used headerSize k.base bs)
    (h₁ : p ≤ a) (h₂ : a + n ≤ p + sz) : InBlock s (p - headerSize) a n := by
  obtain ⟨l, r, rfl, hpos⟩ := mem_used hp
  dsimp only at hpos
  have hhdr : p - headerSize = k.base + span headerSize l := by omega
  have hh := hl.header
  rw [hhdr]
  refine ⟨?_, hh.free, by omega, ?_⟩
  · rw [hl.onList, decide_eq_true (mem_addrs.mpr ⟨l, _, r, rfl, rfl⟩)]
  · rw [hh.size]
    dsimp only
    omega

theorem InBlock.le_stop {h : ℕ} (hb : InBlock s h a n) (hk : Kept k s) : a + n ≤ k.stop := by
  obtain ⟨hon, -, -, hend⟩ := hb
  rcases hk with ⟨-, hhead⟩ | ⟨bs, hl⟩
  · rw [hhead] at hon
    cases hon
  · rw [hl.onList, Option.some.injEq, decide_eq_true_eq] at hon
    obtain ⟨l, b, r, rfl, rfl⟩ := mem_addrs.mp hon
    have hbound := hl.bound
    rw [hl.header.size] at hend
    omega

theorem Holds.inBlock (h : Holds k s p n) : InBlock s (p - headerSize) p n := by
  obtain ⟨bs, sz, hl, hp, hn⟩ := h
  exact lays_inBlock hl hp le_rfl (by omega)

theorem Holds.kept (h : Holds k s p n) : Kept k s := by
  obtain ⟨bs, _, hl, _⟩ := h
  exact Or.inr ⟨bs, hl⟩

theorem Holds.lt (h : Holds k s p n) : 0 < p ∧ p + n < 2 ^ 32 := by
  obtain ⟨bs, sz, hl, hp, hn⟩ := h
  have hbound := hl.payload hp
  have hstop := stop_lt k
  have hpos := k.pos
  omega

theorem Holds.write (h : Holds k s p n) (hm : ∀ x, x < p ∨ p + n ≤ x → m' x = s.mem x) :
    Holds k { s with mem := m' } p n := by
  obtain ⟨bs, sz, hl, hp, hn⟩ := h
  refine ⟨bs, sz, hl.congr ?_, hp, hn⟩
  intro x _ _ hx
  have := not_inUse hp hx
  exact hm x (by omega)

/-! ### The calls -/

theorem kmalloc_holds (h : Kept k s) (hn : n ≤ 2 ^ 32 - 8) :
    ∃ s' p, kmalloc k s n = some (s', p) ∧ Kept k s' ∧ (p ≠ 0 → Holds k s' p n) := by
  by_cases hzero : n = 0
  · refine ⟨s, 0, ?_, h, fun e => absurd rfl e⟩
    unfold kmalloc
    exact if_pos hzero
  · obtain ⟨bs, hl⟩ := h.ready
    rw [kmalloc_heapInit hzero]
    rcases kmalloc_taken hl n with e | ⟨s', bs', p, e, -, ht⟩
    · exact ⟨_, 0, e, Or.inr ⟨bs, hl⟩, fun e => absurd rfl e⟩
    · obtain ⟨sz, hsz, hmem⟩ := ht.mem
      exact ⟨s', p, e, Or.inr ⟨bs', ht.lays⟩,
        fun _ => ⟨bs', sz, ht.lays, hmem, (le_alignUp hn).trans hsz⟩⟩

theorem kmalloc_asks (h : Kept k s) (hn : Asks n) :
    ∃ s' p, kmalloc k s (n % 2 ^ 32) = some (s', p) ∧ Kept k s' ∧ (p ≠ 0 → Holds k s' p n) := by
  rcases hn with hn | hn
  · rw [Nat.mod_eq_of_lt (by omega)]
    exact kmalloc_holds h hn
  · rw [hn]
    exact ⟨s, 0, rfl, h, fun e => absurd rfl e⟩

theorem libMemset_outside {c : UInt8} {x : ℕ} (hend : a + n ≤ 2 ^ 32) (hx : x < a ∨ a + n ≤ x) :
    libMemset m a c n x = m x := by
  unfold libMemset
  rw [storeRound_eq m _ hend]
  exact store_outside m _ hx

theorem kzalloc_holds (h : Kept k s) (hn : n < 2 ^ 32) (hask : Asks n) :
    ∃ s' p, kzalloc k s n = some (s', p) ∧ Kept k s' ∧ (p ≠ 0 → Holds k s' p n) := by
  obtain ⟨s', p, e, hk, hp⟩ := kmalloc_asks h hask
  rw [Nat.mod_eq_of_lt hn] at e
  unfold kzalloc
  rw [e]
  by_cases hzero : p = 0
  · exact ⟨s', 0, if_pos hzero, hk, fun e => absurd rfl e⟩
  · have hold := hp hzero
    have hlt := hold.lt
    have hset : Holds k { s' with mem := libMemset s'.mem p 0 n } p n :=
      hold.write fun x hx => libMemset_outside (by omega) hx
    exact ⟨_, p, if_neg hzero, hset.kept, fun _ => hset⟩

/-- The bytes that `kmalloc_aligned` asks for, computed without bound. -/
def alignedSize (size align : ℕ) : ℕ :=
  if align ≤ kheapAlign then size else size + (align - 1 + 4)

/-- The aligned address lies behind the word for the raw pointer, and the payload reaches far enough
behind it. -/
theorem aligned_bounds {raw : ℕ} (hj : j ≤ 31) (hlt : raw + 4 + 2 ^ j - 1 < 2 ^ 32) :
    ∃ al, (raw + 4 + 2 ^ j - 1) % 2 ^ 32 &&& (2 ^ 32 - 1 - (2 ^ j - 1)) = al ∧
      2 ^ j ∣ al ∧ raw + 4 ≤ al ∧ al ≤ raw + 4 + 2 ^ j - 1 := by
  have hpos := Nat.two_pow_pos j
  refine ⟨_, rfl, ?_⟩
  rw [Nat.mod_eq_of_lt hlt, and_mask (by omega) hlt]
  have hdiv := Nat.div_add_mod (raw + 4 + 2 ^ j - 1) (2 ^ j)
  have hmod := Nat.mod_lt (raw + 4 + 2 ^ j - 1) hpos
  rw [Nat.mul_comm] at hdiv
  refine ⟨Nat.dvd_mul_left _ _, ?_, ?_⟩
  · omega
  · omega

theorem kmallocAligned_eq {raw : ℕ} (hround : rounded align = some (2 ^ j)) (hj : j ≤ 31)
    (hn : n ≠ 0) (hbig : ¬ 2 ^ j ≤ kheapAlign)
    (e : kmalloc k s ((n + (2 ^ j - 1 + 4)) % 2 ^ 32) = some (s₁, raw)) (hraw : raw ≠ 0)
    (hlt : raw + (n + (2 ^ j - 1 + 4)) < 2 ^ 32) :
    ∃ al, kmallocAligned k s n align =
        some ({ s₁ with mem := wr32 s₁.mem (al - 4) raw }, al, raw) ∧
      2 ^ j ∣ al ∧ raw + 4 ≤ al ∧ al + n ≤ raw + (n + (2 ^ j - 1 + 4)) := by
  have hpos := Nat.two_pow_pos j
  have hend : raw + 4 + 2 ^ j - 1 < 2 ^ 32 := by omega
  obtain ⟨al, hal, hdvd, hlo, hhi⟩ := aligned_bounds hj hend
  have hword : (al + (2 ^ 32 - 4)) % 2 ^ 32 = al - 4 := by omega
  refine ⟨al, ?_, hdvd, hlo, by omega⟩
  unfold kmallocAligned
  rw [if_neg hn, hround]
  refine (if_neg hbig).trans ?_
  dsimp only
  rw [e]
  refine (if_neg hraw).trans ?_
  dsimp only
  rw [hal, hword]
  rfl

theorem kmallocAligned_null (hround : rounded align = some (2 ^ j)) (hn : n ≠ 0)
    (hbig : ¬ 2 ^ j ≤ kheapAlign)
    (e : kmalloc k s ((n + (2 ^ j - 1 + 4)) % 2 ^ 32) = some (s₁, 0)) :
    kmallocAligned k s n align = some (s₁, 0, 0) := by
  unfold kmallocAligned
  rw [if_neg hn, hround]
  refine (if_neg hbig).trans ?_
  dsimp only
  rw [e]
  rfl

theorem kmallocAligned_small (hround : rounded align = some (2 ^ j))
    (hn : n ≠ 0) (hsmall : 2 ^ j ≤ kheapAlign) (e : kmalloc k s n = some (s₁, p)) :
    kmallocAligned k s n align = some (s₁, p, p) := by
  unfold kmallocAligned
  rw [if_neg hn, hround]
  refine (if_pos hsmall).trans ?_
  rw [e]
  rfl

theorem kmallocAligned_holds {align' : ℕ} (h : Kept k s) (hn : n < 2 ^ 32)
    (hround : rounded align = some align') (ha : align ≤ 2 ^ 31)
    (hask : Asks (alignedSize n align')) :
    ∃ s' p raw, kmallocAligned k s n align = some (s', p, raw) ∧ Kept k s' ∧
      (p ≠ 0 → ∃ h, InBlock s' h p n) := by
  obtain ⟨j, hj, hpow, -⟩ := rounded_pow ha
  obtain rfl : 2 ^ j = align' := Option.some.inj (hpow.symm.trans hround)
  by_cases hzero : n = 0
  · exact ⟨s, 0, 0, if_pos hzero, h, fun e => absurd rfl e⟩
  unfold alignedSize at hask
  by_cases hsmall : 2 ^ j ≤ kheapAlign
  · rw [if_pos hsmall] at hask
    obtain ⟨s', p, e, hk, hp⟩ := kmalloc_asks h hask
    rw [Nat.mod_eq_of_lt hn] at e
    exact ⟨s', p, p, kmallocAligned_small hround hzero hsmall e, hk,
      fun hne => ⟨_, (hp hne).inBlock⟩⟩
  · rw [if_neg hsmall] at hask
    obtain ⟨s₁, raw, e, hk, hp⟩ := kmalloc_asks h hask
    by_cases hraw : raw = 0
    · subst hraw
      exact ⟨s₁, 0, 0, kmallocAligned_null hround hzero hsmall e, hk, fun e => absurd rfl e⟩
    · have hold := hp hraw
      obtain ⟨al, ha', -, hlo, hhi⟩ := kmallocAligned_eq hround hj hzero hsmall e hraw hold.lt.2
      have hset : Holds k { s₁ with mem := wr32 s₁.mem (al - 4) raw } raw (n + (2 ^ j - 1 + 4)) :=
        hold.write fun x hx => wr32_outside _ _ (by omega)
      refine ⟨_, al, raw, ha', hset.kept, fun _ => ?_⟩
      obtain ⟨bs, sz, hl, hmem, hsz⟩ := hset
      exact ⟨_, lays_inBlock hl hmem (by omega) (by omega)⟩

end Kerneloid.XnuMemory.Payloads
