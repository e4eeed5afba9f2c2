import Kerneloid.XnuMemory.VmLayout

/-! # The first fit of a virtual memory map

The search of `vm_map_enter` for any place keeps one candidate and moves it behind each entry that
is in the way. As long as no sum that it evaluates wraps, the candidate is the least aligned address
behind the base that the entries passed so far leave free (`firstFit_isLeast`). So the call succeeds
exactly if there is a place, and takes the first one (`enter_firstFit`). -/

namespace Kerneloid.XnuMemory.VmFirstFit

open XnuMemory.Heap (alignUp alignUp_pow)
open Types VmMaps VmLayout

/-- The sums that the search evaluates from `cur` on, without bound. -/
def sums (size align : ℕ) : List Entry → ℕ → List ℕ
  | [], cur => [cur + size]
  | e :: es, cur =>
    (cur + size) ::
      if cur + size ≤ e.start then []
      else if cur < e.stop then (e.stop + (align - 1)) :: sums size align es (alignUp e.stop align)
      else sums size align es cur

/-- The sums that `vm_map_enter` evaluates to find any place for `size` bytes. -/
def enterSums (m : VmMap) (size align : ℕ) : List ℕ :=
  [size + (pageSize - 1), m.base + (align - 1), m.base + m.size] ++
    sums (alignUp size pageSize) align m.entries (alignUp m.base align)

/-- The `n` bytes from `a` on are an aligned place for a new entry. -/
def Suits (m : VmMap) (align n a : ℕ) : Prop :=
  align ∣ a ∧ m.base ≤ a ∧ a + n ≤ m.base + m.size ∧
    ∀ e ∈ m.entries, e.stop ≤ a ∨ a + n ≤ e.start

variable {m : VmMap} {es : List Entry} {v j size align cur hi lo : ℕ}

theorem alignUp_eq (hlt : v + (2 ^ j - 1) < 2 ^ 32) :
    alignUp v (2 ^ j) = (v + (2 ^ j - 1)) / 2 ^ j * 2 ^ j := by
  have hpos := Nat.two_pow_pos j
  have hj : j ≤ 32 := (Nat.pow_le_pow_iff_right (by decide : 1 < 2)).mp (by omega)
  rw [alignUp_pow hj, Nat.mod_eq_of_lt hlt]

theorem alignUp_isLeast (hlt : v + (2 ^ j - 1) < 2 ^ 32) :
    IsLeast {a | 2 ^ j ∣ a ∧ v ≤ a} (alignUp v (2 ^ j)) := by
  have hpos := Nat.two_pow_pos j
  have hdiv := Nat.div_add_mod (v + (2 ^ j - 1)) (2 ^ j)
  have hmod := Nat.mod_lt (v + (2 ^ j - 1)) hpos
  rw [Nat.mul_comm] at hdiv
  rw [alignUp_eq hlt]
  refine ⟨⟨Nat.dvd_mul_left _ _, by omega⟩, ?_⟩
  rintro _ ⟨⟨q, rfl⟩, hle⟩
  rw [Nat.mul_comm (2 ^ j)]
  refine Nat.mul_le_mul_right _ (Nat.le_of_lt_succ ?_)
  rw [Nat.div_lt_iff_lt_mul hpos, Nat.succ_mul, Nat.mul_comm q]
  omega

theorem firstFit_isLeast : ∀ (es : List Entry) {lo : ℕ} (cur : ℕ), Row hi lo es → 2 ^ j ∣ cur →
    (∀ x ∈ sums size (2 ^ j) es cur, x < 2 ^ 32) →
      IsLeast {a | 2 ^ j ∣ a ∧ cur ≤ a ∧ ∀ e ∈ es, e.stop ≤ a ∨ a + size ≤ e.start}
        (firstFit size (2 ^ j) es cur)
  | [], _, cur, _, hdvd, _ =>
    ⟨⟨hdvd, le_rfl, fun e he => absurd he List.not_mem_nil⟩, fun _ ha => ha.2.1⟩
  | e :: es, lo, cur, h, hdvd, hsums => by
    have ⟨_, hne, hrow⟩ := h
    rw [sums, List.forall_mem_cons] at hsums
    obtain ⟨hsum, hrest⟩ := hsums
    rw [firstFit, Nat.mod_eq_of_lt hsum]
    split_ifs at hrest ⊢ with hfits hmove
    · -- the candidate ends before the entry, so before all that follow
      refine ⟨⟨hdvd, le_rfl, fun d hd => Or.inr ?_⟩, fun _ ha => ha.2.1⟩
      rcases List.mem_cons.mp hd with rfl | hd
      · exact hfits
      · have := (hrow.mem d hd).1
        omega
    · -- no address between the candidate and the end of the entry is free
      rw [List.forall_mem_cons] at hrest
      obtain ⟨⟨hdvd', hle⟩, hleast⟩ := alignUp_isLeast hrest.1
      obtain ⟨⟨h₁, h₂, h₃⟩, hmin⟩ := firstFit_isLeast es _ hrow hdvd' hrest.2
      refine ⟨⟨h₁, by omega, List.forall_mem_cons.mpr ⟨Or.inl (by omega), h₃⟩⟩, ?_⟩
      rintro a ⟨ha, hcur, hfree⟩
      rw [List.forall_mem_cons] at hfree
      exact hmin ⟨ha, hleast ⟨ha, by omega⟩, hfree.2⟩
    · -- the entry ends before the candidate
      obtain ⟨⟨h₁, h₂, h₃⟩, hmin⟩ := firstFit_isLeast es cur hrow hdvd hrest
      refine ⟨⟨h₁, h₂, List.forall_mem_cons.mpr ⟨Or.inl (by omega), h₃⟩⟩, ?_⟩
      rintro a ⟨ha, hcur, hfree⟩
      exact hmin ⟨ha, hcur, (List.forall_mem_cons.mp hfree).2⟩

theorem firstFit_end_lt : ∀ (es : List Entry) (cur : ℕ),
    (∀ x ∈ sums size align es cur, x < 2 ^ 32) → firstFit size align es cur + size < 2 ^ 32
  | [], cur, hsums => hsums _ List.mem_cons_self
  | e :: es, cur, hsums => by
    rw [sums, List.forall_mem_cons] at hsums
    obtain ⟨hsum, hrest⟩ := hsums
    rw [firstFit, Nat.mod_eq_of_lt hsum]
    split_ifs at hrest ⊢ with hfits hmove
    · exact hsum
    · exact firstFit_end_lt es _ (List.forall_mem_cons.mp hrest).2
    · exact firstFit_end_lt es cur hrest

theorem enter_anywhere {addr size mask flags prot inherit n cur : ℕ} (hsize : size ≠ 0)
    (hany : wantsAnywhere addr flags = true) (hn : alignUp size pageSize = n) (hpos : n ≠ 0)
    (hcur : firstFit n (enterAlign mask) m.entries (alignUp m.base (enterAlign mask)) = cur)
    (hend : cur + n < 2 ^ 32) (hlimit : m.base + m.size < 2 ^ 32) :
    vmMapEnter m addr size mask flags prot inherit true =
      if m.base + m.size < cur + n then (m, .noSpace, addr)
      else (insertEntry m ⟨cur, cur + n, prot, inherit⟩, .success, cur) := by
  unfold vmMapEnter
  rw [if_neg hsize]
  dsimp only
  rw [hn, if_neg hpos, hany]
  unfold place VmMap.limit
  rw [if_pos rfl, Nat.mod_eq_of_lt hlimit]
  dsimp only
  rw [hcur, Nat.mod_eq_of_lt hend]
  by_cases hspace : m.base + m.size < cur + n
  · rw [if_pos hspace, if_pos hspace]
  · rw [if_neg hspace, if_neg hspace]
    dsimp only
    rw [if_neg (by decide), Nat.mod_eq_of_lt hend]

/-- **The first fit is optimal and complete.** For every well-formed map and every request for any
place with a size that is not 0 and an alignment that is a power of two, if none of the sums wraps
and `kmalloc` succeeds: the call succeeds exactly if there is a place, and answers the first one. -/
theorem enter_firstFit (h : WellFormed m) {addr size mask flags j : ℕ} (prot inherit : ℕ)
    (hsize : size ≠ 0) (hany : wantsAnywhere addr flags = true) (hpow : enterAlign mask = 2 ^ j)
    (hsums : ∀ x ∈ enterSums m size (enterAlign mask), x < 2 ^ 32) :
    ((vmMapEnter m addr size mask flags prot inherit true).2.1 = .success ↔
        ∃ a, Suits m (enterAlign mask) ((size + 4095) / 4096 * 4096) a) ∧
      ((vmMapEnter m addr size mask flags prot inherit true).2.1 = .success →
        IsLeast {a | Suits m (enterAlign mask) ((size + 4095) / 4096 * 4096) a}
          (vmMapEnter m addr size mask flags prot inherit true).2.2) := by
  rw [enterSums, List.forall_mem_append] at hsums
  obtain ⟨hfirst, hsearch⟩ := hsums
  obtain ⟨hround, hbase, hlimit⟩ : size + 4095 < 2 ^ 32 ∧ m.base + (2 ^ j - 1) < 2 ^ 32 ∧
      m.base + m.size < 2 ^ 32 := by
    rw [hpow] at hfirst
    exact ⟨hfirst _ (by simp [pageSize]), hfirst _ (by simp), hfirst _ (by simp)⟩
  have hn : alignUp size pageSize = (size + 4095) / 4096 * 4096 := alignUp_eq (j := 12) hround
  have hpos : (size + 4095) / 4096 * 4096 ≠ 0 := by omega
  have hend := firstFit_end_lt m.entries _ hsearch
  rw [hn] at hsearch hend
  rw [enter_anywhere hsize hany hn hpos rfl hend hlimit]
  rw [hpow] at hsearch hend ⊢
  obtain ⟨⟨hdvd, hle⟩, hleast⟩ := alignUp_isLeast hbase
  obtain ⟨⟨h₁, h₂, h₃⟩, hmin⟩ := firstFit_isLeast m.entries _ h.row hdvd hsearch
  generalize firstFit _ (2 ^ j) m.entries _ = cur at h₁ h₂ h₃ hmin ⊢
  generalize (size + 4095) / 4096 * 4096 = n at h₃ hmin hpos ⊢
  -- no place comes before the candidate
  have hlower : ∀ a, Suits m (2 ^ j) n a → cur ≤ a :=
    fun a ⟨ha, hb, _, hfree⟩ => hmin ⟨ha, hleast ⟨ha, hb⟩, hfree⟩
  by_cases hspace : m.base + m.size < cur + n
  · rw [if_pos hspace]
    refine ⟨⟨nofun, fun ⟨a, ha⟩ => ?_⟩, nofun⟩
    have hcur := hlower a ha
    have hfits := ha.2.2.1
    omega
  · rw [if_neg hspace]
    have hsuits : Suits m (2 ^ j) n cur := ⟨h₁, hle.trans h₂, not_lt.mp hspace, h₃⟩
    exact ⟨⟨fun _ => ⟨cur, hsuits⟩, fun _ => rfl⟩, fun _ => ⟨hsuits, hlower⟩⟩

def gaps : VmMap :=
  ⟨[⟨0x2000, 0x3000, 3, 1⟩, ⟨0x5000, 0x6000, 3, 1⟩, ⟨0x8000, 0x9000, 3, 1⟩], 3, 0xf000, 0x1000⟩

/-- Two pages at a multiple of 16 KiB fit behind all entries only, although there are gaps of two
pages before. -/
theorem enter_firstFit_gaps :
    (vmMapEnter gaps 0 0x1800 0x3fff 1 3 1 true).2 = (.success, 0xc000) ∧
      ((vmMapEnter gaps 0 0x1800 0x3fff 1 3 1 true).2.1 = .success →
        IsLeast {a | Suits gaps (enterAlign 0x3fff) ((0x1800 + 4095) / 4096 * 4096) a}
          (vmMapEnter gaps 0 0x1800 0x3fff 1 3 1 true).2.2) :=
  ⟨by decide, (enter_firstFit (m := gaps) (j := 14) (by decide) 3 1 (by decide) (by decide)
    (by decide) (by decide)).2⟩

end Kerneloid.XnuMemory.VmFirstFit
