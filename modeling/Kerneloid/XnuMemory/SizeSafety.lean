import Kerneloid.XnuMemory.Payloads

/-! # The memory handed out is as large as what was asked for

Every function that hands out memory rounds, adds or multiplies the sizes it is given before
`kmalloc` looks for a block. As long as the size that is asked for can be rounded up to a multiple
of 8 in 32 bits, the block that is found holds it (`requests_safe`); for a zone, it holds all
elements on the free list. Beyond that a size wraps round, and the block is too small
(`size_wraps`). -/

namespace Kerneloid.XnuMemory.SizeSafety

open Lib.Bytes Lib.Linked Lib.Runs Lib.Tiling Heap Tiling Requests Payloads

variable {elemSize memory zone : ℕ}

variable {k : Placement} {s s' : Statics} {m m' : Mem} {bs : List Block} {p n a : ℕ}

/-! ### Zones -/

theorem initZone_spec (m : Mem) (name elemSize max : ℕ) (hend : zone + 32 ≤ 2 ^ 32) :
    (∀ x, x < zone ∨ zone + 32 ≤ x → initZone m zone name elemSize max x = m x) ∧
      rd32 (initZone m zone name elemSize max) (zone + 4) = 0 := by
  unfold initZone
  dsimp only
  constructor
  · intro x hx
    simp (disch := omega) only [wr32_outside]
    exact libMemset_outside hend hx
  · rw [rd32_wr32_ne _ _ (by omega), rd32_wr32]
    rfl

/-- One round of the loop: the element is the first of the free list, and what was the list comes
after it. -/
theorem linkElem_spec (m : Mem) (zone e : ℕ) (he : e + 4 < 2 ^ 32)
    (hsep : e + 4 ≤ zone + 4 ∨ zone + 8 ≤ e) :
    rd32 (linkElem zone e m) (zone + 4) = e ∧
      rd32 (linkElem zone e m) e = rd32 m (zone + 4) ∧
      ∀ x, x < zone + 4 ∨ zone + 8 ≤ x → x < e ∨ e + 4 ≤ x → linkElem zone e m x = m x := by
  unfold linkElem
  dsimp only
  rw [storeRound_eq _ _ (by omega)]
  refine ⟨?_, ?_, ?_⟩
  · rw [rd32_wr32]
    omega
  · rw [rd32_wr32_ne _ _ (by omega)]
    exact (rd32_wr32 m e _).trans (Nat.mod_eq_of_lt (rd32_lt m _))
  · intro x h₁ h₂
    rw [wr32_outside _ _ (by omega)]
    exact store_outside m _ h₂

/-- The elements in the order of their addresses. -/
def elements (memory elemSize n : ℕ) : List ℕ := (List.range n).map fun i => memory + i * elemSize

theorem mem_elements {x : ℕ} (hx : x ∈ elements memory elemSize n) :
    memory ≤ x ∧ x + elemSize ≤ memory + n * elemSize := by
  obtain ⟨i, hi, rfl⟩ := List.mem_map.mp hx
  have hle : (i + 1) * elemSize ≤ n * elemSize := Nat.mul_le_mul_right _ (List.mem_range.mp hi)
  rw [Nat.succ_mul] at hle
  exact ⟨by omega, by omega⟩

theorem linkElems_path (hpos : 0 < memory) (hsize : 4 ≤ elemSize) (hfree : rd32 m (zone + 4) = 0) :
    ∀ n, memory + n * elemSize < 2 ^ 32 →
      memory + n * elemSize ≤ zone + 4 ∨ zone + 8 ≤ memory →
      Path (linkAt (linkElems zone memory elemSize n m))
          (linkAt (linkElems zone memory elemSize n m) (zone + 4))
          (elements memory elemSize n).reverse ∧
        ∀ x, x < zone + 4 ∨ zone + 8 ≤ x → x < memory ∨ memory + n * elemSize ≤ x →
          linkElems zone memory elemSize n m x = m x := by
  intro n
  induction n with
  | zero =>
    intro _ _
    refine ⟨?_, fun _ _ _ => rfl⟩
    unfold linkElems linkAt
    rw [if_pos hfree]
    exact .nil
  | succ n ih =>
    intro hlt hsep
    rw [Nat.succ_mul] at hlt hsep
    obtain ⟨hpath, hout⟩ := ih (by omega) (by omega)
    have hmod : (memory + n * elemSize) % 2 ^ 32 = memory + n * elemSize :=
      Nat.mod_eq_of_lt (by omega)
    rw [linkElems, hmod]
    generalize hm₁ : linkElems zone memory elemSize n m = m₁ at hpath hout
    obtain ⟨hhead, hnext, hsame⟩ :=
      linkElem_spec m₁ zone (memory + n * elemSize) (by omega) (by omega)
    refine ⟨?_, ?_⟩
    · have hfirst : linkAt (linkElem zone (memory + n * elemSize) m₁) (zone + 4) =
          some (memory + n * elemSize) := by
        unfold linkAt
        rw [hhead, if_neg (by omega)]
      have hrest : linkAt (linkElem zone (memory + n * elemSize) m₁) (memory + n * elemSize) =
          linkAt m₁ (zone + 4) := by
        unfold linkAt
        rw [hnext]
      rw [hfirst, elements, List.range_succ, List.map_append, List.reverse_append]
      refine .cons ?_
      rw [hrest]
      refine hpath.congr ?_
      intro x hx
      -- the elements before this one are not written
      obtain ⟨hlow, hhigh⟩ := mem_elements (List.mem_reverse.mp hx)
      unfold linkAt
      rw [rd32_congr fun y h₁ h₂ => hsame y (by omega) (by omega)]
    · intro x h₁ h₂
      rw [Nat.succ_mul] at h₂
      rw [hsame x h₁ (by omega)]
      exact hout x h₁ (by omega)

/-- The memory after the elements are linked and the zone is put on the list of zones. -/
def zoneMem (m : Mem) (zone memory elemSize n allZones : ℕ) : Mem :=
  wr32 (linkElems zone memory elemSize n (libMemset m memory 0 (elemSize * n))) (zone + 28) allZones

/-- What `zinit` writes into the payloads of the zone and of its elements: the free list has all
elements, and nothing else is written. -/
theorem zoneMem_spec (all : ℕ) (hpos : 0 < memory) (hsize : 4 ≤ elemSize)
    (hlt : memory + n * elemSize < 2 ^ 32)
    (hsep : memory + n * elemSize ≤ zone ∨ zone + 32 ≤ memory) (hcount : n ≤ kernelHeapSize / 4)
    (hfree : rd32 m (zone + 4) = 0) :
    freeElems (zoneMem m zone memory elemSize n all) zone = some (elements memory elemSize n) ∧
      ∀ x, x < zone ∨ zone + 32 ≤ x → x < memory ∨ memory + n * elemSize ≤ x →
        zoneMem m zone memory elemSize n all x = m x := by
  have hclear : ∀ x, x < memory ∨ memory + n * elemSize ≤ x →
      libMemset m memory 0 (elemSize * n) x = m x := by
    intro x hx
    rw [Nat.mul_comm elemSize]
    exact libMemset_outside (by omega) hx
  have hfree' : rd32 (libMemset m memory 0 (elemSize * n)) (zone + 4) = 0 := by
    rw [← hfree]
    exact rd32_congr fun x h₁ h₂ => hclear x (by omega)
  obtain ⟨hpath, hout⟩ := linkElems_path hpos hsize hfree' n hlt (by omega)
  unfold zoneMem
  generalize linkElems zone memory elemSize n (libMemset m memory 0 (elemSize * n)) = m₁
    at hpath hout
  refine ⟨?_, ?_⟩
  · have hhead : linkAt (wr32 m₁ (zone + 28) all) (zone + 4) = linkAt m₁ (zone + 4) := by
      unfold linkAt
      rw [rd32_wr32_ne _ _ (by omega)]
    have hpath' : Path (linkAt (wr32 m₁ (zone + 28) all)) (linkAt m₁ (zone + 4))
        (elements memory elemSize n).reverse := by
      refine hpath.congr ?_
      intro x hx
      obtain ⟨hlow, hhigh⟩ := mem_elements (List.mem_reverse.mp hx)
      unfold linkAt
      rw [rd32_wr32_ne _ _ (by omega)]
    unfold freeElems
    rw [hhead, hpath'.fold _ _ (by simpa [elements] using hcount)]
    simp
  · intro x h₁ h₂
    rw [wr32_outside _ _ (by omega), hout x (by omega) h₂]
    exact hclear x h₂

theorem elements_holds {sz : ℕ} (hl : Lays k s bs)
    (hzone : (zone, sz) ∈ used headerSize k.base bs) (hsz : 32 ≤ sz)
    (hfree : rd32 s.mem (zone + 4) = 0) (hsize : 4 ≤ elemSize) (hask : Asks (elemSize * n)) :
    kmalloc k s (elemSize * n % 2 ^ 32) = some (s, 0) ∨
      ∃ s' memory, kmalloc k s (elemSize * n % 2 ^ 32) = some (s', memory) ∧ memory ≠ 0 ∧
        elemSize * n < 2 ^ 32 ∧ ∀ all, ∃ st,
          st = { s' with mem := zoneMem s'.mem zone memory elemSize n all } ∧ Kept k st ∧
            freeElems st.mem zone = some (elements memory elemSize n) ∧
            InBlock st (memory - headerSize) memory (n * elemSize) := by
  rcases hask with hask | hask
  · rw [Nat.mod_eq_of_lt (by omega)]
    rcases kmalloc_taken hl (elemSize * n) with e | ⟨s', bs', memory, e, hne, ht⟩
    · exact Or.inl e
    · refine Or.inr ⟨s', memory, e, hne, by omega, fun all => ⟨_, rfl, ?_⟩⟩
      obtain ⟨l, r, sz', hsz', hbefore, hafter⟩ := ht.payloads
      have hle := (le_alignUp hask).trans hsz'
      rw [Nat.mul_comm] at hle
      have hmem : (memory, sz') ∈ used headerSize k.base bs' := by
        rw [hafter]
        simp
      -- the two payloads are apart
      have hsep : memory + n * elemSize ≤ zone ∨ zone + 32 ≤ memory := by
        have hpair : (used headerSize k.base bs').Pairwise
            fun p q => p.1 + p.2 + headerSize ≤ q.1 := used_pairwise
        rw [hafter] at hpair
        obtain ⟨-, hr, hlr⟩ := List.pairwise_append.mp hpair
        rcases List.mem_append.mp (hbefore ▸ hzone) with hin | hin
        · have := hlr _ hin _ List.mem_cons_self
          dsimp only at this
          omega
        · have := (List.pairwise_cons.mp hr).1 _ hin
          dsimp only at this
          omega
      have hbound := ht.lays.payload hmem
      have hstop := stop_lt k
      have hcount : n ≤ kernelHeapSize / 4 := by
        have : n * 4 ≤ n * elemSize := Nat.mul_le_mul_left n hsize
        unfold Placement.stop at hbound
        unfold kernelHeapSize headerSize at *
        omega
      have hfree' : rd32 s'.mem (zone + 4) = 0 := by
        rw [← hfree]
        refine rd32_congr fun x h₁ h₂ => ht.frame x ⟨_, hzone, ?_, ?_⟩
        · dsimp only
          omega
        · dsimp only
          omega
      obtain ⟨helems, hout⟩ := zoneMem_spec all (by omega) hsize (by omega) hsep hcount hfree'
      have hl' : Lays k { s' with mem := zoneMem s'.mem zone memory elemSize n all } bs' := by
        refine ht.lays.congr ?_
        intro x _ _ hx
        have h₁ := not_inUse hmem hx
        have h₂ := not_inUse (ht.keep hzone) hx
        exact hout x (by omega) (by omega)
      exact ⟨Or.inr ⟨bs', hl'⟩, helems, lays_inBlock hl' hmem le_rfl (by omega)⟩
  · rw [hask]
    exact Or.inl rfl

theorem zinit_holds {w : World} {size max alloc name : ℕ} (h : Kept k w.heap)
    (hfit : size = 0 ∨ max = 0 ∨ name = 0 ∨ Asks (elemSizeOf size * initialElements max alloc)) :
    ∃ w' p, zinit k w size max alloc name = some (w', p) ∧ Kept k w'.heap ∧
      (p ≠ 0 → ∃ h memory,
        freeElems w'.heap.mem p =
          some (elements memory (elemSizeOf size) (initialElements max alloc)) ∧
        InBlock w'.heap h memory (initialElements max alloc * elemSizeOf size)) := by
  unfold zinit
  by_cases hargs : size = 0 ∨ max = 0 ∨ name = 0
  · exact ⟨w, 0, if_pos hargs, h, fun e => absurd rfl e⟩
  have hask : Asks (elemSizeOf size * initialElements max alloc) := by
    rcases hfit with e | e | e | e
    · exact absurd (Or.inl e) hargs
    · exact absurd (Or.inr (Or.inl e)) hargs
    · exact absurd (Or.inr (Or.inr e)) hargs
    · exact e
  have hsize : 4 ≤ elemSizeOf size := by
    unfold elemSizeOf
    split_ifs <;> omega
  rw [if_neg hargs]
  have hheap : (zoneInit w).heap = w.heap := by
    unfold zoneInit
    split_ifs <;> rfl
  generalize zoneInit w = w₀ at hheap
  obtain ⟨s₁, zone, e₁, hk₁, hzone⟩ := kmalloc_holds h (by decide : 32 ≤ 2 ^ 32 - 8)
  rw [← hheap] at e₁
  dsimp only
  rw [e₁]
  by_cases hz : zone = 0
  · exact ⟨{ w₀ with heap := s₁ }, 0, if_pos hz, hk₁, fun e => absurd rfl e⟩
  have hlt₁ := (hzone hz).lt
  obtain ⟨hout₁, hempty⟩ := initZone_spec s₁.mem name (elemSizeOf size) max
    (by omega : zone + 32 ≤ 2 ^ 32)
  obtain ⟨bs₁, sz₁, hl₁, hused₁, hsz₁⟩ := (hzone hz).write hout₁
  rcases elements_holds hl₁ hused₁ hsz₁ hempty hsize hask with
    e₂ | ⟨s₂, memory, e₂, hne, htotal, hdone⟩
  · -- without memory for the elements the zone is given back
    obtain ⟨s₃, e₃, hk₃⟩ := kfree_kept (Or.inr ⟨bs₁, hl₁⟩) zone
    refine ⟨{ w₀ with heap := s₃ }, 0, (if_neg hz).trans ?_, hk₃, fun e => absurd rfl e⟩
    dsimp only
    rw [e₂]
    show (kfree k _ zone).bind (fun s => some ({ w₀ with heap := s }, 0)) = _
    rw [e₃]
    rfl
  · obtain ⟨st, hst, hk, helems, hin⟩ := hdone w₀.allZones
    refine ⟨{ w₀ with heap := st, allZones := zone }, zone, (if_neg hz).trans ?_, hk,
      fun _ => ⟨_, memory, helems, hin⟩⟩
    dsimp only
    rw [e₂, hst]
    refine (if_neg hne).trans ?_
    rw [Nat.mod_eq_of_lt htotal]
    rfl

/-! ### Runs -/

/-- The arguments of a call are such that no size wraps round and the alignment can be rounded. -/
def Fits : Request → Prop
  | .kmalloc n => Asks n.toNat
  | .kzalloc n => Asks n.toNat
  | .kmallocAligned n a =>
    n = 0 ∨ (a.toNat ≤ 2 ^ 31 ∧ ∀ a' ∈ rounded a.toNat, Asks (alignedSize n.toNat a'))
  | .zinit size max alloc name =>
    size.toNat = 0 ∨ max.toNat = 0 ∨ name.toNat = 0 ∨
      Asks (elemSizeOf size.toNat * initialElements max.toNat alloc.toNat)
  | .kfree _ => True
  | .write _ _ => True

instance : ∀ req, Decidable (Fits req)
  | .kmalloc n => inferInstanceAs (Decidable (Asks n.toNat))
  | .kzalloc n => inferInstanceAs (Decidable (Asks n.toNat))
  | .kmallocAligned _ _ => inferInstanceAs (Decidable (_ ∨ _ ∧ ∀ _ ∈ _, _))
  | .zinit _ _ _ _ => inferInstanceAs (Decidable (_ ∨ _ ∨ _ ∨ _))
  | .kfree _ => isTrue trivial
  | .write _ _ => isTrue trivial

/-- **The runs**: clients write only where they may, and what `kzalloc`, `kmalloc_aligned` and
`zinit` write into the memory they get fits into it. `kmalloc` may be given any size, and `kfree`
any address. -/
def Tame (k : Placement) (w : World) : Request → Prop
  | .kmalloc _ => True
  | .write a _ => Owned k w.heap a.toNat
  | req => Fits req

/-- The memory that was handed out at `p` lies in one block in use, which holds what was asked for:
`n` bytes from `p` on, or all elements on the free list of the zone at `p`. -/
def Granted (s : Statics) (p : ℕ) : Request → Prop
  | .kmalloc n => ∃ h, InBlock s h p n.toNat
  | .kzalloc n => ∃ h, InBlock s h p n.toNat
  | .kmallocAligned n _ => ∃ h, InBlock s h p n.toNat
  | .zinit size max alloc _ =>
    let elemSize := elemSizeOf size.toNat
    let initial := initialElements max.toNat alloc.toNat
    ∃ h memory, freeElems s.mem p = some (elements memory elemSize initial) ∧
      InBlock s h memory (initial * elemSize)
  | .kfree _ => True
  | .write _ _ => True

theorem serve_granted {w : World} (h : Kept k w.heap) {req : Request} (hfit : Fits req)
    (hown : ∀ a v, req = .write a v → Owned k w.heap a.toNat) :
    ∃ w' p, serve k w req = some (w', p) ∧ Kept k w'.heap ∧ (p ≠ 0 → Granted w'.heap p req) := by
  cases req with
  | kmalloc n =>
    obtain ⟨s', p, e, hk, hp⟩ := kmalloc_asks h hfit
    rw [Nat.mod_eq_of_lt n.toNat_lt] at e
    refine ⟨{ w with heap := s' }, p, ?_, hk, fun hne => ⟨_, (hp hne).inBlock⟩⟩
    rw [serve, e]
    rfl
  | kzalloc n =>
    obtain ⟨s', p, e, hk, hp⟩ := kzalloc_holds h n.toNat_lt hfit
    refine ⟨{ w with heap := s' }, p, ?_, hk, fun hne => ⟨_, (hp hne).inBlock⟩⟩
    rw [serve, e]
    rfl
  | kmallocAligned n a =>
    obtain ⟨s', p, raw, e, hk, hp⟩ : ∃ s' p raw,
        kmallocAligned k w.heap n.toNat a.toNat = some (s', p, raw) ∧ Kept k s' ∧
          (p ≠ 0 → ∃ h, InBlock s' h p n.toNat) := by
      rcases hfit with rfl | ⟨ha, hask⟩
      · exact ⟨w.heap, 0, 0, rfl, h, fun e => absurd rfl e⟩
      · obtain ⟨j, -, hround, -⟩ := rounded_pow ha
        exact kmallocAligned_holds h n.toNat_lt hround ha (hask _ hround)
    refine ⟨{ w with heap := s' }, p, ?_, hk, hp⟩
    rw [serve, e]
    rfl
  | zinit size max alloc name => exact zinit_holds h hfit
  | kfree p =>
    obtain ⟨s', e, hk⟩ := kfree_kept h p.toNat
    refine ⟨{ w with heap := s' }, 0, ?_, hk, fun _ => trivial⟩
    rw [serve, e]
    rfl
  | write a v => exact ⟨_, 0, rfl, write_kept h (hown a v rfl) v, fun _ => trivial⟩

theorem run_kept (k : Placement) (m₀ : Mem) {st : Option World}
    (h : Reach (Lifted (Tame k)) (lift (advance k)) (some (boot m₀)) st) :
    ∃ w, st = some w ∧ Kept k w.heap := by
  refine h.returns (I := fun w => Kept k w.heap) ⟨_, rfl, Or.inl ⟨rfl, rfl⟩⟩ ?_
  rintro w req hw hok
  have hserve : (∃ n, req = .kmalloc n) ∨
      (Fits req ∧ ∀ a v, req = .write a v → Owned k w.heap a.toNat) := by
    cases req with
    | kmalloc n => exact Or.inl ⟨n, rfl⟩
    | write a v =>
      refine Or.inr ⟨trivial, ?_⟩
      rintro _ _ ⟨⟩
      exact hok
    | kzalloc n => exact Or.inr ⟨hok, nofun⟩
    | kmallocAligned n a => exact Or.inr ⟨hok, nofun⟩
    | zinit size max alloc name => exact Or.inr ⟨hok, nofun⟩
    | kfree p => exact Or.inr ⟨hok, nofun⟩
  rcases hserve with ⟨n, rfl⟩ | ⟨hfit, hown⟩
  · obtain ⟨r, e, hk⟩ := kmalloc_kept hw n.toNat
    refine ⟨{ w with heap := r.1 }, ?_, hk⟩
    rw [advance, serve, e]
    rfl
  · obtain ⟨w', p, e, hk, -⟩ := serve_granted hw hfit hown
    refine ⟨w', ?_, hk⟩
    rw [advance, e]
    rfl

/-- **Every request that fits is safe.** In every state of every run, a call of `kmalloc`,
`kzalloc`, `kmalloc_aligned` or `zinit` whose arguments fit returns; and if it answers an address,
the memory handed out lies in one block in use that holds what was asked for. -/
theorem requests_safe (k : Placement) (m₀ : Mem) {st : Option World}
    (h : Reach (Lifted (Tame k)) (lift (advance k)) (some (boot m₀)) st) :
    ∃ w, st = some w ∧ ∀ req, Fits req →
      ∃ w' p, serve k w req = some (w', p) ∧ (p ≠ 0 → Granted w'.heap p req) := by
  obtain ⟨w, rfl, hk⟩ := run_kept k m₀ h
  refine ⟨w, rfl, ?_⟩
  intro req hfit
  by_cases hwrite : ∃ a v, req = .write a v
  · obtain ⟨a, v, rfl⟩ := hwrite
    exact ⟨_, 0, rfl, fun e => absurd rfl e⟩
  · obtain ⟨w', p, e, -, hp⟩ := serve_granted hk hfit fun a v he => absurd ⟨a, v, he⟩ hwrite
    exact ⟨w', p, e, hp⟩

/-- Memory of each kind is taken, one block of size 0 because the size wraps round; a byte is
written, and some of the memory is given back. -/
def requestRun : List Request :=
  [.kmalloc 100, .write 0x100010 7, .kzalloc 24, .kmallocAligned 40 48, .zinit 12 8 4 1,
    .kmalloc 0xffffffff, .kfree 0x100010, .kfree 0x1000c0]

theorem requests_safe_run :
    ((requestRun.take 5).foldl (lift (advance oneMiB)) (some (boot fun _ => 0))).bind
        (fun w => freeElems w.heap.mem w.allZones) =
      some [0x100160, 0x10016c, 0x100178, 0x100184] ∧
    ∃ w, requestRun.foldl (lift (advance oneMiB)) (some (boot fun _ => 0)) = some w ∧
      ∀ req, Fits req → ∃ w' p, serve oneMiB w req = some (w', p) ∧
        (p ≠ 0 → Granted w'.heap p req) := by
  refine ⟨by decide +kernel, requests_safe oneMiB _ (Reach.foldl requestRun .init ?_)⟩
  have hzeroed : Fits (.kzalloc 24) := by decide
  have haligned : Fits (.kmallocAligned 40 48) := by decide +kernel
  have hzone : Fits (.zinit 12 8 4 1) := by decide
  have hcalls : ∀ req ∈ requestRun.drop 2, ∀ w, Tame oneMiB w req := by
    intro req hreq w
    simp only [requestRun, List.drop, List.mem_cons, List.not_mem_nil, or_false] at hreq
    rcases hreq with rfl | rfl | rfl | rfl | rfl | rfl
    · exact hzeroed
    · exact haligned
    · exact hzone
    · trivial
    · trivial
    · trivial
  refine ⟨trivial, ?_, Admits.always _ _ hcalls⟩
  exact Or.inr (Or.inr ⟨by decide +kernel, 0x100000, by decide +kernel⟩)

/-- **Sizes wrap round.** A size that is rounded up to 0 gives a block of size 0; an alignment above
`2 ^ 31` is doubled for ever; and a zone of four elements, the sizes of which add up to 8 in 32
bits, has elements outside the heap. -/
theorem size_wraps :
    (∃ w, serve oneMiB (boot fun _ => 0) (.kmalloc 0xffffffff) = some (w, 0x100010) ∧
        ¬ Granted w.heap 0x100010 (.kmalloc 0xffffffff)) ∧
      (serve oneMiB (boot fun _ => 0) (.kmallocAligned 1 0x80000001) = none ∧
        ∀ fuel, double 0x80000001 fuel 1 = none) ∧
      ((serve oneMiB (boot fun _ => 0) (.zinit 0x40000002 4 4 1)).bind fun r =>
          freeElems r.1.heap.mem r.2) = some [0x100040, 0x40100042, 0x80100044, 0xc0100046] := by
  refine ⟨?_, ⟨by decide +kernel, fun fuel => ?_⟩, by decide +kernel⟩
  · obtain ⟨⟨s, p⟩, e, hk⟩ := kmalloc_kept (k := oneMiB) (s := start fun _ => 0)
      (Or.inl ⟨rfl, rfl⟩) 0xffffffff
    obtain rfl : 0x100010 = p := by
      have hanswer : some 0x100010 =
          (kmalloc oneMiB (start fun _ => 0) 0xffffffff).map Prod.snd := by
        decide +kernel
      rw [e] at hanswer
      exact Option.some.inj hanswer
    refine ⟨⟨s, 0, false⟩, ?_, ?_⟩
    · rw [serve, show (0xffffffff : UInt32).toNat = 0xffffffff from rfl]
      exact congrArg (Option.map _) e
    · rintro ⟨h, hin⟩
      exact absurd (hin.le_stop hk) (by decide)
  · exact double_stuck (by decide) fuel 1 (Or.inr ⟨0, by decide, rfl⟩)

end Kerneloid.XnuMemory.SizeSafety
