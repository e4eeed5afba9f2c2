import Kerneloid.Lib.Tiling
import Kerneloid.XnuMemory.Heap

/-! # Segments of the block list

The blocks of the heap as a list (`Seg`): each header lies where the block before it ends, and its
link is the address of the next one. What `kmalloc` and `kfree` do to the headers is what is done to
the blocks of `Lib.Tiling`: a free block is cut in two, and free neighbours are joined. The walks
along the links end, and meet the headers of the segment in order. -/

namespace Kerneloid.XnuMemory.Segments

open Lib.Bytes Lib.Tiling Heap

variable {fuel link sz x : ℕ}

/-- The link of a block that ends at `e`: the next header, or the null pointer at the end of the
heap. -/
def linkTo (stop e : ℕ) : ℕ := if e = stop then 0 else e

/-- The header at `h` is that of the block `b`. -/
structure Header (m : Mem) (stop h : ℕ) (b : Block) : Prop where
  size : size m h = b.size
  canary : canary m h = kheapCanary
  free : free m h = b.free
  next : next m h = linkTo stop (h + headerSize + b.size)

/-- The headers from `h` on are those of the blocks. -/
def Seg (m : Mem) (stop : ℕ) : ℕ → List Block → Prop
  | _, [] => True
  | h, b :: bs => Header m stop h b ∧ Seg m stop (h + headerSize + b.size) bs

variable {m m' : Mem} {stop h n : ℕ} {b c : Block} {l r bs : List Block}

theorem seg_append :
    Seg m stop h (l ++ r) ↔ Seg m stop h l ∧ Seg m stop (h + span headerSize l) r := by
  induction l generalizing h with
  | nil => simp [Seg]
  | cons b l ih =>
    rw [List.cons_append, Seg, Seg, ih, span_cons, and_assoc]
    simp only [Nat.add_assoc]

/-! ### Bytes that are not part of a header -/

theorem Header.congr (hb : Header m stop h b)
    (hm : ∀ x, h ≤ x → x < h + headerSize → m' x = m x) : Header m' stop h b := by
  unfold headerSize at hm
  have hword : ∀ o, o ≤ 12 → rd32 m' (h + o) = rd32 m (h + o) := by
    intro o ho
    refine rd32_congr ?_
    intro x h₁ h₂
    exact hm x (by omega) (by omega)
  refine ⟨?_, ?_, ?_, ?_⟩
  · exact (hword 0 (by omega)).trans hb.size
  · exact (hword 4 (by omega)).trans hb.canary
  · rw [← hb.free]
    unfold Heap.free
    rw [hm (h + 8) (by omega) (by omega)]
  · exact (hword 12 (by omega)).trans hb.next

theorem inUse_cons (hx : InUse headerSize h (b :: bs) x)
    (hlt : h + headerSize + b.size ≤ x) : InUse headerSize (h + headerSize + b.size) bs x := by
  obtain ⟨p, hp, h₁, h₂⟩ := hx
  by_cases hb : b.free = true
  · exact ⟨p, used_free hb ▸ hp, h₁, h₂⟩
  · rw [used_cons (Bool.eq_false_of_not_eq_true hb)] at hp
    rcases List.mem_cons.mp hp with rfl | hp
    · dsimp only at h₂
      omega
    · exact ⟨p, hp, h₁, h₂⟩

theorem Seg.keep (hs : Seg m stop h bs)
    (hm : ∀ x, h ≤ x → x < h + span headerSize bs → ¬ InUse headerSize h bs x → m' x = m x) :
    Seg m' stop h bs := by
  induction bs generalizing h with
  | nil => trivial
  | cons b bs ih =>
    rw [span_cons] at hm
    refine ⟨hs.1.congr ?_, ih hs.2 ?_⟩
    · intro x h₁ h₂
      refine hm x h₁ (by omega) ?_
      rintro ⟨p, hp, hx, -⟩
      have := (used_bounds hp).1
      omega
    · intro x h₁ h₂ hx
      exact hm x (by omega) (by omega) fun hin => hx (inUse_cons hin h₁)

theorem Seg.congr (hs : Seg m stop h bs)
    (hm : ∀ x, h ≤ x → x < h + span headerSize bs → m' x = m x) : Seg m' stop h bs :=
  hs.keep fun x h₁ h₂ _ => hm x h₁ h₂

theorem Seg.replace {bs' : List Block} (hs : Seg m stop h (l ++ b :: r))
    (hnew : Seg m' stop (h + span headerSize l) bs')
    (hspan : span headerSize bs' = headerSize + b.size)
    (hm : ∀ x, x < h + span headerSize l ∨ h + span headerSize l + headerSize + b.size ≤ x → m' x =
      m x) :
    Seg m' stop h (l ++ (bs' ++ r)) := by
  obtain ⟨hl, hr⟩ := seg_append.mp hs
  refine seg_append.mpr ⟨hl.congr fun x _ hx => hm x (Or.inl hx), seg_append.mpr ⟨hnew, ?_⟩⟩
  have hr' := hr.2
  rw [Nat.add_assoc, ← hspan] at hr'
  refine hr'.congr ?_
  intro x hx _
  exact hm x (Or.inr (by omega))

/-! ### Headers are written -/

theorem linkTo_lt {e : ℕ} (he : e < 2 ^ 32) : linkTo stop e < 2 ^ 32 := by
  unfold linkTo
  split_ifs <;> omega

theorem newHeader (hsz : sz < 2 ^ 32)
    (hlink : link = linkTo stop (h + headerSize + sz)) (hlt : link < 2 ^ 32) :
    Header (setNext (setFree (setCanary (setSize m h sz) h kheapCanary) h 1) h link) stop h
      ⟨sz, true⟩ := by
  refine ⟨?_, ?_, ?_, ?_⟩
  all_goals unfold setNext setFree setCanary setSize
  · unfold size
    simp (disch := omega) only [rd32_wr32, rd32_wr32_ne, rd32_update_ne]
    omega
  · unfold canary
    simp (disch := omega) only [rd32_wr32, rd32_wr32_ne, rd32_update_ne]
    rfl
  · unfold free
    simp (disch := omega) only [wr32_outside, Function.update_self]
    rfl
  · unfold next
    rw [rd32_wr32, Nat.mod_eq_of_lt hlt, hlink]

theorem newHeader_outside (hx : x < h ∨ h + headerSize ≤ x) :
    setNext (setFree (setCanary (setSize m h sz) h kheapCanary) h 1) h link x = m x := by
  unfold headerSize at hx
  unfold setNext setFree setCanary setSize
  simp (disch := omega) only [wr32_outside, Function.update_of_ne]

theorem cutHeader (hsz : sz < 2 ^ 32)
    (hlink : link = linkTo stop (h + headerSize + sz)) (hlt : link < 2 ^ 32) :
    Header (setCanary (setFree (setNext (setSize m h sz) h link) h 0) h kheapCanary) stop h
      ⟨sz, false⟩ := by
  refine ⟨?_, ?_, ?_, ?_⟩
  all_goals unfold setNext setFree setCanary setSize
  · unfold size
    simp (disch := omega) only [rd32_wr32, rd32_wr32_ne, rd32_update_ne]
    omega
  · unfold canary
    rw [rd32_wr32]
    rfl
  · unfold free
    simp (disch := omega) only [wr32_outside, Function.update_self]
    rfl
  · unfold next
    simp (disch := omega) only [rd32_wr32, rd32_wr32_ne, rd32_update_ne]
    rw [Nat.mod_eq_of_lt hlt, hlink]

theorem cutHeader_outside (hx : x < h ∨ h + headerSize ≤ x) :
    setCanary (setFree (setNext (setSize m h sz) h link) h 0) h kheapCanary x = m x := by
  unfold headerSize at hx
  unfold setNext setFree setCanary setSize
  simp (disch := omega) only [wr32_outside, Function.update_of_ne]

theorem Header.setFree (hb : Header m stop h b) (v : UInt8) :
    Header (setFree m h v) stop h ⟨b.size, v ≠ 0⟩ := by
  refine ⟨?_, ?_, ?_, ?_⟩
  · rw [← hb.size]
    exact rd32_update_ne m v (by omega)
  · rw [← hb.canary]
    exact rd32_update_ne m v (by omega)
  · unfold Heap.setFree Heap.free
    rw [Function.update_self]
  · rw [← hb.next]
    exact rd32_update_ne m v (by omega)

theorem Header.setCanary (hb : Header m stop h b) :
    Header (setCanary m h kheapCanary) stop h b := by
  refine ⟨?_, ?_, ?_, ?_⟩
  · rw [← hb.size]
    exact rd32_wr32_ne m _ (by omega)
  · exact rd32_wr32 m _ _
  · rw [← hb.free]
    unfold Heap.setCanary Heap.free
    rw [wr32_outside m _ (by omega)]
  · rw [← hb.next]
    exact rd32_wr32_ne m _ (by omega)

theorem setFree_outside {v : UInt8} (hx : x < h ∨ h + headerSize ≤ x) : setFree m h v x = m x := by
  unfold headerSize at hx
  exact Function.update_of_ne (by omega) _ _

theorem setCanary_outside {v : ℕ} (hx : x < h ∨ h + headerSize ≤ x) : setCanary m h v x = m x := by
  unfold headerSize at hx
  exact wr32_outside m v (by omega)

/-! ### A block is taken -/

theorem takeBlock_spec (hb : Header m stop h b) (hn : n ≤ b.size)
    (hend : h + headerSize + b.size ≤ stop) (hstop : stop < 2 ^ 32) :
    Seg (takeBlock m h n) stop h (carve headerSize kheapMinSplit n b) ∧
      ∀ x, x < h ∨ h + headerSize + b.size ≤ x → takeBlock m h n x = m x := by
  unfold takeBlock carve
  dsimp only
  rw [hb.size]
  split_ifs with hsplit
  · have hh : headerSize = 16 := rfl
    have hmin : kheapMinSplit = 16 := rfl
    have hnewb : (h + headerSize + n) % 2 ^ 32 = h + headerSize + n := Nat.mod_eq_of_lt (by omega)
    rw [hnewb]
    -- the link of the new block is that of the old one
    have hlink : next (setFree (setCanary (setSize m (h + headerSize + n)
        (b.size - n - headerSize)) (h + headerSize + n) kheapCanary) (h + headerSize + n) 1) h =
        linkTo stop (h + headerSize + n + headerSize + (b.size - n - headerSize)) := by
      have hext : h + headerSize + n + headerSize + (b.size - n - headerSize) =
          h + headerSize + b.size := by omega
      rw [hext, ← hb.next]
      unfold next setFree setCanary setSize
      simp (disch := omega) only [rd32_wr32_ne, rd32_update_ne]
    have hnew := newHeader (m := m) (h := h + headerSize + n) (by omega) hlink
      (by rw [hlink]; exact linkTo_lt (by omega))
    have hcut : h + headerSize + n = linkTo stop (h + headerSize + n) := by
      unfold linkTo
      rw [if_neg (by omega)]
    refine ⟨⟨cutHeader (by omega) hcut (by omega), hnew.congr ?_, trivial⟩, ?_⟩
    · intro x h₁ h₂
      exact cutHeader_outside (Or.inr (by omega))
    · intro x hx
      rw [cutHeader_outside (by omega), newHeader_outside (by omega)]
  · refine ⟨⟨(hb.setFree 0).setCanary, trivial⟩, ?_⟩
    intro x hx
    rw [setCanary_outside (by omega), setFree_outside (by omega)]

/-! ### The walks along the list -/

theorem stop_cons (hstop : h + span headerSize (b :: bs) = stop) :
    h + headerSize + b.size + span headerSize bs = stop := by
  rw [← hstop, span_cons]
  omega

theorem linkTo_cons (hpos : 0 < h) (hstop : h + span headerSize (b :: bs) = stop) :
    linkTo stop h = h ∧ h ≠ 0 := by
  rw [span_cons] at hstop
  unfold linkTo headerSize at *
  rw [if_neg (by omega)]
  omega

theorem linkTo_nil (hstop : h + span headerSize [] = stop) : linkTo stop h = 0 := by
  rw [span_nil] at hstop
  exact if_pos hstop

theorem onList_eq (cand : ℕ) (hs : Seg m stop h bs) (hpos : 0 < h)
    (hstop : h + span headerSize bs = stop) (hfuel : bs.length < fuel) :
    onList m cand fuel (linkTo stop h) = some (decide (cand ∈ addrs headerSize h bs)) := by
  induction bs generalizing h fuel with
  | nil =>
    obtain ⟨fuel, rfl⟩ := Nat.exists_eq_succ_of_ne_zero (Nat.ne_of_gt hfuel)
    rw [linkTo_nil hstop]
    rfl
  | cons b bs ih =>
    obtain ⟨fuel, rfl⟩ := Nat.exists_eq_succ_of_ne_zero (Nat.ne_of_gt (Nat.zero_lt_of_lt hfuel))
    obtain ⟨hlink, hne⟩ := linkTo_cons hpos hstop
    rw [hlink, onList, if_neg hne, addrs]
    by_cases hc : h = cand
    · rw [if_pos hc]
      simp [hc]
    · have hrest := ih hs.2 (by omega) (stop_cons hstop) (Nat.lt_of_succ_lt_succ hfuel)
      rw [if_neg hc, hs.1.next, hrest]
      simp [Ne.symm hc]

/-- The block of the list can hold `n` bytes. -/
def fits (n : ℕ) (b : ℕ × ℕ × Bool) : Bool := b.2.2 && decide (n ≤ b.2.1)

theorem firstFit_eq (n : ℕ) (hs : Seg m stop h bs) (hpos : 0 < h)
    (hstop : h + span headerSize bs = stop) (hfuel : bs.length < fuel) :
    firstFit m n fuel (linkTo stop h) =
      some (((listed headerSize h bs).find? (fits n)).elim 0 Prod.fst) := by
  induction bs generalizing h fuel with
  | nil =>
    obtain ⟨fuel, rfl⟩ := Nat.exists_eq_succ_of_ne_zero (Nat.ne_of_gt hfuel)
    rw [linkTo_nil hstop]
    rfl
  | cons b bs ih =>
    obtain ⟨fuel, rfl⟩ := Nat.exists_eq_succ_of_ne_zero (Nat.ne_of_gt (Nat.zero_lt_of_lt hfuel))
    obtain ⟨hlink, hne⟩ := linkTo_cons hpos hstop
    have hrest := ih hs.2 (by omega) (stop_cons hstop) (Nat.lt_of_succ_lt_succ hfuel)
    rw [hlink, firstFit, if_neg hne, hs.1.free, hs.1.size, hs.1.next, hrest, listed,
      List.find?_cons]
    by_cases hb : b.free = true ∧ n ≤ b.size
    · rw [if_pos hb, show fits n (h, b.size, b.free) = true by simp [fits, hb]]
      rfl
    · rw [if_neg hb, show fits n (h, b.size, b.free) = false by simpa [fits] using hb]

theorem firstFit_cases (n : ℕ) (hs : Seg m stop h bs) (hpos : 0 < h)
    (hstop : h + span headerSize bs = stop) (hfuel : bs.length < fuel) :
    firstFit m n fuel (linkTo stop h) = some 0 ∨
      ∃ l b r, bs = l ++ b :: r ∧ (b.free = true ∧ n ≤ b.size) ∧
        firstFit m n fuel (linkTo stop h) = some (h + span headerSize l) := by
  rw [firstFit_eq n hs hpos hstop hfuel]
  cases hf : (listed headerSize h bs).find? (fits n) with
  | none => exact Or.inl rfl
  | some c =>
    have hc := List.find?_some hf
    obtain ⟨l, b, r, rfl, rfl⟩ := mem_listed (List.mem_of_find?_eq_some hf)
    exact Or.inr ⟨l, b, r, rfl, by simpa [fits] using hc, rfl⟩

/-! ### Free neighbours are joined -/

theorem merge_spec (hs : Seg m stop h (b :: c :: bs)) (hfree : b.free = true)
    (hstop : h + span headerSize (b :: c :: bs) = stop) (hlt : stop < 2 ^ 32) :
    Seg (merge m h (h + headerSize + b.size)) stop h (⟨b.size + (headerSize + c.size), true⟩ :: bs) ∧
      ∀ x, x < h ∨ h + headerSize + b.size + headerSize ≤ x →
        merge m h (h + headerSize + b.size) x = m x := by
  obtain ⟨hb, hc, hrest⟩ := hs
  simp only [span_cons] at hstop
  have hh : headerSize = 16 := rfl
  have hout : ∀ x, x < h ∨ h + headerSize + b.size + headerSize ≤ x →
      merge m h (h + headerSize + b.size) x = m x := by
    intro x hx
    unfold merge setSize setNext setCanary
    simp (disch := omega) only [wr32_outside]
  have hlink : next (setSize m h (b.size + (headerSize + c.size))) (h + headerSize + b.size) =
      linkTo stop (h + headerSize + (b.size + (headerSize + c.size))) := by
    have hext : h + headerSize + (b.size + (headerSize + c.size)) =
        h + headerSize + b.size + headerSize + c.size := by omega
    rw [hext, ← hc.next]
    unfold next setSize
    rw [rd32_wr32_ne _ _ (by omega)]
  have hlinklt : linkTo stop (h + headerSize + (b.size + (headerSize + c.size))) < 2 ^ 32 :=
    linkTo_lt (by omega)
  refine ⟨⟨⟨?_, ?_, ?_, ?_⟩, ?_⟩, hout⟩
  · unfold merge
    dsimp only
    rw [hb.size, hc.size]
    unfold size setSize setNext setCanary
    simp (disch := omega) only [rd32_wr32, rd32_wr32_ne]
    omega
  · rw [← hb.canary]
    unfold merge canary setSize setNext setCanary
    simp (disch := omega) only [rd32_wr32_ne]
  · rw [← hfree, ← hb.free]
    unfold merge free setSize setNext setCanary
    simp (disch := omega) only [wr32_outside]
  · unfold merge
    dsimp only
    rw [hb.size, hc.size, hlink]
    unfold next setNext setCanary
    rw [rd32_wr32_ne _ _ (by omega), rd32_wr32, Nat.mod_eq_of_lt hlinklt]
  · have hext : h + headerSize + b.size + headerSize + c.size =
        h + headerSize + (b.size + (headerSize + c.size)) := by omega
    rw [hext] at hrest
    refine hrest.congr ?_
    intro x hx _
    exact hout x (by omega)

/-- **`heap_coalesce` joins free neighbours**, and writes neither outside the blocks nor into the
payload of a block in use. -/
theorem heapCoalesce_spec (hs : Seg m stop h (b :: bs)) (hpos : 0 < h)
    (hstop : h + span headerSize (b :: bs) = stop) (hlt : stop < 2 ^ 32)
    (hfuel : bs.length < fuel) :
    ∃ m', heapCoalesce fuel m h = some m' ∧ Seg m' stop h (join headerSize (b :: bs)) ∧
      ∀ x, x < h ∨ stop ≤ x ∨ InUse headerSize h (b :: bs) x → m' x = m x := by
  induction fuel generalizing m h b bs with
  | zero => omega
  | succ fuel ih =>
    have hnext := hs.1.next
    unfold heapCoalesce
    cases bs with
    | nil =>
      have hzero : next m h = 0 := by
        rw [hnext]
        exact linkTo_nil (stop_cons hstop)
      refine ⟨m, if_pos (Or.inr hzero), ?_, fun _ _ => rfl⟩
      rw [join]
      · exact hs
      · rintro _ _ _ ⟨⟩
    | cons c bs =>
      have hstop' := stop_cons hstop
      obtain ⟨hlink, hne⟩ := linkTo_cons (by omega) hstop'
      rw [hlink] at hnext
      have hend : (h + headerSize + size m h) % 2 ^ 32 = next m h := by
        rw [hs.1.size, hnext, Nat.mod_eq_of_lt]
        rw [span_cons] at hstop'
        omega
      rw [if_neg (by rw [hnext]; omega)]
      dsimp only
      rw [hend, hnext, hs.1.free, hs.2.1.free]
      by_cases hboth : b.free = true ∧ c.free = true
      · -- the block grows, and is looked at again
        rw [if_pos ⟨hboth.1, hboth.2, rfl⟩, join_free hboth]
        have hspan : h + span headerSize (⟨b.size + (headerSize + c.size), true⟩ :: bs) = stop := by
          rw [← hstop]
          simp only [span_cons]
          omega
        have hused : used headerSize h (b :: c :: bs) =
            used headerSize h (⟨b.size + (headerSize + c.size), true⟩ :: bs) := by
          rw [← used_join, join_free hboth, used_join]
        obtain ⟨hmerged, hout⟩ := merge_spec hs hboth.1 hstop hlt
        obtain ⟨m', hm', hs', hout'⟩ := ih hmerged hpos hspan (Nat.lt_of_succ_lt_succ hfuel)
        refine ⟨m', hm', hs', ?_⟩
        intro x hx
        unfold InUse at hx hout'
        rw [hused] at hx
        rw [hout' x hx]
        refine hout x ?_
        rw [span_cons, span_cons] at hstop
        rcases hx with hx | hx | ⟨p, hp, hx, -⟩
        · exact Or.inl hx
        · exact Or.inr (by omega)
        · rw [used_free rfl] at hp
          have := (used_bounds hp).1
          exact Or.inr (by dsimp only at this; omega)
      · rw [if_neg fun e => hboth ⟨e.1, e.2.1⟩, join_cons hboth]
        obtain ⟨m', hm', hs', hout'⟩ := ih hs.2 (by omega) hstop' (Nat.lt_of_succ_lt_succ hfuel)
        refine ⟨m', hm', ⟨hs.1.congr ?_, hs'⟩, ?_⟩
        · intro x _ hx
          exact hout' x (Or.inl (by omega))
        · intro x hx
          refine hout' x ?_
          rcases hx with hx | hx | hx
          · exact Or.inl (by omega)
          · exact Or.inr (Or.inl hx)
          · rcases Nat.lt_or_ge x (h + headerSize + b.size) with hlow | hhigh
            · exact Or.inl hlow
            · exact Or.inr (Or.inr (inUse_cons hx hhigh))

end Kerneloid.XnuMemory.Segments
