import Kerneloid.XnuMemory.SizeSafety

/-! # The ledger of the heap

The heap together with the memory that is lent: each `Grant` is an address that a client got, with
the address `raw` that `kmalloc` answered for it. The two differ only for memory from
`kmalloc_aligned`. Clients may give back what they got and write into it.

In every state of a run the blocks in use are those of the grants (`Balanced`): `kmalloc` makes one
more block and one more grant, and `kfree` takes both away. An aligned address is not the payload of
a block, and the word before it leads to its block. -/

namespace Kerneloid.XnuMemory.Ledger

open Lib.Bytes Lib.Runs Lib.Tiling Heap Tiling Requests Payloads SizeSafety

variable {l r : List Block} {c : Block}

/-! ### The system -/

/-- Memory that is lent: the address the client got, and the address of the payload. -/
structure Grant where
  ptr : ℕ
  raw : ℕ
  deriving DecidableEq

/-- The heap and what is lent. -/
structure Book where
  heap : Statics
  live : List Grant

inductive Op
  | malloc (size : UInt32)
  | zalloc (size : UInt32)
  | aligned (size align : UInt32)
  | free (p : UInt32)
  | write (a : UInt32) (v : UInt8)
  deriving DecidableEq

/-- An address that is not null is lent. -/
def enter (live : List Grant) (ptr raw : ℕ) : List Grant :=
  if ptr = 0 then live else ⟨ptr, raw⟩ :: live

def post (k : Placement) (b : Book) : Op → Option Book
  | .malloc n => (kmalloc k b.heap n.toNat).map fun r => ⟨r.1, enter b.live r.2 r.2⟩
  | .zalloc n => (kzalloc k b.heap n.toNat).map fun r => ⟨r.1, enter b.live r.2 r.2⟩
  | .aligned n a =>
    (kmallocAligned k b.heap n.toNat a.toNat).map fun r => ⟨r.1, enter b.live r.2.1 r.2.2⟩
  | .free p =>
    (kfree k b.heap p.toNat).map fun s => ⟨s, b.live.eraseP fun g => g.ptr = p.toNat⟩
  | .write a v => some { b with heap.mem := Function.update b.heap.mem a.toNat v }

/-- The book at the start; nothing is known of the memory. -/
def blank (m : Mem) : Book := ⟨start m, []⟩

/-- A client may write at `a`: outside the heap, or into what it got, to the end of the block. -/
def Lent (k : Placement) (b : Book) (a : ℕ) : Prop :=
  a < k.base ∨ k.stop ≤ a ∨
    ∃ g ∈ b.live, g.ptr ≤ a ∧ a < g.raw + size b.heap.mem (g.raw - headerSize)

/-- The address `p` does not lead to what is lent under another address: it is not the address that
`kmalloc` answered for an aligned grant, and the word before it is not the address that `kmalloc`
answered for any grant. -/
def Unrelated (k : Placement) (b : Book) (p : ℕ) : Prop :=
  (∀ g ∈ b.live, g.raw = p → g.ptr = p) ∧
    (k.base ≤ p → p < k.stop → 4 ≤ p → ∀ g ∈ b.live, g.raw ≠ rd32 b.heap.mem (p - 4))

/-- **The runs**: memory is taken with sizes that fit, only for `kmalloc` with any size; what is
given back is lent, or unrelated to what is lent; and clients write only where they may. -/
def Proper (k : Placement) (b : Book) : Op → Prop
  | .malloc _ => True
  | .zalloc n => Asks n.toNat
  | .aligned n a => Fits (.kmallocAligned n a)
  | .free p => (∃ g ∈ b.live, g.ptr = p.toNat) ∨ Unrelated k b p.toNat
  | .write a _ => Lent k b a.toNat

instance (k : Placement) (b : Book) (a : ℕ) : Decidable (Lent k b a) :=
  inferInstanceAs (Decidable (_ ∨ _ ∨ ∃ _ ∈ _, _))

instance (k : Placement) (b : Book) (p : ℕ) : Decidable (Unrelated k b p) :=
  inferInstanceAs (Decidable ((∀ _ ∈ _, _) ∧ (_ → _ → _ → ∀ _ ∈ _, _)))

instance (k : Placement) (b : Book) : ∀ op, Decidable (Proper k b op)
  | .malloc _ => isTrue trivial
  | .zalloc n => inferInstanceAs (Decidable (Asks n.toNat))
  | .aligned n a => inferInstanceAs (Decidable (Fits (.kmallocAligned n a)))
  | .free _ => inferInstanceAs (Decidable ((∃ _ ∈ _, _) ∨ _))
  | .write a _ => inferInstanceAs (Decidable (Lent k b a.toNat))

variable {k : Placement} {b : Book} {s s' : Statics} {m m' : Mem} {bs bs' : List Block}
variable {us us' : List (ℕ × ℕ)} {live : List Grant} {g g' : Grant} {p n sz sz' x : ℕ}

/-! ### The invariant -/

/-- The grant lies in a payload in use: it begins where the payload does, or the word before it is
the address of the payload. -/
def Held (m : Mem) (us : List (ℕ × ℕ)) (g : Grant) : Prop :=
  g.ptr = g.raw ∨ ∃ sz, (g.raw, sz) ∈ us ∧ g.raw + 4 ≤ g.ptr ∧ g.ptr < g.raw + sz ∧
    rd32 m (g.ptr - 4) = g.raw

/-- **The blocks in use are those of the grants.** -/
structure Balanced (k : Placement) (b : Book) (bs : List Block) : Prop where
  lays : Lays k b.heap bs
  ends : Ends kheapMinSplit bs
  perm : ((used headerSize k.base bs).map Prod.fst).Perm (b.live.map Grant.raw)
  held : ∀ g ∈ b.live, Held b.heap.mem (used headerSize k.base bs) g

def Sound (k : Placement) (b : Book) : Prop :=
  (b.heap.initialized = false ∧ b.heap.head = 0 ∧ b.live = []) ∨ ∃ bs, Balanced k b bs

theorem Held.le (h : Held m us g) : g.raw ≤ g.ptr := by
  rcases h with e | ⟨sz, -, hlo, -, -⟩
  · exact e.ge
  · omega

theorem Held.congr (h : Held m us g) (hus : ∀ sz, (g.raw, sz) ∈ us → (g.raw, sz) ∈ us')
    (hm : ∀ sz x, (g.raw, sz) ∈ us → g.raw ≤ x → x < g.raw + sz → x < g.ptr → m' x = m x) :
    Held m' us' g := by
  rcases h with e | ⟨sz, hmem, hlo, hhi, hword⟩
  · exact Or.inl e
  · refine Or.inr ⟨sz, hus sz hmem, hlo, hhi, ?_⟩
    rw [← hword]
    exact rd32_congr fun x h₁ h₂ => hm sz x hmem (by omega) (by omega) (by omega)

theorem Balanced.nodup (h : Balanced k b bs) : (b.live.map Grant.raw).Nodup :=
  h.perm.nodup_iff.mp (used_nodup (by decide))

theorem Balanced.payload (h : Balanced k b bs) (hg : g ∈ b.live) :
    ∃ sz, (g.raw, sz) ∈ used headerSize k.base bs := by
  have hraw := h.perm.symm.subset (List.mem_map_of_mem hg)
  obtain ⟨⟨p, sz⟩, hp, e⟩ := List.mem_map.mp hraw
  exact ⟨sz, e ▸ hp⟩

theorem Balanced.grant_unique (h : Balanced k b bs) (hg : g ∈ b.live) (hg' : g' ∈ b.live)
    (e : g.raw = g'.raw) : g = g' :=
  List.inj_on_of_nodup_map h.nodup hg hg' e

/-! ### Clients write -/

/-- **What clients write** where they may changes neither a header nor the word before an aligned
address. -/
theorem Balanced.write (h : Balanced k b bs) (m' : Mem)
    (hm : ∀ x, k.base ≤ x → x < k.stop → (∀ g ∈ b.live, ∀ sz, (g.raw, sz) ∈ used headerSize k.base
      bs → g.ptr ≤ x → g.raw + sz ≤ x) → m' x = b.heap.mem x) :
    Balanced k { b with heap.mem := m' } bs := by
  refine ⟨h.lays.congr ?_, h.ends, h.perm, ?_⟩
  · intro x hlo hhi hx
    refine hm x hlo hhi ?_
    intro g hg sz hsz hptr
    have hle := (h.held g hg).le
    have := not_inUse hsz hx
    omega
  · intro g hg
    refine (h.held g hg).congr (fun _ => id) ?_
    intro sz x hsz hlo hhi hlt
    have hbound := h.lays.payload hsz
    refine hm x (by omega) (by omega) ?_
    intro g' hg' sz' hsz' hptr
    -- the payload of another grant does not hold this byte
    by_contra hin
    have hle := (h.held g' hg').le
    have hsame := used_unique hsz hsz' (y := x) ⟨hlo, hhi⟩ (by dsimp only; omega)
    obtain rfl := h.grant_unique hg hg' (congrArg Prod.fst hsame)
    omega

theorem Sound.write (h : Sound k b) {a : ℕ} (hok : Lent k b a) (v : UInt8) :
    Sound k { b with heap.mem := Function.update b.heap.mem a v } := by
  rcases h with hearly | ⟨bs, hb⟩
  · exact Or.inl hearly
  · refine Or.inr ⟨bs, hb.write _ ?_⟩
    intro x hlo hhi hx
    refine Function.update_of_ne ?_ _ _
    rintro rfl
    rcases hok with hlow | hhigh | ⟨g, hg, hptr, hend⟩
    · omega
    · omega
    · obtain ⟨sz, hsz⟩ := hb.payload hg
      have hle := hx g hg sz hsz hptr
      obtain ⟨l, r, rfl, e⟩ := mem_used hsz
      dsimp only at e
      have hhdr : g.raw - headerSize = k.base + span headerSize l := by omega
      rw [hhdr, hb.lays.header.size] at hend
      dsimp only at hend
      omega

/-! ### Memory is taken -/

theorem Balanced.take (h : Balanced k b bs) (ht : Taken k b.heap s' bs bs' p n) :
    Balanced k ⟨s', ⟨p, p⟩ :: b.live⟩ bs' := by
  obtain ⟨l, r, sz, -, hbefore, hafter⟩ := ht.payloads
  refine ⟨ht.lays, ht.ends h.ends, ?_, ?_⟩
  · have hperm := h.perm
    rw [hbefore, List.map_append] at hperm
    rw [hafter, List.map_append, List.map_cons, List.map_cons]
    exact List.perm_middle.trans (hperm.cons p)
  · intro g hg
    rcases List.mem_cons.mp hg with rfl | hg
    · exact Or.inl rfl
    · refine (h.held g hg).congr (fun _ => ht.keep) ?_
      intro sz x hsz hlo hhi _
      exact ht.frame x ⟨_, hsz, hlo, hhi⟩

theorem Sound.ready (h : Sound k b) : ∃ bs, Balanced k ⟨heapInit k b.heap, b.live⟩ bs := by
  rcases h with ⟨hi, -, hlive⟩ | ⟨bs, hb⟩
  · refine ⟨_, heapInit_lays hi, ?_, ?_, ?_⟩
    · show kheapMinSplit ≤ kernelHeapSize - headerSize
      decide
    · rw [hlive]
      exact List.Perm.nil
    · rw [hlive]
      intro g hg
      cases hg
  · refine ⟨bs, ?_⟩
    rw [heapInit_of_initialized hb.lays.initialized]
    exact hb

theorem Sound.malloc (h : Sound k b) (n : ℕ) :
    ∃ s' p, kmalloc k b.heap n = some (s', p) ∧
      ((p = 0 ∧ Sound k ⟨s', b.live⟩) ∨
        (p ≠ 0 ∧ ∃ bs' sz, Balanced k ⟨s', ⟨p, p⟩ :: b.live⟩ bs' ∧
          (p, sz) ∈ used headerSize k.base bs' ∧ alignUp n kheapAlign ≤ sz)) := by
  by_cases hn : n = 0
  · refine ⟨b.heap, 0, ?_, Or.inl ⟨rfl, h⟩⟩
    unfold kmalloc
    exact if_pos hn
  · obtain ⟨bs, hb⟩ := h.ready
    rw [kmalloc_heapInit hn]
    rcases kmalloc_taken hb.lays n with e | ⟨s', bs', p, e, hne, ht⟩
    · exact ⟨_, 0, e, Or.inl ⟨rfl, Or.inr ⟨bs, hb⟩⟩⟩
    · obtain ⟨sz, hsz, hmem⟩ := ht.mem
      exact ⟨s', p, e, Or.inr ⟨hne, bs', sz, hb.take ht, hmem, hsz⟩⟩

theorem Sound.zalloc (h : Sound k b) (hn : n < 2 ^ 32) (hask : Asks n) :
    ∃ s' p, kzalloc k b.heap n = some (s', p) ∧ Sound k ⟨s', enter b.live p p⟩ := by
  obtain ⟨s', p, e, hres⟩ := h.malloc n
  unfold kzalloc
  rw [e]
  rcases hres with ⟨rfl, hs⟩ | ⟨hne, bs', sz, hb, hmem, hsz⟩
  · exact ⟨s', 0, rfl, hs⟩
  · have hle : n ≤ sz := by
      rcases hask with hask | hask
      · exact (le_alignUp hask).trans hsz
      · rw [Nat.mod_eq_of_lt hn] at hask
        omega
    have hbound := hb.lays.payload hmem
    have hstop := stop_lt k
    refine ⟨_, p, if_neg hne, ?_⟩
    unfold enter
    rw [if_neg hne]
    refine Or.inr ⟨bs', hb.write (libMemset s'.mem p 0 n) ?_⟩
    intro x _ _ hx
    refine libMemset_outside (by omega) ?_
    by_contra hin
    have := hx ⟨p, p⟩ List.mem_cons_self sz hmem (by dsimp only; omega)
    dsimp only at this
    omega

theorem Balanced.shift {raw al : ℕ} (h : Balanced k ⟨s, ⟨raw, raw⟩ :: live⟩ bs)
    (hmem : (raw, sz) ∈ used headerSize k.base bs) (hlo : raw + 4 ≤ al) (hhi : al < raw + sz) :
    Balanced k ⟨{ s with mem := wr32 s.mem (al - 4) raw }, ⟨al, raw⟩ :: live⟩ bs := by
  have hbound := h.lays.payload hmem
  have hstop := stop_lt k
  have hw := h.write (wr32 s.mem (al - 4) raw) (by
    intro x _ _ hx
    refine wr32_outside _ _ ?_
    by_contra hin
    have := hx ⟨raw, raw⟩ List.mem_cons_self sz hmem (by dsimp only; omega)
    dsimp only at this
    omega)
  refine ⟨hw.lays, hw.ends, hw.perm, ?_⟩
  intro g hg
  rcases List.mem_cons.mp hg with rfl | hg
  · refine Or.inr ⟨sz, hmem, hlo, hhi, ?_⟩
    exact (rd32_wr32 s.mem _ _).trans (Nat.mod_eq_of_lt (by omega))
  · exact hw.held g (List.mem_cons_of_mem _ hg)

theorem Sound.aligned (h : Sound k b) {size align : UInt32}
    (hfit : Fits (.kmallocAligned size align)) :
    ∃ s' p raw, kmallocAligned k b.heap size.toNat align.toNat = some (s', p, raw) ∧
      Sound k ⟨s', enter b.live p raw⟩ := by
  rcases hfit with rfl | ⟨ha, hask⟩
  · exact ⟨b.heap, 0, 0, rfl, h⟩
  obtain ⟨j, hj, hround, -⟩ := rounded_pow ha
  have hlt := size.toNat_lt
  generalize size.toNat = n at hask hlt
  by_cases hn : n = 0
  · exact ⟨b.heap, 0, 0, if_pos hn, h⟩
  have hask' := hask _ hround
  unfold alignedSize at hask'
  by_cases hsmall : 2 ^ j ≤ kheapAlign
  · obtain ⟨s', p, e, hres⟩ := h.malloc n
    refine ⟨s', p, p, kmallocAligned_small hround hn hsmall e, ?_⟩
    unfold enter
    rcases hres with ⟨rfl, hs⟩ | ⟨hne, bs', sz, hb, -⟩
    · exact hs
    · rw [if_neg hne]
      exact Or.inr ⟨bs', hb⟩
  · rw [if_neg hsmall] at hask'
    obtain ⟨s', raw, e, hres⟩ := h.malloc ((n + (2 ^ j - 1 + 4)) % 2 ^ 32)
    rcases hres with ⟨rfl, hs⟩ | ⟨hne, bs', sz, hb, hmem, hsz⟩
    · exact ⟨s', 0, 0, kmallocAligned_null hround hn hsmall e, hs⟩
    · have hsize : n + (2 ^ j - 1 + 4) ≤ sz := by
        rcases hask' with hle | hzero
        · rw [Nat.mod_eq_of_lt (by omega)] at hsz
          exact (le_alignUp hle).trans hsz
        · -- no memory is given for size 0
          rw [hzero] at e
          cases e
          exact absurd rfl hne
      have hbound := hb.lays.payload hmem
      have hstop := stop_lt k
      obtain ⟨al, e', -, hlo, hhi⟩ := kmallocAligned_eq hround hj hn hsmall e hne (by omega)
      refine ⟨_, al, raw, e', ?_⟩
      unfold enter
      rw [if_neg (by omega)]
      exact Or.inr ⟨bs', hb.shift hmem hlo (by omega)⟩

/-! ### Memory is given back -/

/-- The payload of a block is an address in the heap, also if the block has size 0: it is not the
last one. -/
theorem payload_lt (hl : Lays k s (l ++ c :: r)) (hends : Ends kheapMinSplit (l ++ c :: r)) :
    k.base + span headerSize l + headerSize < k.stop := by
  have hreach := hl.reaches
  have hh : headerSize = 16 := rfl
  rw [span_append, span_cons] at hreach
  rw [ends_append] at hends
  cases r with
  | nil =>
    have hsize : kheapMinSplit ≤ c.size := hends
    unfold kheapMinSplit at hsize
    omega
  | cons d r =>
    rw [span_cons] at hreach
    omega

theorem isPayload_block (hl : Lays k s (l ++ c :: r)) (hends : Ends kheapMinSplit (l ++ c :: r)) :
    IsPayload k s (k.base + span headerSize l + headerSize) := by
  refine hl.isPayload.mpr ⟨by omega, payload_lt hl hends, ?_⟩
  rw [Nat.add_sub_cancel]
  exact mem_addrs.mpr ⟨l, c, r, rfl, rfl⟩

theorem isPayload_used {p sz : ℕ} {bs : List Block} (hl : Lays k s bs) (hends : Ends kheapMinSplit bs)
    (hmem : (p, sz) ∈ used headerSize k.base bs) : IsPayload k s p := by
  obtain ⟨l, r, rfl, hp⟩ := mem_used hmem
  dsimp only at hp hl hends
  rw [hp]
  exact isPayload_block hl hends

theorem not_free (hl : Lays k s (l ++ c :: r)) (hc : c.free = false) :
    ¬ free s.mem (k.base + span headerSize l) = true := by
  rw [hl.header.free, hc]
  decide

theorem kfree_payload (hl : Lays k s (l ++ c :: r))
    (hends : Ends kheapMinSplit (l ++ c :: r)) (hc : c.free = false) :
    kfree k s (k.base + span headerSize l + headerSize) =
      releaseBlock s (k.base + span headerSize l) := by
  rw [kfree_eq hl]
  unfold target
  rw [if_pos (isPayload_block hl hends), Nat.add_sub_cancel]
  exact if_neg (not_free hl hc)

theorem kfree_word (hl : Lays k s (l ++ c :: r)) (hends : Ends kheapMinSplit (l ++ c :: r))
    (hc : c.free = false) (hnot : ¬ IsPayload k s p) (hin : k.base ≤ p ∧ p < k.stop ∧ 4 ≤ p)
    (hword : rd32 s.mem (p - 4) = k.base + span headerSize l + headerSize) :
    kfree k s p = releaseBlock s (k.base + span headerSize l) := by
  rw [kfree_eq hl]
  unfold target
  rw [if_neg hnot, hword, if_pos ⟨hin.1, hin.2.1, hin.2.2, isPayload_block hl hends⟩,
    Nat.add_sub_cancel]
  exact if_neg (not_free hl hc)

theorem kfree_inside {raw : ℕ} (hl : Lays k s bs) (hends : Ends kheapMinSplit bs)
    (hmem : (raw, sz) ∈ used headerSize k.base bs) (hlo : raw + 4 ≤ p) (hhi : p < raw + sz)
    (hword : rd32 s.mem (p - 4) = raw) : kfree k s p = releaseBlock s (raw - headerSize) := by
  obtain ⟨l, r, rfl, hraw⟩ := mem_used hmem
  dsimp only at hraw
  have hh : headerSize = 16 := rfl
  have hend := hl.bound
  dsimp only at hend
  -- there is no header between that of the block and its end
  have hnot : ¬ IsPayload k s p := by
    intro hp
    have hgap := addrs_gap (hl.isPayload.mp hp).2.2
    dsimp only at hgap
    omega
  rw [hraw] at hword ⊢
  rw [kfree_word hl hends rfl hnot (by omega) hword, Nat.add_sub_cancel]

theorem kfree_held (h : Balanced k b bs) (hg : g ∈ b.live) :
    kfree k b.heap g.ptr = releaseBlock b.heap (g.raw - headerSize) := by
  obtain ⟨sz, hsz⟩ := h.payload hg
  rcases h.held g hg with e | ⟨sz', hsz', hlo, hhi, hword⟩
  · obtain ⟨l, r, rfl, hraw⟩ := mem_used hsz
    dsimp only at hraw
    rw [e, hraw, kfree_payload h.lays h.ends rfl, Nat.add_sub_cancel]
  · exact kfree_inside h.lays h.ends hsz' hlo hhi hword

theorem Balanced.release (h : Balanced k b bs) (hg : g ∈ b.live) (hptr : g.ptr = p) :
    ∃ s' bs', kfree k b.heap p = some s' ∧
      Balanced k ⟨s', b.live.eraseP fun g => g.ptr = p⟩ bs' := by
  obtain ⟨g₀, l₁, l₂, -, hg₀, hsplit, herase⟩ :=
    List.exists_of_eraseP (p := fun g : Grant => decide (g.ptr = p)) hg (decide_eq_true hptr)
  have hmem : g₀ ∈ b.live := by
    rw [hsplit]
    simp
  obtain rfl : g₀.ptr = p := of_decide_eq_true hg₀
  obtain ⟨sz, hsz⟩ := h.payload hmem
  obtain ⟨s', bs', e, hr⟩ := releaseBlock_released h.lays hsz
  obtain ⟨l, r, sz', hbefore, hafter⟩ := hr.payloads
  refine ⟨s', bs', (kfree_held h hmem).trans e, hr.lays, hr.ends h.ends, ?_, ?_⟩
  · have hperm := h.perm
    rw [hbefore, hsplit, List.map_append, List.map_append, List.map_cons, List.map_cons] at hperm
    rw [hafter, herase, List.map_append, List.map_append]
    exact (List.perm_middle.symm.trans (hperm.trans List.perm_middle)).cons_inv
  · intro g' hg'
    have hlive : g' ∈ b.live := List.mem_of_mem_eraseP hg'
    have hne : g'.raw ≠ g₀.raw := by
      intro e
      have hnodup := h.nodup
      rw [hsplit, List.map_append, List.map_cons] at hnodup
      rw [herase] at hg'
      have hnot := (List.nodup_middle.mp hnodup).notMem
      rw [← List.map_append, ← e] at hnot
      exact hnot (List.mem_map_of_mem hg')
    have hkeep : ∀ sz, (g'.raw, sz) ∈ used headerSize k.base bs →
        (g'.raw, sz) ∈ used headerSize k.base bs' := by
      intro sz hsz
      rw [hbefore] at hsz
      rw [hafter]
      rcases List.mem_append.mp hsz with hin | hin
      · exact List.mem_append_left r hin
      · rcases List.mem_cons.mp hin with e | hin
        · exact absurd (congrArg Prod.fst e) hne
        · exact List.mem_append_right l hin
    refine (h.held g' hlive).congr hkeep ?_
    intro sz x hsz hlo hhi _
    exact hr.frame x ⟨_, hkeep sz hsz, hlo, hhi⟩

theorem kfree_unrelated (h : Sound k b) (hlive : ∀ g ∈ b.live, g.ptr ≠ p)
    (hun : Unrelated k b p) : kfree k b.heap p = some b.heap := by
  rcases h with ⟨hi, -, -⟩ | ⟨bs, hb⟩
  · exact kfree_early hi p
  rcases kfree_lays hb.lays p with e | ⟨l, c, r, rfl, hc, ht, -⟩
  · exact e
  -- the block would be that of a grant
  exfalso
  have hused : k.base + span headerSize l + headerSize ∈ b.live.map Grant.raw := by
    refine hb.perm.subset ?_
    rw [used_append, used_cons hc]
    simp
  obtain ⟨g, hg, hraw⟩ := List.mem_map.mp hused
  unfold target at ht
  split_ifs at ht with hp hw
  · have hhdr := Option.some.inj ht
    have hpay := hp.1
    have e : g.raw = p := by omega
    exact hlive g hg (hun.1 g hg e)
  · have hhdr := Option.some.inj ht
    have hpay := hw.2.2.2.1
    have e : g.raw = rd32 b.heap.mem (p - 4) := by omega
    exact hun.2 hw.1 hw.2.1 hw.2.2.1 g hg e

/-! ### Runs -/

theorem post_sound (h : Sound k b) {op : Op} (hok : Proper k b op) :
    ∃ b', post k b op = some b' ∧ Sound k b' := by
  cases op with
  | malloc n =>
    obtain ⟨s', p, e, hres⟩ := h.malloc n.toNat
    refine ⟨⟨s', enter b.live p p⟩, ?_, ?_⟩
    · rw [post, e]
      rfl
    · unfold enter
      rcases hres with ⟨rfl, hs⟩ | ⟨hne, bs', sz, hb, -⟩
      · exact hs
      · rw [if_neg hne]
        exact Or.inr ⟨bs', hb⟩
  | zalloc n =>
    obtain ⟨s', p, e, hs⟩ := h.zalloc n.toNat_lt hok
    refine ⟨_, ?_, hs⟩
    rw [post, e]
    rfl
  | aligned n a =>
    obtain ⟨s', p, raw, e, hs⟩ := h.aligned hok
    refine ⟨_, ?_, hs⟩
    rw [post, e]
    rfl
  | free p =>
    by_cases hlive : ∃ g ∈ b.live, g.ptr = p.toNat
    · obtain ⟨g, hg, hptr⟩ := hlive
      rcases h with ⟨-, -, hnone⟩ | ⟨bs, hb⟩
      · rw [hnone] at hg
        cases hg
      · obtain ⟨s', bs', e, hb'⟩ := hb.release hg hptr
        refine ⟨_, ?_, Or.inr ⟨bs', hb'⟩⟩
        rw [post, e]
        rfl
    · have hnot : ∀ g ∈ b.live, g.ptr ≠ p.toNat := fun g hg e => hlive ⟨g, hg, e⟩
      have hsame : b.live.eraseP (fun g => decide (g.ptr = p.toNat)) = b.live :=
        List.eraseP_of_forall_not fun g hg => by simpa using hnot g hg
      refine ⟨b, ?_, h⟩
      rw [post, kfree_unrelated h hnot (hok.resolve_left hlive), Option.map_some, hsame]
  | write a v => exact ⟨_, rfl, h.write hok v⟩

theorem run_sound (k : Placement) (m₀ : Mem) {st : Option Book}
    (h : Reach (Lifted (Proper k)) (lift (post k)) (some (blank m₀)) st) :
    ∃ b, st = some b ∧ Sound k b :=
  h.returns (I := Sound k) ⟨_, rfl, Or.inl ⟨rfl, rfl, rfl⟩⟩ fun _ _ hs hok => post_sound hs hok

end Kerneloid.XnuMemory.Ledger
