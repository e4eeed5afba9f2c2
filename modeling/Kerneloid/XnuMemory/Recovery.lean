import Kerneloid.XnuMemory.Ledger

/-! # What is given back

Two results about `kfree`, both over every run of the ledger. When everything that was lent is given
back, in whatever order, the heap is a single free block again (`heap_recovered`). And an address
that is not lent does nothing, unless it leads to what is lent under another address
(`invalid_free_harmless`): `kfree` believes the word before an address, which may be anything that a
client wrote there. -/

namespace Kerneloid.XnuMemory.Recovery

open Lib.Bytes Lib.Runs Lib.Tiling Heap Tiling Segments Ledger

variable {k : Placement} {b : Book} {s s' : Statics} {bs bs' : List Block} {p n : ℕ}

/-! ### Everything is given back -/

theorem Balanced.single (h : Balanced k b bs) (hlive : b.live = []) :
    blockList b.heap = some [(k.base, kernelHeapSize - headerSize, true)] := by
  have hused : used headerSize k.base bs = [] := by
    have hperm := h.perm
    rw [hlive] at hperm
    exact List.map_eq_nil_iff.mp (List.perm_nil.mp hperm)
  have hne : bs ≠ [] := by
    rintro rfl
    cases h.lays.tiles.span
  obtain ⟨n, rfl, hn⟩ := h.lays.tiles.single hused hne
  obtain rfl : n = kernelHeapSize - headerSize := by omega
  exact h.lays.blockList

/-- **`kmalloc` and `kfree` are inverse**: a block that is given back at once is where it was,
whatever was written into it. -/
theorem kmalloc_kfree (hl : Lays k s bs) (hends : Ends kheapMinSplit bs)
    (e : kmalloc k s n = some (s', p)) (hp : p ≠ 0) :
    ∃ bs', Lays k s' bs' ∧ ∀ t, Lays k t bs' → ∃ t', kfree k t p = some t' ∧ Lays k t' bs := by
  rcases kmalloc_lays hl n with e₀ | ⟨l, b, r, s₁, rfl, hfree, hle, e₁, hl₁, -⟩
  · rw [e] at e₀
    cases e₀
    exact absurd rfl hp
  · obtain ⟨rfl, rfl⟩ := Prod.mk.inj (Option.some.inj (e₁.symm.trans e))
    have hends₁ : Ends kheapMinSplit
        (l ++ (carve headerSize kheapMinSplit (alignUp n kheapAlign) b ++ r)) := hends.carve
    obtain ⟨c, cs, hcut, hc, hjoin⟩ := join_carve hl.tiles.apart hfree hle
    rw [hcut, List.cons_append] at hl₁ hends₁
    refine ⟨_, hl₁, fun t ht => ?_⟩
    obtain ⟨t', e₂, hl₂, -⟩ := releaseBlock_lays ht
    rw [hjoin] at hl₂
    exact ⟨t', (kfree_payload ht hends₁ hc).trans e₂, hl₂⟩

/-- **The heap is recovered.** In every state of every run: if nothing is lent, the heap is a single
free block, as it is set up at the start; and memory from `kmalloc` that is given back at once
leaves the block list as it was. -/
theorem heap_recovered (k : Placement) (m₀ : Mem) {st : Option Book}
    (h : Reach (Lifted (Proper k)) (lift (post k)) (some (blank m₀)) st) :
    ∃ b, st = some b ∧
      (b.live = [] → blockList (heapInit k b.heap) =
        some [(k.base, kernelHeapSize - headerSize, true)]) ∧
      ∀ (n : UInt32) s' p, kmalloc k b.heap n.toNat = some (s', p) → p ≠ 0 →
        ∃ s'', kfree k s' p = some s'' ∧ blockList s'' = blockList (heapInit k b.heap) := by
  obtain ⟨b, rfl, hs⟩ := run_sound k m₀ h
  obtain ⟨bs, hb⟩ := hs.ready
  refine ⟨b, rfl, fun hlive => Balanced.single hb hlive, ?_⟩
  intro n s' p e hp
  have hn : n.toNat ≠ 0 := by
    intro hzero
    rw [hzero] at e
    cases e
    exact hp rfl
  rw [kmalloc_heapInit hn] at e
  obtain ⟨bs', hl', hback⟩ := kmalloc_kfree hb.lays hb.ends e hp
  obtain ⟨s'', e', hl⟩ := hback s' hl'
  exact ⟨s'', e', hl.blockList.trans hb.lays.blockList.symm⟩

/-- Blocks are taken with and without an alignment, one of them of size 0 because its size wraps
round, and given back in another order; a byte is written, and an address in a free block is
refused. -/
def recoveryRun : List Ledger.Op :=
  [.malloc 100, .aligned 40 48, .write 0x1000c5 7, .malloc 0xffffffff, .zalloc 24, .free 0x100010,
    .free 0x100020, .free 0x1000c0, .free 0x100118, .free 0x100108]

theorem heap_recovered_run :
    ((recoveryRun.take 5).foldl (lift (post oneMiB)) (some (blank fun _ => 0))).map Book.live =
        some [⟨0x100118, 0x100118⟩, ⟨0x100108, 0x100108⟩, ⟨0x1000c0, 0x100088⟩,
          ⟨0x100010, 0x100010⟩] ∧
      (recoveryRun.foldl (lift (post oneMiB)) (some (blank fun _ => 0))).map Book.live = some [] ∧
      ∃ b, recoveryRun.foldl (lift (post oneMiB)) (some (blank fun _ => 0)) = some b ∧
        (b.live = [] → blockList (heapInit oneMiB b.heap) =
          some [(oneMiB.base, kernelHeapSize - headerSize, true)]) ∧
        ∀ (n : UInt32) s' p, kmalloc oneMiB b.heap n.toNat = some (s', p) → p ≠ 0 →
          ∃ s'', kfree oneMiB s' p = some s'' ∧
            blockList s'' = blockList (heapInit oneMiB b.heap) := by
  refine ⟨by decide +kernel, by decide +kernel, heap_recovered oneMiB _ (Reach.foldl _ .init ?_)⟩
  decide +kernel

theorem blocksFrom_circle {m : Mem} {h : ℕ} (hpos : h ≠ 0) (hnext : next m h = h) :
    ∀ fuel, blocksFrom m fuel h = none
  | 0 => rfl
  | fuel + 1 => by
    rw [blocksFrom, if_neg hpos, hnext, blocksFrom_circle hpos hnext fuel]
    rfl

def lostRun : List Ledger.Op := [.aligned 0xffffffec 16, .free 0x100020]

/-- **A size that is rounded up to 0 is not recovered.** `size + align + 3` is `2 ^ 32 - 1` here and
does not wrap round, but `kmalloc` rounds it up to 0. The word before the aligned address is then
the link of the next header, and the block list goes round in a circle; `kfree` takes the address
for that of a free block. -/
theorem heap_lost :
    ∃ b, lostRun.foldl (lift (post oneMiB)) (some (blank fun _ => 0)) = some b ∧ b.live = [] ∧
      blockList b.heap = none := by
  have hrun : (lostRun.foldl (lift (post oneMiB)) (some (blank fun _ => 0))).map
      (fun b => (b.live, b.heap.head, next b.heap.mem 0x100000, next b.heap.mem 0x100010)) =
        some ([], 0x100000, 0x100010, 0x100010) := by
    decide +kernel
  obtain ⟨b, hb, e⟩ := Option.map_eq_some_iff.mp hrun
  obtain ⟨hlive, e⟩ := Prod.mk.inj e
  obtain ⟨hhead, e⟩ := Prod.mk.inj e
  obtain ⟨hfirst, hsecond⟩ := Prod.mk.inj e
  refine ⟨b, hb, hlive, ?_⟩
  unfold blockList maxSteps
  rw [hhead, blocksFrom, if_neg (by decide), hfirst, blocksFrom_circle (by decide) hsecond]
  rfl

/-! ### Nothing is given back -/

theorem Released.blockList_ne (hl : Lays k s bs) (h : Released k s s' bs bs' p) :
    blockList s' ≠ blockList s := by
  rw [hl.blockList, h.lays.blockList]
  intro e
  obtain rfl := listed_inj (Option.some.inj e)
  obtain ⟨l, r, sz, hbefore, hafter⟩ := h.payloads
  have hlen := congrArg List.length (hbefore.symm.trans hafter)
  simp at hlen

/-- A free block is not in use under the address of its payload, nor under the word before it, which
is the link of its header. -/
theorem free_ne_raw {l r : List Block} {c : Block} {q : ℕ × ℕ} (hl : Lays k s (l ++ c :: r))
    (hc : c.free = true) (hq : q ∈ used headerSize k.base (l ++ c :: r)) :
    q.1 ≠ k.base + span headerSize l + headerSize ∧
      q.1 ≠ rd32 s.mem (k.base + span headerSize l + headerSize - 4) := by
  have hh : headerSize = 16 := rfl
  have hlink : rd32 s.mem (k.base + span headerSize l + headerSize - 4) =
      linkTo k.stop (k.base + span headerSize l + headerSize + c.size) := hl.header.next
  have hbound := used_bounds hq
  have hgap := used_gap hc hq
  rw [hlink]
  unfold linkTo
  refine ⟨by omega, ?_⟩
  split_ifs <;> omega

theorem kfree_related (h : Sound k b) (hrel : ¬ Unrelated k b p) :
    ∃ s', kfree k b.heap p = some s' ∧ blockList s' ≠ blockList b.heap := by
  rcases h with ⟨-, -, hnone⟩ | ⟨bs, hb⟩
  · refine absurd ?_ hrel
    unfold Unrelated
    rw [hnone]
    exact ⟨nofun, fun _ _ _ => nofun⟩
  -- a block in use that `kfree` finds is released
  have hrelease : ∀ {l c r}, bs = l ++ c :: r → c.free = false →
      kfree k b.heap p = releaseBlock b.heap (k.base + span headerSize l) →
      ∃ s', kfree k b.heap p = some s' ∧ blockList s' ≠ blockList b.heap := by
    rintro l c r rfl hc e
    have hmem : (k.base + span headerSize l + headerSize, c.size) ∈
        used headerSize k.base (l ++ c :: r) := by
      rw [used_append, used_cons hc]
      simp
    obtain ⟨s', bs', e', hr⟩ := releaseBlock_released hb.lays hmem
    rw [Nat.add_sub_cancel] at e'
    exact ⟨s', e.trans e', Released.blockList_ne hb.lays hr⟩
  by_cases hp : IsPayload k b.heap p
  · -- a block begins at `p`
    obtain ⟨hlo, hhi, haddr⟩ := hb.lays.isPayload.mp hp
    obtain ⟨l, c, r, rfl, e⟩ := mem_addrs.mp haddr
    obtain rfl : p = k.base + span headerSize l + headerSize := by omega
    cases hc : c.free with
    | false => exact hrelease rfl hc (kfree_payload hb.lays hb.ends hc)
    | true =>
      refine absurd ⟨?_, ?_⟩ hrel
      · intro g hg hraw
        obtain ⟨sz, hsz⟩ := hb.payload hg
        exact absurd hraw (free_ne_raw hb.lays hc hsz).1
      · intro _ _ _ g hg
        obtain ⟨sz, hsz⟩ := hb.payload hg
        exact (free_ne_raw hb.lays hc hsz).2
  · -- the word before `p` is the address of a block in use
    obtain ⟨g, hg, hin, hword⟩ : ∃ g ∈ b.live, (k.base ≤ p ∧ p < k.stop ∧ 4 ≤ p) ∧
        rd32 b.heap.mem (p - 4) = g.raw := by
      by_contra hnone
      refine hrel ⟨?_, ?_⟩
      · intro g hg hraw
        obtain ⟨sz, hsz⟩ := hb.payload hg
        exact absurd (hraw ▸ isPayload_used hb.lays hb.ends hsz) hp
      · intro h₁ h₂ h₃ g hg e
        exact hnone ⟨g, hg, ⟨h₁, h₂, h₃⟩, e.symm⟩
    obtain ⟨sz, hsz⟩ := hb.payload hg
    obtain ⟨l, r, hbs, e⟩ := mem_used hsz
    subst hbs
    exact hrelease rfl rfl (kfree_word hb.lays hb.ends rfl hp hin (hword.trans e))

/-- **Invalid frees.** In every state of every run, an address that is not lent leaves the block
list with all its flags unchanged exactly if it is unrelated to what is lent. -/
theorem invalid_free_harmless (k : Placement) (m₀ : Mem) {st : Option Book}
    (h : Reach (Lifted (Proper k)) (lift (post k)) (some (blank m₀)) st) :
    ∃ b, st = some b ∧ ∀ p : UInt32, (∀ g ∈ b.live, g.ptr ≠ p.toNat) →
      ∃ s', kfree k b.heap p.toNat = some s' ∧
        (blockList s' = blockList b.heap ↔ Unrelated k b p.toNat) := by
  obtain ⟨b, rfl, hs⟩ := run_sound k m₀ h
  refine ⟨b, rfl, ?_⟩
  intro p hlive
  by_cases hun : Unrelated k b p.toNat
  · exact ⟨b.heap, kfree_unrelated hs hlive hun, fun _ => hun, fun _ => rfl⟩
  · obtain ⟨s', e, hne⟩ := kfree_related hs hun
    exact ⟨s', e, fun e' => absurd e' hne, fun e' => absurd e' hun⟩

/-- Two blocks are taken, and the client of the first writes the address of the second into it. -/
def forgedRun : List Ledger.Op :=
  [.malloc 16, .malloc 16, .write 0x100010 0x30, .write 0x100012 0x10]

theorem invalid_free_harmless_run :
    (forgedRun.foldl (lift (post oneMiB)) (some (blank fun _ => 0))).map Book.live =
        some [⟨0x100030, 0x100030⟩, ⟨0x100010, 0x100010⟩] ∧
      ∃ b, forgedRun.foldl (lift (post oneMiB)) (some (blank fun _ => 0)) = some b ∧
        ∀ p : UInt32, (∀ g ∈ b.live, g.ptr ≠ p.toNat) →
          ∃ s', kfree oneMiB b.heap p.toNat = some s' ∧
            (blockList s' = blockList b.heap ↔ Unrelated oneMiB b p.toNat) := by
  refine ⟨by decide +kernel, invalid_free_harmless oneMiB _ (Reach.foldl _ .init ?_)⟩
  decide +kernel

/-- **A forged address is believed.** The address behind the word that the client of the first block
wrote is not lent, and `kfree` releases the second block. -/
theorem forged_free :
    (forgedRun.foldl (lift (post oneMiB)) (some (blank fun _ => 0))).map
        (fun b => b.live.map Grant.ptr) = some [0x100030, 0x100010] ∧
      (forgedRun.foldl (lift (post oneMiB)) (some (blank fun _ => 0))).bind
          (fun b => blockList b.heap) =
        some [(0x100000, 16, false), (0x100020, 16, false), (0x100040, 0x3fffb0, true)] ∧
      (forgedRun.foldl (lift (post oneMiB)) (some (blank fun _ => 0))).bind
          (fun b => (kfree oneMiB b.heap 0x100014).bind blockList) =
        some [(0x100000, 16, false), (0x100020, 0x3fffd0, true)] := by
  refine ⟨?_, ?_, ?_⟩
  all_goals decide +kernel

end Kerneloid.XnuMemory.Recovery
