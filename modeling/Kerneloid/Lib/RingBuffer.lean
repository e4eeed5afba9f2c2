import Mathlib.Tactic

/-! # Ring buffers

A ring buffer keeps `count` entries in `size` slots, from the slot `head` on and round the end of
the slots. Entries are added at `tail` and taken from any place; the entries behind the place taken
are moved up by one slot each. Read from `head` on (`items`), the buffer is a list, and the
operations are those of a list: an entry is added at the end (`items_enqueue`), and taken out of its
place (`items_removeAt`). -/

namespace Kerneloid.Lib.RingBuffer

/-- A ring buffer; only the slots below `size` are used. -/
structure RingBuf (α : Type*) where
  slot : ℕ → α
  size : ℕ
  head : ℕ
  tail : ℕ
  count : ℕ

variable {α : Type*} {r : RingBuf α}

/-- The slot of the entry number `k`. -/
def RingBuf.idx (r : RingBuf α) (k : ℕ) : ℕ := (r.head + k) % r.size

def RingBuf.entry (r : RingBuf α) (k : ℕ) : α := r.slot (r.idx k)

def RingBuf.items (r : RingBuf α) : List α := (List.range r.count).map r.entry

def RingBuf.enqueue (r : RingBuf α) (m : α) : RingBuf α :=
  { r with
    slot := Function.update r.slot r.tail m
    tail := (r.tail + 1) % r.size
    count := r.count + 1 }

/-- The number of the first entry with `p`. -/
def RingBuf.find (r : RingBuf α) (p : α → Bool) : Option ℕ :=
  (List.range r.count).find? fun k => p (r.entry k)

/-- The slots after `n` entries from number `pos` on are each replaced by the one behind it. -/
def RingBuf.shift (r : RingBuf α) (pos n : ℕ) : ℕ → α :=
  (List.range' pos n).foldl
    (fun slot k => Function.update slot (r.idx k) (slot (r.idx (k + 1)))) r.slot

/-- The slot before `i`, round the end. -/
def slotBefore (size i : ℕ) : ℕ := if i = 0 then size - 1 else i - 1

/-- The buffer without the entry number `pos`: the first entry is passed over, for another one the
entries behind it are moved up and the tail goes back by one. -/
def RingBuf.removeAt (r : RingBuf α) (pos : ℕ) : RingBuf α :=
  if pos = 0 then { r with head := (r.head + 1) % r.size, count := r.count - 1 }
  else
    { r with
      slot := r.shift pos (r.count - 1 - pos)
      tail := slotBefore r.size r.tail
      count := r.count - 1 }

/-- **The invariant**: head and count say where the tail is. -/
structure RingBuf.Valid (r : RingBuf α) : Prop where
  head_lt : 0 < r.size → r.head < r.size
  tail_eq : r.tail = (r.head + r.count) % r.size
  count_le : r.count ≤ r.size

@[simp] theorem length_items (r : RingBuf α) : r.items.length = r.count := by simp [RingBuf.items]

theorem getElem_items {k : ℕ} (hk : k < r.items.length) : r.items[k] = r.entry k := by
  simp [RingBuf.items]

theorem idx_inj {i j : ℕ} (hi : i < r.size) (hj : j < r.size) (h : r.idx i = r.idx j) : i = j := by
  have hmod : i ≡ j [MOD r.size] := Nat.ModEq.add_left_cancel' r.head h
  exact hmod.eq_of_lt_of_lt hi hj

/-! ### Adding an entry -/

theorem RingBuf.Valid.enqueue (h : r.Valid) (hc : r.count < r.size) (m : α) :
    (r.enqueue m).Valid := by
  refine ⟨h.head_lt, ?_, hc⟩
  have htail := h.tail_eq
  unfold RingBuf.enqueue
  dsimp only
  rw [htail, Nat.mod_add_mod, Nat.add_assoc]

theorem items_enqueue (h : r.Valid) (hc : r.count < r.size) (m : α) :
    (r.enqueue m).items = r.items ++ [m] := by
  have hidx : r.tail = r.idx r.count := h.tail_eq
  have hold : ∀ k < r.count, (r.enqueue m).entry k = r.entry k := by
    intro k hk
    have hne : r.idx k ≠ r.tail := by
      intro e
      have := idx_inj (by omega) hc (e.trans hidx)
      omega
    exact Function.update_of_ne hne _ _
  have hnew : (r.enqueue m).entry r.count = m := by
    show Function.update r.slot r.tail m (r.idx r.count) = m
    rw [← hidx]
    simp
  unfold RingBuf.items
  rw [show (r.enqueue m).count = r.count + 1 from rfl, List.range_succ, List.map_append]
  congr 1
  · exact List.map_congr_left fun k hk => hold k (List.mem_range.mp hk)
  · simp [hnew]

/-! ### Taking an entry out -/

/-- The moves of `n` entries: those from `pos` on are replaced by the next one, no other changes. -/
theorem shift_idx (pos : ℕ) :
    ∀ n, pos + n < r.size → ∀ k < r.size,
      r.shift pos n (r.idx k) = if pos ≤ k ∧ k < pos + n then r.entry (k + 1) else r.entry k := by
  intro n
  induction n with
  | zero =>
    intro _ k _
    rw [if_neg (by omega)]
    rfl
  | succ n ih =>
    intro hn k hk
    have hstep : r.shift pos (n + 1) = Function.update (r.shift pos n) (r.idx (pos + n))
        (r.shift pos n (r.idx (pos + n + 1))) := by
      unfold RingBuf.shift
      rw [List.range'_concat, List.foldl_append]
      simp
    have hnext : r.shift pos n (r.idx (pos + n + 1)) = r.entry (pos + n + 1) := by
      rw [ih (by omega) _ (by omega), if_neg (by omega)]
    rw [hstep, hnext]
    by_cases hkn : k = pos + n
    · subst hkn
      rw [Function.update_self, if_pos (by omega)]
    · have hne : r.idx k ≠ r.idx (pos + n) := fun e => hkn (idx_inj hk (by omega) e)
      rw [Function.update_of_ne hne, ih (by omega) k hk]
      congr 1
      rw [eq_iff_iff]
      omega

theorem slotBefore_mod {size n : ℕ} (hsize : 0 < size) (hn : 0 < n) :
    slotBefore size (n % size) = (n - 1) % size := by
  have hlt := Nat.mod_lt n hsize
  have hdiv := Nat.div_add_mod n size
  unfold slotBefore
  split_ifs with hz
  · -- `n` is a multiple of the size, and not the first one
    obtain ⟨q, hq⟩ : ∃ q, n / size = q + 1 := by
      refine ⟨n / size - 1, ?_⟩
      rcases Nat.eq_zero_or_pos (n / size) with h0 | h0
      · rw [h0, Nat.mul_zero] at hdiv
        omega
      · omega
    have hn' : n - 1 = size - 1 + size * q := by
      rw [hq, Nat.mul_succ] at hdiv
      omega
    rw [hn', Nat.add_mul_mod_self_left, Nat.mod_eq_of_lt (by omega)]
  · have hn' : n - 1 = n % size - 1 + size * (n / size) := by omega
    rw [hn', Nat.add_mul_mod_self_left]
    exact (Nat.mod_eq_of_lt (by omega)).symm

theorem RingBuf.Valid.removeAt (h : r.Valid) {pos : ℕ} (hpos : pos < r.count) :
    (r.removeAt pos).Valid := by
  have hle := h.count_le
  have hsize : 0 < r.size := by omega
  have htail := h.tail_eq
  unfold RingBuf.removeAt
  split_ifs with h0
  · refine ⟨fun _ => Nat.mod_lt _ hsize, ?_, by dsimp only; omega⟩
    dsimp only
    rw [htail, Nat.mod_add_mod]
    congr 1
    omega
  · refine ⟨h.head_lt, ?_, by dsimp only; omega⟩
    dsimp only
    rw [htail, slotBefore_mod hsize (by omega)]
    congr 1
    omega

theorem entry_removeAt (h : r.Valid) {pos k : ℕ} (hpos : pos < r.count) (hk : k < r.count - 1) :
    (r.removeAt pos).entry k = if k < pos then r.entry k else r.entry (k + 1) := by
  have hle := h.count_le
  unfold RingBuf.removeAt
  split_ifs with h0 hlt hlt
  · omega
  · show r.slot (((r.head + 1) % r.size + k) % r.size) = r.slot ((r.head + (k + 1)) % r.size)
    rw [Nat.mod_add_mod, Nat.add_assoc, Nat.add_comm 1 k]
  · show r.shift pos (r.count - 1 - pos) (r.idx k) = r.entry k
    rw [shift_idx pos _ (by omega) k (by omega), if_neg (by omega)]
  · show r.shift pos (r.count - 1 - pos) (r.idx k) = r.entry (k + 1)
    rw [shift_idx pos _ (by omega) k (by omega), if_pos (by omega)]

theorem items_removeAt (h : r.Valid) {pos : ℕ} (hpos : pos < r.count) :
    (r.removeAt pos).items = r.items.eraseIdx pos := by
  have hcount : (r.removeAt pos).count = r.count - 1 := by
    unfold RingBuf.removeAt
    split_ifs <;> rfl
  apply List.ext_getElem
  · rw [length_items, hcount, List.length_eraseIdx, if_pos (by simpa using hpos), length_items]
  · intro k hk hk'
    rw [length_items, hcount] at hk
    rw [getElem_items, entry_removeAt h hpos hk, List.getElem_eraseIdx]
    split_ifs <;> rw [getElem_items]

/-! ### Searching -/

theorem find?_items (r : RingBuf α) (p : α → Bool) : r.items.find? p = (r.find p).map r.entry :=
  List.find?_map

theorem eraseP_items {p : α → Bool} {pos : ℕ} (h : r.find p = some pos) :
    pos < r.count ∧ r.items.eraseP p = r.items.eraseIdx pos := by
  obtain ⟨hp, hlt, hfirst⟩ := List.find?_range_eq_some.mp h
  rw [List.mem_range] at hlt
  have hidx : r.items.findIdx? p = some pos := by
    rw [List.findIdx?_eq_some_iff_getElem]
    refine ⟨by simpa using hlt, by rw [getElem_items]; exact hp, ?_⟩
    intro j hj
    rw [getElem_items]
    simpa using hfirst j hj
  exact ⟨hlt, by rw [List.eraseP_eq_eraseIdx, hidx]⟩

end Kerneloid.Lib.RingBuffer
