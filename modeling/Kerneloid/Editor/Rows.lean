import Kerneloid.Editor.Ops
import Kerneloid.UnnamedFS.Decode

/-! # The strings in the rows

What the loops of the editor do to one row. `Spells row l` says that the row holds the C string `l`;
the bytes behind its NUL do not matter. Every loop is followed byte by byte (`shiftRight_returns`,
`shiftLeft_returns`, …), and then read as an operation on strings (`Spells.insert`, `Spells.erase`,
`Spells.join`, `Spells.cut`, `Spells.rest`). -/

namespace Kerneloid.Editor.Rows

open Lib.Arrays UnnamedFS.Types
open UnnamedFS.Decode (takeWhile_range)
open Ops

/-- **The row holds the string `l`.** -/
structure Spells (row : Row) (l : CStr) : Prop where
  fits : l.length < maxCols
  nul : 0 ∉ l
  bytes : ∀ j ≤ l.length, row j = l.getD j 0

def rowText (row : Row) : CStr := ((List.range maxCols).map row).takeWhile (· ≠ 0)

variable {row d src prev cur : Row} {l u v : CStr} {c : UInt8}

/-! ### Reading a row -/

theorem Spells.stop (h : Spells row l) : row l.length = 0 := by
  rw [h.bytes _ le_rfl, List.getD_eq_default _ _ le_rfl]

theorem Spells.byte_ne (h : Spells row l) {j : ℕ} (hj : j < l.length) : row j ≠ 0 := by
  rw [h.bytes j hj.le, List.getD_eq_getElem _ _ hj]
  exact fun e => h.nul (e ▸ List.getElem_mem hj)

theorem strlenFrom_eq (h : Spells row l) :
    ∀ n j, n + j = maxCols → j ≤ l.length → strlenFrom row n j = some l.length
  | 0, j, hn, hj => by
    have hfits := h.fits
    omega
  | n + 1, j, hn, hj => by
    unfold strlenFrom
    rcases hj.eq_or_lt with rfl | hlt
    · rw [if_pos h.stop]
    · rw [if_neg (h.byte_ne hlt)]
      exact strlenFrom_eq h n (j + 1) (by omega) hlt

theorem Spells.strlen (h : Spells row l) : edStrlen row = some l.length :=
  strlenFrom_eq h maxCols 0 rfl (Nat.zero_le _)

theorem Spells.map_range (h : Spells row l) : (List.range l.length).map row = l :=
  map_range_getD rfl fun j hj => h.bytes j hj.le

theorem Spells.rowText_eq (h : Spells row l) : rowText row = l := by
  unfold rowText
  rw [takeWhile_range h.fits (fun j hj => by simpa using h.byte_ne hj) (by simpa using h.stop)]
  exact h.map_range

theorem Spells.unique (h : Spells row u) (h' : Spells row v) : u = v :=
  h.rowText_eq.symm.trans h'.rowText_eq

theorem spells_rowText (h : ∃ j < maxCols, row j = 0) : Spells row (rowText row) := by
  classical
  obtain ⟨hk, hstop⟩ := Nat.find_spec h
  generalize hfind : Nat.find h = k at hk hstop
  have hfirst : ∀ j < k, row j ≠ 0 := fun j hj e =>
    Nat.find_min h (hfind ▸ hj) ⟨hj.trans hk, e⟩
  have hs : Spells row ((List.range k).map row) := by
    refine ⟨by simpa using hk, ?_, ?_⟩
    · simpa using hfirst
    · intro j hj
      rw [List.length_map, List.length_range] at hj
      rcases hj.eq_or_lt with rfl | hlt
      · rw [hstop, List.getD_eq_default _ _ (by simp)]
      · rw [List.getD_eq_getElem _ _ (by simpa using hlt)]
        simp
  rw [hs.rowText_eq]
  exact hs

/-! ### Copying a row -/

theorem strcpyFrom_eq (h : Spells src l) :
    ∀ n j d, n + j = maxCols → j ≤ l.length →
      ∃ d', strcpyFrom src n j d = some d' ∧
        ∀ i, d' i = if j ≤ i ∧ i ≤ l.length then src i else d i
  | 0, j, _, hn, hj => by
    have hfits := h.fits
    omega
  | n + 1, j, d, hn, hj => by
    unfold strcpyFrom
    dsimp only
    rcases hj.eq_or_lt with rfl | hlt
    · rw [if_pos h.stop]
      refine ⟨_, rfl, fun i => ?_⟩
      rw [Function.update_apply]
      grind
    · rw [if_neg (h.byte_ne hlt)]
      obtain ⟨d', hd', hbytes⟩ := strcpyFrom_eq h n (j + 1) (Function.update d j (src j))
        (by omega) hlt
      refine ⟨d', hd', fun i => ?_⟩
      rw [hbytes, Function.update_apply]
      grind

theorem Spells.congr (h : Spells src l) (hd : ∀ j ≤ l.length, d j = src j) : Spells d l :=
  ⟨h.fits, h.nul, fun j hj => (hd j hj).trans (h.bytes j hj)⟩

theorem Spells.strcpy (h : Spells src l) (d : Row) :
    ∃ d', edStrcpy d src = some d' ∧ Spells d' l := by
  obtain ⟨d', hd', hbytes⟩ := strcpyFrom_eq h maxCols 0 d rfl (Nat.zero_le _)
  exact ⟨d', hd', h.congr fun j hj => by rw [hbytes, if_pos ⟨Nat.zero_le _, hj⟩]⟩

/-! ### Moving the bytes of a row -/

/-- After the loop of `editor_insert_char`, every byte from the cursor on is one place to the
right. -/
theorem shiftRight_returns {len x : ℕ} (hx : x ≤ len) (hlen : len + 1 < maxCols) (line : Row) :
    ∃ line', shiftRight line len x = some line' ∧
      ∀ j, line' j = if x < j ∧ j ≤ len + 1 then line (j - 1) else line j := by
  have hturns : (len : ℤ) = (x : ℤ) - 1 + (len + 1 - x : ℕ) := by omega
  -- after `k` turns the bytes behind `len - k` have moved
  obtain ⟨line', hline', hbytes⟩ := downFrom_returns
    (f := fun line i => do writeAt maxCols line (i + 1) (← readAt maxCols line i))
    (fun k t => ∀ j, t j = if len + 1 < j + k ∧ j ≤ len + 1 then line (j - 1) else line j)
    hturns (by omega) (s := line) (fun j => by rw [if_neg (by omega)]) (by
      intro k hk t ht
      have hread : readAt maxCols t (len - k : ℕ) = some (t (len - k)) :=
        readAt_natCast (by omega)
      have hwrite := writeAt_natCast (t := t) (x := t (len - k))
        (by omega : len - k + 1 < maxCols)
      refine ⟨_, by simpa [hread] using hwrite, fun j => ?_⟩
      rw [Function.update_apply, ht, ht]
      grind)
  refine ⟨line', hline', fun j => ?_⟩
  rw [hbytes]
  grind

/-- After the first loop of `editor_backspace`, every byte from `x` on is one place to the left. -/
theorem shiftLeft_returns {len x : ℕ} (hx : x ≤ len) (hlen : len < maxCols) (line : Row) :
    ∃ line', shiftLeft line (x + 1 : ℕ) len = some line' ∧
      ∀ j, line' j = if x ≤ j ∧ j < len then line (j + 1) else line j := by
  have hfirst : ((x + 1 : ℕ) : ℤ) - 1 = x := by omega
  unfold shiftLeft
  rw [hfirst]
  refine upFrom_shift hx fun n hn hlt t ht => ?_
  have hread : readAt maxCols t ((n + 1 : ℕ) : ℤ) = some (t (n + 1)) := readAt_natCast (by omega)
  have hcol : n < maxCols := by omega
  rw [← Nat.cast_succ, hread, ht, Option.bind_eq_bind, Option.bind_some, writeAt_natCast hcol]

/-- After the second loop of `editor_backspace`, the bytes of `cur` with its NUL are at `plen`. -/
theorem joinRows_returns {plen clen : ℕ} (h : plen + clen < maxCols) (prev cur : Row) :
    ∃ row, joinRows prev cur plen clen = some row ∧
      ∀ j, row j = if plen ≤ j ∧ j ≤ plen + clen then cur (j - plen) else prev j := by
  obtain ⟨row, hrow, hbytes⟩ := upFrom_returns
    (f := fun prev i => do writeAt maxCols prev (plen + i) (← readAt maxCols cur i)) (a := 0)
    (fun k t => ∀ j, t j = if plen ≤ j ∧ j < plen + k then cur (j - plen) else prev j)
    (n := clen + 1) rfl (s := prev) (fun j => by rw [if_neg (by omega)]) (by
      intro k hk t ht
      have hread : readAt maxCols cur (k : ℕ) = some (cur k) := readAt_natCast (by omega)
      have hwrite := writeAt_natCast (t := t) (x := cur k) (by omega : plen + k < maxCols)
      refine ⟨_, by simpa [hread] using hwrite, fun j => ?_⟩
      rw [Function.update_apply, ht]
      grind)
  refine ⟨row, by simpa [joinRows] using hrow, fun j => ?_⟩
  rw [hbytes]
  grind

theorem restOf_returns {x len : ℕ} (hx : x ≤ len) (hlen : len < maxCols) (cur : Row) :
    ∃ new, restOf cur x len = some new ∧
      ∀ j, new j = if j < len - x then cur (x + j) else 0 := by
  have hcast : (len : ℤ) - x = (len - x : ℕ) := by omega
  obtain ⟨new, hnew, hbytes⟩ := upFrom_returns
    (f := fun new i => do writeAt maxCols new i (← readAt maxCols cur (x + i))) (a := 0)
    (fun k t => ∀ j, t j = if j < k then cur (x + j) else 0)
    (b := (len - x : ℕ)) (n := len - x) (by simp) (s := fun _ => 0) (fun j => rfl) (by
      intro k hk t ht
      have hread : readAt maxCols cur (x + k : ℕ) = some (cur (x + k)) :=
        readAt_natCast (by omega)
      have hwrite := writeAt_natCast (t := t) (x := cur (x + k)) (by omega : k < maxCols)
      push_cast at hread
      refine ⟨_, by simpa [hread] using hwrite, fun j => ?_⟩
      rw [Function.update_apply, ht]
      grind)
  unfold restOf
  rw [hcast]
  rw [Nat.cast_zero] at hnew
  rw [hnew]
  simp only [Option.bind_eq_bind, Option.bind_some]
  refine ⟨_, writeAt_natCast (by omega), fun j => ?_⟩
  rw [Function.update_apply, hbytes]
  grind

/-! ### Editing a string -/

theorem getD_insert (u v : CStr) (c : UInt8) (j : ℕ) :
    (u ++ c :: v).getD j 0 =
      if j < u.length then (u ++ v).getD j 0
      else if j = u.length then c else (u ++ v).getD (j - 1) 0 := by
  split_ifs with h e
  · rw [List.getD_append _ _ _ _ h, List.getD_append _ _ _ _ h]
  · rw [List.getD_append_right _ _ _ _ (by omega), e, Nat.sub_self, List.getD_cons_zero]
  · obtain ⟨k, rfl⟩ : ∃ k, j = u.length + (k + 1) := ⟨j - u.length - 1, by omega⟩
    rw [List.getD_append_right _ _ _ _ (by omega), List.getD_append_right _ _ _ _ (by omega),
      Nat.add_sub_cancel_left, List.getD_cons_succ]
    congr 1
    omega

theorem Spells.insert (h : Spells row (u ++ v)) (hlen : (u ++ v).length < maxCols - 1)
    (hc : c ≠ 0) :
    ∃ row₁ row₂, shiftRight row (u ++ v).length u.length = some row₁ ∧
      writeAt maxCols row₁ u.length c = some row₂ ∧ Spells row₂ (u ++ c :: v) := by
  have hx : u.length ≤ (u ++ v).length := by simp
  obtain ⟨row₁, hrow₁, hbytes⟩ := shiftRight_returns hx (by omega) row
  refine ⟨row₁, _, hrow₁, writeAt_natCast (by omega), ?_, ?_, ?_⟩
  · simp only [List.length_append, List.length_cons] at hlen ⊢
    omega
  · have hnul := h.nul
    simp only [List.mem_append, List.mem_cons, not_or] at hnul ⊢
    exact ⟨hnul.1, hc.symm, hnul.2⟩
  · intro j hj
    have hj' : j ≤ (u ++ v).length + 1 := by simpa [← add_assoc] using hj
    rw [getD_insert, Function.update_apply, hbytes]
    split_ifs with e h₁ h₂ h₃
    · omega
    · rfl
    · omega
    · exact h.bytes _ (by omega)
    · exact h.bytes _ (by omega)
    · omega

theorem Spells.erase (h : Spells row (u ++ c :: v)) :
    ∃ row', shiftLeft row (u.length + 1 : ℕ) (u ++ c :: v).length = some row' ∧
      Spells row' (u ++ v) := by
  have hlen : (u ++ c :: v).length = (u ++ v).length + 1 := by simp [← add_assoc]
  have hx : u.length ≤ (u ++ v).length := by simp
  obtain ⟨row', hrow', hbytes⟩ := shiftLeft_returns (x := u.length) (by omega) h.fits row
  have hfits := h.fits
  refine ⟨row', hrow', by omega, ?_, ?_⟩
  · have hnul := h.nul
    simp only [List.mem_append, List.mem_cons, not_or] at hnul ⊢
    exact ⟨hnul.1, hnul.2.2⟩
  · intro j hj
    rw [hbytes]
    split_ifs with hj'
    · rw [h.bytes _ (by omega), getD_insert, if_neg (by omega), if_neg (by omega),
        Nat.add_sub_cancel]
    · rw [h.bytes _ (by omega), getD_insert, if_pos (by omega)]

theorem Spells.join (hu : Spells prev u) (hv : Spells cur v)
    (hlen : u.length + v.length < maxCols) :
    ∃ row, joinRows prev cur u.length v.length = some row ∧ Spells row (u ++ v) := by
  obtain ⟨row, hrow, hbytes⟩ := joinRows_returns hlen prev cur
  refine ⟨row, hrow, by simpa using hlen, ?_, ?_⟩
  · rw [List.mem_append]
    exact not_or.mpr ⟨hu.nul, hv.nul⟩
  · intro j hj
    rw [List.length_append] at hj
    rw [hbytes]
    split_ifs with hj'
    · rw [List.getD_append_right _ _ _ _ hj'.1, hv.bytes _ (by omega)]
    · rw [List.getD_append _ _ _ _ (by omega), hu.bytes _ (by omega)]

theorem Spells.split (h : Spells row (u ++ v)) :
    ∃ cur new, splitRow row u.length (u ++ v).length = some (cur, new) ∧ Spells cur u ∧
      Spells new v := by
  have hfits := h.fits
  have hnul := h.nul
  rw [List.mem_append, not_or] at hnul
  have hlen : (u ++ v).length = u.length + v.length := List.length_append
  unfold splitRow
  by_cases hv : v = []
  · subst hv
    rw [if_neg (by simp)]
    refine ⟨row, _, rfl, by simpa using h, by decide, nofun, fun j _ => ?_⟩
    exact (List.getD_nil).symm
  · have hpos : 0 < v.length := List.length_pos_of_ne_nil hv
    rw [if_pos (by omega)]
    obtain ⟨new, hnew, hbytes⟩ := restOf_returns (x := u.length) (by omega) hfits row
    have hcut : writeAt maxCols row u.length 0 = some (Function.update row u.length 0) :=
      writeAt_natCast (by omega)
    refine ⟨_, new, by simp only [hnew, hcut]; rfl, ⟨by omega, hnul.1, fun j hj => ?_⟩,
      by omega, hnul.2, fun j hj => ?_⟩
    · rw [Function.update_apply]
      split_ifs with e
      · rw [e, List.getD_eq_default _ _ le_rfl]
      · rw [h.bytes _ (by omega), List.getD_append _ _ _ _ (by omega)]
    · rw [hbytes]
      split_ifs with hj'
      · rw [h.bytes _ (by omega), List.getD_append_right _ _ _ _ (by omega),
          Nat.add_sub_cancel_left]
      · rw [List.getD_eq_default _ _ (by omega)]

end Kerneloid.Editor.Rows
