import Kerneloid.UnnamedFS.Layout

/-! # Records on the device

What a store does to the records read back. A word of the superblock or of an inode record changes
one field of the record it lies in and nothing in the others (`setFree_sb`, `setSize_inode`, ...);
a new record reads back as it was written (`fillInode_self`), a cleared one as zero. -/

namespace Kerneloid.UnnamedFS.Decode

open Lib.Bytes Types Ops Layout

variable {j n : ℕ} {name : CStr}

variable {m m' : Mem}

/-! ### Reading -/

theorem readStr_congr {a : ℕ} (h : ∀ x, a ≤ x → x < a + n → m' x = m x) :
    readStr m' a n = readStr m a n := by
  unfold readStr
  congr 1
  refine List.map_congr_left fun k hk => ?_
  have := List.mem_range.mp hk
  exact h _ (by omega) (by omega)

theorem readInode_congr {a : ℕ} (h : ∀ x, a ≤ x → x < a + 88 → m' x = m x) :
    readInode m' a = readInode m a := by
  have hw : ∀ o ≤ 20, rd32 m' (a + o) = rd32 m (a + o) := fun o ho =>
    rd32_congr fun x h1 h2 => h x (by omega) (by omega)
  unfold readInode
  rw [show rd32 m' a = rd32 m a from hw 0 (by norm_num), hw 4 (by norm_num), hw 8 (by norm_num),
    hw 12 (by norm_num), hw 16 (by norm_num), hw 20 (by norm_num),
    readStr_congr fun x h1 h2 => h x (by omega) (by omega)]

theorem readSb_congr (h : ∀ x < 24, m' x = m x) : readSb m' = readSb m := by
  have hw : ∀ o ≤ 20, rd32 m' o = rd32 m o := fun o ho =>
    rd32_congr fun x h1 h2 => h x (by omega)
  unfold readSb
  rw [hw 0 (by norm_num), hw 4 (by norm_num), hw 8 (by norm_num), hw 12 (by norm_num),
    hw 16 (by norm_num), hw 20 (by norm_num)]

theorem takeWhile_range {α : Type*} {p : α → Bool} {f : ℕ → α} {l : ℕ} (hl : l < n)
    (hp : ∀ k < l, p (f k) = true) (hend : p (f l) = false) :
    ((List.range n).map f).takeWhile p = (List.range l).map f := by
  obtain ⟨k, rfl⟩ : ∃ k, n = l + (k + 1) := ⟨n - l - 1, by omega⟩
  rw [List.range_add, List.map_append, List.takeWhile_append_of_pos]
  · rw [List.range_succ_eq_map, List.map_cons, List.map_cons, Nat.add_zero, List.takeWhile_cons]
    simp [hend]
  · intro x hx
    obtain ⟨k, hk, rfl⟩ := List.mem_map.mp hx
    exact hp k (List.mem_range.mp hk)

theorem readStr_store (m : Mem) (a : ℕ) (hn : name.length < n) (h0 : ∀ c ∈ name, c ≠ 0) :
    readStr (store m a (fun k => name.getD k 0) (name.length + 1)) a n = name := by
  have hread : ∀ k ≤ name.length,
      store m a (fun k => name.getD k 0) (name.length + 1) (a + k) = name.getD k 0 := fun k hk => by
    rw [store_inside _ _ (by omega) (by omega), Nat.add_sub_cancel_left]
  have hget : ∀ k (hk : k < name.length), name.getD k 0 = name[k] := fun k hk => by simp [hk]
  unfold readStr
  rw [takeWhile_range hn]
  · refine List.ext_getElem (by simp) fun k h1 h2 => ?_
    rw [List.getElem_map, List.getElem_range, hread k (by omega), hget k h2]
  · intro k hk
    rw [hread k (by omega), hget k hk]
    simpa using h0 _ (List.getElem_mem hk)
  · rw [hread _ le_rfl]
    simp

/-! ### Stores to a record -/

theorem readInode_wr32_ne (m : Mem) {i o : ℕ} (v : ℕ) (hji : j ≠ i) (ho : o + 4 ≤ 4104) :
    readInode (wr32 m (inodeAddr i + o) v) (inodeAddr j) = readInode m (inodeAddr j) := by
  refine readInode_congr fun x h1 h2 => wr32_outside m v ?_
  unfold inodeAddr at *
  rcases Nat.lt_or_gt_of_ne hji with h | h <;> omega

theorem readSb_wr32 (m : Mem) (i o v : ℕ) : readSb (wr32 m (inodeAddr i + o) v) = readSb m := by
  refine readSb_congr fun x hx => wr32_outside m v ?_
  unfold inodeAddr
  omega

theorem readStr_wr32 (m : Mem) {a c : ℕ} (v n : ℕ) (h : c + n ≤ a ∨ a + 4 ≤ c) :
    readStr (wr32 m a v) c n = readStr m c n :=
  readStr_congr fun x h1 h2 => wr32_outside m v (by omega)

section Fields
variable (a v : ℕ)

theorem readInode_size : readInode (wr32 m (a + 4) v) a =
    { readInode m a with size := v % 2 ^ 32 } := by
  unfold readInode
  simp (disch := omega) only [rd32_wr32, rd32_wr32_ne, readStr_wr32]

theorem readInode_first : readInode (wr32 m (a + 16) v) a =
    { readInode m a with firstBlock := v % 2 ^ 32 } := by
  unfold readInode
  simp (disch := omega) only [rd32_wr32, rd32_wr32_ne, readStr_wr32]

theorem readInode_blocks : readInode (wr32 m (a + 20) v) a =
    { readInode m a with blocks := v % 2 ^ 32 } := by
  unfold readInode
  simp (disch := omega) only [rd32_wr32, rd32_wr32_ne, readStr_wr32]

end Fields

theorem readInode_update {f : Inode → Inode} {i o v : ℕ} (ho : o + 4 ≤ 4104)
    (hf : readInode (wr32 m (inodeAddr i + o) v) (inodeAddr i) = f (readInode m (inodeAddr i)))
    (j : ℕ) : readInode (wr32 m (inodeAddr i + o) v) (inodeAddr j) =
      Function.update (fun j => readInode m (inodeAddr j)) i (f (readInode m (inodeAddr i))) j := by
  by_cases hji : j = i
  · subst hji
    rw [Function.update_self, hf]
  · rw [Function.update_of_ne hji, readInode_wr32_ne m v hji ho]

section Stores
variable (b : ByteFs) (i v : ℕ)

@[simp] theorem setFree_sb : (b.setFree v).sb = { b.sb with freeBlocks := v % 2 ^ 32 } := by
  change readSb (wr32 b.dev.mem 12 v) = { readSb b.dev.mem with freeBlocks := v % 2 ^ 32 }
  unfold readSb
  simp (disch := omega) only [rd32_wr32, rd32_wr32_ne]

@[simp] theorem setFree_inode : (b.setFree v).inode = b.inode := by
  funext j
  refine readInode_congr fun x h1 h2 => wr32_outside _ _ ?_
  unfold inodeAddr at h1
  omega

theorem putCount_sb : ByteFs.sb { b with dev := b.dev.put32 16 v } =
    { b.sb with inodeCount := v % 2 ^ 32 } := by
  change readSb (wr32 b.dev.mem 16 v) = { readSb b.dev.mem with inodeCount := v % 2 ^ 32 }
  unfold readSb
  simp (disch := omega) only [rd32_wr32, rd32_wr32_ne]

theorem putCount_inode : ByteFs.inode { b with dev := b.dev.put32 16 v } = b.inode := by
  funext j
  refine readInode_congr fun x h1 h2 => wr32_outside _ _ ?_
  unfold inodeAddr at h1
  omega

@[simp] theorem setSize_sb : (b.setSize i v).sb = b.sb := readSb_wr32 _ _ _ _

@[simp] theorem setFirst_sb : (b.setFirst i v).sb = b.sb := readSb_wr32 _ _ _ _

@[simp] theorem setBlocks_sb : (b.setBlocks i v).sb = b.sb := readSb_wr32 _ _ _ _

@[simp] theorem setSize_inode : (b.setSize i v).inode =
    Function.update b.inode i { b.inode i with size := v % 2 ^ 32 } :=
  funext (readInode_update (f := fun n => { n with size := v % 2 ^ 32 }) (by norm_num)
    (readInode_size _ _))

@[simp] theorem setFirst_inode : (b.setFirst i v).inode =
    Function.update b.inode i { b.inode i with firstBlock := v % 2 ^ 32 } :=
  funext (readInode_update (f := fun n => { n with firstBlock := v % 2 ^ 32 }) (by norm_num)
    (readInode_first _ _))

@[simp] theorem setBlocks_inode : (b.setBlocks i v).inode =
    Function.update b.inode i { b.inode i with blocks := v % 2 ^ 32 } :=
  funext (readInode_update (f := fun n => { n with blocks := v % 2 ^ 32 }) (by norm_num)
    (readInode_blocks _ _))

@[simp] theorem markRange_sb (first n : ℕ) (used : Bool) : (b.markRange first n used).sb = b.sb := rfl

@[simp] theorem markRange_inode (first n : ℕ) (used : Bool) :
    (b.markRange first n used).inode = b.inode := rfl

end Stores

/-! ### Stores to the data area -/

/-- The bytes `[a, a + n)` are in no field of record `j`. -/
def Apart (j a n : ℕ) : Prop := n = 0 ∨ a + n ≤ inodeAddr j ∨ inodeAddr j + 88 ≤ a

instance (j a n : ℕ) : Decidable (Apart j a n) := by unfold Apart; infer_instance

theorem apart_of_behind {c a : ℕ} (ha : inodeAddr c ≤ a) (hj : j < c) : Apart j a n :=
  Or.inr (Or.inr (by unfold inodeAddr at *; omega))

section Data
variable (b : ByteFs) {a : ℕ}

theorem putData_sb (ha : 24 ≤ a) (buf : ℕ → UInt8) (n : ℕ) : (b.putData a buf n).sb = b.sb :=
  readSb_congr fun x hx => store_outside _ _ (by omega)

theorem putData_inode (h : Apart j a n) (buf : ℕ → UInt8) :
    (b.putData a buf n).inode j = b.inode j :=
  readInode_congr fun x _ _ => store_outside _ _ (by unfold Apart at h; omega)

theorem copyData_sb (ha : 24 ≤ a) (src n : ℕ) : (b.copyData a src n).sb = b.sb :=
  readSb_congr fun x hx => move_outside _ (by omega)

theorem copyData_inode (h : Apart j a n) (src : ℕ) : (b.copyData a src n).inode j = b.inode j :=
  readInode_congr fun x _ _ => move_outside _ (by unfold Apart at h; omega)

end Data

section View
variable (b : ByteFs) {i x : ℕ} (v : ℕ) (hx : ¬ OwnField i (8192 + x))

theorem setFree_data (x : ℕ) : (b.setFree v).view.data x = b.view.data x :=
  wr32_outside _ _ (by omega)

include hx

theorem setSize_data : (b.setSize i v).view.data x = b.view.data x :=
  wr32_outside _ _ (by unfold OwnField at hx; omega)

theorem setFirst_data : (b.setFirst i v).view.data x = b.view.data x :=
  wr32_outside _ _ (by unfold OwnField at hx; omega)

theorem setBlocks_data : (b.setBlocks i v).view.data x = b.view.data x :=
  wr32_outside _ _ (by unfold OwnField at hx; omega)

end View

theorem markRange_data (b : ByteFs) (first n : ℕ) (used : Bool) :
    (b.markRange first n used).view.data = b.view.data := rfl

theorem putData_data (b : ByteFs) (f off : ℕ) (buf : ℕ → UInt8) (n x : ℕ) :
    (b.putData (blockAddr f + off) buf n).view.data x =
      store b.view.data (f * 4096 + off) buf n x := by
  have h := store_shift b.dev.mem 8192 (4096 * f + off) buf n x
  rw [← Nat.add_assoc] at h
  rw [Nat.mul_comm f]
  exact h

theorem copyData_data (b : ByteFs) (f g n x : ℕ) :
    (b.copyData (blockAddr f) (blockAddr g) n).view.data x =
      move b.view.data (f * 4096) (g * 4096) n x := by
  rw [Nat.mul_comm f, Nat.mul_comm g]
  exact move_shift b.dev.mem 8192 (4096 * f) (4096 * g) n x

/-! ### Whole records -/

theorem readInode_record {i : ℕ} (h : ∀ x, ¬ InRange (inodeAddr i) 4104 x → m' x = m x)
    (hji : j ≠ i) : readInode m' (inodeAddr j) = readInode m (inodeAddr j) := by
  refine readInode_congr fun x h1 h2 => h x fun hx => ?_
  unfold InRange inodeAddr at *
  rcases Nat.lt_or_gt_of_ne hji with hlt | hlt <;> omega

theorem readSb_record {i : ℕ} (h : ∀ x, ¬ InRange (inodeAddr i) 4104 x → m' x = m x) :
    readSb m' = readSb m := by
  refine readSb_congr fun x hx => h x fun hc => ?_
  unfold InRange inodeAddr at hc
  omega

theorem readInode_fill (m : Mem) (a : ℕ) : readInode (fill m a 0 4104) a = Inode.zero := by
  have hz : ∀ x, a ≤ x → x < a + 88 → fill m a 0 4104 x = (fun _ => 0 : Mem) x :=
    fun x h1 h2 => store_inside _ _ h1 (by omega)
  rw [readInode_congr hz]
  rfl

section Records
variable (b : ByteFs) (i : ℕ)

@[simp] theorem clearInode_sb : (b.clearInode i).sb = b.sb :=
  readSb_record (b.clearInode_touches i).frame

@[simp] theorem clearInode_inode :
    (b.clearInode i).inode = Function.update b.inode i Inode.zero := by
  funext j
  by_cases hji : j = i
  · subst hji
    rw [Function.update_self]
    exact readInode_fill _ _
  · rw [Function.update_of_ne hji]
    exact readInode_record (b.clearInode_touches i).frame hji

theorem fillInode_sb (slot flags par : ℕ) (hn : name.length ≤ 63) :
    (b.fillInode slot flags par name).sb = b.sb :=
  readSb_record (b.fillInode_touches slot flags par hn).frame

theorem fillInode_other (slot flags par : ℕ) (hn : name.length ≤ 63)
    (hj : j ≠ slot) : (b.fillInode slot flags par name).inode j = b.inode j :=
  readInode_record (b.fillInode_touches slot flags par hn).frame hj

theorem fillInode_self {slot flags par : ℕ} (hs : slot < 2 ^ 32)
    (hf : flags < 2 ^ 32) (hp : par < 2 ^ 32) (hn : name.length ≤ 63) (h0 : ∀ c ∈ name, c ≠ 0) :
    (b.fillInode slot flags par name).inode slot = ⟨slot, 0, flags, par, 0, 0, name⟩ := by
  change readInode (store (wr32 (wr32 (wr32 (wr32 (wr32 (wr32 _ _ _) _ _) _ _) _ _) _ _) _ _)
    (inodeAddr slot + 24) _ _) (inodeAddr slot) = _
  unfold readInode
  rw [readStr_store _ _ (by omega) h0]
  simp (disch := omega) only [rd32_store_ne, rd32_wr32_ne, rd32_wr32, Nat.mod_eq_of_lt]

end Records

/-! ### A formatted device -/

theorem readStr_char (m : Mem) (a : ℕ) {c : UInt8} (hn : 1 < n) (hc : c ≠ 0) :
    readStr (Function.update (Function.update m a c) (a + 1) 0) a n = [c] := by
  unfold readStr
  rw [takeWhile_range hn]
  · simp
  · intro k hk
    obtain rfl : k = 0 := by omega
    simpa using hc
  · simp

theorem formatBytes_records {size : ℕ} (hsize : size < 2 ^ 32) (h : formatBytes m size = some m') :
    readSb m' = ⟨magicNumber, 1, size / 4096, size / 4096 - 2, 1, 2⟩ ∧
      readInode m' (inodeAddr 0) = rootInode := by
  unfold formatBytes at h
  split_ifs at h
  simp only [Option.some.injEq] at h
  subst h
  have haddr : inodeAddr 0 = 4096 := rfl
  have hmagic : magicNumber < 2 ^ 32 := by decide
  constructor
  · unfold readSb
    rw [haddr]
    simp (disch := omega) only [rd32_store_ne, fill, rd32_wr32_ne, rd32_update_ne, rd32_wr32,
      Nat.mod_eq_of_lt]
  · unfold readInode
    rw [haddr]
    simp (disch := omega) only [rd32_wr32_ne, rd32_update_ne, rd32_wr32, Nat.mod_eq_of_lt,
      readStr_wr32]
    exact congrArg _ (readStr_char _ 4120 (by norm_num) (by decide))

theorem formatMountBytes_view {size : ℕ} {b : ByteFs} (hsize : size < 2 ^ 32)
    (h : formatMountBytes m size = some b) : ∃ d, formatMount d size = some b.view := by
  obtain ⟨m', hm', hmount⟩ := Option.bind_eq_some_iff.mp h
  obtain ⟨hsb, hroot⟩ := formatBytes_records hsize hm'
  unfold mountBytes at hmount
  split_ifs at hmount with hmagic
  simp only [Option.some.injEq] at hmount
  subst hmount
  have hsize : ¬ size < 4096 * 3 := fun hlt => by
    rw [formatBytes, if_pos hlt] at hm'
    cases hm'
  -- the records behind the root's are what they were
  refine ⟨⟨readSb m', fun i => readInode m' (inodeAddr i), fun a => m' (8192 + a)⟩, ?_⟩
  have hi : Function.update (fun i => readInode m' (inodeAddr i)) 0 rootInode =
      fun i => readInode m' (inodeAddr i) := by
    rw [← hroot]
    exact Function.update_eq_self 0 (fun i => readInode m' (inodeAddr i))
  rw [formatMount, unamedfsFormat, if_neg hsize, Option.bind_some, ← hsb, hi, unamedfsMount]
  exact if_neg hmagic

end Kerneloid.UnnamedFS.Decode
