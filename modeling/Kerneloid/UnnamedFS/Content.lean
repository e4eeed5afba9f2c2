import Kerneloid.UnnamedFS.Simulation

/-! # File contents

The content of a file is what a reader sees who seeks to 0 and reads to the end (`readToEnd`); for
an allocator that is sound it is `fileContent`, the first `min(size, 4096 * blocks)` bytes of the
extent, whatever the size of the chunks (`readToEnd_eq`).

* `isolation_step`: a call leaves the content of every other regular file alone.
* `write_content`: what a write does to the file itself. `ensure_blocks` sees only where the write
  ends, not the size of the file, so a write that ends before the last block cuts the file off;
  `WriteKeeps` is exactly the condition under which that does not show. -/

namespace Kerneloid.UnnamedFS.Content

open Lib.Bytes Lib.Runs Types UnnamedFS.Path Lookup Blocks Ops Effects Slots Alloc Layout Decode
open Simulation

variable {s : Fs} {chunk i j : ℕ}

/-- The readable bytes of slot `i`. -/
def fileContent (s : Fs) (i : ℕ) : List UInt8 :=
  (List.range (copyLen (s.inodes i))).map fun j => s.data ((s.inodes i).firstBlock * 4096 + j)

theorem fileContent_length (s : Fs) (i : ℕ) : (fileContent s i).length = copyLen (s.inodes i) := by
  simp [fileContent]

/-! ### Reading to the end -/

/-- Reads of `chunk` bytes until one delivers nothing. -/
def readLoop (chunk : ℕ) (fd : ℤ) : ℕ → Fs → List UInt8
  | 0, _ => []
  | fuel + 1, s =>
    let r := unamedfsRead s fd chunk
    if r.2.1 ≤ 0 then [] else r.2.2 ++ readLoop chunk fd fuel r.1

/-- The whole content of the file: seek to 0 and read to the end. A read that is not the last one
delivers a byte at least, so `size + 1` reads are enough. -/
def readToEnd (chunk : ℕ) (s : Fs) (fd : ℤ) : List UInt8 :=
  let s := (unamedfsLseek s fd 0 0).1
  readLoop chunk fd ((s.inodes (s.fdEntries fd.toNat).ino).size + 1) s

theorem toInt32_natCast {k : ℕ} (h : k < 2 ^ 31) : toInt32 k = k := by
  unfold toInt32
  rw [Int.bmod_eq_of_le] <;> omega

theorem toInt32_eq_natCast {k : ℕ} (hj : j < 2 ^ 32) (h : toInt32 j = k) : j = k := by
  by_cases hlt : j < 2 ^ 31
  · rw [toInt32_natCast hlt] at h
    omega
  · unfold toInt32 at h
    rw [Int.bmod_def] at h
    split_ifs at h <;> omega

theorem readCount_eq (n : Inode) (off count : ℕ) :
    readCount n off count = min count (copyLen n - off) := by
  unfold readCount copyLen
  dsimp only
  split_ifs <;> omega

/-- A descriptor through which the regular file `i` can be read. -/
structure OpenOn (s : Fs) (fd : ℤ) (i : ℕ) : Prop where
  good : ¬ Fs.badFd s fd
  ino : (s.fdEntries fd.toNat).ino = i
  mount : s.mountValid = true
  file : (s.inodes i).isDir = false

def setOffset (s : Fs) (k off : ℕ) : Fs :=
  { s with fdEntries := Function.update s.fdEntries k { s.fdEntries k with offset := off } }

@[simp] theorem setOffset_offset (s : Fs) (k off : ℕ) :
    ((setOffset s k off).fdEntries k).offset = off := by simp [setOffset]

@[simp] theorem setOffset_ino (s : Fs) (k off : ℕ) :
    ((setOffset s k off).fdEntries k).ino = (s.fdEntries k).ino := by simp [setOffset]

theorem OpenOn.seek {fd : ℤ} (h : OpenOn s fd i) (off : ℕ) :
    OpenOn (setOffset s fd.toNat off) fd i := by
  refine ⟨?_, ?_, h.mount, h.file⟩
  · have hgood := h.good
    simpa [Fs.badFd, setOffset] using hgood
  · simpa using h.ino

theorem OpenOn.read {fd : ℤ} (h : OpenOn s fd i) (chunk : ℕ) :
    unamedfsRead s fd chunk =
      (setOffset s fd.toNat (((s.fdEntries fd.toNat).offset +
          readCount (s.inodes i) (s.fdEntries fd.toNat).offset chunk) % 2 ^ 32),
        toInt32 (readCount (s.inodes i) (s.fdEntries fd.toNat).offset chunk),
        (List.range (readCount (s.inodes i) (s.fdEntries fd.toNat).offset chunk)).map fun j =>
          s.data ((s.inodes i).firstBlock * 4096 + (s.fdEntries fd.toNat).offset + j)) := by
  obtain ⟨hgood, rfl, hmount, hfile⟩ := h
  unfold unamedfsRead
  rw [if_neg hgood, if_neg (by simp [hmount])]
  dsimp only
  rw [if_neg (by simp [hfile])]
  rfl

theorem fileContent_slice (s : Fs) (i off k : ℕ) (hk : off + k ≤ copyLen (s.inodes i)) :
    ((List.range k).map fun j => s.data ((s.inodes i).firstBlock * 4096 + off + j)) =
      ((fileContent s i).drop off).take k := by
  refine List.ext_getElem ?_ fun j h1 h2 => ?_
  · simp [fileContent_length]; omega
  · simp [fileContent, Nat.add_assoc]

theorem readLoop_eq (hc : 0 < chunk) (hc' : chunk < 2 ^ 31) {fd : ℤ} :
    ∀ (fuel : ℕ) (s : Fs), OpenOn s fd i → copyLen (s.inodes i) < 2 ^ 32 →
      copyLen (s.inodes i) - (s.fdEntries fd.toNat).offset < fuel →
      readLoop chunk fd fuel s = (fileContent s i).drop (s.fdEntries fd.toNat).offset
  | 0, _, _, _, hf => by omega
  | fuel + 1, s, ho, hlen, hf => by
    rw [readLoop, ho.read chunk]
    obtain ⟨off, hoff⟩ : ∃ off, (s.fdEntries fd.toNat).offset = off := ⟨_, rfl⟩
    obtain ⟨k, hk⟩ : ∃ k, readCount (s.inodes i) off chunk = k := ⟨_, rfl⟩
    rw [hoff] at hf ⊢
    rw [hk, toInt32_natCast (by rw [readCount_eq] at hk; omega)]
    rw [readCount_eq] at hk
    dsimp only
    by_cases hk0 : k = 0
    · rw [if_pos (by omega), List.drop_of_length_le]
      rw [fileContent_length]
      omega
    · rw [if_neg (by omega), readLoop_eq hc hc' fuel _ (ho.seek _) hlen]
      · rw [fileContent_slice s i off k (by omega), setOffset_offset,
          Nat.mod_eq_of_lt (show off + k < 2 ^ 32 by omega)]
        change ((fileContent s i).drop off).take k ++ (fileContent s i).drop (off + k) = _
        rw [← List.drop_drop, List.take_append_drop]
      · rw [setOffset_offset, Nat.mod_eq_of_lt (show off + k < 2 ^ 32 by omega)]
        change copyLen (s.inodes i) - (off + k) < fuel
        omega

theorem OpenOn.lseek {fd : ℤ} (h : OpenOn s fd i) :
    (unamedfsLseek s fd 0 0).1 = setOffset s fd.toNat 0 := by
  unfold unamedfsLseek
  rw [if_neg h.good, if_neg (by simp [h.mount])]
  rfl

theorem readToEnd_eq {fd : ℤ} (h : OpenOn s fd i) (hlen : copyLen (s.inodes i) < 2 ^ 32)
    (hc : 0 < chunk) (hc' : chunk < 2 ^ 31) : readToEnd chunk s fd = fileContent s i := by
  unfold readToEnd
  rw [h.lseek]
  dsimp only
  have hsz : copyLen (s.inodes i) ≤ (s.inodes i).size := min_le_left _ _
  rw [readLoop_eq hc hc' _ _ (h.seek 0) hlen]
  · rw [setOffset_offset]; rfl
  · rw [setOffset_offset, setOffset_ino, h.ino]
    change copyLen (s.inodes i) - 0 < (s.inodes i).size + 1
    omega

theorem copyLen_lt (h : Sound s) (hi : i < s.sb.inodeCount) :
    copyLen (s.inodes i) < 2 ^ 32 := by
  have h1 := h.blocks_le hi
  have h2 := h.total_lt
  unfold copyLen
  omega

/-! ### The bytes a write touches -/

section Plan
variable {s : Fs} {ino : Inode} {need : ℕ} {p : BlockPlan} (hp : Planned s ino need p)
include hp

theorem Planned.data_outside {a : ℕ}
    (ha : a < p.first ino * 4096 ∨ (p.first ino + p.count ino) * 4096 ≤ a) :
    p.data s.data ino a = s.data a := by
  cases hp with
  | keep h => rfl
  | shrink h => rfl
  | fresh h0 hn hf h2 hr => rfl
  | extend h0 hn hf hr => rfl
  | @relocate first h0 hn hf h2 hr =>
    simp only [BlockPlan.first, BlockPlan.count] at ha
    have hle := (copyLen_le ino).trans (Nat.mul_le_mul_right 4096 hn.le)
    refine move_outside s.data (ha.imp id fun hb => ?_)
    rw [Nat.add_mul] at hb
    exact (Nat.add_le_add_left hle _).trans hb

theorem Planned.data_kept (hneed : 0 < need)
    (hmark : ∀ b, Covers ino b → Marked s b) (hj : j < copyLen ino) :
    p.data s.data ino (p.first ino * 4096 + j) = s.data (ino.firstBlock * 4096 + j) := by
  cases hp with
  | keep h => rfl
  | shrink h => simp only [BlockPlan.data, BlockPlan.first]; rw [if_neg (by omega)]
  | fresh h0 hn hf h2 hr => simp only [copyLen, h0] at hj; omega
  | extend h0 hn hf hr => rfl
  | @relocate first h0 hn hf h2 hr =>
    -- the new run is free and the old extent is marked, so they do not overlap
    have hsep : ino.firstBlock + ino.blocks ≤ first ∨ first + need ≤ ino.firstBlock := by
      by_contra hc
      have hb : ∃ b, Covers ino b ∧ first ≤ b ∧ b < first + need := by
        refine ⟨max first ino.firstBlock, ⟨?_, ?_⟩, ?_, ?_⟩ <;> omega
      obtain ⟨b, hcov, h1, h3⟩ := hb
      have hm := hmark b hcov
      rw [Marked, hr.2 b h1 h3] at hm
      exact Bool.false_ne_true hm
    refine move_inside _ hj ?_
    have hle := copyLen_le ino
    omega

end Plan

theorem writeBytes_data (s : Fs) (fd : ℕ) (p : BlockPlan) (buf : ℕ → UInt8) (k : ℕ) :
    (writeBytes s fd p buf k).data =
      store (p.data s.data (s.inodes (s.fdEntries fd).ino))
        (p.first (s.inodes (s.fdEntries fd).ino) * 4096 + (s.fdEntries fd).offset) buf k := by
  simp [writeBytes, BlockPlan.run]

theorem le_needBlocks {n : ℕ} (h : n + 4095 < 2 ^ 32) : n ≤ needBlocks n * 4096 := by
  rw [needBlocks_eq h]
  omega

theorem write_data_outside {fd off count k a : ℕ} {p : BlockPlan}
    (hoff : (s.fdEntries fd).offset = off)
    (hp : writePlan s (s.inodes (s.fdEntries fd).ino) off count = some (p, k))
    (hwrap : off + count + 4095 < 2 ^ 32) (buf : ℕ → UInt8)
    (ha : ¬ Covers ((writeBytes s fd p buf k).inodes (s.fdEntries fd).ino) (a / 4096)) :
    (writeBytes s fd p buf k).data a = s.data a := by
  obtain ⟨hpl, hk⟩ := writePlan_some hp
  have hend := le_needBlocks (n := (off + k) % 2 ^ 32) (by omega)
  rw [writeBytes_self] at ha
  unfold Covers at ha
  dsimp only at ha
  rw [hpl.count_eq] at ha
  rw [writeBytes_data, hoff, store_outside _ _ (by omega)]
  exact Planned.data_outside hpl (by rw [hpl.count_eq]; omega)

/-! ### Isolation -/

/-- The file a call is applied to: the descriptor's for a write, the path's for a removal. -/
def Op.target (s : Fs) : Op → Option ℕ
  | .write fd _ _ => if Fs.badFd s fd then none else some (s.fdEntries fd.toNat).ino
  | .unlink path => (findInodeByPath s (pathNormalize path 256)).2
  | .rmdir path => (findInodeByPath s (pathNormalize path 256)).2
  | _ => none

/-- The end of a write does not wrap. -/
def NoWrap (s : Fs) : Op → Prop
  | .write fd _ count => ¬ Fs.badFd s fd →
    (s.fdEntries fd.toNat).offset + count + 4095 < 2 ^ 32
  | _ => True

theorem covers_readable {n : Inode} {x : ℕ} (hx : x < copyLen n) :
    Covers n ((n.firstBlock * 4096 + x) / 4096) := by
  unfold copyLen at hx
  unfold Covers
  omega

theorem fileContent_congr {s s' : Fs} (hi : s'.inodes i = s.inodes i)
    (hd : ∀ a, Covers (s.inodes i) (a / 4096) → s'.data a = s.data a) :
    fileContent s' i = fileContent s i := by
  unfold fileContent
  rw [hi]
  exact List.map_congr_left fun j hj => hd _ (covers_readable (List.mem_range.mp hj))

/-- A call leaves the record and the content of every slot in use alone that it is not applied
to. -/
theorem isolation_effect {s s' : Fs} (h : Sound s) {op : Op} (hw : NoWrap s op)
    (he : Effect s op s') (hj : s.Live j) (ht : Op.target s op ≠ some j) :
    s'.inodes j = s.inodes j ∧ s'.sb.inodeCount ≥ s.sb.inodeCount ∧
      fileContent s' j = fileContent s j := by
  -- where the data area is untouched, the record decides
  have hkeep : ∀ {t : Fs}, t.inodes j = s.inodes j → t.sb.inodeCount ≥ s.sb.inodeCount →
      t.data = s.data → t.inodes j = s.inodes j ∧ t.sb.inodeCount ≥ s.sb.inodeCount ∧
        fileContent t j = fileContent s j := fun h1 h2 h3 =>
    ⟨h1, h2, fileContent_congr h1 fun a _ => by rw [h3]⟩
  cases he with
  | quiet ic => exact hkeep rfl le_rfl rfl
  | seek k off => exact hkeep rfl le_rfl rfl
  | closed k => exact hkeep rfl le_rfl rfl
  | opened ic hi hfind hk hu => exact hkeep rfl le_rfl rfl
  | @created op ic k par flags name hslot hpar hdir hf hnew hop =>
    refine hkeep ?_ (le_max_left _ _) rfl
    have hne : j ≠ k := fun hc => freeSlot_not_live hslot (hc ▸ hj)
    simp [addInode, hne]
  | @unlinked path ic i hi hfind hdir =>
    have hne : j ≠ i := fun hc => ht (by rw [hc]; exact hfind)
    exact hkeep ((unlinkInode_zeroed s ic i).other hne) le_rfl rfl
  | @removed path ic i hi hfind hdir hempty =>
    have hne : j ≠ i := fun hc => ht (by rw [hc]; exact hfind)
    exact hkeep ((rmdirInode_zeroed s ic i).other hne) le_rfl rfl
  | @wrote fd buf count k p hfd hdir hc hp =>
    have hne : j ≠ (s.fdEntries fd.toNat).ino := fun hc => ht (by
      rw [Op.target, if_neg hfd, ← hc])
    have hrec := writeBytes_other s fd.toNat p buf k hne
    have hi := h.fds _ (not_badFd_used hfd)
    have hmoves := h.write_moves hi (writePlan_some hp).1 buf k
    refine ⟨hrec, le_rfl, fileContent_congr hrec fun a ha => ?_⟩
    exact write_data_outside rfl hp (hw hfd) buf (h.not_covers hmoves hj.1 hne ha)

/-- **Isolation.** In every state reached from a formatted and mounted device, a call leaves every
regular file it is not applied to in use and regular, with the same size and the same content, read
in chunks of any size through any descriptors open on it before and after. -/
theorem isolation (d : Device) (size : ℕ) (hsize : size < 2 ^ 32) (s₀ s : Fs)
    (h0 : formatMount d size = some s₀) (h : Reach Any step s₀ s) (op : Op) (hw : NoWrap s op)
    (j : ℕ) (hj : s.Live j) (hfile : (s.inodes j).isDir = false) (ht : Op.target s op ≠ some j) :
    (step s op).Live j ∧ ((step s op).inodes j).isDir = false ∧
    ((step s op).inodes j).size = (s.inodes j).size ∧
    fileContent (step s op) j = fileContent s j ∧
    ∀ chunk fd fd', 0 < chunk → chunk < 2 ^ 31 → OpenOn s fd j → OpenOn (step s op) fd' j →
      readToEnd chunk (step s op) fd' = readToEnd chunk s fd := by
  have hs := sound_reach hsize h0 h
  obtain ⟨hrec, hcount, hcont⟩ := isolation_effect hs hw (step_effect s op) hj ht
  refine ⟨⟨by have := hj.1; omega, by rw [hrec]; exact hj.2⟩, by rw [hrec]; exact hfile,
    by rw [hrec], hcont, fun chunk fd fd' hc hc' ho ho' => ?_⟩
  have hlen := copyLen_lt hs hj.1
  rw [readToEnd_eq ho hlen hc hc', readToEnd_eq ho' (by rw [hrec]; exact hlen) hc hc', hcont]

def twoFiles : Fs :=
  [.create (cstr "/a"), .open_ (cstr "/a") 0, .write 0 (fun _ => 7) 1, .create (cstr "/b"),
    .open_ (cstr "/b") 0].foldl step smallFs

theorem twoFiles_reach : Reach Any step smallFs twoFiles :=
  Reach.foldl _ .init (Admits.any _)

/-- The write that gives `/b` two blocks leaves `/a` alone. -/
theorem isolation_small :
    fileContent (step twoFiles (.write 1 (fun _ => 8) 5000)) 1 = fileContent twoFiles 1 :=
  (isolation zeroDevice (4096 * 5) (by norm_num) smallFs twoFiles formatMount_small twoFiles_reach
    (.write 1 (fun _ => 8) 5000) (by unfold NoWrap; decide +kernel) 1 (by decide +kernel)
    (by decide +kernel) (by decide +kernel)).2.2.2.1

/-! ### What a write does to its file -/

theorem Planned.need_le {ino : Inode} {need : ℕ} {p : BlockPlan}
    (h : Planned s ino need p) : need ≤ ino.blocks + s.sb.freeBlocks := by
  cases h with
  | keep h => omega
  | shrink h => omega
  | fresh h0 hn hf h2 hr => omega
  | extend h0 hn hf hr => omega
  | relocate h0 hn hf h2 hr => omega

theorem writePlan_end {ino : Inode} {off n k : ℕ} {p : BlockPlan}
    (hroom : ino.blocks + s.sb.freeBlocks < 2 ^ 20) (hwrap : off + n + 4095 < 2 ^ 32)
    (h : writePlan s ino off n = some (p, k)) :
    off + k = min (off + n) ((ino.blocks + s.sb.freeBlocks) * 4096) := by
  have hmod : (off + n) % 2 ^ 32 = off + n := Nat.mod_eq_of_lt (by omega)
  have hmax : (ino.blocks + s.sb.freeBlocks) * 4096 % 2 ^ 32 =
      (ino.blocks + s.sb.freeBlocks) * 4096 := Nat.mod_eq_of_lt (by omega)
  obtain ⟨hp, rfl⟩ | ⟨hnone, hm, hk, hp⟩ := writePlan_cases h
  · have hle := Planned.need_le (planBlocks_planned hp)
    rw [hmod, needBlocks_eq hwrap] at hle
    omega
  · rw [hmax] at hm hk
    -- the second call differs from the first one, which failed
    have hcut : (ino.blocks + s.sb.freeBlocks) * 4096 - off < n := by
      by_contra hc
      rw [hk, min_eq_right (by omega), hnone] at hp
      exact absurd hp (by simp)
    omega

/-- The content of a file after `k` bytes of `buf` were written at `off`. -/
def splice (c : List UInt8) (off : ℕ) (buf : ℕ → UInt8) (k : ℕ) : List UInt8 :=
  c.take off ++ (List.range k).map buf ++ c.drop (off + k)

theorem splice_eq_map (f : ℕ → UInt8) {off k len : ℕ} (buf : ℕ → UInt8) (hoff : off ≤ len) :
    splice ((List.range len).map f) off buf k =
      (List.range (max len (off + k))).map fun j =>
        if off ≤ j ∧ j < off + k then buf (j - off) else f j := by
  unfold splice
  refine List.ext_getElem (by simp; omega) fun j h1 h2 => ?_
  rw [List.getElem_map, List.getElem_range]
  by_cases h3 : j < off
  · rw [if_neg (by omega), List.getElem_append_left (by simp; omega),
      List.getElem_append_left (by simp; omega)]
    simp
  · by_cases h4 : j < off + k
    · rw [if_pos ⟨by omega, h4⟩, List.getElem_append_left (by simp; omega),
        List.getElem_append_right (by simp; omega)]
      simp [hoff]
    · rw [if_neg (by omega), List.getElem_append_right (by simp; omega)]
      simp only [List.getElem_drop, List.getElem_map, List.getElem_range]
      congr 1
      simp
      omega

/-- The exact condition for a write of `n` bytes at `off` to keep the rest of the file; `e` is where
it ends. The offset lies in the readable part, and what is readable afterwards reaches as far as the
readable part and the bytes written did. -/
def WriteKeeps (s : Fs) (ino : Inode) (off n : ℕ) : Prop :=
  let e := min (off + n) ((ino.blocks + s.sb.freeBlocks) * 4096)
  off ≤ copyLen ino ∧ min (max ino.size e) ((e + 4095) / 4096 * 4096) = max (copyLen ino) e

instance (s : Fs) (ino : Inode) (off n : ℕ) : Decidable (WriteKeeps s ino off n) := by
  unfold WriteKeeps; infer_instance

section Write
variable {s : Fs} {fd off n k : ℕ} {p : BlockPlan} (hoff : (s.fdEntries fd).offset = off)
  (hwrap : off + n + 4095 < 2 ^ 32)
  (hp : writePlan s (s.inodes (s.fdEntries fd).ino) off n = some (p, k))
include hoff hwrap hp

theorem write_copyLen (buf : ℕ → UInt8) :
    copyLen ((writeBytes s fd p buf k).inodes (s.fdEntries fd).ino) =
      min (max (s.inodes (s.fdEntries fd).ino).size (off + k)) ((off + k + 4095) / 4096 * 4096) := by
  obtain ⟨hpl, hk⟩ := writePlan_some hp
  rw [writeBytes_self]
  unfold copyLen
  dsimp only
  rw [hpl.count_eq, hoff, Nat.mod_eq_of_lt (by omega), needBlocks_eq (by omega)]

variable (hs : Sound s) (hi : (s.fdEntries fd).ino < s.sb.inodeCount)
include hs hi

theorem write_byte (hpos : 0 < k) (buf : ℕ → UInt8)
    (hj : j < copyLen (s.inodes (s.fdEntries fd).ino) ∨ (off ≤ j ∧ j < off + k)) :
    (writeBytes s fd p buf k).data
        (((writeBytes s fd p buf k).inodes (s.fdEntries fd).ino).firstBlock * 4096 + j) =
      if off ≤ j ∧ j < off + k then buf (j - off)
      else s.data ((s.inodes (s.fdEntries fd).ino).firstBlock * 4096 + j) := by
  obtain ⟨hpl, hk⟩ := writePlan_some hp
  rw [writeBytes_self, writeBytes_data, hoff]
  dsimp only
  split_ifs with hin
  · rw [store_inside _ _ (by omega) (by omega)]
    congr 1
    omega
  · rw [store_outside _ _ (by omega)]
    have hneed : 0 < needBlocks ((off + k) % 2 ^ 32) := by
      rw [Nat.mod_eq_of_lt (by omega), needBlocks_eq (by omega)]
      omega
    exact Planned.data_kept hpl hneed (hs.marked hi) (by omega)

theorem write_splice_iff (hpos : 0 < k) (buf : ℕ → UInt8) :
    fileContent (writeBytes s fd p buf k) (s.fdEntries fd).ino =
        splice (fileContent s (s.fdEntries fd).ino) off buf k ↔
      WriteKeeps s (s.inodes (s.fdEntries fd).ino) off n := by
  have hlen := write_copyLen hoff hwrap hp buf
  have hend : off + k = min (off + n) (((s.inodes (s.fdEntries fd).ino).blocks +
      s.sb.freeBlocks) * 4096) := by
    have h1 := hs.blocks_le hi
    have h2 := hs.total_lt
    exact writePlan_end (by omega) hwrap hp
  unfold WriteKeeps
  dsimp only
  rw [← hend]
  constructor
  · -- the lengths decide
    intro heq
    have hl := congrArg List.length heq
    simp only [splice, List.length_append, List.length_take, List.length_map, List.length_range,
      List.length_drop, fileContent_length, hlen] at hl
    omega
  · rintro ⟨hle, hmax⟩
    rw [fileContent, hlen, hmax, fileContent, splice_eq_map _ _ hle]
    refine List.map_congr_left fun j hj => write_byte hoff hwrap hp hs hi hpos buf ?_
    have := List.mem_range.mp hj
    omega

end Write

theorem OpenOn.write_eq {fd : ℤ} (h : OpenOn s fd i) (buf : ℕ → UInt8) (n : ℕ) :
    unamedfsWrite s fd buf n =
      if n = 0 then (s, 0)
      else match writePlan s (s.inodes i) (s.fdEntries fd.toNat).offset n with
        | none => (s, -1)
        | some (p, k) => (writeBytes s fd.toNat p buf k, toInt32 k) := by
  obtain ⟨hgood, rfl, hmount, hfile⟩ := h
  unfold unamedfsWrite
  rw [if_neg hgood, if_neg (by simp [hmount])]
  exact if_neg (by simp [hfile])

theorem write_some {fd : ℤ} {n k : ℕ} {buf : ℕ → UInt8} (ho : OpenOn s fd i)
    (hn : n < 2 ^ 32) (hpos : 0 < k) (hk : (unamedfsWrite s fd buf n).2 = k) :
    ∃ p, writePlan s (s.inodes (s.fdEntries fd.toNat).ino) (s.fdEntries fd.toNat).offset n =
        some (p, k) ∧ (unamedfsWrite s fd buf n).1 = writeBytes s fd.toNat p buf k := by
  rw [ho.write_eq] at hk ⊢
  rw [ho.ino]
  by_cases hn0 : n = 0
  · rw [if_pos hn0] at hk
    dsimp only at hk
    omega
  rw [if_neg hn0] at hk ⊢
  cases hp : writePlan s (s.inodes i) (s.fdEntries fd.toNat).offset n with
  | none =>
    rw [hp] at hk
    dsimp only at hk
    omega
  | some pk =>
    obtain ⟨p, j⟩ := pk
    rw [hp] at hk
    dsimp only at hk
    have hj := (writePlan_some hp).2
    have hjk : j = k := toInt32_eq_natCast (by omega) hk
    subst hjk
    exact ⟨p, rfl, rfl⟩

theorem OpenOn.write {fd : ℤ} (h : OpenOn s fd i) (p : BlockPlan)
    (buf : ℕ → UInt8) (k : ℕ) : OpenOn (writeBytes s fd.toNat p buf k) fd i := by
  obtain ⟨hgood, rfl, hmount, hfile⟩ := h
  refine ⟨?_, by simp [writeBytes, BlockPlan.run], hmount, ?_⟩
  · simpa [Fs.badFd, writeBytes, BlockPlan.run] using hgood
  · simpa [Inode.isDir, writeBytes, BlockPlan.run] using hfile

theorem write_sound (hs : Sound s) {fd need : ℕ} {p : BlockPlan}
    (hi : (s.fdEntries fd).ino < s.sb.inodeCount)
    (hp : Planned s (s.inodes (s.fdEntries fd).ino) need p) (buf : ℕ → UInt8) (k : ℕ) :
    Sound (writeBytes s fd p buf k) :=
  hs.moves (hs.write_moves hi hp buf k) (fds_update hs.fds _ _ fun _ => hi)

theorem write_content_aux (hs : Sound s) {fd : ℤ} (ho : OpenOn s fd i) {buf : ℕ → UInt8}
    {n : ℕ} (hwrap : (s.fdEntries fd.toNat).offset + n + 4095 < 2 ^ 32) {k : ℕ} (hpos : 0 < k)
    (hk : (unamedfsWrite s fd buf n).2 = k) (hc : 0 < chunk) (hc' : chunk < 2 ^ 31) :
    (k ≤ n ∧ readToEnd chunk (unamedfsWrite s fd buf n).1 fd =
        splice (readToEnd chunk s fd) (s.fdEntries fd.toNat).offset buf k) ↔
      WriteKeeps s (s.inodes i) (s.fdEntries fd.toNat).offset n := by
  obtain ⟨p, hp, hw⟩ := write_some ho (by omega) hpos hk
  have hi := hs.fds _ (not_badFd_used ho.good)
  have hs' := write_sound hs hi (writePlan_some hp).1 buf k
  rw [hw, readToEnd_eq (ho.write p buf k) (copyLen_lt hs' (by rw [← ho.ino]; exact hi)) hc hc',
    readToEnd_eq ho (copyLen_lt hs (by rw [← ho.ino]; exact hi)) hc hc', ← ho.ino,
    ← write_splice_iff rfl hwrap hp hs hi hpos buf]
  exact ⟨fun h => h.2, fun h => ⟨(writePlan_some hp).2, h⟩⟩

/-! ### On the device -/

theorem runPlan_data (b : ByteFs) (p : BlockPlan) {x : ℕ} (hx : ¬ OwnField i (8192 + x)) :
    (b.runPlan i p).view.data x = p.data b.view.data (b.inode i) x := by
  cases p with
  | keep => rfl
  | shrink need =>
    simp only [ByteFs.runPlan, BlockPlan.data]
    split_ifs <;> simp only [setFirst_data _ _ hx, setBlocks_data _ _ hx, setFree_data,
      markRange_data]
  | fresh first need =>
    simp only [ByteFs.runPlan, BlockPlan.data, ByteFs.subFree, setBlocks_data _ _ hx,
      setFirst_data _ _ hx, setFree_data, markRange_data]
  | extend need =>
    simp only [ByteFs.runPlan, BlockPlan.data, ByteFs.subFree, setBlocks_data _ _ hx, setFree_data,
      markRange_data]
  | relocate first need =>
    simp only [ByteFs.runPlan, BlockPlan.data, ByteFs.subFree, setBlocks_data _ _ hx,
      setFirst_data _ _ hx, setFree_data, markRange_data, copyData_data]

theorem writeBytes_view_data {b : ByteFs} {fd need : ℕ} {p : BlockPlan}
    (hp : Planned b.view (b.inode (b.fdEntries fd).ino) need p) (hnb : b.bitmapBlocks ≤ 4096)
    (buf : ℕ → UInt8) (k : ℕ) {x : ℕ} (hx : ¬ OwnField (b.fdEntries fd).ino (8192 + x)) :
    (b.writeBytes fd p buf k).view.data x = (writeBytes b.view fd p buf k).data x := by
  have hput : ((b.runPlan (b.fdEntries fd).ino p).putData (blockAddr
      ((b.runPlan (b.fdEntries fd).ino p).inode (b.fdEntries fd).ino).firstBlock +
        (b.fdEntries fd).offset) buf k).view.data x = (writeBytes b.view fd p buf k).data x := by
    rw [putData_data, writeBytes_data, b.runPlan_first _ hp hnb]
    unfold store
    exact if_congr Iff.rfl rfl (runPlan_data b p hx)
  rw [← hput]
  unfold ByteFs.writeBytes
  dsimp only
  split_ifs
  · exact setSize_data _ _ hx
  · rfl

/-- The extent that a write of `n` bytes is going to use lies behind the inode table and on the
device, as a whole. -/
def ExtentFits (b : ByteFs) (ino : Inode) (off n : ℕ) : Prop :=
  ∀ pk ∈ writePlan b.view ino off n, b.InData (blockAddr (pk.1.first ino)) (pk.1.count ino * 4096)

instance (b : ByteFs) (ino : Inode) (off n : ℕ) : Decidable (ExtentFits b ino off n) := by
  unfold ExtentFits; infer_instance

theorem ExtentFits.planFits {b : ByteFs} {ino : Inode} {off n k : ℕ} {p : BlockPlan}
    (h : ExtentFits b ino off n) (hwrap : off + n + 4095 < 2 ^ 32)
    (hp : writePlan b.view ino off n = some (p, k)) : b.PlanFits ino off p k := by
  obtain ⟨h1, h2⟩ : b.InData (blockAddr (p.first ino)) (p.count ino * 4096) := h (p, k) hp
  obtain ⟨hpl, hk⟩ := writePlan_some hp
  have hcap : off + k ≤ p.count ino * 4096 := by
    rw [hpl.count_eq, Nat.mod_eq_of_lt (by omega)]
    exact le_needBlocks (by omega)
  refine ⟨⟨by omega, by omega⟩, ?_⟩
  cases hpl with
  | relocate h0 hn hf h2' hr =>
    have := copyLen_le ino
    simp only [BlockPlan.first, BlockPlan.count] at h1 h2
    exact ⟨h1, by omega⟩
  | keep | shrink | fresh | extend => trivial

theorem OpenOn.alike {s t : Fs} {fd : ℤ} (h : OpenOn t fd i) (ha : Alike s t)
    (hi : i < t.sb.inodeCount) : OpenOn s fd i := by
  refine ⟨?_, by rw [ha.fds]; exact h.ino, by rw [ha.mount]; exact h.mount,
    by rw [ha.inode i hi]; exact h.file⟩
  have := h.good
  unfold Fs.badFd at this ⊢
  rwa [ha.fds]

/-- **The semantics of a write.** In every state reached from a formatted and mounted device by calls
whose writes stay behind the inode table: a write of `n` bytes through a descriptor open on a
regular file, whose extent lies behind the table and on the device, that returns `k > 0` has
replaced the bytes `[off, off + k)` of the content, as it is read from 0 to the end, and nothing
else, exactly when `WriteKeeps` holds before the call. -/
theorem write_content (m : Mem) (size : ℕ) (hsize : size < 2 ^ 32) (b₀ b : ByteFs)
    (h0 : formatMountBytes m size = some b₀) (h : Reach ByteFs.WriteFits ByteFs.step b₀ b) (fd : ℤ)
    (i : ℕ) (ho : OpenOn b.view fd i) (buf : ℕ → UInt8) (n : ℕ)
    (hwrap : (b.fdEntries fd.toNat).offset + n + 4095 < 2 ^ 32)
    (hext : ExtentFits b (b.inode i) (b.fdEntries fd.toNat).offset n) (k : ℕ) (hpos : 0 < k)
    (hk : (b.unamedfsWrite fd buf n).2 = k) (chunk : ℕ) (hc : 0 < chunk) (hc' : chunk < 2 ^ 31) :
    (k ≤ n ∧ readToEnd chunk (b.unamedfsWrite fd buf n).1.view fd =
        splice (readToEnd chunk b.view fd) (b.fdEntries fd.toNat).offset buf k) ↔
      WriteKeeps b.view (b.inode i) (b.fdEntries fd.toNat).offset n := by
  obtain ⟨-, hs⟩ := invariants_reach hsize h0 h
  obtain rfl : (b.fdEntries fd.toNat).ino = i := ho.ino
  have hfit : b.WriteFits (.write fd buf n) := fun _ _ _ => by
    cases hp : writePlan b.view (b.inode (b.fdEntries fd.toNat).ino) (b.fdEntries fd.toNat).offset
        n with
    | none => trivial
    | some pk => exact hext.planFits hwrap hp
  obtain ⟨halike, hval⟩ := write_both hs hfit
  rw [hval] at hk
  refine Iff.trans ?_ (write_content_aux hs ho hwrap hpos hk hc hc')
  have hlt : (b.fdEntries fd.toNat).ino < b.sb.inodeCount := hs.fds _ (not_badFd_used ho.good)
  obtain ⟨p, hp, hw⟩ := write_some ho (by omega) hpos hk
  obtain ⟨hpl, hkn⟩ := writePlan_some hp
  have hbytes : (b.unamedfsWrite fd buf n).1 = b.writeBytes fd.toNat p buf k := by
    have hmount : b.mountValid = true := ho.mount
    have hfile : (b.inode (b.fdEntries fd.toNat).ino).isDir = false := ho.file
    unfold ByteFs.unamedfsWrite
    rw [if_neg ho.good, if_neg (by simp [hmount])]
    dsimp only
    rw [hfile, if_neg (by simp), if_neg (by omega)]
    simp only [show writePlan b.view (b.inode (b.fdEntries fd.toNat).ino)
      (b.fdEntries fd.toNat).offset n = some (p, k) from hp]
  have hnb : b.bitmapBlocks ≤ 4096 := by
    rw [show b.bitmapBlocks = min b.sb.totalBlocks 4096 from hs.size_eq]
    exact min_le_right _ _
  rw [hbytes, hw] at halike ⊢
  have hi : (writeBytes b.view fd.toNat p buf k).sb.inodeCount = b.sb.inodeCount := rfl
  have hopen := ho.write p buf k
  have hcont : fileContent (b.writeBytes fd.toNat p buf k).view (b.fdEntries fd.toNat).ino =
      fileContent (writeBytes b.view fd.toNat p buf k) (b.fdEntries fd.toNat).ino := by
    refine fileContent_congr (halike.inode _ (hi ▸ hlt)) fun a ha => ?_
    refine writeBytes_view_data hpl hnb buf k ?_
    -- the extent lies behind the record of the file
    have hfirst := ha.1
    rw [show (b.fdEntries fd.toNat).ino = (b.view.fdEntries fd.toNat).ino from rfl,
      writeBytes_self] at hfirst
    have hbehind : inodeAddr b.sb.inodeCount ≤
      blockAddr (p.first (b.inode (b.fdEntries fd.toNat).ino)) := (hext (p, k) hp).1
    change p.first (b.inode (b.fdEntries fd.toNat).ino) ≤ a / 4096 at hfirst
    unfold OwnField inodeAddr at *
    unfold blockAddr at hbehind
    omega
  have hlen : copyLen ((writeBytes b.view fd.toNat p buf k).inodes (b.fdEntries fd.toNat).ino) <
      2 ^ 32 := copyLen_lt (write_sound hs hlt hpl buf k) (hi ▸ hlt)
  rw [readToEnd_eq hopen hlen hc hc', readToEnd_eq (hopen.alike halike (hi ▸ hlt))
    (by rw [halike.inode _ (hi ▸ hlt)]; exact hlen) hc hc', hcont]
  rfl

def oneByte : List Op := openFile ++ [.write 0 (fun _ => 7) 1]

theorem write_content_small :
    let b := oneByte.foldl ByteFs.step sixBlocks
    readToEnd 512 (b.unamedfsWrite 0 (fun _ => 9) 3).1.view 0 =
      splice (readToEnd 512 b.view 0) 1 (fun _ => 9) 3 :=
  ((write_content _ (4096 * 6) (by decide) sixBlocks _ (Option.some_get _).symm
    (Reach.foldl oneByte .init (by decide +kernel)) 0 1
    ⟨by decide +kernel, by decide +kernel, by decide +kernel, by decide +kernel⟩ (fun _ => 9) 3
    (by decide +kernel) (by decide +kernel) 3 (by decide) (by decide +kernel) 512 (by decide)
    (by decide)).mpr (by decide +kernel)).2

/-- The calls that leave 4097 bytes in `/a`, open at 0. -/
def fillTwo : List Op := openFile ++ [.write 0 (fun _ => 7) 4097, .lseek 0 0 0]

def twoBlocks : ByteFs := fillTwo.foldl ByteFs.step sixBlocks

/-- One byte written at the start of a file of 4097 bytes: `ensure_blocks` frees the second block,
and the last byte of the file is gone. -/
theorem overwrite_cuts_file :
    Reach ByteFs.WriteFits ByteFs.step sixBlocks twoBlocks ∧ OpenOn twoBlocks.view 0 1 ∧
      (twoBlocks.fdEntries 0).offset = 0 ∧ (twoBlocks.unamedfsWrite 0 (fun _ => 9) 1).2 = 1 ∧
      readToEnd 512 (twoBlocks.unamedfsWrite 0 (fun _ => 9) 1).1.view 0 ≠
        splice (readToEnd 512 twoBlocks.view 0) 0 (fun _ => 9) 1 := by
  refine ⟨Reach.foldl fillTwo .init (by decide +kernel), ⟨by decide +kernel, by decide +kernel,
    by decide +kernel, by decide +kernel⟩, by decide +kernel, by decide +kernel, fun heq => ?_⟩
  have hlen := congrArg List.length heq
  revert hlen
  decide +kernel

end Kerneloid.UnnamedFS.Content
