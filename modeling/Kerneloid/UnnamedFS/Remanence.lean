import Kerneloid.UnnamedFS.Content

/-! # Bytes of removed files

Removing a file frees its blocks and leaves the bytes in them; `ensure_blocks` hands the blocks out
again as they are. So two runs are compared that make the same calls and differ in the bytes they
write before a file `B` is created.

* `step_twin`: no call looks at the data area, so the two runs agree in everything but the bytes
  (`Twin`): same inode table, same bitmap, same descriptors.
* `content_step`: where the content of `B` was the same in both runs before a call, it is the same
  after it exactly when the call exposes the same bytes in both. A call exposes a position of `B` if
  it makes it readable and does not write it (`Exposes`); only a write to `B` that leaves a gap does
  that.
* `no_remanence`: all reads of `B` agree along the whole of the two runs exactly when every call
  exposes the same bytes in both, and so if no call exposes anything.

A write behind the end of the file is the gap: it exposes what the block held before
(`removed_bytes_readable`). -/

namespace Kerneloid.UnnamedFS.Remanence

open Lib.Bytes Lib.Runs Types UnnamedFS.Path Lookup Blocks Ops Effects Namespace Slots Alloc Content

variable {s : Fs} {op : Op} {j x : ℕ}

/-! ### No call looks at the data area -/

/-- Two states that differ in the data area at most. -/
def Twin (s t : Fs) : Prop := ∃ m, t = { s with data := m }

/-- The same call, but for the bytes it writes. -/
inductive SameCall : Op → Op → Prop
  | refl (op : Op) : SameCall op op
  | write (fd : ℤ) (buf buf' : ℕ → UInt8) (count : ℕ) :
      SameCall (.write fd buf count) (.write fd buf' count)

theorem pathWalk_data (s : Fs) (m : Mem) :
    ∀ (cs : CStr) (ic : InodeCache) (cur : ℕ) (comp : CStr),
      pathWalk { s with data := m } ic cur comp cs = pathWalk s ic cur comp cs
  | [], _, _, _ => rfl
  | c :: cs, ic, cur, comp => by
    have hstep : pathStep { s with data := m } ic cur comp = pathStep s ic cur comp := rfl
    simp only [pathWalk, hstep, pathWalk_data s m cs]

theorem findInodeByPath_data (s : Fs) (m : Mem) (path : CStr) :
    findInodeByPath { s with data := m } path = findInodeByPath s path := by
  simp only [findInodeByPath, pathWalk_data]

theorem allocInodeSlot_data (s : Fs) (m : Mem) : allocInodeSlot { s with data := m } =
      ({ (allocInodeSlot s).1 with data := m }, (allocInodeSlot s).2) := by
  unfold allocInodeSlot
  dsimp only
  cases (List.range s.sb.inodeCount).find? fun i => !(s.inodes i).isLive with
  | some i => rfl
  | none =>
    dsimp only
    split_ifs <;> rfl

theorem createInode_data (s : Fs) (m : Mem) (norm : CStr) (flags : ℕ) :
    (createInode { s with data := m } norm flags).1 =
      { (createInode s norm flags).1 with data := m } := by
  unfold createInode
  dsimp only
  rw [findInodeByPath_data]
  generalize findInodeByPath s (pathDirname norm) = r
  by_cases h1 : pathBasename norm 64 = []
  · rw [if_pos h1, if_pos h1]
  rw [if_neg h1, if_neg h1]
  by_cases h2 : 64 ≤ (pathBasename norm 64).length
  · rw [if_pos h2, if_pos h2]
  rw [if_neg h2, if_neg h2]
  cases r.2 with
  | none => rfl
  | some par =>
    dsimp only
    by_cases h3 : (s.inodes par).isDir = false
    · rw [if_pos h3, if_pos h3]
    rw [if_neg h3, if_neg h3]
    -- the second lookup and the search for a slot read the table only
    have hname : ∀ ic, findInodeByNameParent { s with data := m, icache := ic } ic
        (pathBasename norm 64) par = findInodeByNameParent { s with icache := ic } ic
          (pathBasename norm 64) par := fun _ => rfl
    rw [hname]
    generalize findInodeByNameParent { s with icache := r.1 } r.1 (pathBasename norm 64) par = f
    by_cases h4 : f.2.isSome = true
    · rw [if_pos h4, if_pos h4]
    rw [if_neg h4, if_neg h4]
    have hslot := allocInodeSlot_data { s with icache := f.1 } m
    dsimp only at hslot
    rw [hslot]
    rcases allocInodeSlot { s with icache := f.1 } with ⟨s', _ | slot⟩ <;> rfl

theorem open_data (s : Fs) (m : Mem) (path : CStr) (flags : ℤ) :
    (unamedfsOpen { s with data := m } path flags).1 =
      { (unamedfsOpen s path flags).1 with data := m } := by
  simp only [unamedfsOpen, findInodeByPath_data]
  generalize findInodeByPath s (pathNormalize path 256) = r
  split_ifs
  · rfl
  · cases r.2 with
    | none => rfl
    | some i =>
      dsimp only
      cases (List.range 64).find? fun k => !(s.fdEntries k).used <;> rfl

theorem ite_badFd_data {α : Type} (s : Fs) (m : Mem) (fd : ℤ) (a b : α) :
    (if Fs.badFd { s with data := m } fd then a else b) = if Fs.badFd s fd then a else b := rfl

theorem lseek_data (s : Fs) (m : Mem) (fd offset whence : ℤ) :
    (unamedfsLseek { s with data := m } fd offset whence).1 =
      { (unamedfsLseek s fd offset whence).1 with data := m } := by
  have hseek : seekTarget { s with data := m } (s.fdEntries fd.toNat) offset whence =
      seekTarget s (s.fdEntries fd.toNat) offset whence := rfl
  simp only [unamedfsLseek, ite_badFd_data, hseek]
  split_ifs
  · rfl
  · rfl
  · cases seekTarget s (s.fdEntries fd.toNat) offset whence with
    | none => rfl
    | some off =>
      dsimp only
      split_ifs <;> rfl

theorem unlink_data (s : Fs) (m : Mem) (path : CStr) :
    (unamedfsUnlink { s with data := m } path).1 =
      { (unamedfsUnlink s path).1 with data := m } := by
  simp only [unamedfsUnlink, findInodeByPath_data]
  generalize findInodeByPath s (pathNormalize path 256) = r
  generalize pathNormalize path 256 = norm
  split_ifs
  · rfl
  · rfl
  · cases r.2 with
    | none => rfl
    | some i =>
      dsimp only
      split_ifs <;> rfl

theorem rmdir_data (s : Fs) (m : Mem) (path : CStr) : (unamedfsRmdir { s with data := m } path).1 =
      { (unamedfsRmdir s path).1 with data := m } := by
  simp only [unamedfsRmdir, findInodeByPath_data]
  generalize findInodeByPath s (pathNormalize path 256) = r
  generalize pathNormalize path 256 = norm
  split_ifs
  · rfl
  · rfl
  · cases r.2 with
    | none => rfl
    | some i =>
      have hchild : Fs.hasChild { s with data := m, icache := r.1 } i =
          Fs.hasChild { s with icache := r.1 } i := rfl
      dsimp only
      rw [hchild]
      split_ifs <;> rfl

theorem step_data (s : Fs) (m : Mem) (op : Op) (hop : ∀ fd buf count, op ≠ .write fd buf count) :
    step { s with data := m } op = { step s op with data := m } := by
  cases op with
  | create path => simp only [step, unamedfsCreate, createInode_data]
  | mkdir path =>
    simp only [step, unamedfsMkdir, createInode_data]
    generalize createInode s (pathNormalize path 256) 2 = r
    generalize pathNormalize path 256 = norm
    split_ifs <;> rfl
  | open_ path flags => exact open_data s m path flags
  | close fd =>
    simp only [step, unamedfsClose, ite_badFd_data]
    split_ifs <;> rfl
  | read fd count =>
    simp only [step, unamedfsRead, ite_badFd_data]
    split_ifs <;> rfl
  | write fd buf count => exact absurd rfl (hop fd buf count)
  | lseek fd offset whence => exact lseek_data s m fd offset whence
  | unlink path => exact unlink_data s m path
  | rmdir path => exact rmdir_data s m path

theorem step_data_eq (s : Fs) (op : Op) (hop : ∀ fd buf count, op ≠ .write fd buf count) :
    (step s op).data = s.data := by
  have h := step_data s s.data op hop
  rw [show { s with data := s.data } = s from rfl] at h
  rw [h]

theorem write_data (s : Fs) (m : Mem) (fd : ℤ) (buf buf' : ℕ → UInt8) (count : ℕ) :
    ((step s (.write fd buf count)) = s ∧
      (step { s with data := m } (.write fd buf' count)) = { s with data := m }) ∨
    ∃ p k, ¬ Fs.badFd s fd ∧ s.mountValid = true ∧
      (s.inodes (s.fdEntries fd.toNat).ino).isDir = false ∧
      writePlan s (s.inodes (s.fdEntries fd.toNat).ino) (s.fdEntries fd.toNat).offset count =
        some (p, k) ∧
      step s (.write fd buf count) = writeBytes s fd.toNat p buf k ∧
      step { s with data := m } (.write fd buf' count) =
        writeBytes { s with data := m } fd.toNat p buf' k := by
  have hplan : writePlan { s with data := m } (s.inodes (s.fdEntries fd.toNat).ino)
      (s.fdEntries fd.toNat).offset count =
      writePlan s (s.inodes (s.fdEntries fd.toNat).ino) (s.fdEntries fd.toNat).offset count := rfl
  simp only [step, unamedfsWrite, ite_badFd_data, hplan]
  split_ifs with h1 h2 h3 h4
  · exact Or.inl ⟨rfl, rfl⟩
  · exact Or.inl ⟨rfl, rfl⟩
  · exact Or.inl ⟨rfl, rfl⟩
  · exact Or.inl ⟨rfl, rfl⟩
  · cases hp : writePlan s (s.inodes (s.fdEntries fd.toNat).ino) (s.fdEntries fd.toNat).offset
        count with
    | none => exact Or.inl ⟨rfl, rfl⟩
    | some pk => exact Or.inr ⟨pk.1, pk.2, h1, by simpa using h2, by simpa using h3, rfl, rfl, rfl⟩

theorem step_twin {s t : Fs} (h : Twin s t) {op' : Op} (hop : SameCall op op') :
    Twin (step s op) (step t op') := by
  obtain ⟨m, rfl⟩ := h
  have hwrite : ∀ fd buf buf' count, Twin (step s (.write fd buf count))
      (step { s with data := m } (.write fd buf' count)) := by
    intro fd buf buf' count
    rcases write_data s m fd buf buf' count with ⟨h1, h2⟩ | ⟨p, k, -, -, -, -, h1, h2⟩
    · rw [h1, h2]; exact ⟨m, rfl⟩
    · rw [h1, h2]; exact ⟨_, rfl⟩
  cases hop with
  | write fd buf buf' count => exact hwrite fd buf buf' count
  | refl =>
    by_cases hw : ∃ fd buf count, op = .write fd buf count
    · obtain ⟨fd, buf, count, rfl⟩ := hw
      exact hwrite fd buf buf count
    · exact ⟨m, step_data s m op fun fd buf count he => hw ⟨fd, buf, count, he⟩⟩

theorem foldl_twin {s t : Fs} (h : Twin s t) {xs ys : List Op}
    (hsame : List.Forall₂ SameCall xs ys) : Twin (xs.foldl step s) (ys.foldl step t) :=
  List.rel_foldl (P := Twin) (R := SameCall) (fun _ _ h _ _ hop => step_twin h hop) h hsame

/-! ### What a call exposes -/

/-- Every read of slot `j` delivers the same in both states: through any descriptor open on it, from
any offset, of any length. -/
def ReadsAgree (s t : Fs) (j : ℕ) : Prop :=
  ∀ fd off count, OpenOn s fd j → (unamedfsRead (setOffset s fd.toNat off) fd count).2 =
    (unamedfsRead (setOffset t fd.toNat off) fd count).2

/-- Position `x` of its file is written by the call. -/
def Writes (s : Fs) (x : ℕ) : Op → Prop
  | .write fd _ count =>
    ∃ pk ∈ writePlan s (s.inodes (s.fdEntries fd.toNat).ino) (s.fdEntries fd.toNat).offset count,
      (s.fdEntries fd.toNat).offset ≤ x ∧ x < (s.fdEntries fd.toNat).offset + pk.2
  | _ => False

instance (s : Fs) (x : ℕ) : ∀ op, Decidable (Writes s x op)
  | .write _ _ _ => Option.decidableExistsMem _
  | .create _ | .mkdir _ | .open_ _ _ | .close _ | .read _ _ | .lseek _ _ _ | .unlink _
  | .rmdir _ => isFalse id

theorem writes_iff {fd : ℤ} {buf : ℕ → UInt8} {count k : ℕ} {p : BlockPlan}
    (hp : writePlan s (s.inodes (s.fdEntries fd.toNat).ino) (s.fdEntries fd.toNat).offset count =
      some (p, k)) :
    Writes s x (.write fd buf count) ↔
        (s.fdEntries fd.toNat).offset ≤ x ∧ x < (s.fdEntries fd.toNat).offset + k := by
  simp [Writes, hp]

/-- The call makes position `x` of slot `j` readable and does not write it. -/
def Exposes (s : Fs) (op : Op) (j x : ℕ) : Prop :=
  copyLen (s.inodes j) ≤ x ∧ x < copyLen ((step s op).inodes j) ∧ ¬ Writes s x op

theorem Exposes.record_ne (h : Exposes s op j x) : (step s op).inodes j ≠ s.inodes j := by
  intro hrec
  obtain ⟨hlow, hhigh, -⟩ := h
  rw [hrec] at hhigh
  omega

/-- What the call exposes of slot `j` is the same in both states. -/
def ExposesSame (s t : Fs) (op : Op) (j : ℕ) : Prop :=
  ∀ x, Exposes s op j x → t.data (((step s op).inodes j).firstBlock * 4096 + x) =
    s.data (((step s op).inodes j).firstBlock * 4096 + x)

/-- The call writes every position of slot `j` that it makes readable. -/
def Gapless (s : Fs) (op : Op) (j : ℕ) : Prop :=
  ∀ x < copyLen ((step s op).inodes j), copyLen (s.inodes j) ≤ x → Writes s x op

instance (s : Fs) (op : Op) (j : ℕ) : Decidable (Gapless s op j) := by
  unfold Gapless; infer_instance

theorem Gapless.exposesSame (h : Gapless s op j) (t : Fs) : ExposesSame s t op j := by
  rintro x ⟨hlow, hx, hout⟩
  exact absurd (h x hx hlow) hout

theorem fileContent_data {m : Mem} :
    fileContent { s with data := m } j = fileContent s j ↔ ∀ x < copyLen (s.inodes j),
      m ((s.inodes j).firstBlock * 4096 + x) = s.data ((s.inodes j).firstBlock * 4096 + x) := by
  unfold fileContent
  rw [List.map_inj_left]
  simp only [List.mem_range]

theorem OpenOn.data {fd : ℤ} (h : OpenOn s fd j) (m : Mem) :
    OpenOn { s with data := m } fd j := ⟨h.good, h.ino, h.mount, h.file⟩

theorem readsAgree_of_content {m : Mem}
    (h : fileContent { s with data := m } j = fileContent s j) :
    ReadsAgree s { s with data := m } j := by
  intro fd off count ho
  rw [(ho.seek off).read, ((OpenOn.data ho m).seek off).read, setOffset_offset, setOffset_offset]
  have hbytes := fileContent_data.mp h
  refine Prod.ext rfl (List.map_congr_left fun x hx => ?_)
  have hx := List.mem_range.mp hx
  rw [readCount_eq] at hx
  have hlt : off + x < copyLen (s.inodes j) := by
    change x < min count (copyLen (s.inodes j) - off) at hx
    omega
  have hb := hbytes (off + x) hlt
  rw [← Nat.add_assoc] at hb
  exact hb.symm

theorem OpenOn.read_all {fd : ℤ} (ho : OpenOn s fd j) :
    (unamedfsRead (setOffset s fd.toNat 0) fd (copyLen (s.inodes j))).2.2 = fileContent s j := by
  obtain ⟨s', r, hread⟩ : ∃ s' r, unamedfsRead (setOffset s fd.toNat 0) fd (copyLen (s.inodes j)) =
      (s', r, (List.range (readCount (s.inodes j) ((setOffset s fd.toNat 0).fdEntries fd.toNat).offset
        (copyLen (s.inodes j)))).map fun x => s.data ((s.inodes j).firstBlock * 4096 +
          ((setOffset s fd.toNat 0).fdEntries fd.toNat).offset + x)) :=
    ⟨_, _, (ho.seek 0).read _⟩
  rw [hread]
  dsimp only
  rw [setOffset_offset, readCount_eq, Nat.sub_zero, min_self, Nat.add_zero, fileContent]

theorem content_of_readsAgree {m : Mem} {fd : ℤ} (ho : OpenOn s fd j)
    (h : ReadsAgree s { s with data := m } j) :
    fileContent { s with data := m } j = fileContent s j := by
  rw [← OpenOn.read_all ho, ← OpenOn.read_all (OpenOn.data ho m)]
  exact (congrArg Prod.snd (h fd 0 (copyLen (s.inodes j)) ho)).symm

/-! ### A write to the file -/

/-- After `ensure_blocks` the readable part of the file is at its new place, and behind it is what
the blocks held before. -/
theorem Planned.data_byte {ino : Inode} {need : ℕ} {p : BlockPlan}
    (hp : Planned s ino need p) (hmark : ∀ b, Covers ino b → Marked s b)
    (hx : x < p.count ino * 4096) :
    p.data s.data ino (p.first ino * 4096 + x) =
      if x < copyLen ino then s.data (ino.firstBlock * 4096 + x)
      else s.data (p.first ino * 4096 + x) := by
  have hneed : 0 < need := by
    rw [hp.count_eq] at hx
    omega
  split_ifs with hlt
  · exact Planned.data_kept hp hneed hmark hlt
  · cases hp with
    | keep h => rfl
    | shrink h => rfl
    | fresh h0 hn hf h2 hr => rfl
    | extend h0 hn hf hr => rfl
    | relocate h0 hn hf h2 hr =>
      refine move_outside s.data (Or.inr ?_)
      simp only [BlockPlan.first]
      omega

theorem writeBytes_twin (s : Fs) (m : Mem) (fd : ℕ) (p : BlockPlan) (buf : ℕ → UInt8) (k : ℕ) :
    writeBytes { s with data := m } fd p buf k = { writeBytes s fd p buf k with
      data := (writeBytes { s with data := m } fd p buf k).data } := rfl

section Write
variable {s : Fs} (hs : Sound s) (m : Mem) {fd count k : ℕ} {p : BlockPlan}
  (hi : (s.fdEntries fd).ino < s.sb.inodeCount)
  (hp : writePlan s (s.inodes (s.fdEntries fd).ino) (s.fdEntries fd).offset count = some (p, k))
  (buf : ℕ → UInt8)
include hs hi hp

theorem write_byte_over (hx : x < copyLen ((writeBytes s fd p buf k).inodes (s.fdEntries fd).ino)) :
    (writeBytes { s with data := m } fd p buf k).data
        (((writeBytes s fd p buf k).inodes (s.fdEntries fd).ino).firstBlock * 4096 + x) =
      if (s.fdEntries fd).offset ≤ x ∧ x < (s.fdEntries fd).offset + k then
        buf (x - (s.fdEntries fd).offset)
      else if x < copyLen (s.inodes (s.fdEntries fd).ino) then
        m ((s.inodes (s.fdEntries fd).ino).firstBlock * 4096 + x)
      else m (((writeBytes s fd p buf k).inodes (s.fdEntries fd).ino).firstBlock * 4096 + x) := by
  have hplan : writePlan { s with data := m } (s.inodes (s.fdEntries fd).ino)
      (s.fdEntries fd).offset count = some (p, k) := hp
  obtain ⟨hpl, -⟩ := writePlan_some hplan
  rw [writeBytes_self] at hx ⊢
  rw [writeBytes_data]
  simp only [copyLen] at hx
  have hdata := Planned.data_byte hpl (hs.marked hi) (x := x) (by omega)
  dsimp only at hdata ⊢
  split_ifs with hin hlt
  · rw [store_inside _ _ (by omega) (by omega)]
    congr 1
    omega
  · rw [store_outside _ _ (by omega), hdata, if_pos hlt]
  · rw [store_outside _ _ (by omega), hdata, if_neg hlt]

/-- **A write to the file.** If the content was the same in both states, it stays the same exactly
when the bytes are that become readable and are not written. -/
theorem write_content_iff
    (h : fileContent { s with data := m } (s.fdEntries fd).ino = fileContent s (s.fdEntries fd).ino)
      :
    fileContent (writeBytes { s with data := m } fd p buf k) (s.fdEntries fd).ino =
        fileContent (writeBytes s fd p buf k) (s.fdEntries fd).ino ↔
      ∀ x, copyLen (s.inodes (s.fdEntries fd).ino) ≤ x →
        x < copyLen ((writeBytes s fd p buf k).inodes (s.fdEntries fd).ino) →
        ¬ ((s.fdEntries fd).offset ≤ x ∧ x < (s.fdEntries fd).offset + k) →
        m (((writeBytes s fd p buf k).inodes (s.fdEntries fd).ino).firstBlock * 4096 + x) =
          s.data (((writeBytes s fd p buf k).inodes (s.fdEntries fd).ino).firstBlock * 4096 + x) := by
  rw [writeBytes_twin, fileContent_data]
  have hbyte := fun x hx => write_byte_over hs m hi hp buf (x := x) hx
  have hbyte' := fun x hx => write_byte_over hs s.data hi hp buf (x := x) hx
  have hold := fileContent_data.mp h
  constructor
  · intro hall x hlow hx hout
    have hx' := hall x hx
    rwa [hbyte x hx, hbyte' x hx, if_neg hout, if_neg hout, if_neg (by omega),
      if_neg (by omega)] at hx'
  · intro hexp x hx
    rw [hbyte x hx, hbyte' x hx]
    split_ifs with hin hlt
    · rfl
    · exact hold x hlt
    · exact hexp x (by omega) hx hin

/-- A write to another file puts the same bytes into both states, and none into the blocks of a file
in use. -/
theorem write_content_other (hj : s.Live j) (hne : j ≠ (s.fdEntries fd).ino)
    (h : fileContent { s with data := m } j = fileContent s j) :
    fileContent (writeBytes { s with data := m } fd p buf k) j =
      fileContent (writeBytes s fd p buf k) j := by
  rw [writeBytes_twin, fileContent_data, writeBytes_other s fd p buf k hne]
  have hold := fileContent_data.mp h
  intro x hx
  have hplan : writePlan { s with data := m } (s.inodes (s.fdEntries fd).ino)
      (s.fdEntries fd).offset count = some (p, k) := hp
  have hmoves := hs.write_moves hi (writePlan_some hp).1 buf k
  -- the new extent of the written file has no block of `j`
  have hout := hs.not_covers hmoves hj.1 hne (covers_readable hx)
  rw [writeBytes_self] at hout
  unfold Covers at hout
  dsimp only at hout
  have hkeep := Planned.data_outside (writePlan_some hp).1
    (a := (s.inodes j).firstBlock * 4096 + x) (by omega)
  have hkeep' := Planned.data_outside (writePlan_some hplan).1
    (a := (s.inodes j).firstBlock * 4096 + x) (by omega)
  rw [writeBytes_data, writeBytes_data]
  dsimp only at hkeep' ⊢
  unfold store
  rw [hkeep, hkeep', hold x hx]

end Write

/-! ### One call -/

theorem step_record (hop : ∀ fd buf count, op ≠ .write fd buf count)
    (hj : s.Live j) (hj' : (step s op).Live j) : (step s op).inodes j = s.inodes j := by
  obtain ⟨s', hs'⟩ : ∃ s', s' = step s op := ⟨_, rfl⟩
  have he := step_effect s op
  rw [← hs'] at he hj' ⊢
  clear hs'
  cases he with
  | quiet ic => rfl
  | seek k off => rfl
  | closed k => rfl
  | opened ic hi hfind hk hu => rfl
  | @created op ic k par flags name hslot hpar hdir hf hnew hop' =>
    have hne : j ≠ k := fun hc => freeSlot_not_live hslot (hc ▸ hj)
    simp [addInode, hne]
  | @unlinked path ic i hi hfind hdir =>
    exact (unlinkInode_zeroed s ic i).other (((unlinkInode_zeroed s ic i).live j).mp hj').2
  | @removed path ic i hi hfind hdir hempty =>
    exact (rmdirInode_zeroed s ic i).other (((rmdirInode_zeroed s ic i).live j).mp hj').2
  | @wrote fd buf count k p hfd hdir hc hp => exact absurd rfl (hop fd buf count)

/-- **The content after a call.** Where it was the same in both states, it stays the same exactly
when the call exposes the same bytes in both. -/
theorem content_step (hs : Sound s) (m : Mem) (op : Op) (hj : s.Live j)
    (hj' : (step s op).Live j) (h : fileContent { s with data := m } j = fileContent s j) :
    fileContent (step { s with data := m } op) j = fileContent (step s op) j ↔
      ExposesSame s { s with data := m } op j := by
  -- where the record stays, nothing is exposed
  have hnone : (step s op).inodes j = s.inodes j → ExposesSame s { s with data := m } op j :=
    fun hrec x hx => absurd hrec hx.record_ne
  by_cases hw : ∃ fd buf count, op = .write fd buf count
  · obtain ⟨fd, buf, count, rfl⟩ := hw
    rcases write_data s m fd buf buf count with ⟨h1, h2⟩ | ⟨p, k, hfd, -, -, hp, h1, h2⟩
    · refine iff_of_true ?_ (hnone (by rw [h1]))
      rw [h1, h2]
      exact h
    have hi := hs.fds _ (not_badFd_used hfd)
    by_cases hne : j = (s.fdEntries fd.toNat).ino
    · subst hne
      rw [h2, h1, write_content_iff hs m hi hp buf h]
      unfold ExposesSame Exposes
      rw [h1]
      simp only [writes_iff hp, and_imp]
    · refine iff_of_true ?_ (hnone (by rw [h1, writeBytes_other _ _ _ _ _ hne]))
      rw [h1, h2]
      exact write_content_other hs m hi hp buf hj hne h
  · have hop : ∀ fd buf count, op ≠ .write fd buf count := fun fd buf count he =>
      hw ⟨fd, buf, count, he⟩
    have hrec := step_record hop hj hj'
    refine iff_of_true ?_ (hnone hrec)
    rw [step_data s m op hop, fileContent_data, hrec, step_data_eq s op hop]
    exact fileContent_data.mp h

/-- A call that exposes something is a write through a descriptor of the file, which is still open
after it. -/
theorem exposes_open (hj : s.Live j) (hj' : (step s op).Live j)
    (hx : Exposes s op j x) : ∃ fd, OpenOn (step s op) fd j := by
  have hrec := hx.record_ne
  by_cases hw : ∃ fd buf count, op = .write fd buf count
  · obtain ⟨fd, buf, count, rfl⟩ := hw
    rcases write_data s s.data fd buf buf count with ⟨h1, -⟩ | ⟨p, k, hfd, hm, hdir, -, h1, -⟩
    · exact absurd (by rw [h1]) hrec
    rw [h1] at hrec ⊢
    by_cases hne : j = (s.fdEntries fd.toNat).ino
    · exact ⟨fd, OpenOn.write ⟨hfd, hne.symm, hm, by rw [hne]; exact hdir⟩ p buf k⟩
    · exact absurd (writeBytes_other _ _ _ _ _ hne) hrec
  · exact absurd (step_record (fun fd buf count he => hw ⟨fd, buf, count, he⟩) hj hj') hrec

/-! ### Whole runs -/

/-- **Along two runs from twins**, the reads agree exactly when the calls expose the same. -/
theorem readsAgree_along :
    ∀ (zs : List Op) {s : Fs} {m : Mem}, DirTree s → Sound s →
      fileContent { s with data := m } j = fileContent s j → Along (·.Live j) step s zs →
      (Along (fun st => ReadsAgree st.1 st.2 j) (pair step) (s, { s with data := m }) zs ↔
        Admits (fun st op => ExposesSame st.1 st.2 op j) (pair step) (s, { s with data := m }) zs)
  | [], _, _, _, _, h, _ => iff_of_true (readsAgree_of_content h) trivial
  | op :: zs, s, m, ht, hs, h, hlive => by
    obtain ⟨m', hm'⟩ := step_twin (s := s) (t := { s with data := m }) ⟨m, rfl⟩ (.refl op)
    have hcall := content_step hs m op hlive.1 hlive.2.head h
    have hpair : pair step (s, { s with data := m }) op =
        (step s op, { step s op with data := m' }) := by rw [← hm']; rfl
    rw [hm'] at hcall
    rw [Along, Admits, hpair]
    dsimp only
    have ih := fun hc => readsAgree_along zs (m := m') (namespace_step ht op)
      (hs.effect (numbered_of_dirTree ht) (step_effect s op)) hc hlive.2
    constructor
    · rintro ⟨-, hall⟩
      have hexp : ExposesSame s { s with data := m } op j := by
        intro x hx
        obtain ⟨fd, ho⟩ := exposes_open hlive.1 hlive.2.head hx
        exact hcall.mp (content_of_readsAgree ho hall.head) x hx
      exact ⟨hexp, (ih (hcall.mpr hexp)).mp hall⟩
    · rintro ⟨hexp, hall⟩
      exact ⟨readsAgree_of_content h, (ih (hcall.mpr hexp)).mpr hall⟩

theorem created_empty {path : CStr} (hnew : ¬ s.Live j)
    (hj : (step s (.create path)).Live j) : copyLen ((step s (.create path)).inodes j) = 0 := by
  simp only [step, unamedfsCreate] at hj ⊢
  rcases createInode_cases s (pathNormalize path 256) 1 with
    ⟨ic, h⟩ | ⟨ic, k, par, -, -, hslot, -, -, h⟩
  · rw [h] at hj
    exact absurd hj hnew
  · rw [h] at hj ⊢
    rcases (addInode_live ic hslot rfl j).mp hj with hl | rfl
    · exact absurd hl hnew
    · simp [addInode, copyLen]

theorem Gapless.admits :
    ∀ (zs : List Op) {s t : Fs}, Admits (fun s op => Gapless s op j) step s zs →
      Admits (fun st op => ExposesSame st.1 st.2 op j) (pair step) (s, t) zs
  | [], _, _, _ => trivial
  | _ :: zs, _, t, h => ⟨h.1.exposesSame t, Gapless.admits zs h.2⟩

/-- **Bytes of removed files.** Two runs from one formatted and mounted device make the same calls
`xs` and `ys` but for the bytes written, create a file in slot `j`, and go on with the same calls
`zs` while it exists. Then every read of the file, at every point, through every descriptor, from
every offset and of every length, delivers the same in both runs, exactly when every call of `zs`
exposes the same bytes of the file in both; and so if the calls write all that they make
readable. -/
theorem no_remanence (d : Device) (size : ℕ) (hsize : size < 2 ^ 32) (s₀ : Fs)
    (h0 : formatMount d size = some s₀) (xs ys : List Op) (hsame : List.Forall₂ SameCall xs ys)
    (path : CStr) (j : ℕ) (hnew : ¬ (xs.foldl step s₀).Live j) (zs : List Op)
    (hlive : Along (·.Live j) step (step (xs.foldl step s₀) (.create path)) zs) :
    (Along (fun st => ReadsAgree st.1 st.2 j) (pair step)
        (step (xs.foldl step s₀) (.create path), step (ys.foldl step s₀) (.create path)) zs ↔
      Admits (fun st op => ExposesSame st.1 st.2 op j) (pair step)
        (step (xs.foldl step s₀) (.create path), step (ys.foldl step s₀) (.create path)) zs) ∧
    (Admits (fun s op => Gapless s op j) step (step (xs.foldl step s₀) (.create path)) zs →
      Along (fun st => ReadsAgree st.1 st.2 j) (pair step)
        (step (xs.foldl step s₀) (.create path), step (ys.foldl step s₀) (.create path)) zs) := by
  have hreach : Reach Any step s₀ (step (xs.foldl step s₀) (.create path)) :=
    .next _ (Reach.foldl xs .init (Admits.any xs)) trivial
  obtain ⟨m, hm⟩ := step_twin (foldl_twin (s := s₀) (t := s₀) ⟨s₀.data, rfl⟩ hsame)
    (.refl (.create path))
  rw [hm]
  -- a new file has no content, so it is the same in both runs
  have hempty : fileContent { step (xs.foldl step s₀) (.create path) with data := m } j =
      fileContent (step (xs.foldl step s₀) (.create path)) j := by
    rw [fileContent_data, created_empty hnew hlive.head]
    intro x hx
    omega
  have hiff := readsAgree_along zs (namespace_reach h0 hreach) (sound_reach hsize h0 hreach) hempty
    hlive
  exact ⟨hiff, fun hgap => hiff.mpr (Gapless.admits zs hgap)⟩

def secretRun (c : UInt8) : List Op :=
  [.create (cstr "/a"), .open_ (cstr "/a") 0, .write 0 (fun _ => c) 10, .unlink (cstr "/a")]

theorem secretRun_same (c c' : UInt8) : List.Forall₂ SameCall (secretRun c) (secretRun c') :=
  .cons (.refl _) (.cons (.refl _) (.cons (.write _ _ _ _) (.cons (.refl _) .nil)))

/-- A new file `/b` that is written from its start does not show the bytes of `/a`. -/
theorem no_remanence_start :
    Along (fun st => ReadsAgree st.1 st.2 1) (pair step)
      (step ((secretRun 7).foldl step smallFs) (.create (cstr "/b")),
        step ((secretRun 9).foldl step smallFs) (.create (cstr "/b")))
      [.open_ (cstr "/b") 0, .write 0 (fun _ => 1) 3] :=
  (no_remanence zeroDevice (4096 * 5) (by norm_num) smallFs formatMount_small (secretRun 7)
    (secretRun 9) (secretRun_same 7 9) (cstr "/b") 1 (by decide +kernel)
    [.open_ (cstr "/b") 0, .write 0 (fun _ => 1) 3] (by decide +kernel)).2 (by decide +kernel)

/-- `/b` is created after `/a` was removed, and one byte is written to it at offset 100. -/
def gapRun (c : UInt8) : Fs :=
  [.open_ (cstr "/b") 0, .lseek 0 100 0, .write 0 (fun _ => 1) 1, .lseek 0 0 0].foldl step
    (step ((secretRun c).foldl step smallFs) (.create (cstr "/b")))

/-- The bytes of the removed file are read from the new one: `/b` has got the block of `/a`, and its
first 100 bytes were never written. -/
theorem removed_bytes_readable :
    List.Forall₂ SameCall (secretRun 7) (secretRun 9) ∧
    ¬ ((secretRun 7).foldl step smallFs).Live 1 ∧ ¬ ((secretRun 9).foldl step smallFs).Live 1 ∧
    OpenOn (gapRun 7) 0 1 ∧ OpenOn (gapRun 9) 0 1 ∧
    (unamedfsRead (gapRun 7) 0 10).2.2 = List.replicate 10 7 ∧
    (unamedfsRead (gapRun 9) 0 10).2.2 = List.replicate 10 9 := by
  refine ⟨secretRun_same 7 9, ?_, ?_, ⟨?_, ?_, ?_, ?_⟩, ⟨?_, ?_, ?_, ?_⟩, ?_, ?_⟩ <;> decide +kernel

end Kerneloid.UnnamedFS.Remanence
