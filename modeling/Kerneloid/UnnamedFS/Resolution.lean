import Kerneloid.UnnamedFS.Components
import Kerneloid.UnnamedFS.Simulation

/-! # Path resolution against a reference

`refResolve` says what resolving a path means on the inode table alone: split the path on `/`, drop
the empty components, cut the others to 63 characters, and fold from the root, where a name goes to
the one child that has it.

On a directory tree `find_inode_by_path` is a fold of the same steps, over the components it walks
and whatever its cache holds (`findInodeByPath_eq`). For absolute paths that fit the buffer these
are the components of the path, so it is the reference (`findInodeByPath_eq_refResolve`). On the
device this needs writes that stay behind the inode table: others can forge a second record of one
name, and then the cache and the scan give different inodes (`forged_name_resolved`). -/

namespace Kerneloid.UnnamedFS.Resolution

open Lib.Bytes Lib.Tokens Lib.Runs Types UnnamedFS.Path Lookup Ops Namespace Components Layout
open Simulation Vfs.Path

variable {s : Fs}

/-! ### The reference -/

/-- The child of `i` called `name`, if there is exactly one. -/
def uniqueChild (s : Fs) (name : CStr) (i : ℕ) : Option ℕ :=
  match (List.range s.sb.inodeCount).filter (isChild s name i) with
  | [j] => some j
  | _ => none

/-- One component: `.` stays, `..` goes to the parent and stays at the root, a name goes to the
child that has it. -/
def refStep (s : Fs) (cur : ℕ) (c : CStr) : Option ℕ :=
  if c = dot then some cur
  else if c = dotdot then some (if cur = 0 then 0 else (s.inodes cur).parent)
  else uniqueChild s c cur

/-- The components of a path, cut to 63 characters. -/
def refComponents (path : CStr) : List CStr :=
  (((chars path).splitOn slash).filter (· ≠ [])).map (·.take 63)

def refResolve (s : Fs) (path : CStr) : Option ℕ := (refComponents path).foldlM (refStep s) 0

theorem uniqueChild_eq_some (h : DirTree s) {name : CStr} {i j : ℕ} :
    uniqueChild s name i = some j ↔
      s.Live j ∧ (s.inodes j).parent = i ∧ (s.inodes j).name = name := by
  have hmem : ∀ k, k ∈ (List.range s.sb.inodeCount).filter (isChild s name i) ↔
      s.Live k ∧ (s.inodes k).parent = i ∧ (s.inodes k).name = name := fun k => by
    rw [List.mem_filter, List.mem_range, isChild_iff, Fs.Live, and_assoc]
  have hnodup : ((List.range s.sb.inodeCount).filter (isChild s name i)).Nodup :=
    List.nodup_range.filter _
  unfold uniqueChild
  generalize (List.range s.sb.inodeCount).filter (isChild s name i) = l at hmem hnodup
  match l with
  | [] => simpa using (hmem j).not.mp (by simp)
  | [k] => rw [← hmem j, List.mem_singleton, Option.some.injEq, eq_comm]
  | k :: k' :: l =>
    -- two children of one name would be the same
    obtain ⟨hk, hpar, hname⟩ := (hmem k).mp (by simp)
    obtain ⟨hk', hpar', hname'⟩ := (hmem k').mp (by simp)
    have he := h.unique k k' hk hk' (hpar.trans hpar'.symm) (hname.trans hname'.symm)
    rw [he] at hnodup
    simp at hnodup

theorem refStep_live (h : DirTree s) {i j : ℕ} {c : CStr} (hi : s.Live i)
    (hs : refStep s i c = some j) : s.Live j := by
  unfold refStep at hs
  split_ifs at hs with h1 h2 h3
  · exact Option.some.inj hs ▸ hi
  · exact Option.some.inj hs ▸ h.tree.root_live
  · exact Option.some.inj hs ▸ h.tree.parent_live hi
  · exact ((uniqueChild_eq_some h).mp hs).1

/-! ### The walk is a fold -/

theorem findInodeByNameParent_eq (h : DirTree s) (ic : InodeCache) (name : CStr) (i : ℕ) :
    (findInodeByNameParent s ic name i).2 = uniqueChild s name i := by
  cases hf : (findInodeByNameParent s ic name i).2 with
  | some j => exact ((uniqueChild_eq_some h).mpr (findInodeByNameParent_some hf)).symm
  | none =>
    cases hu : uniqueChild s name i with
    | none => rfl
    | some j =>
      obtain ⟨hl, hp, hn⟩ := (uniqueChild_eq_some h).mp hu
      exact absurd hn (findInodeByNameParent_none h.mount hf j hl hp)

theorem pathStep_eq (h : DirTree s) (ic : InodeCache) (cur : ℕ) {comp : CStr}
    (hcomp : slash ∉ comp) : (pathStep s ic cur (comp.take 63)).2 =
      ((tokens slash comp).map (·.take 63)).foldlM (refStep s) cur := by
  by_cases hnil : comp = []
  · simp [hnil, pathStep, tokens_nil]
  · rw [tokens_of_not_mem hcomp hnil]
    have hne : comp.take 63 ≠ [] := by simpa using hnil
    simp only [List.map_cons, List.map_nil, List.foldlM_cons, List.foldlM_nil, bind_pure]
    unfold pathStep refStep
    rw [if_neg hne]
    by_cases hdot : comp.take 63 = dot
    · rw [if_pos hdot, if_pos hdot]
    rw [if_neg hdot, if_neg hdot]
    by_cases hdd : comp.take 63 = dotdot
    · by_cases h0 : cur = 0 <;> simp [hdd, h0]
    rw [if_neg hdd, if_neg hdd]
    exact findInodeByNameParent_eq h ic _ cur

theorem pathWalk_eq (h : DirTree s) : ∀ (cs comp : CStr) (ic : InodeCache) (cur : ℕ),
    slash ∉ comp → (pathWalk s ic cur (comp.take 63) cs).2 =
      ((tokens slash (comp ++ cs)).map (·.take 63)).foldlM (refStep s) cur
  | [], comp, ic, cur, hcomp => by rw [List.append_nil]; exact pathStep_eq h ic cur hcomp
  | c :: cs, comp, ic, cur, hcomp => by
    unfold pathWalk
    by_cases hs : c = slash
    · subst hs
      rw [if_pos rfl, tokens_append, List.map_append, List.foldlM_append,
        ← pathStep_eq h ic cur hcomp]
      generalize pathStep s ic cur (comp.take 63) = r
      obtain ⟨ic', _ | nxt⟩ := r
      · rfl
      · exact pathWalk_eq h cs [] ic' nxt (by simp)
    · rw [if_neg hs]
      have hread : (if (comp.take 63).length + 1 < 64 then comp.take 63 ++ [c] else comp.take 63) =
          (comp ++ [c]).take 63 := by
        rw [List.length_take]
        split_ifs with hlen
        · rw [List.take_of_length_le (by omega), List.take_of_length_le (by simp; omega)]
        · rw [List.take_append_of_le_length (by omega)]
      have ih := pathWalk_eq h cs (comp ++ [c]) ic cur (by simp [hcomp, Ne.symm hs])
      rw [hread, ih, List.append_assoc, List.singleton_append]

theorem findInodeByPath_eq (h : DirTree s) (path : CStr) :
    (findInodeByPath s path).2 = (walked path).foldlM (refStep s) 0 := by
  unfold findInodeByPath walked
  rw [if_neg (by simp [h.mount])]
  dsimp only
  split_ifs with hroot
  · rw [hroot, List.tail_cons, tokens_nil]; rfl
  · exact pathWalk_eq h _ [] s.icache 0 (by simp)

theorem findInodeByPath_norm (s : Fs) (path : CStr) :
    findInodeByPath s (pathNormalize path 256) = findInodeByPath s path := by
  unfold findInodeByPath
  rw [pathNormalize_twice]

/-! ### On the device -/

/-- **Path resolution is the reference, whatever the cache holds.** In every state reached from a
formatted and mounted device by calls whose writes stay behind the inode table, for every content of
`icache` and every absolute path of at most 255 characters, `find_inode_by_path` gives what the
reference gives, which does not read `icache`. -/
theorem findInodeByPath_eq_refResolve (m : Mem) (size : ℕ) (hsize : size < 2 ^ 32) (b₀ b : ByteFs)
    (h0 : formatMountBytes m size = some b₀) (h : Reach ByteFs.WriteFits ByteFs.step b₀ b)
    (ic : InodeCache) (path : CStr) (habs : path.head? = some slash)
    (hlen : (chars path).length ≤ 255) :
    (findInodeByPath { b.view with icache := ic } path).2 = refResolve b.view path := by
  have ht : DirTree { b.view with icache := ic } :=
    (invariants_reach hsize h0 h).1.congr (.of_eq rfl rfl fun _ _ => rfl)
  rw [findInodeByPath_eq ht, walked_of_absolute habs hlen]
  rfl

def nested : List Op := [.mkdir (cstr "/a"), .create (cstr "/a/b"), .create (cstr "/c")]

/-- A cache entry that is wrong about it does no harm. -/
theorem findInodeByPath_eq_refResolve_small :
    let s := (nested.foldl ByteFs.step sixBlocks).view
    (findInodeByPath { s with icache := ⟨cstr "b", 1, 3, true⟩ } (cstr "/a//./b/")).2 =
      refResolve s (cstr "/a//./b/") ∧ refResolve s (cstr "/a//./b/") = some 2 :=
  ⟨findInodeByPath_eq_refResolve _ (4096 * 6) (by decide) sixBlocks _ (Option.some_get _).symm
    (Reach.foldl nested .init ⟨trivial, trivial, trivial, trivial⟩) _ _ (by decide) (by decide),
    by decide +kernel⟩

/-- A buffer with the first fields of a directory record behind `n` zeros: inode `i`, called `x`,
under the root. -/
def forgedRecord (n : ℕ) (i : UInt8) : ℕ → UInt8 := fun k =>
  if k = n then i else if k = n + 8 then 2 else if k = n + 24 then 120 else 0

def eightBlocks : ByteFs := (formatMountBytes (fun _ => 0) (4096 * 8)).get (by decide +kernel)

/-- The data of `/a` and `/b` goes over the records 3 and 4. -/
def forgedFs : ByteFs :=
  [Op.create (cstr "/a"), .create (cstr "/b"), .create (cstr "/c"), .create (cstr "/d"),
    .open_ (cstr "/a") 0, .open_ (cstr "/b") 0, .write 0 (fun _ => 0) 1,
    .write 1 (forgedRecord 32 4) 60, .open_ (cstr "/x") 0, .lseek 0 0 0,
    .write 0 (forgedRecord 24 3) 60].foldl ByteFs.step eightBlocks

/-- **Two records of one name**: from its cache `find_inode_by_path` gives one, by its scan the
other, and the reference none. -/
theorem forged_name_resolved : Reach Any ByteFs.step eightBlocks forgedFs ∧
    (findInodeByPath forgedFs.view (cstr "/x")).2 = some 4 ∧
    (findInodeByPath { forgedFs.view with icache := ⟨[], 0, 0, false⟩ } (cstr "/x")).2 = some 3 ∧
    refResolve forgedFs.view (cstr "/x") = none :=
  ⟨Reach.foldl _ .init (Admits.any _), by decide +kernel, by decide +kernel, by decide +kernel⟩

end Kerneloid.UnnamedFS.Resolution
