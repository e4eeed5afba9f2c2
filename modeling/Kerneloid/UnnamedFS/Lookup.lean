import Kerneloid.Lib.Forest
import Kerneloid.UnnamedFS.Path

/-! # Name lookup and path resolution

`find_inode_by_name_parent` with its one-entry cache, and `find_inode_by_path`. Both only read the
inode table; what they change is `icache`, so they return the new cache next to the result.

* A lookup that succeeds, through the cache or by the scan, gives a slot in use with the parent and
  the name asked for (`findInodeByNameParent_some`); one that fails says that there is none
  (`findInodeByNameParent_none`).
* A resolved path is anchored: its slot and all slots above it up to the root are in use
  (`findInodeByPath_anchored`). This needs no assumption on the table: the walk starts at the root,
  goes down to slots in use only, and goes up along links it came down. -/

namespace Kerneloid.UnnamedFS.Lookup

open Lib.Forest Types UnnamedFS.Path

variable {s : Fs} {name : CStr} {parent : ℕ} {ic : InodeCache}

/-- Slot `i` is in use, lies under `parent` and is called `name`. -/
def isChild (s : Fs) (name : CStr) (parent i : ℕ) : Bool :=
  (s.inodes i).isLive && decide ((s.inodes i).parent = parent) && decide ((s.inodes i).name = name)

def findInodeByNameParent (s : Fs) (ic : InodeCache) (name : CStr) (parent : ℕ) :
    InodeCache × Option ℕ :=
  if s.mountValid = false then (ic, none)
  else if ic.valid = true ∧ ic.parent = parent ∧ ic.name = name ∧ ic.ino < s.sb.inodeCount ∧
      isChild s name parent ic.ino = true then (ic, some ic.ino)
  else
    -- an entry that matches but is no longer right is dropped before the scan
    let ic := if ic.valid = true ∧ ic.parent = parent ∧ ic.name = name then
      { ic with valid := false } else ic
    match (List.range s.sb.inodeCount).find? (isChild s name parent) with
    | some i => (⟨name.take 63, parent, i, true⟩, some i)
    | none => (ic, none)

/-- One component of the walk: the empty one and `.` stay, `..` goes to the parent except at the
root, any other name is looked up. -/
def pathStep (s : Fs) (ic : InodeCache) (cur : ℕ) (comp : CStr) : InodeCache × Option ℕ :=
  if comp = [] then (ic, some cur)
  else if comp = dot then (ic, some cur)
  else if comp = dotdot then (ic, some (if cur ≠ 0 then (s.inodes cur).parent else cur))
  else findInodeByNameParent s ic comp cur

/-- The component loop of `find_inode_by_path`; `comp` is the component read so far, cut to 63
characters. -/
def pathWalk (s : Fs) : InodeCache → ℕ → CStr → CStr → InodeCache × Option ℕ
  | ic, cur, comp, [] => pathStep s ic cur comp
  | ic, cur, comp, c :: cs =>
    if c = slash then
      match pathStep s ic cur comp with
      | (ic, none) => (ic, none)
      | (ic, some nxt) => pathWalk s ic nxt [] cs
    else pathWalk s ic cur (if comp.length + 1 < 64 then comp ++ [c] else comp) cs

/-- `find_inode_by_path`. The walk starts behind the first character of the normal form, which is
the leading slash of an absolute path. -/
def findInodeByPath (s : Fs) (path : CStr) : InodeCache × Option ℕ :=
  if s.mountValid = false then (s.icache, none)
  else
    let norm := pathNormalize path 256
    if norm = [slash] then (s.icache, some 0)
    else pathWalk s s.icache 0 [] norm.tail

theorem isChild_iff {i : ℕ} : isChild s name parent i = true ↔
    (s.inodes i).isLive = true ∧ (s.inodes i).parent = parent ∧ (s.inodes i).name = name := by
  simp [isChild, and_assoc]

theorem findInodeByNameParent_some {i : ℕ}
    (h : (findInodeByNameParent s ic name parent).2 = some i) :
    s.Live i ∧ (s.inodes i).parent = parent ∧ (s.inodes i).name = name := by
  unfold findInodeByNameParent at h
  split_ifs at h with h1 h2
  · obtain ⟨-, -, -, hlt, hc⟩ := h2
    simp only [Option.some.injEq] at h
    subst h
    obtain ⟨hl, hp, hn⟩ := isChild_iff.mp hc
    exact ⟨⟨hlt, hl⟩, hp, hn⟩
  all_goals
    cases hf : (List.range s.sb.inodeCount).find? (isChild s name parent) with
    | none => simp [hf] at h
    | some j =>
      simp only [hf, Option.some.injEq] at h
      subst h
      obtain ⟨hc, hr, -⟩ := List.find?_range_eq_some.mp hf
      obtain ⟨hl, hp, hn⟩ := isChild_iff.mp hc
      exact ⟨⟨List.mem_range.mp hr, hl⟩, hp, hn⟩

theorem findInodeByNameParent_none
    (hm : s.mountValid = true) (h : (findInodeByNameParent s ic name parent).2 = none) :
    ∀ i, s.Live i → (s.inodes i).parent = parent → (s.inodes i).name ≠ name := by
  intro i hi hp hn
  unfold findInodeByNameParent at h
  rw [if_neg (by simp [hm])] at h
  split_ifs at h
  all_goals
    cases hf : (List.range s.sb.inodeCount).find? (isChild s name parent) with
    | some j => simp [hf] at h
    | none =>
      have := List.find?_range_eq_none.mp hf i hi.1
      rw [isChild_iff.mpr ⟨hi.2, hp, hn⟩] at this
      simp at this

/-! ### Resolved paths are anchored -/

/-- The way from slot `i` up to the root runs through slots in use. -/
def Reachable (s : Fs) (i : ℕ) : Prop := Anchored s.Live (fun j => (s.inodes j).parent) 0 i

theorem pathStep_anchored {cur nxt : ℕ} {comp : CStr}
    (hc : Reachable s cur) (h : (pathStep s ic cur comp).2 = some nxt) : Reachable s nxt := by
  unfold pathStep at h
  split_ifs at h with h1 h2 h3 h4
  · cases h; exact hc
  · cases h; exact hc
  · cases h; exact hc.up h4
  · cases h; exact hc
  · obtain ⟨hl, hp, -⟩ := findInodeByNameParent_some h
    exact .child hl (by rw [hp]; exact hc)

theorem pathWalk_anchored :
    ∀ (cs : CStr) {ic : InodeCache} {cur r : ℕ} {comp : CStr}, Reachable s cur →
      (pathWalk s ic cur comp cs).2 = some r → Reachable s r
  | [], _, _, _, _, hc, h => pathStep_anchored hc h
  | c :: cs, ic, cur, r, comp, hc, h => by
    unfold pathWalk at h
    split_ifs at h with hs
    · cases hp : pathStep s ic cur comp with
      | mk ic' o =>
        cases o with
        | none => simp [hp] at h
        | some nxt =>
          simp only [hp] at h
          exact pathWalk_anchored cs (pathStep_anchored hc (by rw [hp])) h
    · exact pathWalk_anchored cs hc h
    · exact pathWalk_anchored cs hc h

theorem findInodeByPath_anchored {path : CStr} {r : ℕ}
    (h : (findInodeByPath s path).2 = some r) : Reachable s r := by
  unfold findInodeByPath at h
  split_ifs at h with h1
  dsimp only at h
  split_ifs at h with h2
  · cases h; exact .root
  · exact pathWalk_anchored _ .root h

end Kerneloid.UnnamedFS.Lookup
