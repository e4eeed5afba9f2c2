import Kerneloid.UnnamedFS.Types

/-! # Path strings

`path_normalize`, `path_basename` and `path_dirname` of `unnamedfs.c`. Normalising collapses runs of
slashes, drops a trailing slash and cuts the result to `size - 1` characters; it does not add a
leading slash and does not interpret `.` and `..`. The loops stop at a NUL byte or at the end of the
list, whichever comes first. -/

namespace Kerneloid.UnnamedFS.Path

open Types

/-- The copy loop of `path_normalize` into a buffer of `size` bytes: `out` is what has been written,
`last` is `last_slash`. -/
def normLoop (size : ℕ) : CStr → CStr → Bool → CStr
  | [], out, _ => out
  | c :: cs, out, last =>
    if c = 0 ∨ ¬ out.length + 1 < size then out
    else if c = slash then
      if out = [] then normLoop size cs [slash] true
      else if last = false then normLoop size cs (out ++ [slash]) true
      else normLoop size cs out last
    else normLoop size cs (out ++ [c]) false

/-- `path_normalize(path, out, size)`: the string left in `out`. -/
def pathNormalize (path : CStr) (size : ℕ) : CStr :=
  let out := normLoop size path [] false
  let out := if 1 < out.length ∧ out.getLast? = some slash then out.dropLast else out
  if out = [] then [slash] else out

/-- The path without its trailing slashes, keeping at least one character. -/
def trimSlashes (path : CStr) : CStr :=
  match (path.reverse.dropWhile (· = slash)).reverse with
  | [] => path.take 1
  | q => q

/-- The characters after the last slash. -/
def afterLast (path : CStr) : CStr := (path.reverse.takeWhile (· ≠ slash)).reverse

/-- The characters before the last slash, if there is one. -/
def beforeLast (path : CStr) : Option CStr :=
  match path.reverse.dropWhile (· ≠ slash) with
  | [] => none
  | _ :: rest => some rest.reverse

def pathBasename (path : CStr) (size : ℕ) : CStr := (afterLast (trimSlashes path)).take (size - 1)

def pathDirname (path : CStr) : CStr :=
  let tmp := pathNormalize path 256
  if tmp = [slash] then [slash]
  else
    match beforeLast tmp with
    | none => [slash]
    | some [] => [slash]
    | some dir => dir.take 255

theorem pathBasename_length (path : CStr) : (pathBasename path 64).length ≤ 63 :=
  List.length_take_le _ _

/-! ### Strings without a NUL byte -/

theorem normLoop_ne_zero {size : ℕ} : ∀ (cs out : CStr) (last : Bool), (∀ c ∈ out, c ≠ 0) →
    ∀ c ∈ normLoop size cs out last, c ≠ 0
  | [], _, _, h => h
  | c :: cs, out, last, h => by
    unfold normLoop
    split_ifs with h1 h2 h3 h4
    · exact h
    · exact normLoop_ne_zero cs [slash] true fun x hx => by
        rw [List.mem_singleton.mp hx]; decide
    · refine normLoop_ne_zero cs _ true fun x hx => ?_
      rcases List.mem_append.mp hx with hx | hx
      · exact h x hx
      · rw [List.mem_singleton.mp hx]; decide
    · exact normLoop_ne_zero cs out last h
    · refine normLoop_ne_zero cs _ false fun x hx => ?_
      rcases List.mem_append.mp hx with hx | hx
      · exact h x hx
      · rw [List.mem_singleton.mp hx]; exact fun h0 => h1 (Or.inl h0)

theorem pathNormalize_ne_zero (path : CStr) (size : ℕ) : ∀ c ∈ pathNormalize path size, c ≠ 0 := by
  have hloop : ∀ c ∈ normLoop size path [] false, c ≠ 0 :=
    normLoop_ne_zero path [] false (by simp)
  intro c hc
  unfold pathNormalize at hc
  dsimp only at hc
  split_ifs at hc with h1 h2 h3
  · rw [List.mem_singleton.mp hc]; decide
  · exact hloop c (List.mem_of_mem_dropLast hc)
  · rw [List.mem_singleton.mp hc]; decide
  · exact hloop c hc

theorem mem_of_mem_trimSlashes {path : CStr} {c : UInt8} (h : c ∈ trimSlashes path) : c ∈ path := by
  unfold trimSlashes at h
  split at h
  · exact List.mem_of_mem_take h
  · exact List.mem_reverse.mp ((List.dropWhile_sublist _).subset (List.mem_reverse.mp h))

theorem mem_of_mem_pathBasename {path : CStr} {size : ℕ} {c : UInt8}
    (h : c ∈ pathBasename path size) : c ∈ path := by
  unfold pathBasename afterLast at h
  have hrev := List.mem_reverse.mp (List.mem_of_mem_take h)
  exact mem_of_mem_trimSlashes (List.mem_reverse.mp ((List.takeWhile_sublist _).subset hrev))

end Kerneloid.UnnamedFS.Path
