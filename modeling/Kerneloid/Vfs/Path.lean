import Kerneloid.UnnamedFS.Path

/-! # Paths of the VFS

`vfs_lookup` walks the components of the path it is given, and uses the normal form of the path, cut
to 255 characters, as its key for the dentry cache. For a path of at most 255 characters the key has
the same components as the path (`components_pathNormalize`). -/

namespace Kerneloid.Vfs.Path

open UnnamedFS.Types UnnamedFS.Path

variable {path : CStr}

/-- A component read so far, if there is one. -/
def flush (comp : CStr) : List CStr := if comp = [] then [] else [comp]

/-- The components of a path: its runs of characters other than `/`. `comp` is the component read so
far. -/
def componentsFrom : CStr → CStr → List CStr
  | comp, [] => flush comp
  | comp, c :: cs =>
    if c = 0 then flush comp
    else if c = slash then flush comp ++ componentsFrom [] cs
    else componentsFrom (comp ++ [c]) cs

def components (path : CStr) : List CStr := componentsFrom [] path

/-- The characters of a string before the NUL. -/
def chars (path : CStr) : CStr := path.takeWhile (· ≠ 0)

/-- The parent directory and the last component of `path`, as `vfs_mkdir`, `vfs_unlink` and
`vfs_rmdir` split it: trailing slashes go first, and without a slash, or with only a leading one,
the parent is the root. -/
def splitLast (path : CStr) : CStr × CStr :=
  let tmp := trimSlashes path
  match beforeLast tmp with
  | none => ([slash], tmp)
  | some [] => ([slash], afterLast tmp)
  | some par => (par, afterLast tmp)

/-! ### Components of the normal form -/

theorem componentsFrom_append_nul (xs ys : CStr) (comp : CStr) :
    componentsFrom comp (xs ++ 0 :: ys) = componentsFrom comp xs := by
  induction xs generalizing comp with
  | nil => simp [componentsFrom]
  | cons c cs ih =>
    rw [List.cons_append, componentsFrom, componentsFrom, ih, ih]

theorem componentsFrom_slash (xs : CStr) (comp : CStr) :
    componentsFrom comp (xs ++ [slash]) = componentsFrom comp xs := by
  induction xs generalizing comp with
  | nil => simp [componentsFrom, flush]
  | cons c cs ih =>
    rw [List.cons_append, componentsFrom, componentsFrom, ih, ih]

theorem componentsFrom_two_slashes (xs ys : CStr) (comp : CStr) :
    componentsFrom comp (xs ++ slash :: slash :: ys) = componentsFrom comp (xs ++ slash :: ys) := by
  induction xs generalizing comp with
  | nil =>
    have hs : slash ≠ 0 := by decide
    simp [componentsFrom, flush, hs]
  | cons c cs ih =>
    rw [List.cons_append, List.cons_append, componentsFrom, componentsFrom, ih, ih]

/-- The copy loop keeps the components, as long as it does not run out of room. The invariant:
`last` says whether the output ends with a slash. -/
theorem components_normLoop (size : ℕ) :
    ∀ (cs out : CStr) (last : Bool), (last = true → ∃ o, out = o ++ [slash]) →
      out.length + cs.length + 1 ≤ size →
      components (normLoop size cs out last) = components (out ++ cs)
  | [], out, _, _, _ => by simp [normLoop]
  | c :: cs, out, last, hlast, hlen => by
    simp only [List.length_cons] at hlen
    unfold normLoop
    by_cases h0 : c = 0
    · subst h0
      rw [if_pos (Or.inl rfl)]
      exact (componentsFrom_append_nul out cs []).symm
    rw [if_neg (by rintro (h | h); exacts [h0 h, h (by omega)])]
    by_cases hs : c = slash
    · subst hs
      rw [if_pos rfl]
      by_cases ho : out = []
      · subst ho
        rw [if_pos rfl, components_normLoop size cs [slash] true (fun _ => ⟨[], rfl⟩)
          (by simp; omega)]
        rfl
      rw [if_neg ho]
      cases last with
      | false =>
        rw [if_pos rfl, components_normLoop size cs (out ++ [slash]) true (fun _ => ⟨out, rfl⟩)
          (by simp; omega), List.append_assoc, List.singleton_append]
      | true =>
        obtain ⟨o, rfl⟩ := hlast rfl
        rw [if_neg (by simp), components_normLoop size cs _ true hlast (by simp at hlen ⊢; omega),
          List.append_assoc, List.append_assoc, List.singleton_append, List.singleton_append]
        exact (componentsFrom_two_slashes o cs []).symm
    · rw [if_neg hs, components_normLoop size cs (out ++ [c]) false (by simp) (by simp; omega),
        List.append_assoc, List.singleton_append]

theorem components_pathNormalize (h : path.length ≤ 255) :
    components (pathNormalize path 256) = components path := by
  have hloop := components_normLoop 256 path [] false (by simp) (by simp; omega)
  rw [List.nil_append] at hloop
  rw [← hloop]
  unfold pathNormalize
  dsimp only
  generalize normLoop 256 path [] false = out
  have htrim : components (if 1 < out.length ∧ out.getLast? = some slash then out.dropLast else out) =
      components out := by
    split_ifs with ht
    · obtain ⟨o, rfl⟩ : ∃ o, out = o ++ [slash] := by
        obtain ⟨hne, hlast⟩ := List.getLast?_eq_some_iff.mp ht.2
        exact ⟨hne, hlast⟩
      rw [List.dropLast_concat]
      exact (componentsFrom_slash o []).symm
    · rfl
  split_ifs at htrim ⊢ with h1 h2 h3
  · rw [← htrim, h2]; rfl
  · exact htrim
  · rw [h3]; rfl
  · rfl

theorem normLoop_length (size : ℕ) :
    ∀ (cs out : CStr) (last : Bool), out.length + 1 ≤ size →
      (normLoop size cs out last).length + 1 ≤ size
  | [], _, _, h => h
  | c :: cs, out, last, h => by
    unfold normLoop
    split_ifs with h0 h1 h2 h3
    · exact h
    all_goals simp only [not_or, not_not] at h0
    · exact normLoop_length size cs _ _ (by have := h0.2; rw [h2] at this; exact this)
    · exact normLoop_length size cs _ _ (by simpa using h0.2)
    · exact normLoop_length size cs _ _ h
    · exact normLoop_length size cs _ _ (by simpa using h0.2)

theorem pathNormalize_length (path : CStr) : (pathNormalize path 256).length ≤ 255 := by
  have h := normLoop_length 256 path [] false (by simp)
  unfold pathNormalize
  dsimp only
  generalize normLoop 256 path [] false = out at h
  have htrim : (if 1 < out.length ∧ out.getLast? = some slash then out.dropLast else out).length ≤
      255 := by
    split_ifs
    · rw [List.length_dropLast]; omega
    · omega
  split_ifs at htrim ⊢
  · norm_num
  · exact htrim
  · norm_num
  · exact htrim

theorem trimSlashes_length (path : CStr) : (trimSlashes path).length ≤ path.length := by
  unfold trimSlashes
  cases hd : (path.reverse.dropWhile (· = slash)).reverse with
  | nil => exact List.length_take_le' 1 path
  | cons c cs =>
    dsimp only
    rw [← hd, List.length_reverse]
    have := (List.dropWhile_suffix (l := path.reverse) (p := (· = slash))).length_le
    rwa [List.length_reverse] at this

theorem beforeLast_length {par : CStr} (h : beforeLast path = some par) :
    par.length ≤ path.length := by
  unfold beforeLast at h
  have hle := (List.dropWhile_suffix (l := path.reverse) (p := (· ≠ slash))).length_le
  rw [List.length_reverse] at hle
  cases hd : path.reverse.dropWhile (· ≠ slash) with
  | nil => rw [hd] at h; exact absurd h (by simp)
  | cons c cs =>
    rw [hd] at h hle
    simp only [Option.some.injEq] at h
    rw [← h, List.length_reverse]
    simp only [List.length_cons] at hle
    omega

theorem splitLast_length {m : ℕ} (hm : 1 ≤ m) (h : path.length ≤ m) :
    (splitLast path).1.length ≤ m := by
  have ht := trimSlashes_length path
  unfold splitLast
  dsimp only
  cases hb : beforeLast (trimSlashes path) with
  | none => exact hm
  | some par =>
    have hp := beforeLast_length hb
    cases par with
    | nil => exact hm
    | cons c cs => exact hp.trans (ht.trans h)

/-- The key of the path has the components of the path: it was not cut. -/
def Fits (path : CStr) : Prop := components (pathNormalize path 256) = components path

instance (path : CStr) : Decidable (Fits path) := by unfold Fits; infer_instance

theorem fits_of_length (h : path.length ≤ 255) : Fits path :=
  components_pathNormalize h

end Kerneloid.Vfs.Path
