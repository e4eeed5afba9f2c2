import Mathlib.Data.List.TakeWhile
import Kerneloid.Lib.Tokens
import Kerneloid.Vfs.Path

/-! # Components of paths

`path_normalize` leaves a path in normal form (`normal_pathNormalize`): no NUL, no two slashes in a
row, none at the end. A path in normal form stays as it is (`Normal.pathNormalize_eq`), and
`path_dirname` and `path_basename` cut it at its last slash.

`walked path` are the components that `find_inode_by_path` walks: the tokens of the normal form
without its first character, each cut to 63 characters. For an absolute path of at most 255
characters they are the tokens of the path itself (`walked_of_absolute`). -/

namespace Kerneloid.UnnamedFS.Components

open Lib.Tokens Types UnnamedFS.Path Vfs.Path

variable {p path : CStr}

/-! ### Components are tokens -/

theorem chars_eq_self (h : ∀ c ∈ p, c ≠ 0) : chars p = p := by
  refine List.takeWhile_eq_self_iff.mpr fun c hc => ?_
  simpa using h c hc

theorem chars_ne_zero (p : CStr) : ∀ c ∈ chars p, c ≠ 0 := by
  intro c hc
  simpa using List.mem_takeWhile_imp hc

theorem componentsFrom_eq : ∀ (cs comp : CStr), slash ∉ comp →
    componentsFrom comp cs = tokens slash (comp ++ chars cs)
  | [], comp, h => by
    by_cases hnil : comp = []
    · simp [componentsFrom, flush, chars, hnil, tokens_nil]
    · simp [componentsFrom, flush, chars, hnil, tokens_of_not_mem h hnil]
  | c :: cs, comp, h => by
    have hflush : flush comp = tokens slash comp := by
      have := componentsFrom_eq [] comp h
      simpa [componentsFrom, chars] using this
    unfold componentsFrom
    by_cases h0 : c = 0
    · simp [h0, chars, hflush]
    have hcons : chars (c :: cs) = c :: chars cs := by simp [chars, h0]
    rw [if_neg h0, hcons]
    by_cases hs : c = slash
    · have ih := componentsFrom_eq cs [] (by simp)
      rw [List.nil_append] at ih
      rw [if_pos hs, ih, hs, tokens_append, hflush]
    · have ih := componentsFrom_eq cs (comp ++ [c]) (by simp [h, Ne.symm hs])
      rw [if_neg hs, ih, List.append_assoc, List.singleton_append]

theorem components_eq (path : CStr) : components path = tokens slash (chars path) :=
  componentsFrom_eq path [] (by simp)

theorem components_chars (path : CStr) : components (chars path) = components path := by
  rw [components_eq, components_eq, chars_eq_self (chars_ne_zero path)]

/-! ### Normal forms -/

theorem normLoop_chars (size : ℕ) : ∀ (cs out : CStr) (last : Bool),
    normLoop size (chars cs) out last = normLoop size cs out last
  | [], _, _ => rfl
  | c :: cs, out, last => by
    by_cases h0 : c = 0
    · simp [h0, chars, normLoop]
    · have hcons : chars (c :: cs) = c :: chars cs := by simp [chars, h0]
      have ih := normLoop_chars size cs
      rw [hcons, normLoop, normLoop, ih, ih, ih, ih]

theorem pathNormalize_chars (path : CStr) (size : ℕ) :
    pathNormalize (chars path) size = pathNormalize path size := by
  unfold pathNormalize
  rw [normLoop_chars]

/-- A path as `path_normalize` leaves it. -/
structure Normal (p : CStr) : Prop where
  ne_nil : p ≠ []
  ne_zero : ∀ c ∈ p, c ≠ 0
  lone : p.IsChain fun a b => a = slash → b ≠ slash
  trimmed : 1 < p.length → p.getLast? ≠ some slash

/-- The copy loop writes no slash after a slash. The invariant: without `last` the output does not
end with one. -/
theorem normLoop_lone (size : ℕ) : ∀ (cs out : CStr) (last : Bool),
    out.IsChain (fun a b => a = slash → b ≠ slash) → (last = false → out.getLast? ≠ some slash) →
      (normLoop size cs out last).IsChain fun a b => a = slash → b ≠ slash
  | [], _, _, h, _ => h
  | c :: cs, out, last, h, hlast => by
    unfold normLoop
    split_ifs with h1 h2 h3 h4
    · exact h
    · exact normLoop_lone size cs _ _ (List.isChain_singleton _) (by simp)
    · refine normLoop_lone size cs _ _ (List.isChain_append.mpr ⟨h, List.isChain_singleton _, ?_⟩)
        (by simp)
      intro a ha b _ hslash
      rw [hslash] at ha
      exact absurd ha (hlast h4)
    · exact normLoop_lone size cs _ _ h hlast
    · refine normLoop_lone size cs _ _ (List.isChain_append.mpr ⟨h, List.isChain_singleton _, ?_⟩)
        fun _ => by simpa using h2
      intro a _ b hb _
      simp only [List.head?_cons, Option.mem_def, Option.some.injEq] at hb
      exact hb ▸ h2

theorem normal_pathNormalize (path : CStr) : Normal (pathNormalize path 256) := by
  have hzero := pathNormalize_ne_zero path 256
  have hlone := normLoop_lone 256 path [] false List.isChain_nil (by simp)
  unfold pathNormalize at hzero ⊢
  dsimp only at hzero ⊢
  generalize normLoop 256 path [] false = out at hlone hzero ⊢
  have hroot : Normal [slash] :=
    ⟨by simp, by simp; decide, List.isChain_singleton _, fun h => absurd h (by simp)⟩
  by_cases ht : 1 < out.length ∧ out.getLast? = some slash
  · obtain ⟨o, rfl⟩ := List.getLast?_eq_some_iff.mp ht.2
    have hne : o ≠ [] := by
      rintro rfl
      simp at ht
    rw [if_pos ht, List.dropLast_concat, if_neg hne] at hzero ⊢
    obtain ⟨hchain, -, hmeet⟩ := List.isChain_append.mp hlone
    refine ⟨hne, hzero, hchain, fun _ hlast => ?_⟩
    exact hmeet slash hlast slash (by simp) rfl rfl
  · rw [if_neg ht] at hzero ⊢
    by_cases hnil : out = []
    · rw [if_pos hnil]; exact hroot
    · rw [if_neg hnil] at hzero ⊢
      exact ⟨hnil, hzero, hlone, fun hlen hlast => ht ⟨hlen, hlast⟩⟩

theorem normLoop_copy (size : ℕ) : ∀ (cs out : CStr) (last : Bool), (∀ c ∈ cs, c ≠ 0) →
    cs.IsChain (fun a b => a = slash → b ≠ slash) → out.length + cs.length + 1 ≤ size →
      (last = true → cs.head? ≠ some slash) → normLoop size cs out last = out ++ cs
  | [], _, _, _, _, _, _ => by simp [normLoop]
  | c :: cs, out, last, hzero, hlone, hlen, hlast => by
    obtain ⟨hmeet, hlone'⟩ := List.isChain_cons.mp hlone
    have hzero' : ∀ x ∈ cs, x ≠ 0 := fun x hx => hzero x (List.mem_cons_of_mem c hx)
    simp only [List.length_cons] at hlen
    have hroom : ¬ (c = 0 ∨ ¬ out.length + 1 < size) := by
      rintro (h0 | h0)
      · exact hzero c List.mem_cons_self h0
      · omega
    unfold normLoop
    rw [if_neg hroom]
    by_cases hs : c = slash
    · have hnext : cs.head? ≠ some slash := fun hh => hmeet slash hh hs rfl
      have hf : last = false := by
        cases last with
        | false => rfl
        | true => exact absurd (by rw [hs]; rfl) (hlast rfl)
      subst hs
      rw [if_pos rfl]
      by_cases hout : out = []
      · rw [if_pos hout, normLoop_copy size cs _ _ hzero' hlone' (by simp; omega) fun _ => hnext, hout]
        rfl
      · rw [if_neg hout, if_pos hf,
          normLoop_copy size cs _ _ hzero' hlone' (by simp; omega) fun _ => hnext]
        simp
    · rw [if_neg hs, normLoop_copy size cs _ _ hzero' hlone' (by simp; omega) (by simp)]
      simp

theorem Normal.pathNormalize_eq (h : Normal p) (hlen : p.length ≤ 255) :
    pathNormalize p 256 = p := by
  have hcopy := normLoop_copy 256 p [] false h.ne_zero h.lone (by simp; omega) (by simp)
  rw [List.nil_append] at hcopy
  have htrim : ¬ (1 < p.length ∧ p.getLast? = some slash) := fun ht => h.trimmed ht.1 ht.2
  unfold pathNormalize
  dsimp only
  rw [hcopy, if_neg htrim, if_neg h.ne_nil]

theorem pathNormalize_twice (path : CStr) :
    pathNormalize (pathNormalize path 256) 256 = pathNormalize path 256 :=
  (normal_pathNormalize path).pathNormalize_eq (pathNormalize_length path)

/-! ### The last slash -/

theorem last_slash (p : CStr) : (slash ∉ p ∧ beforeLast p = none ∧ afterLast p = p) ∨
    ∃ par, beforeLast p = some par ∧ p = par ++ slash :: afterLast p ∧ slash ∉ afterLast p := by
  have hafter : slash ∉ afterLast p := by
    unfold afterLast
    intro hm
    simpa using List.mem_takeWhile_imp (List.mem_reverse.mp hm)
  have hsplit := List.takeWhile_append_dropWhile (p := (· ≠ slash)) (l := p.reverse)
  have hp : p = (p.reverse.dropWhile (· ≠ slash)).reverse ++ afterLast p := by
    unfold afterLast
    rw [← List.reverse_append, hsplit, List.reverse_reverse]
  unfold beforeLast
  cases hd : p.reverse.dropWhile (· ≠ slash) with
  | nil =>
    left
    rw [hd, List.reverse_nil, List.nil_append] at hp
    exact ⟨hp ▸ hafter, rfl, hp.symm⟩
  | cons c rest =>
    right
    have hc : c = slash := by
      have hne : p.reverse.dropWhile (· ≠ slash) ≠ [] := by rw [hd]; simp
      have hhead := List.head_dropWhile_not (· ≠ slash) hne
      simp only [hd, List.head_cons] at hhead
      simpa using hhead
    rw [hd, hc, List.reverse_cons, List.append_assoc, List.singleton_append] at hp
    exact ⟨rest.reverse, rfl, hp, hafter⟩

theorem trimSlashes_eq_self (h : p.getLast? ≠ some slash) : trimSlashes p = p := by
  have hd : (p.reverse.dropWhile (· = slash)).reverse = p := by
    induction p using List.reverseRecOn with
    | nil => rfl
    | append_singleton q c _ =>
      have hc : c ≠ slash := by simpa using h
      simp [hc]
  unfold trimSlashes
  rw [hd]
  cases p with
  | nil => rfl
  | cons c cs => rfl

theorem Normal.getLast_ne (h : Normal p) (hp : p ≠ [slash]) : p.getLast? ≠ some slash := by
  intro hl
  obtain ⟨q, rfl⟩ := List.getLast?_eq_some_iff.mp hl
  have hq : q ≠ [] := by
    rintro rfl
    exact hp rfl
  have hpos := List.length_pos_iff.mpr hq
  exact h.trimmed (by simp; omega) hl

theorem Normal.split (h : Normal p) (hlen : p.length ≤ 255) (hp : p ≠ [slash]) :
    (slash ∉ p ∧ pathDirname p = [slash] ∧ pathBasename p 64 = p.take 63) ∨
    ∃ par base, p = par ++ slash :: base ∧ slash ∉ base ∧ base ≠ [] ∧ (par = [] ∨ Normal par) ∧
      pathDirname p = (if par = [] then [slash] else par) ∧ pathBasename p 64 = base.take 63 := by
  have hlast := h.getLast_ne hp
  unfold pathDirname pathBasename
  rw [h.pathNormalize_eq hlen, trimSlashes_eq_self hlast]
  dsimp only
  rw [if_neg hp]
  rcases last_slash p with ⟨hs, hb, ha⟩ | ⟨par, hb, hpar, hs⟩
  · rw [hb, ha]
    exact Or.inl ⟨hs, rfl, rfl⟩
  · rw [hb]
    right
    have hlen' := congrArg List.length hpar
    simp only [List.length_append, List.length_cons] at hlen'
    have hzero : ∀ c ∈ par, c ≠ 0 := fun c hc => h.ne_zero c (by rw [hpar]; simp [hc])
    have hlone := h.lone
    rw [hpar] at hlone
    obtain ⟨hchain, -, hmeet⟩ := List.isChain_append.mp hlone
    refine ⟨par, afterLast p, hpar, hs, ?_, ?_, ?_, rfl⟩
    · intro hnil
      rw [hpar, hnil] at hlast
      simp at hlast
    · by_cases hnil : par = []
      · exact Or.inl hnil
      · exact Or.inr ⟨hnil, hzero, hchain, fun _ hl => hmeet slash hl slash (by simp) rfl rfl⟩
    · cases par with
      | nil => rfl
      | cons c cs =>
        rw [if_neg (by simp)]
        exact List.take_of_length_le (by omega)

theorem tokens_trimSlashes (p : CStr) : tokens slash (trimSlashes p) = tokens slash p := by
  have hr : (p.reverse.dropWhile (· = slash)).reverse = p.rdropWhile (· = slash) := rfl
  have ht : tokens slash (p.rdropWhile (· = slash)) = tokens slash p := tokens_rdropWhile p
  unfold trimSlashes
  rw [hr]
  cases hd : p.rdropWhile (· = slash) with
  | cons c cs => rw [← ht, hd]
  | nil =>
    -- nothing but slashes
    rw [hd] at ht
    rw [← ht]
    cases p with
    | nil => rfl
    | cons c cs =>
      have hc : c = slash := by
        have hall := List.rdropWhile_eq_nil_iff.mp hd c List.mem_cons_self
        simpa using hall
      rw [hc]
      exact tokens_cons_sep

theorem components_splitLast (hzero : ∀ c ∈ p, c ≠ 0) (hname : (splitLast p).2 ≠ []) :
    components p = components (splitLast p).1 ++ [(splitLast p).2] := by
  have htrim : ∀ c ∈ trimSlashes p, c ≠ 0 := fun c hc => hzero c (mem_of_mem_trimSlashes hc)
  have hroot : components [slash] = [] := by decide
  rw [components_eq p, chars_eq_self hzero, ← tokens_trimSlashes]
  unfold splitLast at hname ⊢
  dsimp only at hname ⊢
  rcases last_slash (trimSlashes p) with ⟨hs, hb, -⟩ | ⟨par, hb, hpar, hs⟩
  · rw [hb] at hname ⊢
    dsimp only at hname ⊢
    rw [hroot, tokens_of_not_mem hs hname]
    rfl
  · have hchars : chars par = par := chars_eq_self fun c hc => htrim c (by rw [hpar]; simp [hc])
    rw [hb] at hname ⊢
    generalize afterLast (trimSlashes p) = base at hname hpar hs ⊢
    rw [hpar, tokens_append]
    cases par with
    | nil =>
      dsimp only at hname ⊢
      rw [hroot, tokens_nil, tokens_of_not_mem hs hname]
    | cons c cs =>
      dsimp only at hname ⊢
      rw [components_eq, hchars, tokens_of_not_mem hs hname]

theorem Normal.splitLast_ne_nil (h : Normal p) (hp : p ≠ [slash]) : (splitLast p).2 ≠ [] := by
  have hlast := h.getLast_ne hp
  unfold splitLast
  rw [trimSlashes_eq_self hlast]
  dsimp only
  rcases last_slash p with ⟨-, hb, -⟩ | ⟨par, hb, hpar, -⟩
  · rw [hb]; exact h.ne_nil
  · have hafter : afterLast p ≠ [] := fun he => by
      rw [hpar, he] at hlast
      simp at hlast
    rw [hb]
    cases par with
    | nil => exact hafter
    | cons c cs => exact hafter

theorem chars_splitLast (hzero : ∀ c ∈ p, c ≠ 0) : chars (splitLast p).1 ≠ [] := by
  have htrim : ∀ c ∈ trimSlashes p, c ≠ 0 := fun c hc => hzero c (mem_of_mem_trimSlashes hc)
  have hroot : chars [slash] ≠ [] := by decide
  unfold splitLast
  dsimp only
  rcases last_slash (trimSlashes p) with ⟨-, hb, -⟩ | ⟨par, hb, hpar, -⟩
  · rw [hb]; exact hroot
  · rw [hb]
    cases par with
    | nil => exact hroot
    | cons c cs =>
      have hc : c ≠ 0 := htrim c (by rw [hpar]; simp)
      simp [chars, hc]

theorem components_norm (hlen : (chars p).length ≤ 255) :
    components (pathNormalize p 256) = components p := by
  have h := components_pathNormalize hlen
  rw [pathNormalize_chars, components_chars] at h
  exact h

/-! ### The components walked -/

/-- The components `find_inode_by_path` walks. -/
def walked (path : CStr) : List CStr := (tokens slash (pathNormalize path 256).tail).map (·.take 63)

theorem normLoop_extends (size : ℕ) : ∀ (cs out : CStr) (last : Bool),
    out <+: normLoop size cs out last
  | [], out, _ => List.prefix_rfl
  | c :: cs, out, last => by
    unfold normLoop
    split_ifs with h1 h2 h3 h4
    · exact List.prefix_rfl
    · rw [h3]; exact List.nil_prefix
    · exact (List.prefix_append out [slash]).trans (normLoop_extends size cs _ _)
    · exact normLoop_extends size cs _ _
    · exact (List.prefix_append out [c]).trans (normLoop_extends size cs _ _)

theorem pathNormalize_head (h : path.head? = some slash) :
    pathNormalize path 256 = slash :: (pathNormalize path 256).tail := by
  obtain ⟨cs, rfl⟩ := List.head?_eq_some_iff.mp h
  obtain ⟨o, ho⟩ : ∃ o, normLoop 256 (slash :: cs) [] false = slash :: o := by
    have h0 : slash ≠ 0 := by decide
    have hstep : normLoop 256 (slash :: cs) [] false = normLoop 256 cs [slash] true := by
      simp [normLoop, h0]
    obtain ⟨o, ho⟩ := normLoop_extends 256 cs [slash] true
    exact ⟨o, by rw [hstep, ← ho]; rfl⟩
  unfold pathNormalize
  rw [ho]
  dsimp only
  by_cases ht : 1 < (slash :: o).length ∧ (slash :: o).getLast? = some slash
  · rw [if_pos ht]
    cases o with
    | nil => simp at ht
    | cons c o => simp
  · rw [if_neg ht]; simp

theorem walked_of_absolute (habs : path.head? = some slash) (hlen : (chars path).length ≤ 255) :
    walked path = (tokens slash (chars path)).map (·.take 63) := by
  have hcomp := components_norm hlen
  rw [components_eq, components_eq, chars_eq_self (pathNormalize_ne_zero path 256),
    pathNormalize_head habs, tokens_cons_sep] at hcomp
  rw [walked, hcomp]

theorem walked_root : walked [slash] = [] := by decide

/-- **The directory of a path and its last component** are walked one after the other, if there is a
slash. Without one the directory is the root, the name is the whole string and the walk leaves out
its first character. -/
theorem walked_split (hb : pathBasename (pathNormalize path 256) 64 ≠ []) :
    (slash ∉ pathNormalize path 256 ∧ walked (pathDirname (pathNormalize path 256)) = [] ∧
      pathBasename (pathNormalize path 256) 64 = (pathNormalize path 256).take 63 ∧
      walked path = if (pathNormalize path 256).tail = [] then []
        else [(pathNormalize path 256).tail.take 63]) ∨
    (slash ∈ pathNormalize path 256 ∧ walked path =
      walked (pathDirname (pathNormalize path 256)) ++ [pathBasename (pathNormalize path 256) 64]) := by
  have hnormal := normal_pathNormalize path
  have hlen := pathNormalize_length path
  unfold walked
  generalize pathNormalize path 256 = p at hb hnormal hlen
  have hp : p ≠ [slash] := by
    rintro rfl
    exact hb (by decide)
  rcases hnormal.split hlen hp with ⟨hs, hdir, hbase⟩ | ⟨par, base, rfl, hs, hne, hpar, hdir, hbase⟩
  · left
    refine ⟨hs, by rw [hdir]; exact walked_root, hbase, ?_⟩
    split_ifs with ht
    · rw [ht, tokens_nil]; rfl
    · have htail : slash ∉ p.tail := fun hm => hs (List.mem_of_mem_tail hm)
      rw [tokens_of_not_mem htail ht]
      rfl
  · right
    refine ⟨by simp, ?_⟩
    rw [hdir, hbase]
    rcases hpar with rfl | hpar
    · have hroot : pathNormalize [slash] 256 = [slash] := by decide
      rw [if_pos rfl, hroot, List.nil_append, List.tail_cons, List.tail_cons, tokens_nil,
        tokens_of_not_mem hs hne]
      rfl
    · rw [if_neg hpar.ne_nil, hpar.pathNormalize_eq (by simp at hlen; omega),
        List.tail_append_of_ne_nil hpar.ne_nil, tokens_append, tokens_of_not_mem hs hne, List.map_append]
      rfl

/-! ### Normal forms are canonical -/

theorem tokens_pathNormalize (hlen : (chars p).length ≤ 255) :
    tokens slash (pathNormalize p 256) = tokens slash (chars p) := by
  have h := components_norm hlen
  rwa [components_eq, components_eq, chars_eq_self (pathNormalize_ne_zero p 256)] at h

theorem Normal.eq_intercalate {q : CStr} (h : Normal (slash :: q)) :
    slash :: q = slash :: [slash].intercalate (tokens slash (slash :: q)) := by
  obtain ⟨hmeet, hlone⟩ := List.isChain_cons.mp h.lone
  have hhead : q.head? ≠ some slash := fun hh => hmeet slash hh rfl rfl
  have hlast : q.getLast? ≠ some slash := by
    intro hl
    have hq : q ≠ [] := by
      rintro rfl
      simp at hl
    have hpos := List.length_pos_iff.mpr hq
    refine h.trimmed (by simp; omega) ?_
    rwa [List.getLast?_cons_of_ne_nil hq]
  rw [tokens_cons_sep, intercalate_tokens q hlone hhead hlast]

theorem pathNormalize_eq_intercalate (habs : p.head? = some slash) (hlen : (chars p).length ≤ 255) :
    pathNormalize p 256 = slash :: [slash].intercalate (tokens slash (chars p)) := by
  have hnormal := normal_pathNormalize p
  rw [pathNormalize_head habs] at hnormal
  have h := hnormal.eq_intercalate
  rwa [← pathNormalize_head habs, tokens_pathNormalize hlen] at h

/-- **Normalisation is canonical.** The normal form of any string is normalised already, has at most
255 characters, no two slashes in a row, and none at the end unless it is `/`. Up to 255 characters
the normal form of an absolute path is a slash and its components joined by slashes, so such paths
have one normal form exactly if they have the same components. -/
theorem pathNormalize_canonical (p : CStr) :
    pathNormalize (pathNormalize p 256) 256 = pathNormalize p 256 ∧
      (pathNormalize p 256).length ≤ 255 ∧
      ¬ [slash, slash] <:+: pathNormalize p 256 ∧
      (pathNormalize p 256 ≠ [slash] → (pathNormalize p 256).getLast? ≠ some slash) ∧
      (p.head? = some slash → (chars p).length ≤ 255 →
        pathNormalize p 256 = slash :: [slash].intercalate (tokens slash (chars p)) ∧
        ∀ q : CStr, q.head? = some slash → (chars q).length ≤ 255 →
          (pathNormalize p 256 = pathNormalize q 256 ↔
            tokens slash (chars p) = tokens slash (chars q))) := by
  have hnormal := normal_pathNormalize p
  refine ⟨pathNormalize_twice p, pathNormalize_length p, fun hdouble => ?_, hnormal.getLast_ne,
    fun habs hlen => ⟨pathNormalize_eq_intercalate habs hlen, fun q hqabs hqlen => ⟨?_, ?_⟩⟩⟩
  · have hpair := hnormal.lone.infix hdouble
    exact (List.isChain_cons.mp hpair).1 slash rfl rfl rfl
  · intro hsame
    rw [← tokens_pathNormalize hlen, hsame, tokens_pathNormalize hqlen]
  · intro hsame
    rw [pathNormalize_eq_intercalate habs hlen, hsame, pathNormalize_eq_intercalate hqabs hqlen]

/-- `/a//b/` and `//a/b` are one path. -/
theorem pathNormalize_canonical_doubled :
    pathNormalize [slash, 97, slash, slash, 98, slash] 256 =
      pathNormalize [slash, slash, 97, slash, 98] 256 := by
  obtain ⟨-, -, -, -, habsolute⟩ := pathNormalize_canonical [slash, 97, slash, slash, 98, slash]
  obtain ⟨-, hiff⟩ := habsolute rfl (by decide)
  exact (hiff [slash, slash, 97, slash, 98] rfl (by decide)).mpr (by decide +kernel)

end Kerneloid.UnnamedFS.Components
