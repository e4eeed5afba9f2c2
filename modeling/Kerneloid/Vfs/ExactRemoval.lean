import Kerneloid.Vfs.Resolvers

/-! # What a removal removes

`unnamedfs_vop_unlink` finds the inode `t` asked for, collects the names on the way up from `t`, at
most eight of them, joins them to a path and lets the file system below remove what that path leads
to. So `vfs_unlink(p)` and `vfs_rmdir(p)` remove exactly what `p` leads to if and only if this lies
at most eight levels below the root (`removal_exact`); for a deeper one the path built starts in the
middle of the way, and what it leads to, if anything, lies higher up
(`deep_removal_takes_another`). -/

namespace Kerneloid.Vfs.ExactRemoval

open Lib.Tokens UnnamedFS.Types UnnamedFS.Path UnnamedFS.Lookup UnnamedFS.Ops UnnamedFS.Namespace
open UnnamedFS.Slots UnnamedFS.Components UnnamedFS.Resolution Types Vfs.Path Walk Ops Effects Removal
open Coherence Resolvers

variable {ns : List CStr} {r : ℕ}

/-! ### The path built -/

/-- A string that can be a component of a path. -/
structure Proper (c : CStr) : Prop where
  ne_nil : c ≠ []
  no_slash : slash ∉ c
  ne_zero : ∀ x ∈ c, x ≠ 0
  short : c.length < 64

theorem joinNames_concat (ns : List CStr) (n : CStr) : joinNames (ns ++ [n]) =
    (if 1 < (joinNames ns).length then joinNames ns ++ [slash] else joinNames ns) ++ n := by
  unfold joinNames
  rw [List.foldl_append]
  rfl

theorem joinNames_head (ns : List CStr) : ∃ q, joinNames ns = slash :: q := by
  induction ns using List.reverseRecOn with
  | nil => exact ⟨[], rfl⟩
  | append_singleton ns n ih =>
    obtain ⟨q, hq⟩ := ih
    rw [joinNames_concat, hq]
    split_ifs
    · exact ⟨q ++ [slash] ++ n, rfl⟩
    · exact ⟨q ++ n, rfl⟩

theorem joinNames_length (ns : List CStr) :
    (joinNames ns).length ≤ max 1 (ns.map fun n => n.length + 1).sum := by
  induction ns using List.reverseRecOn with
  | nil => simp [joinNames]
  | append_singleton ns n ih =>
    rw [joinNames_concat, List.map_append, List.sum_append]
    simp only [List.map_cons, List.map_nil, List.sum_cons, List.sum_nil]
    split_ifs with hlen
    · simp only [List.length_append, List.length_singleton]
      omega
    · simp only [List.length_append]
      omega

theorem joinNames_ne_zero (h : ∀ n ∈ ns, Proper n) : ∀ c ∈ joinNames ns, c ≠ 0 := by
  have hslash : slash ≠ 0 := by decide
  induction ns using List.reverseRecOn with
  | nil => simp [joinNames, hslash]
  | append_singleton ns n ih =>
    have ih := ih fun m hm => h m (by simp [hm])
    have hn := (h n (by simp)).ne_zero
    intro c hc
    rw [joinNames_concat] at hc
    rcases List.mem_append.mp hc with hc | hc
    · split_ifs at hc
      · rcases List.mem_append.mp hc with hc | hc
        · exact ih c hc
        · rw [List.mem_singleton.mp hc]; exact hslash
      · exact ih c hc
    · exact hn c hc

theorem tokens_joinNames (h : ∀ n ∈ ns, Proper n) : tokens slash (joinNames ns) = ns := by
  induction ns using List.reverseRecOn with
  | nil => exact (tokens_cons_sep (l := [])).trans tokens_nil
  | append_singleton ns n ih =>
    have ih := ih fun m hm => h m (by simp [hm])
    have hn := h n (by simp)
    have htok := tokens_of_not_mem hn.no_slash hn.ne_nil
    rw [joinNames_concat]
    split_ifs with hlen
    · rw [List.append_assoc, List.singleton_append, tokens_append, ih, htok]
    · -- only the root is that short
      obtain ⟨q, hq⟩ := joinNames_head ns
      have hnil : q = [] := by
        rw [hq, List.length_cons] at hlen
        exact List.length_eq_zero_iff.mp (by omega)
      rw [hq, hnil, tokens_cons_sep, tokens_nil] at ih
      rw [hq, hnil, ← ih, List.singleton_append, tokens_cons_sep, htok]
      rfl

theorem walked_joinNames (h : ∀ n ∈ ns, Proper n)
    (hlen : (ns.map fun n => n.length + 1).sum ≤ 255) : walked (joinNames ns) = ns := by
  have hzero := joinNames_ne_zero h
  have hjoin := joinNames_length ns
  have habs : (joinNames ns).head? = some slash := by
    obtain ⟨q, hq⟩ := joinNames_head ns
    rw [hq]
    rfl
  have hfits : (chars (joinNames ns)).length ≤ 255 := by
    rw [chars_eq_self hzero]
    omega
  have hcut : ns.map (·.take 63) = ns := by
    conv_rhs => rw [← List.map_id ns]
    refine List.map_congr_left fun n hn => ?_
    have := (h n hn).short
    exact List.take_of_length_le (by omega)
  rw [walked_of_absolute habs hfits, chars_eq_self hzero, tokens_joinNames h, hcut]

/-! ### The way up -/

theorem namesUp_succ {s : Fs} (h : DirTree s) {t : ℕ} (ht : s.Live t) (h0 : t ≠ 0) (k : ℕ) :
    namesUp s (k + 1) t = namesUp s k (parentOf s t) ++ [(s.inodes t).name] := by
  have hlt : (s.inodes t).parent < s.sb.inodeCount := (h.tree.parent_live ht).1
  rw [namesUp]
  dsimp only
  rw [if_neg h0, if_neg (by omega)]

/-- **The names collected** are the last components of a path of plain names to the inode. -/
theorem namesUp_suffix {s : Fs} (h : DirTree s) : ∀ (k : ℕ) (cs : List CStr) (t : ℕ),
    (∀ c ∈ cs, Plain c) → inodeWalk s 0 cs = some t → namesUp s k t <:+ cs
  | 0, cs, _, _, _ => List.nil_suffix
  | k + 1, cs, t, hplain, hw => by
    by_cases h0 : t = 0
    · rw [h0, namesUp, if_pos rfl]; exact List.nil_suffix
    have ht := inodeWalk_live h cs h.tree.root_live hw
    rw [namesUp_succ h ht h0]
    rcases List.eq_nil_or_concat cs with rfl | ⟨ds, c, rfl⟩
    · exact absurd (Option.some.inj hw).symm h0
    · rw [List.concat_eq_append] at hplain hw ⊢
      obtain ⟨p, hp, -, hchild⟩ := (inodeWalk_concat h (hplain c (by simp))).mp hw
      obtain ⟨-, hpar, hname⟩ := (childOf_eq_some h).mp hchild
      obtain ⟨es, hes⟩ := namesUp_suffix h k ds p (fun d hd => hplain d (by simp [hd])) hp
      refine ⟨es, ?_⟩
      rw [parentOf, hpar, hname, ← List.append_assoc, hes]

theorem namesUp_length (s : Fs) : ∀ (k t : ℕ), (namesUp s k t).length ≤ k
  | 0, _ => le_rfl
  | k + 1, t => by
    have ih := namesUp_length s k (s.inodes t).parent
    unfold namesUp
    dsimp only
    split_ifs
    · simp
    · simp
    · simp only [List.length_append, List.length_singleton]
      omega

theorem refStep_plain {s : Fs} (h : DirTree s) {i j : ℕ} {c : CStr} (hc : Plain c) :
    refStep s i c = some j ↔ s.Live j ∧ (s.inodes j).parent = i ∧ (s.inodes j).name = c := by
  unfold refStep
  rw [if_neg hc.1, if_neg hc.2]
  exact uniqueChild_eq_some h

theorem namesUp_resolves {s : Fs} (h : DirTree s) : ∀ (k t : ℕ), s.Live t →
    (∀ c ∈ namesUp s k t, Plain c) → (parentOf s)^[k] t = 0 →
      (namesUp s k t).foldlM (refStep s) 0 = some t
  | 0, t, _, _, hk => by
    rw [Function.iterate_zero_apply] at hk
    rw [hk]
    rfl
  | k + 1, t, ht, hplain, hk => by
    by_cases h0 : t = 0
    · rw [h0, namesUp, if_pos rfl]; rfl
    rw [namesUp_succ h ht h0] at hplain ⊢
    rw [Function.iterate_succ_apply] at hk
    have ih := namesUp_resolves h k (parentOf s t) (h.tree.parent_live ht)
      (fun c hc => hplain c (by simp [hc])) hk
    have hstep : refStep s (parentOf s t) (s.inodes t).name = some t :=
      (refStep_plain h (hplain _ (by simp))).mpr ⟨ht, rfl, rfl⟩
    rw [List.foldlM_append, ih]
    simp only [Option.bind_eq_bind, Option.bind_some, List.foldlM_cons, List.foldlM_nil, bind_pure]
    exact hstep

theorem foldlM_refStep_depth {s : Fs} (h : DirTree s) : ∀ (cs : List CStr) {i r : ℕ},
    (∀ c ∈ cs, Plain c) → cs.foldlM (refStep s) i = some r → (parentOf s)^[cs.length] r = i
  | [], _, _, _, hw => (Option.some.inj hw).symm
  | c :: cs, i, r, hplain, hw => by
    rw [List.foldlM_cons] at hw
    obtain ⟨m, hm, hw⟩ := Option.bind_eq_some_iff.mp hw
    have ih := foldlM_refStep_depth h cs (fun d hd => hplain d (by simp [hd])) hw
    obtain ⟨-, hpar, -⟩ := (refStep_plain h (hplain c (by simp))).mp hm
    rw [List.length_cons, Function.iterate_succ_apply', ih]
    exact hpar

theorem iterate_parent_zero {s : Fs} (h : DirTree s) {k m : ℕ} (hk : (parentOf s)^[k] r = 0)
    (hle : k ≤ m) : (parentOf s)^[m] r = 0 := by
  obtain ⟨d, rfl⟩ := Nat.exists_eq_add_of_le' hle
  rw [Function.iterate_add_apply, hk]
  exact Function.iterate_fixed h.tree.root_parent d

section Way
variable {s : Fs} (h : DirTree s) {cs : List CStr} {t : ℕ} (hplain : ∀ c ∈ cs, Plain c)
  (hproper : ∀ c ∈ cs, Proper c) (hsum : (cs.map fun c => c.length + 1).sum ≤ 255)
  (hw : inodeWalk s 0 cs = some t)
include h hplain hproper hsum hw

theorem findInodeByPath_tmpPath :
    (findInodeByPath s (tmpPath s t)).2 = (namesUp s 8 t).foldlM (refStep s) 0 := by
  have hsuf := namesUp_suffix h 8 cs t hplain hw
  have hle : ((namesUp s 8 t).map fun n => n.length + 1).sum ≤ 255 :=
    (List.Sublist.sum_le_sum (hsuf.sublist.map _) (by simp)).trans hsum
  rw [findInodeByPath_eq h, tmpPath, walked_joinNames (fun n hn => hproper n (hsuf.subset hn)) hle]

theorem removes_eq_iff (hr : removes s t = some r) : r = t ↔ (parentOf s)^[8] t = 0 := by
  have hplain' : ∀ c ∈ namesUp s 8 t, Plain c := fun c hc =>
    hplain c ((namesUp_suffix h 8 cs t hplain hw).subset hc)
  have hfind := removes_find hr
  rw [findInodeByPath_norm, findInodeByPath_tmpPath h hplain hproper hsum hw] at hfind
  constructor
  · rintro rfl
    exact iterate_parent_zero h (foldlM_refStep_depth h _ hplain' hfind) (namesUp_length s 8 r)
  · intro h8
    have hself := namesUp_resolves h 8 t (inodeWalk_live h cs h.tree.root_live hw) hplain' h8
    exact Option.some.inj (hfind.symm.trans hself)

theorem removes_file (hd : (s.inodes t).isDir = false) (h8 : (parentOf s)^[8] t = 0) :
    removes s t = some t := by
  have hplain' : ∀ c ∈ namesUp s 8 t, Plain c := fun c hc =>
    hplain c ((namesUp_suffix h 8 cs t hplain hw).subset hc)
  have hself := namesUp_resolves h 8 t (inodeWalk_live h cs h.tree.root_live hw) hplain' h8
  have hfind := findInodeByPath_tmpPath h hplain hproper hsum hw
  rw [hself] at hfind
  have hroot : pathNormalize (tmpPath s t) 256 ≠ [slash] := fun he => by
    -- the path `/` leads to the root, which is no file
    rw [← findInodeByPath_norm, he] at hfind
    have h0 : (findInodeByPath s [slash]).2 = some 0 := by
      rw [findInodeByPath_eq h, walked_root]; rfl
    have ht : t = 0 := Option.some.inj (hfind.symm.trans h0)
    rw [ht, h.root_dir] at hd
    exact absurd hd (by simp)
  unfold removes
  dsimp only
  rw [if_neg hroot, findInodeByPath_norm, hfind]
  simp [hd]

end Way

/-! ### The calls -/

theorem unlinkTarget_iff {w : VState} (h : DirTree w.fs) {n t : ℕ} (ha : Accurate w n) {name : CStr} :
    unlinkTarget w n name = some t ↔ childOf w.fs name n = some t := by
  unfold unlinkTarget
  rw [ha.type, ha.data]
  dsimp only
  rw [h.ino n ha.live]
  constructor
  · intro ht
    split_ifs at ht
    exact ht
  · intro ht
    obtain ⟨hl, hp, -⟩ := (childOf_eq_some h).mp ht
    have hd := h.parent_dir t hl
    rw [parentOf, hp] at hd
    rw [if_neg (by rw [not_not]; exact typeOf_eq_dir.mpr hd)]
    exact ht

section Lookups
variable {v : VState} (h : Healthy v) {p : CStr} (hlen : (chars p).length ≤ 255)
include h

theorem lookNorm_eq (hlen : (chars p).length ≤ 255) :
    (lookNorm v p).2 = inodeWalk v.fs 0 (components p) := by
  have hchars : chars (pathNormalize p 256) ≠ [] := by
    rw [chars_eq_self (pathNormalize_ne_zero p 256)]
    exact (normal_pathNormalize p).ne_nil
  rw [lookNorm, (h.lookup (fits_pathNormalize p)).2.1, uncachedLookup, if_neg hchars,
    (vfsWalk_eq h.tree h.root _).1, components_norm hlen]

theorem lookParent_eq : (lookParent v p).2 =
      inodeWalk v.fs 0 (components (splitLast (pathNormalize p 256)).1) ∧
    ∀ n, (lookParent v p).2 = some n → Accurate (lookParent v p).1 n := by
  obtain ⟨-, hres, hacc⟩ := (h.lookup (fits_pathNormalize p)).1.lookup (fits_parent p)
  have hn := (h.lookup (fits_pathNormalize p)).1
  have hfs := (lookNorm_calm (numbered_of_dirTree h.tree) p).fs
  refine ⟨?_, hacc⟩
  rw [lookParent, lookNorm, hres, uncachedLookup, if_neg (chars_splitLast (pathNormalize_ne_zero p 256)),
    (vfsWalk_eq hn.tree hn.root _).1]
  rw [lookNorm] at hfs
  rw [hfs]

theorem removalTarget_iff (hlen : (chars p).length ≤ 255) (hroot : pathNormalize p 256 ≠ [slash])
    (hplain : ∀ c ∈ components p, Plain c) (hshort : ∀ c ∈ components p, c.length < 64) {t : ℕ} :
    removalTarget v p = some t ↔ inodeWalk v.fs 0 (components p) = some t := by
  have hsplit := components_splitLast (pathNormalize_ne_zero p 256)
    ((normal_pathNormalize p).splitLast_ne_nil hroot)
  have hfs := (lookParent_calm (numbered_of_dirTree h.tree) p).fs
  obtain ⟨hpar, hacc⟩ := lookParent_eq h (p := p)
  rw [components_norm hlen] at hsplit
  have hlast : (splitLast (pathNormalize p 256)).2 ∈ components p := by rw [hsplit]; simp
  have hname := hshort _ hlast
  have htake : (splitLast (pathNormalize p 256)).2.take 63 = (splitLast (pathNormalize p 256)).2 :=
    List.take_of_length_le (by omega)
  rw [hsplit, inodeWalk_concat h.tree (hplain _ hlast), removalTarget, Option.bind_eq_some_iff, htake]
  refine exists_congr fun n => ?_
  rw [hpar]
  refine and_congr_right fun hn => ?_
  rw [unlinkTarget_iff (by rw [hfs]; exact h.tree) (hacc n (hpar.trans hn)), hfs]
  exact ⟨fun ht => ⟨hname, ht⟩, fun ht => ht.2⟩

theorem vfsRemove_root (hroot : pathNormalize p 256 = [slash]) (dir : Bool) :
    (vfsRemove dir v p).2 ≠ 0 := by
  obtain ⟨hw, hres, hacc⟩ := h.lookup (show Fits [slash] by decide)
  have h0 : (vfsLookup v [slash]).2 = some 0 := by
    rw [hres, uncachedLookup, if_neg (by decide), (vfsWalk_eq h.tree h.root _).1]
    rfl
  have htype := (hacc 0 h0).type
  rw [typeOf_eq_dir.mpr hw.tree.root_dir] at htype
  unfold vfsRemove vfsRmdir vfsUnlink
  by_cases he : chars p = []
  · rw [if_pos he, if_pos he, ite_self]; simp
  rw [if_neg he, if_neg he, hroot]
  dsimp only
  rw [if_pos rfl]
  revert h0 htype
  generalize vfsLookup v [slash] = q
  obtain ⟨w, o⟩ := q
  rintro rfl htype
  dsimp only at htype ⊢
  rw [if_pos htype]
  cases dir <;> simp

end Lookups

theorem vfsRemove_zero {v : VState} (h : Numbered v.fs) {dir : Bool} {p : CStr}
    (hrc : (vfsRemove dir v p).2 = 0) :
    ∃ target t r, (lookNorm v p).2 = some target ∧ removalTarget v p = some t ∧
      removes v.fs t = some r ∧ Zeroed v.fs (vfsRemove dir v p).1.fs r := by
  have hcalm := lookParent_calm h p
  obtain ⟨w, rd, target, t, r, hw, hn, ht, hr, hz, hq⟩ := (vfsRemove_removal h dir p).zero hrc
  rw [hw] at hcalm
  refine ⟨target, t, r, hn, ht, hr, ?_⟩
  rw [hq, removedState_fs]
  dsimp only
  rw [hcalm.fs]
  exact hz

theorem vopUnlink_zero {v : VState} {dir t : ℕ} {name : CStr}
    (ht : unlinkTarget v dir name = some t) (hd : (v.fs.inodes t).isDir = false)
    (hr : removes v.fs t = some r) : (vopUnlink v dir name).2 = 0 := by
  unfold vopUnlink
  rw [ht]
  dsimp only
  rw [hd, Bool.false_and, if_neg (by simp)]
  rcases removeCall_cases v.fs t with ⟨hnone, -⟩ | ⟨-, -, hrc, -⟩
  · rw [hnone] at hr
    exact absurd hr (by simp)
  · revert hrc
    generalize removeCall v.fs t = c
    obtain ⟨s, rc⟩ := c
    rintro rfl
    rw [if_pos rfl]
    split <;> rfl

/-- **`vfs_unlink` returns 0** if its path leads to a file whose removal below takes something
away. -/
theorem vfsUnlink_zero {v : VState} (h : Numbered v.fs) {p : CStr} (he : chars p ≠ [])
    {target t : ℕ} (hn : (lookNorm v p).2 = some target)
    (htype : ((lookNorm v p).1.nodes target).type ≠ .dir) (ht : removalTarget v p = some t)
    (hd : (v.fs.inodes t).isDir = false) (hr : removes v.fs t = some r) :
    (vfsUnlink v p).2 = 0 := by
  obtain ⟨parent, hp, ht⟩ := Option.bind_eq_some_iff.mp ht
  have hfs := (lookParent_calm h p).fs
  rw [← hfs] at hd hr
  have hzero := vopUnlink_zero ht hd hr
  unfold vfsUnlink
  rw [if_neg he]
  unfold lookParent at hp hzero
  unfold lookNorm at hn htype hp hzero
  dsimp only
  revert hn htype hp hzero
  generalize vfsLookup v (pathNormalize p 256) = q1
  obtain ⟨v1, o1⟩ := q1
  rintro rfl htype
  dsimp only at htype ⊢
  rw [if_neg htype]
  generalize vfsLookup v1 (splitLast (pathNormalize p 256)).1 = q2
  obtain ⟨v2, o2⟩ := q2
  rintro rfl hzero
  dsimp only at hzero ⊢
  unfold finishRemoval
  revert hzero
  generalize vopUnlink v2 parent ((splitLast (pathNormalize p 256)).2.take 63) = q3
  obtain ⟨v3, rc⟩ := q3
  rintro rfl
  dsimp only
  rw [if_pos rfl]

/-- Inode `t` is free in `v'`, and every other record is as in `v`. -/
def Exactly (v v' : VState) (t : ℕ) : Prop :=
  ¬ v'.fs.Live t ∧ ∀ i, i ≠ t → v'.fs.inodes i = v.fs.inodes i

theorem exactly_iff {v v' : VState} {t : ℕ} (hz : Zeroed v.fs v'.fs r) (ht : v.fs.Live t) :
    Exactly v v' t ↔ r = t := by
  constructor
  · rintro ⟨hfree, -⟩
    by_contra hrt
    exact hfree ((hz.live t).mpr ⟨ht, fun he => hrt he.symm⟩)
  · rintro rfl
    exact ⟨fun hl => ((hz.live r).mp hl).2 rfl, fun i hi => hz.other hi⟩

theorem components_proper {p : CStr} (habs : p.head? = some slash) (hlen : (chars p).length ≤ 255)
    (hshort : ∀ c ∈ components p, c.length < 64) : (∀ c ∈ components p, Proper c) ∧
      ((components p).map fun c => c.length + 1).sum ≤ 255 := by
  obtain ⟨cs, rfl⟩ := List.head?_eq_some_iff.mp habs
  have hcons : chars (slash :: cs) = slash :: chars cs := by
    have h0 : slash ≠ 0 := by decide
    simp [chars, h0]
  have htok : components (slash :: cs) = tokens slash (chars cs) := by
    rw [components_eq, hcons, tokens_cons_sep]
  rw [hcons, List.length_cons] at hlen
  constructor
  · intro c hc
    have hs := hshort c hc
    rw [htok] at hc
    obtain ⟨hne, hslash, hmem⟩ := mem_tokens _ hc
    exact ⟨hne, hslash, fun x hx => chars_ne_zero cs x (hmem x hx), hs⟩
  · rw [htok]
    exact (sum_tokens_le _).trans hlen

theorem chars_ne_nil {p : CStr} (habs : p.head? = some slash) : chars p ≠ [] := by
  obtain ⟨cs, rfl⟩ := List.head?_eq_some_iff.mp habs
  have h0 : slash ≠ 0 := by decide
  simp [chars, h0]

theorem inodeWalk_short {s : Fs} (h : DirTree s) {cs : List CStr} {t : ℕ}
    (hw : inodeWalk s 0 cs = some t) : ∀ c ∈ cs, c.length < 64 := by
  rw [inodeWalk_eq h] at hw
  split_ifs at hw with hall
  exact hall

/-- A removal that went through took the inode the path leads to and nothing else, exactly if that
inode is at most eight levels deep. -/
theorem removed_exactly {v : VState} (h : Healthy v) {p : CStr} (habs : p.head? = some slash)
    (hlen : (chars p).length ≤ 255) (hplain : ∀ c ∈ components p, c ≠ dot ∧ c ≠ dotdot) (dir : Bool)
    (hrc : (vfsRemove dir v p).2 = 0) :
    ∃ t, ResolvesTo v p t ∧
      (Exactly v (vfsRemove dir v p).1 t ↔ (parentOf v.fs)^[8] t = 0) := by
  obtain ⟨target, t, r, hn, htar, hrem, hz⟩ := vfsRemove_zero (numbered_of_dirTree h.tree) hrc
  have hroot : pathNormalize p 256 ≠ [slash] := fun hroot => vfsRemove_root h hroot dir hrc
  rw [lookNorm_eq h hlen] at hn
  have hall := inodeWalk_short h.tree hn
  obtain ⟨hproper, hsum⟩ := components_proper habs hlen hall
  have hw := (removalTarget_iff h hlen hroot hplain hall).mp htar
  refine ⟨t, (resolvesTo_iff h.tree h.root).mpr ⟨chars_ne_nil habs, hw⟩, ?_⟩
  rw [exactly_iff hz (inodeWalk_live h.tree _ h.tree.tree.root_live hw)]
  exact removes_eq_iff h.tree hplain hproper hsum hw hrem

/-- **A removal removes exactly its target if the target is not too deep.** Take any directory tree,
a valid root vnode and an empty dentry cache, and an absolute path of at most 255 characters whose
components are plain names. If `vfs_unlink` or `vfs_rmdir` of the path returns 0, the path led to an
inode, and this inode is free afterwards and every other record unchanged, exactly if it lay at most
eight levels below the root. If the path leads to a file, `vfs_unlink` returns 0 and does this
exactly if the file lies at most eight levels below the root. -/
theorem removal_exact (v : VState) (ht : DirTree v.fs) (hr : ValidRoot v)
    (hc : ∀ i, (v.dcache i).valid = false) (p : CStr) (habs : p.head? = some slash)
    (hlen : (chars p).length ≤ 255) (hplain : ∀ c ∈ components p, c ≠ dot ∧ c ≠ dotdot) :
    (∀ dir, (vfsRemove dir v p).2 = 0 → ∃ t, ResolvesTo v p t ∧
      (Exactly v (vfsRemove dir v p).1 t ↔ (parentOf v.fs)^[8] t = 0)) ∧
    ∀ t, ResolvesTo v p t → (v.fs.inodes t).isDir = false →
      (((vfsUnlink v p).2 = 0 ∧ Exactly v (vfsUnlink v p).1 t) ↔ (parentOf v.fs)^[8] t = 0) := by
  have h := healthy_of_empty ht hr hc
  have hnum := numbered_of_dirTree ht
  have hremoved := fun dir => removed_exactly h habs hlen hplain dir
  refine ⟨hremoved, fun t hres hd => ?_⟩
  obtain ⟨-, hw⟩ := (resolvesTo_iff ht hr).mp hres
  have hexact : (vfsUnlink v p).2 = 0 →
      (Exactly v (vfsUnlink v p).1 t ↔ (parentOf v.fs)^[8] t = 0) := fun hrc => by
    obtain ⟨t', hres', hiff⟩ := hremoved false hrc
    have hw' := ((resolvesTo_iff ht hr).mp hres').2
    rw [hw] at hw'
    rw [Option.some.inj hw']
    exact hiff
  refine ⟨fun hex => (hexact hex.1).mp hex.2, fun h8 => ?_⟩
  have hall := inodeWalk_short ht hw
  obtain ⟨hproper, hsum⟩ := components_proper habs hlen hall
  have hroot : pathNormalize p 256 ≠ [slash] := fun hroot => by
    rw [← components_norm hlen, hroot] at hw
    have ht0 : 0 = t := Option.some.inj hw
    rw [← ht0, ht.root_dir] at hd
    exact absurd hd (by simp)
  have hn : (lookNorm v p).2 = some t := by rw [lookNorm_eq h hlen, hw]
  have hfile : ((lookNorm v p).1.nodes t).type ≠ .dir := by
    have ha : Accurate (lookNorm v p).1 t := (h.lookup (fits_pathNormalize p)).2.2 t hn
    have htype := ha.type
    rw [(lookNorm_calm hnum p).fs] at htype
    rw [htype, Ne, typeOf_eq_dir, hd]
    simp
  have hzero : (vfsUnlink v p).2 = 0 := vfsUnlink_zero hnum (chars_ne_nil habs) hn hfile
    ((removalTarget_iff h hlen hroot hplain hall).mpr hw) hd
    (removes_file ht hplain hproper hsum hw hd h8)
  exact ⟨hzero, (hexact hzero).mpr h8⟩

/-- `/etc` of the state after `vfs_init` is removed. -/
theorem removal_exact_etc :
    ∃ t, ResolvesTo vfsInit (cstr "/etc") t ∧
      (Exactly vfsInit (vfsRemove true vfsInit (cstr "/etc")).1 t ↔
        (parentOf vfsInit.fs)^[8] t = 0) :=
  (removal_exact vfsInit dirTree_vfsInit validRoot_vfsInit (fun _ => rfl) (cstr "/etc") (by decide)
    (by decide) (by decide)).1 true (by decide +kernel)

/-- **The removal of the deeper `h` takes the other one away**: `vfs_rmdir("/x/a/b/c/d/e/f/g/h")`
returns 0, inode 21 to which the path led is still in use, and inode 13, which is
`/a/b/c/d/e/f/g/h`, is free. -/
theorem deep_removal_takes_another :
    DirTree deepState.fs ∧ ValidRoot deepState ∧ (∀ i, (deepState.dcache i).valid = false) ∧
      (vfsLookup deepState (cstr "/x/a/b/c/d/e/f/g/h")).2 = some 21 ∧
      (vfsRmdir deepState (cstr "/x/a/b/c/d/e/f/g/h")).2 = 0 ∧
      (vfsRmdir deepState (cstr "/x/a/b/c/d/e/f/g/h")).1.fs.Live 21 ∧
      deepState.fs.Live 13 ∧ ¬ (vfsRmdir deepState (cstr "/x/a/b/c/d/e/f/g/h")).1.fs.Live 13 :=
  ⟨dirTree_deepState, ⟨rfl, rfl, rfl⟩, fun _ => rfl, by decide +kernel, by decide +kernel,
    by decide +kernel, by decide +kernel, by decide +kernel⟩

end Kerneloid.Vfs.ExactRemoval
