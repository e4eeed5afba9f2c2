import Kerneloid.Installer.Tui

/-! # The confirmation of an installation

The screens share one context, and none of them resets `exit_flag`. Once it is set by a key on the
welcome screen, every later screen returns at once with the result of that key (`skips_*`): Enter on
the welcome screen goes through to the installation without another key, with or without a disk. So
a run asks for the confirmation it should exactly if it does not install at all
(`confirmed_iff`). -/

namespace Kerneloid.Installer.Confirmation

open Tui

/-- **The property.** The installation starts only after a disk was detected, `Install` was
activated on the disk screen and then `Yes` on the confirmation screen. -/
def Confirmed (disks : ℕ) (t : Ctx) : Prop :=
  .installing ∈ t.log → 0 < disks ∧
    [.detected disks, .activated .diskSelect "Install", .activated .partitionConfirm "Yes",
      .installing].Sublist t.log

/-- A key that leaves the welcome screen. -/
def Leaves (key : Char) : Prop := key = '\n' ∨ key = '\r' ∨ key = '\x1b'

instance (key : Char) : Decidable (Leaves key) :=
  inferInstanceAs (Decidable (key = '\n' ∨ key = '\r' ∨ key = '\x1b'))

/-- The first of the keys that leaves the welcome screen is Enter. -/
def EnterFirst (keys : List Char) : Prop :=
  ∃ key ∈ keys.find? fun key => Leaves key, key = '\n' ∨ key = '\r'

instance (keys : List Char) : Decidable (EnterFirst keys) :=
  inferInstanceAs (Decidable (∃ key ∈ keys.find? _, _))

variable {t t' t'' : Ctx} {more : Ctx → Char → Ctx}

/-! ### What adding elements leaves alone -/

/-- What the keys have done so far is the same. -/
structure Same (t t' : Ctx) : Prop where
  exitFlag : t'.exitFlag = t.exitFlag
  result : t'.result = t.result
  keys : t'.keys = t.keys
  log : t'.log = t.log

theorem Same.refl (t : Ctx) : Same t t := ⟨rfl, rfl, rfl, rfl⟩

theorem Same.trans (h : Same t t') (h' : Same t' t'') : Same t t'' :=
  ⟨h'.exitFlag.trans h.exitFlag, h'.result.trans h.result, h'.keys.trans h.keys, h'.log.trans h.log⟩

theorem same_foldl {α : Type*} {f : Ctx → α → Ctx} (hf : ∀ t a, Same t (f t a)) :
    ∀ (as : List α) (t : Ctx), Same t (as.foldl f t)
  | [], t => .refl t
  | a :: as, t => (hf t a).trans (same_foldl hf as (f t a))

theorem same_modify (t : Ctx) (i : Option ℕ) (f : Element → Element) : Same t (t.modify i f) := by
  cases i <;> exact ⟨rfl, rfl, rfl, rfl⟩

theorem same_addElement (t : Ctx) (type : ElemType) (text : String) :
    Same t (tuiAddElement t type text).1 := by
  unfold tuiAddElement
  split_ifs <;> exact ⟨rfl, rfl, rfl, rfl⟩

theorem same_addButton (t : Ctx) (text : String) : Same t (tuiAddButton t text).1 := by
  have h := same_addElement t .button text
  unfold tuiAddButton
  generalize tuiAddElement t .button text = r at h ⊢
  obtain ⟨t', i⟩ := r
  cases i with
  | none => exact h
  | some i => exact h.trans ⟨rfl, rfl, rfl, rfl⟩

theorem same_addChoice (t : Ctx) (text : String) (value : ℤ) : Same t (addChoice t text value).1 :=
  (same_addButton t text).trans (same_modify _ _ _)

theorem same_showPhase (progress status : Option ℕ) (t : Ctx) (phase : String × ℕ) :
    Same t (showPhase progress status t phase) := by
  have hstart : Same t { t with installPhase := phase.2 } := ⟨rfl, rfl, rfl, rfl⟩
  refine .trans ?_ (same_foldl (fun t i => ?_) _ _)
  · exact (hstart.trans (same_modify _ _ _)).trans (same_modify _ _ _)
  · exact (same_modify t progress _).trans ⟨rfl, rfl, rfl, rfl⟩

theorem installProgress_same (t : Ctx) :
    Same { t with log := t.log ++ [.installing] } (tuiShowInstallProgress t).1 ∧
      (tuiShowInstallProgress t).2 = tuiOk := by
  refine ⟨?_, rfl⟩
  have hstart : Same { t with log := t.log ++ [.installing] }
    { t with screen := .installProgress, log := t.log ++ [.installing] } := ⟨rfl, rfl, rfl, rfl⟩
  refine .trans ?_ (same_foldl (same_showPhase _ _) _ _)
  exact (hstart.trans (same_addElement _ _ _)).trans (same_addElement _ _ _)

/-! ### Screens that do not wait -/

theorem readKeys_exit {f : Ctx → Char → Ctx} (h : t.exitFlag = true) (keys : List Char) :
    readKeys f keys t = (t, some keys) := by
  cases keys with
  | nil => rw [readKeys, if_pos h]
  | cons key keys => rw [readKeys, if_pos h]

theorem waitExit_exit (h : t.exitFlag = true) : waitExit more t = (t, some t.result) := by
  unfold waitExit
  rw [readKeys_exit h]

/-- The screen `r` of context `t`, shown after `exit_flag` was set: it returns the old result and
adds `es` to the log. -/
structure Skips (t : Ctx) (r : Ctx × Option ℤ) (es : List Event) : Prop where
  result : r.2 = some t.result
  same : Same { t with log := t.log ++ es } r.1

theorem waitExit_skips {es : List Event} (h : t.exitFlag = true)
    (hs : Same { t with log := t.log ++ es } t') : Skips t (waitExit more t') es := by
  rw [waitExit_exit (hs.exitFlag.trans h)]
  exact ⟨congrArg some hs.result, hs⟩

theorem skips_diskSelect (disks : ℕ) (h : t.exitFlag = true) :
    Skips t (tuiShowDiskSelect disks t) [.detected disks] := by
  have hstart : Same { t with log := t.log ++ [.detected disks] }
    { t with screen := .diskSelect, log := t.log ++ [.detected disks] } := ⟨rfl, rfl, rfl, rfl⟩
  unfold tuiShowDiskSelect
  dsimp only
  split_ifs with hd
  · exact waitExit_skips h (hstart.trans (same_addChoice _ _ _))
  · exact waitExit_skips h ((hstart.trans (same_addChoice _ _ _)).trans (same_addChoice _ _ _))

theorem skips_partitionConfirm (h : t.exitFlag = true) :
    Skips t (tuiShowPartitionConfirm t) [] := by
  have hstart : Same { t with log := t.log ++ [] } { t with screen := .partitionConfirm } :=
    ⟨rfl, rfl, rfl, (List.append_nil t.log).symm⟩
  have hyes := hstart.trans (same_addChoice _ "Yes" tuiOk)
  have hno := hyes.trans (same_addChoice _ "No" tuiErrCancel)
  exact waitExit_skips h (hno.trans ⟨rfl, rfl, rfl, rfl⟩)

theorem skips_complete (h : t.exitFlag = true) : Skips t (tuiShowComplete t) [] := by
  have hstart : Same { t with log := t.log ++ [] } { t with screen := .complete } :=
    ⟨rfl, rfl, rfl, (List.append_nil t.log).symm⟩
  exact waitExit_skips h (hstart.trans (same_addChoice _ _ _))

/-! ### The welcome screen -/

/-- The welcome screen with its button, before a key is read. -/
def welcomed (keys : List Char) : Ctx :=
  { tuiInit keys with elements := [⟨.button, "OK", tuiOk⟩], focused := some 0 }

theorem readKeys_welcome (h : t.exitFlag = false) : ∀ keys : List Char,
    readKeys (onKey noKey) keys t =
      match keys.find? fun key => Leaves key with
      | none => (t, none)
      | some key =>
        readKeys (onKey noKey) ((keys.dropWhile fun key => ¬ Leaves key).tail) (onKey noKey t key)
  | [] => by simp [readKeys, h]
  | key :: keys => by
    rw [readKeys, if_neg (by simp [h])]
    by_cases hkey : Leaves key
    · simp [hkey]
    · have hskip : onKey noKey t key = t := by
        unfold Leaves at hkey
        push Not at hkey
        obtain ⟨hn, hr, he⟩ := hkey
        simp [onKey, noKey, hn, hr, he]
      rw [hskip, readKeys_welcome h keys]
      simp [hkey]

theorem showWelcome_log (keys : List Char) :
    (¬ EnterFirst keys ∧ (tuiShowWelcome (tuiInit keys)).1.log = [] ∧
        (tuiShowWelcome (tuiInit keys)).2 ≠ some tuiOk) ∨
      (EnterFirst keys ∧ (tuiShowWelcome (tuiInit keys)).2 = some tuiOk ∧
        (tuiShowWelcome (tuiInit keys)).1.exitFlag = true ∧
        (tuiShowWelcome (tuiInit keys)).1.result = tuiOk ∧
        (tuiShowWelcome (tuiInit keys)).1.log = [.activated .welcome "OK"]) := by
  have hshow : tuiShowWelcome (tuiInit keys) = waitExit noKey (welcomed keys) := rfl
  have hread := readKeys_welcome (t := welcomed keys) rfl keys
  rw [hshow]
  unfold waitExit
  have hkeys : (welcomed keys).keys = keys := rfl
  rw [hkeys, hread]
  unfold EnterFirst
  cases hfind : keys.find? fun key => Leaves key with
  | none => exact Or.inl ⟨by simp, rfl, by simp⟩
  | some key =>
    have hleaves : Leaves key := by simpa using List.find?_some hfind
    dsimp only
    by_cases henter : key = '\n' ∨ key = '\r'
    · have hkey : onKey noKey (welcomed keys) key = tuiHandleEnter (welcomed keys) := by
        rw [onKey, if_pos henter]
      rw [hkey, readKeys_exit rfl]
      exact Or.inr ⟨⟨key, rfl, henter⟩, rfl, rfl, rfl, rfl⟩
    · have hesc : key = '\x1b' := by
        rcases hleaves with h | h | h
        · exact absurd (Or.inl h) henter
        · exact absurd (Or.inr h) henter
        · exact h
      have hkey : onKey noKey (welcomed keys) key = tuiHandleEscape (welcomed keys) := by
        rw [onKey, if_neg henter, if_pos hesc]
      rw [hkey, readKeys_exit rfl]
      refine Or.inl ⟨?_, rfl, by simp [tuiHandleEscape, tuiErrCancel, tuiOk]⟩
      rintro ⟨key', hkey', henter'⟩
      obtain rfl : key = key' := by simpa using hkey'
      exact henter henter'

/-! ### The whole run -/

/-- **Enter on the welcome screen goes through to the installation.** -/
theorem run_installs (disks : ℕ) {t₀ : Ctx} (hw : tuiShowWelcome t₀ = (t, some tuiOk))
    (hexit : t.exitFlag = true) (hres : t.result = tuiOk) :
    (tuiRun disks t₀).1.log = t.log ++ [.detected disks, .installing] := by
  have hdisk := skips_diskSelect disks hexit
  unfold tuiRun
  rw [hw]
  dsimp only
  rw [if_neg (not_not.mpr rfl)]
  cases hd : tuiShowDiskSelect disks t with
  | mk t₁ r₁ =>
    rw [hd] at hdisk
    obtain ⟨rfl, hsame₁⟩ : r₁ = _ ∧ _ := ⟨hdisk.result, hdisk.same⟩
    dsimp only at hsame₁ ⊢
    rw [if_neg (not_not.mpr hres)]
    have hconfirm := skips_partitionConfirm (hsame₁.exitFlag.trans hexit)
    cases hc : tuiShowPartitionConfirm t₁ with
    | mk t₂ r₂ =>
      rw [hc] at hconfirm
      obtain ⟨rfl, hsame₂⟩ : r₂ = _ ∧ _ := ⟨hconfirm.result, hconfirm.same⟩
      dsimp only at hsame₂ ⊢
      rw [if_neg (not_not.mpr (hsame₁.result.trans hres))]
      have hinstall := (installProgress_same t₂).1
      have hexit₂ : t₂.exitFlag = true := hsame₂.exitFlag.trans (hsame₁.exitFlag.trans hexit)
      cases hi : tuiShowInstallProgress t₂ with
      | mk t₃ r₃ =>
        have hr₃ : r₃ = tuiOk := by
          have := (installProgress_same t₂).2
          rwa [hi] at this
        rw [hi] at hinstall
        dsimp only at hinstall ⊢
        rw [if_neg (not_not.mpr hr₃)]
        have hlast := (skips_complete (hinstall.exitFlag.trans hexit₂)).same.log
        rw [hlast]
        dsimp only
        rw [hinstall.log, hsame₂.log, hsame₁.log]
        simp

/-- **The confirmation of an installation.** For every disk detection and all keys: a run from
`tui_init` installs only with a disk and after the two confirmations if and only if the first key
that leaves the welcome screen is not Enter. -/
theorem confirmed_iff (disks : ℕ) (keys : List Char) :
    Confirmed disks (tuiRun disks (tuiInit keys)).1 ↔ ¬ EnterFirst keys := by
  rcases showWelcome_log keys with ⟨hno, hlog, hres⟩ | ⟨hyes, hres, hexit, hok, hlog⟩
  · refine iff_of_true ?_ hno
    have hstop : (tuiRun disks (tuiInit keys)).1 = (tuiShowWelcome (tuiInit keys)).1 := by
      unfold tuiRun
      generalize tuiShowWelcome (tuiInit keys) = r at hres ⊢
      obtain ⟨t, r⟩ := r
      cases r with
      | none => rfl
      | some r =>
        have hne : r ≠ tuiOk := fun h => hres (congrArg some h)
        dsimp only
        rw [if_pos hne]
    unfold Confirmed
    rw [hstop, hlog]
    exact fun h => absurd h List.not_mem_nil
  · refine iff_of_false (fun hconf => ?_) (not_not.mpr hyes)
    have hrun := run_installs disks (Prod.ext rfl hres) hexit hok
    unfold Confirmed at hconf
    rw [hrun, hlog] at hconf
    -- the log has no `Install` in it
    have hsub := (hconf (by simp)).2.subset
    have hmem : Event.activated .diskSelect "Install" ∈
        [.activated .welcome "OK"] ++ [.detected disks, .installing] := hsub (by simp)
    simp at hmem

/-- **One key installs**, without a disk and without a confirmation. -/
theorem enter_installs :
    (tuiRun 0 (tuiInit ['\n'])).1.log =
        [.activated .welcome "OK", .detected 0, .installing] ∧
      ¬ Confirmed 0 (tuiRun 0 (tuiInit ['\n'])).1 := by
  unfold Confirmed
  decide +kernel

end Kerneloid.Installer.Confirmation
