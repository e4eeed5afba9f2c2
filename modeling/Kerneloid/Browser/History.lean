import Kerneloid.Browser.Pages
import Kerneloid.Vfs.Contents

/-! # Back and forward

`browser_back` lowers the index and navigates to the entry there. If the page loads,
`browser_navigate` adds the URL to the history as it does for any other, with the index at the new
entry: the history has one entry more or, if it is full, has lost its first one, and there is
nothing to go forward to. In a full history the new entry is not even the URL shown: the entries
have moved down before it is copied.

So going back is what it should be only if the page does *not* load (`back_law`). -/

namespace Kerneloid.Browser.History

open Lib.Arrays Lib.Runs Lib.Slots UnnamedFS.Types Vfs.Types Vfs.Ops Vfs.Contents Pages

def entries (b : State) : List CStr := (List.range b.historyCount.toNat).map b.history

/-- **The invariant.** -/
structure Sound (b : State) : Prop where
  count : 0 ≤ b.historyCount ∧ b.historyCount ≤ 16
  index : -1 ≤ b.historyIndex ∧ b.historyIndex < b.historyCount
  entry : ∀ u ∈ entries b, IsFile u ∧ u.length < 512

variable {b b' : State} {s : Session} {url : Url} {u : CStr} {l : List CStr} {v : VState}

theorem length_entries (b : State) : (entries b).length = b.historyCount.toNat := by
  rw [entries, List.length_map, List.length_range]

theorem stored_entries (b : State) : Stored Eq b.history 0 (entries b) := by
  rw [stored_iff_map_range, length_entries]
  rfl

theorem entries_eq (h : Stored Eq b.history 0 l) (hcount : b.historyCount = l.length) :
    entries b = l := by
  unfold entries
  rw [hcount, Int.toNat_natCast]
  exact stored_iff_map_range.mp h

theorem Sound.slot (h : Sound b) {k : ℕ} (hk : (k : ℤ) < b.historyCount) :
    IsFile (b.history k) ∧ (b.history k).length < 512 :=
  h.entry _ (List.mem_map_of_mem (List.mem_range.mpr (by omega)))

/-! ### A new entry -/

/-- URLs that are passed to `browser_navigate`. -/
def Valid (b : State) : Url → Prop
  | .text u => u.length < 512
  | .slot i => 0 ≤ i ∧ i < b.historyCount

/-- The URL when `browser_navigate` is called. -/
def target (b : State) : Url → CStr
  | .text u => u
  | .slot i => b.history i.toNat

/-- The URL when it is added to the history. -/
def added (b : State) : Url → CStr
  | .text u => u
  | .slot i =>
    if b.historyCount < 16 then b.history i.toNat
    else if i.toNat < 15 then b.history (i.toNat + 1) else b.history i.toNat

theorem read_target (h : Sound b) (hurl : Valid b url) :
    url.read b.history = some (target b url) ∧ (target b url).length < 512 := by
  cases url with
  | text u => exact ⟨rfl, hurl⟩
  | slot i =>
    obtain ⟨k, rfl⟩ := Int.eq_ofNat_of_zero_le hurl.1
    have hk : (k : ℤ) < b.historyCount := hurl.2
    have hcount := h.count.2
    exact ⟨readAt_natCast (by omega), (h.slot hk).2⟩

theorem added_file (h : Sound b) (hurl : Valid b url) (hfile : IsFile (target b url)) :
    IsFile (added b url) ∧ (added b url).length < 512 := by
  cases url with
  | text u => exact ⟨hfile, hurl⟩
  | slot i =>
    obtain ⟨hlow, hhigh⟩ : 0 ≤ i ∧ i < b.historyCount := hurl
    have hcount := h.count
    rw [added]
    split_ifs with hroom hbelow
    · exact h.slot (k := i.toNat) (by omega)
    · exact h.slot (k := i.toNat + 1) (by omega)
    · exact h.slot (k := i.toNat) (by omega)

/-- A state with one entry more. -/
structure Added (b b' : State) (url : Url) : Prop where
  entries : entries b' = (entries b ++ [added b url]).rtake 16
  count : b'.historyCount = min 16 (b.historyCount + 1)
  index : b'.historyIndex = b'.historyCount - 1
  url : b'.currentUrl = b.currentUrl

theorem addToHistory_room (h : Sound b) (hurl : Valid b url) (hroom : b.historyCount < 16) :
    ∃ b', addToHistory b url = some b' ∧ Added b b' url := by
  obtain ⟨hread, hshort⟩ := read_target h hurl
  have hlen := length_entries b
  have hcount : b.historyCount = (entries b).length := by
    have := h.count.1
    omega
  have hsame : added b url = target b url := by
    cases url with
    | text u => rfl
    | slot i => exact if_pos hroom
  have hcopy : copyTo 16 512 b.history b.historyCount (target b url) =
      some (Function.update b.history (entries b).length (added b url)) := by
    rw [hcount, hsame]
    exact copyTo_natCast hshort (by omega)
  unfold addToHistory
  rw [if_pos hroom, hread]
  simp only [Option.bind_eq_bind, Option.bind_some, hcopy]
  refine ⟨_, rfl, entries_eq (stored_snoc (stored_entries b) (by omega)) ?_, ?_, rfl, rfl⟩
  · rw [length_rtake_snoc]
    dsimp only
    omega
  · dsimp only
    omega

theorem addToHistory_full (h : Sound b) (hurl : Valid b url) (hfile : IsFile (target b url))
    (hfull : b.historyCount = 16) :
    ∃ b', addToHistory b url = some b' ∧ Added b b' url := by
  have hlen : (entries b).length = 15 + 1 := by
    rw [length_entries, hfull]
    rfl
  obtain ⟨h', hshift, hmoved⟩ : ∃ h', shiftDown 16 512 b.history = some h' ∧ _ :=
    shiftDown_eq fun k hk => (h.slot (by omega)).2
  -- the pointer is followed into the history with the entries moved
  have hread : url.read h' = some (added b url) := by
    cases url with
    | text u => rfl
    | slot i =>
      obtain ⟨k, rfl⟩ := Int.eq_ofNat_of_zero_le hurl.1
      have hk : (k : ℤ) < b.historyCount := hurl.2
      rw [added, if_neg (by omega), Int.toNat_natCast, ← hmoved]
      exact readAt_natCast (by omega)
  have hcopy : copyTo 16 512 h' 15 (added b url) =
      some (Function.update h' 15 (added b url)) :=
    copyTo_natCast (n := 15) (added_file h hurl hfile).2 (by omega)
  unfold addToHistory
  rw [if_neg (by omega), hshift]
  simp only [Option.bind_eq_bind, Option.bind_some, hread, hcopy]
  refine ⟨_, rfl, entries_eq (stored_shift (stored_entries b) hlen hmoved) ?_, ?_, ?_, rfl⟩
  · rw [length_rtake_snoc]
    dsimp only
    omega
  · dsimp only
    omega
  · dsimp only
    omega

theorem addToHistory_added (h : Sound b) (hurl : Valid b url) (hfile : IsFile (target b url)) :
    ∃ b', addToHistory b url = some b' ∧ Added b b' url := by
  by_cases hroom : b.historyCount < 16
  · exact addToHistory_room h hurl hroom
  · exact addToHistory_full h hurl hfile (le_antisymm h.count.2 (not_lt.mp hroom))

theorem Added.sound (ha : Added b b' url) (h : Sound b) (hurl : Valid b url)
    (hfile : IsFile (target b url)) : Sound b' := by
  obtain ⟨hlow, hhigh⟩ := h.count
  have hcount := ha.count
  have hindex := ha.index
  refine ⟨⟨by omega, by omega⟩, ⟨by omega, by omega⟩, fun u hu => ?_⟩
  rw [ha.entries] at hu
  rcases List.mem_append.mp (List.mem_of_mem_drop hu) with hu | hu
  · exact h.entry u hu
  · rw [List.mem_singleton.mp hu]
    exact added_file h hurl hfile

/-! ### Navigating -/

/-- The fields that the history does not depend on. -/
structure SameHistory (b b' : State) : Prop where
  history : b'.history = b.history
  index : b'.historyIndex = b.historyIndex
  count : b'.historyCount = b.historyCount

theorem SameHistory.entries (h : SameHistory b b') : entries b' = entries b := by
  unfold History.entries
  rw [h.history, h.count]

theorem SameHistory.sound (hs : SameHistory b b') (h : Sound b) : Sound b' :=
  ⟨by rw [hs.count]; exact h.count, by rw [hs.index, hs.count]; exact h.index,
    by rw [hs.entries]; exact h.entry⟩

theorem setUrl_eq (h : u.length < 512) (b : State) :
    State.setUrl b u = some { b with currentUrl := u } := if_pos h

theorem navigate_missing (h : Sound s.browser) (hurl : Valid s.browser url)
    (hfile : IsFile (target s.browser url)) (hload : ¬ Loads s.vfs (target s.browser url)) :
    ∃ s', browserNavigate s url = some (s', -1) ∧ SameHistory s.browser s'.browser ∧
      s'.browser.currentUrl = target s.browser url := by
  obtain ⟨hread, hshort⟩ := read_target h hurl
  obtain ⟨hblank, hhelp, hversion⟩ := hfile.not_about
  have hpage : loadPage s.vfs (filePath (target s.browser url)) =
      ((loadPage s.vfs (filePath (target s.browser url))).1, none) :=
    Prod.ext rfl (Option.not_isSome_iff_eq_none.mp hload)
  unfold browserNavigate
  simp only [hread, Option.bind_eq_bind, Option.bind_some, setUrl_eq hshort]
  rw [if_neg hblank, if_neg hhelp, if_neg hversion, if_pos hfile, hpage]
  exact ⟨_, rfl, ⟨rfl, rfl, rfl⟩, rfl⟩

theorem navigate_loaded (h : Sound s.browser) (hurl : Valid s.browser url)
    (hfile : IsFile (target s.browser url)) (hload : Loads s.vfs (target s.browser url)) :
    ∃ s', browserNavigate s url = some (s', 0) ∧ Sound s'.browser ∧
      s'.browser.currentUrl = target s.browser url ∧
      entries s'.browser = (entries s.browser ++ [added s.browser url]).rtake 16 ∧
      s'.browser.historyCount = min 16 (s.browser.historyCount + 1) ∧
      s'.browser.historyIndex = s'.browser.historyCount - 1 := by
  obtain ⟨hread, hshort⟩ := read_target h hurl
  obtain ⟨hblank, hhelp, hversion⟩ := hfile.not_about
  obtain ⟨bytes, hbytes⟩ := Option.isSome_iff_exists.mp hload
  have hpage : loadPage s.vfs (filePath (target s.browser url)) =
      ((loadPage s.vfs (filePath (target s.browser url))).1, some bytes) :=
    Prod.ext rfl hbytes
  have hsame : SameHistory s.browser
      { s.browser with
        currentUrl := target s.browser url, pageContent := bytes, statusCode := 200,
        scrollOffset := 0, statusMessage := cstr "Loaded" } := ⟨rfl, rfl, rfl⟩
  have hsound := hsame.sound h
  obtain ⟨b', hadd, ha⟩ : ∃ b', addToHistory _ url = some b' ∧ _ :=
    addToHistory_added hsound hurl hfile
  unfold browserNavigate
  simp only [hread, Option.bind_eq_bind, Option.bind_some, setUrl_eq hshort]
  rw [if_neg hblank, if_neg hhelp, if_neg hversion, if_pos hfile, hpage]
  simp only [hadd, Option.bind_some]
  exact ⟨_, rfl, ha.sound hsound hurl hfile, ha.url, ha.entries, ha.count, ha.index⟩

theorem navigate_shows (h : Sound s.browser) (hurl : Valid s.browser url) :
    ∃ s' r, browserNavigate s url = some (s', r) ∧ Sound s'.browser ∧
      s'.browser.currentUrl = target s.browser url := by
  by_cases hfile : IsFile (target s.browser url)
  · by_cases hload : Loads s.vfs (target s.browser url)
    · obtain ⟨s', hs', hsound, hshown, -⟩ := navigate_loaded h hurl hfile hload
      exact ⟨s', 0, hs', hsound, hshown⟩
    · obtain ⟨s', hs', hsame, hshown⟩ := navigate_missing h hurl hfile hload
      exact ⟨s', -1, hs', hsame.sound h, hshown⟩
  · obtain ⟨hread, hshort⟩ := read_target h hurl
    unfold browserNavigate
    simp only [hread, Option.bind_eq_bind, Option.bind_some, setUrl_eq hshort]
    split_ifs
    all_goals exact ⟨_, _, rfl, SameHistory.sound (b := s.browser) ⟨rfl, rfl, rfl⟩ h, rfl⟩

/-! ### Runs -/

inductive Op
  | navigate (url : CStr)
  | back
  | forward
  | vfs (op : VOp)

def step (s : Session) : Op → Option Session
  | .navigate url => (browserNavigate s (.text url)).map Prod.fst
  | .back => (browserBack s).map Prod.fst
  | .forward => (browserForward s).map Prod.fst
  | .vfs op => some ⟨s.browser, vstep s.vfs op⟩

def Short (_ : Session) : Op → Prop
  | .navigate url => url.length < 512
  | _ => True

instance (s : Session) : ∀ op, Decidable (Short s op)
  | .navigate _ => inferInstanceAs (Decidable (_ < _))
  | .back | .forward | .vfs _ => isTrue trivial

theorem back_eq (h : 0 < s.browser.historyIndex) {s' : Session} {r : ℤ}
    (hnav : browserNavigate ⟨{ s.browser with historyIndex := s.browser.historyIndex - 1 }, s.vfs⟩
      (.slot (s.browser.historyIndex - 1)) = some (s', r)) :
    browserBack s = some (s', 0) := by
  unfold browserBack
  rw [if_pos h]
  simp only [hnav, Option.bind_eq_bind, Option.bind_some]
  rfl

theorem forward_eq (h : s.browser.historyIndex < s.browser.historyCount - 1) {s' : Session} {r : ℤ}
    (hnav : browserNavigate ⟨{ s.browser with historyIndex := s.browser.historyIndex + 1 }, s.vfs⟩
      (.slot (s.browser.historyIndex + 1)) = some (s', r)) :
    browserForward s = some (s', 0) := by
  unfold browserForward
  rw [if_pos h]
  simp only [hnav, Option.bind_eq_bind, Option.bind_some]
  rfl

theorem Sound.moved (h : Sound b) {i : ℤ} (hi : 0 ≤ i ∧ i < b.historyCount) :
    Sound { b with historyIndex := i } ∧ Valid { b with historyIndex := i } (.slot i) :=
  ⟨⟨h.count, ⟨by dsimp only; omega, hi.2⟩, h.entry⟩, hi⟩

theorem forward_shows (h : Sound s.browser)
    (hlast : s.browser.historyIndex < s.browser.historyCount - 1) :
    ∃ s', browserForward s = some (s', 0) ∧ Sound s'.browser ∧
      s'.browser.currentUrl = s.browser.history (s.browser.historyIndex + 1).toNat := by
  obtain ⟨hlow, -⟩ := h.index
  obtain ⟨hsound, hvalid⟩ := h.moved (i := s.browser.historyIndex + 1) ⟨by omega, by omega⟩
  obtain ⟨s', r, hnav, hsound', hshown⟩ := navigate_shows (s := ⟨_, s.vfs⟩) hsound hvalid
  exact ⟨s', forward_eq hlast hnav, hsound', hshown⟩

theorem step_sound (h : Sound s.browser) (op : Op) (hop : Short s op) :
    ∃ s', step s op = some s' ∧ Sound s'.browser := by
  cases op with
  | navigate url =>
    have hurl : Valid s.browser (.text url) := hop
    obtain ⟨s', r, hnav, hsound, -⟩ := navigate_shows h hurl
    exact ⟨s', by rw [step, hnav]; rfl, hsound⟩
  | back =>
    by_cases hpos : 0 < s.browser.historyIndex
    · obtain ⟨-, hhigh⟩ := h.index
      obtain ⟨hsound, hvalid⟩ := h.moved (i := s.browser.historyIndex - 1) ⟨by omega, by omega⟩
      obtain ⟨s', r, hnav, hsound', -⟩ := navigate_shows (s := ⟨_, s.vfs⟩) hsound hvalid
      exact ⟨s', by rw [step, back_eq hpos hnav]; rfl, hsound'⟩
    · exact ⟨s, by rw [step, browserBack, if_neg hpos]; rfl, h⟩
  | forward =>
    by_cases hlast : s.browser.historyIndex < s.browser.historyCount - 1
    · obtain ⟨s', hforward, hsound, -⟩ := forward_shows h hlast
      exact ⟨s', by rw [step, hforward]; rfl, hsound⟩
    · exact ⟨s, by rw [step, browserForward, if_neg hlast]; rfl, h⟩
  | vfs op => exact ⟨_, rfl, h⟩

/-! ### Going back -/

/-- Going back keeps the entries, lowers the index and shows the entry there, and going forward
after it shows `url`. -/
def BackThenForward (s : Session) (url : CStr) : Prop :=
  ∃ s₁ s₂, browserBack s = some (s₁, 0) ∧
    entries s₁.browser = entries s.browser ∧
    s₁.browser.historyIndex = s.browser.historyIndex - 1 ∧
    s₁.browser.currentUrl = s.browser.history s₁.browser.historyIndex.toNat ∧
    browserForward s₁ = some (s₂, 0) ∧
    s₂.browser.currentUrl = url

/-- **What going back should be**: going forward shows what was shown before. -/
def Law (s : Session) : Prop := BackThenForward s s.browser.currentUrl

/-- What going back is if the page loads. -/
structure Readded (s s' : Session) : Prop where
  entries : entries s'.browser = (entries s.browser ++
    [if s.browser.historyCount < 16 then s.browser.history (s.browser.historyIndex - 1).toNat
      else s.browser.history s.browser.historyIndex.toNat]).rtake 16
  index : s'.browser.historyIndex = s'.browser.historyCount - 1
  count : s'.browser.historyCount = min 16 (s.browser.historyCount + 1)
  url : s'.browser.currentUrl = s.browser.history (s.browser.historyIndex - 1).toNat
  forward : browserForward s' = some (s', -1)

theorem BackThenForward.unique {url url' : CStr} (h : BackThenForward s url)
    (h' : BackThenForward s url') : url = url' := by
  obtain ⟨s₁, s₂, hback, -, -, -, hforward, rfl⟩ := h
  obtain ⟨t₁, t₂, hback', -, -, -, hforward', rfl⟩ := h'
  rw [hback] at hback'
  cases hback'
  rw [hforward] at hforward'
  cases hforward'
  rfl

section Back
variable (h : Sound s.browser) (hpos : 0 < s.browser.historyIndex)
include h hpos

theorem back_loaded (hload : Loads s.vfs (s.browser.history (s.browser.historyIndex - 1).toNat)) :
    ∃ s', browserBack s = some (s', 0) ∧ Readded s s' := by
  obtain ⟨-, hhigh⟩ := h.index
  have hcount := h.count.2
  obtain ⟨hsound, hvalid⟩ := h.moved (i := s.browser.historyIndex - 1) ⟨by omega, by omega⟩
  have hfile := (h.slot (k := (s.browser.historyIndex - 1).toNat) (by omega)).1
  obtain ⟨s', hnav, -, hshown, hentries, hcount', hindex'⟩ :=
    navigate_loaded (s := ⟨_, s.vfs⟩) hsound hvalid hfile hload
  refine ⟨s', back_eq hpos hnav, ⟨?_, hindex', hcount', hshown, ?_⟩⟩
  · have hnext : (s.browser.historyIndex - 1).toNat + 1 = s.browser.historyIndex.toNat := by omega
    have hbelow : (s.browser.historyIndex - 1).toNat < 15 := by omega
    rw [hentries, added, if_pos hbelow, hnext]
    rfl
  · unfold browserForward
    rw [if_neg (by omega)]
    rfl

theorem back_missing
    (hload : ¬ Loads s.vfs (s.browser.history (s.browser.historyIndex - 1).toNat)) :
    BackThenForward s (s.browser.history s.browser.historyIndex.toNat) := by
  obtain ⟨-, hhigh⟩ := h.index
  obtain ⟨hsound, hvalid⟩ := h.moved (i := s.browser.historyIndex - 1) ⟨by omega, by omega⟩
  have hfile := (h.slot (k := (s.browser.historyIndex - 1).toNat) (by omega)).1
  obtain ⟨s₁, hnav, hsame, hshown⟩ :=
    navigate_missing (s := ⟨_, s.vfs⟩) hsound hvalid hfile hload
  have hindex : s₁.browser.historyIndex = s.browser.historyIndex - 1 := hsame.index
  have hcount : s₁.browser.historyCount = s.browser.historyCount := hsame.count
  obtain ⟨s₂, hforward, -, hshown₂⟩ := forward_shows (hsame.sound hsound) (by omega)
  refine ⟨s₁, s₂, back_eq hpos hnav, hsame.entries, hindex, ?_, hforward, ?_⟩
  · rw [hindex]
    exact hshown
  · rw [hshown₂, hindex, sub_add_cancel, hsame.history]

theorem law_iff : Law s ↔
    ¬ Loads s.vfs (s.browser.history (s.browser.historyIndex - 1).toNat) ∧
      s.browser.currentUrl = s.browser.history s.browser.historyIndex.toNat := by
  constructor
  · intro hlaw
    have hload : ¬ Loads s.vfs (s.browser.history (s.browser.historyIndex - 1).toNat) := by
      -- otherwise there is nothing to go forward to
      intro hload
      obtain ⟨s₁, s₂, hback, -, -, -, hforward, -⟩ := hlaw
      obtain ⟨s', hback', hre⟩ := back_loaded h hpos hload
      obtain rfl : s₁ = s' := by
        rw [hback] at hback'
        cases hback'
        rfl
      rw [hre.forward] at hforward
      cases hforward
    exact ⟨hload, hlaw.unique (back_missing h hpos hload)⟩
  · rintro ⟨hload, hurl⟩
    unfold Law
    rw [hurl]
    exact back_missing h hpos hload

end Back

/-- **Back and forward in every run.** The browser starts with any file system, and the files can be
changed between the calls. Every call returns, and the counters stay in bounds. A successful
`browser_back` is what it should be exactly if the page of the entry before the index does not load
and the URL shown is the entry at the index. If the page loads, a new entry is added, with the index
at it and nothing behind it; in a full history that is not the URL shown, but the entry behind it.
-/
theorem back_law (b : State) (v : VState) {st : Option Session}
    (h : Reach (Lifted Short) (lift step) (some ⟨browserInit b, v⟩) st) :
    ∃ s, st = some s ∧
      (-1 ≤ s.browser.historyIndex ∧ s.browser.historyIndex < s.browser.historyCount ∧
        s.browser.historyCount ≤ 16) ∧
      (0 < s.browser.historyIndex →
        (Law s ↔
          ¬ Loads s.vfs (s.browser.history (s.browser.historyIndex - 1).toNat) ∧
            s.browser.currentUrl = s.browser.history s.browser.historyIndex.toNat) ∧
        (Loads s.vfs (s.browser.history (s.browser.historyIndex - 1).toNat) →
          ∃ s', browserBack s = some (s', 0) ∧ Readded s s')) := by
  have hstart : Sound (browserInit b) :=
    ⟨⟨le_rfl, Int.zero_le_ofNat 16⟩, ⟨le_rfl, neg_one_lt_zero⟩, fun u hu => absurd hu nofun⟩
  obtain ⟨s, rfl, hs⟩ := h.returns (I := fun s => Sound s.browser) ⟨_, rfl, hstart⟩
    fun s op hs hop => step_sound hs op hop
  exact ⟨s, rfl, ⟨hs.index.1, hs.index.2, hs.count.2⟩, fun hpos =>
    ⟨law_iff hs hpos, back_loaded hs hpos⟩⟩

def files : VState := (making (cstr "a") [104] ++ making (cstr "b") [105]).foldl vstep vfsInit

def fresh : State := ⟨[], [], .unknown, 0, 0, fun _ => [], 0, 0, []⟩

def removed : List Op :=
  [.navigate (cstr "file:///a"), .navigate (cstr "file:///b"), .vfs (.unlink (cstr "/a"))]

def returned : List Op := [.navigate (cstr "file:///a"), .navigate (cstr "file:///b"), .back]

/-- 15 times `/a`, then `/b`, and back. -/
def returnedFull : List Op :=
  List.replicate 15 (.navigate (cstr "file:///a")) ++ [.navigate (cstr "file:///b"), .back]

theorem back_law_removed :
    ∃ s, removed.foldl (lift step) (some ⟨browserInit fresh, files⟩) = some s ∧
      0 < s.browser.historyIndex ∧ Law s := by
  have hadmits : Admits (Lifted Short) (lift step) (some ⟨browserInit fresh, files⟩) removed := by
    decide +kernel
  have hfacts :
      (removed.foldl (lift step) (some ⟨browserInit fresh, files⟩)).all (fun s : Session =>
        decide (0 < s.browser.historyIndex ∧
          ¬ Loads s.vfs (s.browser.history (s.browser.historyIndex - 1).toNat) ∧
          s.browser.currentUrl = s.browser.history s.browser.historyIndex.toNat)) = true := by
    decide +kernel
  obtain ⟨s, hs, -, hlaw⟩ := back_law fresh files (Reach.foldl removed .init hadmits)
  rw [hs, Option.all_some, decide_eq_true_iff] at hfacts
  exact ⟨s, hs, hfacts.1, (hlaw hfacts.1).1.mpr hfacts.2⟩

/-- **Back to a page that is there.** The entries are `/a`, `/b`, `/a` with the index at the last
one. In the full history `/a` is shown with the index at `/b`. -/
theorem back_adds :
    ((returned.foldl (lift step) (some ⟨browserInit fresh, files⟩)).map fun s =>
        (entries s.browser, s.browser.historyIndex, (browserForward s).map Prod.snd)) =
      some ([cstr "file:///a", cstr "file:///b", cstr "file:///a"], 2, some (-1)) ∧
    ((returnedFull.foldl (lift step) (some ⟨browserInit fresh, files⟩)).map fun s =>
        (s.browser.currentUrl, s.browser.historyIndex, s.browser.history 15)) =
      some (cstr "file:///a", 15, cstr "file:///b") := by
  constructor <;> decide +kernel

end Kerneloid.Browser.History
