import Kerneloid.Lib.Linked
import Kerneloid.Lib.Runs
import Kerneloid.XnuMemory.Types

/-! # The physical page manager

`pmap_init`, `pmap_alloc_page` and `pmap_free_page` of `xnu_memory.c`. The free frames are kept
three times: as flags of the page descriptors, as a stack, and as a list linked through the
descriptors. A descriptor pointer is the number of its frame. Whether the two allocations of
`pmap_init` succeed is an argument; the two arrays they give are kept as functions.

In every run the linked list is the stack read from its top (`Free`). So the frame taken from the
stack is always the head of the list, and the loop that unlinks a frame further down never runs. -/

namespace Kerneloid.XnuMemory.Pmap

open Lib.Linked Lib.Runs Types

structure PhysPage where
  frameNumber : ℕ
  refCount : ℕ
  isFree : Bool
  isWired : Bool
  next : Option ℕ

structure PhysMem where
  initialized : Bool
  totalPages : ℕ
  freePages : ℕ
  pages : ℕ → PhysPage
  freeList : Option ℕ
  stack : ℕ → ℕ
  stackTop : ℕ
  stackCap : ℕ

def pmapMaxPages : ℕ := 16384

/-! ### The functions -/

def PhysMem.setPage (p : PhysMem) (f : ℕ) (pg : PhysPage) : PhysMem :=
  { p with pages := Function.update p.pages f pg }

/-- A frame pushed on the stack and counted. -/
def pushFrame (p : PhysMem) (f : ℕ) : PhysMem :=
  { p with
    stack := Function.update p.stack p.stackTop f
    stackTop := p.stackTop + 1
    freePages := p.freePages + 1 }

/-- A frame put at the head of the linked list. -/
def linkFrame (p : PhysMem) (f : ℕ) : PhysMem :=
  { p.setPage f { p.pages f with next := p.freeList } with freeList := some f }

/-- The descriptors as the first loop of `pmap_init` sets them; frame 0 is reserved. -/
def freshPage (i : ℕ) : PhysPage := ⟨i, 0, i ≠ 0, false, none⟩

/-- The frames `1 .. total - 1`. -/
def usable (total : ℕ) : List ℕ := List.range' 1 (total - 1)

/-- The first loop of `pmap_init`, for the descriptors. -/
def describe (p : PhysMem) : PhysMem :=
  { p with pages := fun i => if i < p.totalPages then freshPage i else p.pages i }

/-- The loops of `pmap_init`, once it has its two arrays: the descriptors, the stack, the list. -/
def buildFree (p : PhysMem) : PhysMem :=
  let q := (usable p.totalPages).foldl pushFrame { describe p with stackTop := 0 }
  (usable p.totalPages).foldl linkFrame { q with freeList := none }

/-- `pmap_init`; `gotPages` and `gotStack` say whether its two allocations succeed. -/
def pmapInit (p : PhysMem) (memSize : ℕ) (gotPages gotStack : Bool) : PhysMem × KernReturn :=
  if p.initialized then (p, .success)
  else if memSize = 0 then (p, .invalidArgument)
  else if memSize / pageSize = 0 then
    ({ p with totalPages := memSize / pageSize }, .invalidArgument)
  else
    let total := min (memSize / pageSize) pmapMaxPages
    let p := { p with totalPages := total, freePages := 0, freeList := none }
    if gotPages = false then (p, .resourceShortage)
    else if gotStack = false then ({ p with stackCap := total }, .resourceShortage)
    else ({ buildFree { p with stackCap := total } with initialized := true }, .success)

/-- The ways `pmap_alloc_page` ends. All but the last return `0xFFFFFFFF`. -/
inductive AllocResult
  | uninitialized
  | empty
  | outOfRange
  | notFree
  | frame (f : ℕ)
  deriving DecidableEq

/-- The end of `pmap_alloc_page`: frame `f` is taken out of the linked list, from its head or by the
loop that looks for the descriptor before it. -/
def unlinkFrame (p : PhysMem) (f : ℕ) : Option PhysMem :=
  if p.freeList = some f then some { p with freeList := (p.pages f).next }
  else
    (scan (fun x => (p.pages x).next) (fun x => (p.pages x).next = some f) p.totalPages
      p.freeList).map fun
      | none => p
      | some cur => p.setPage cur { p.pages cur with next := (p.pages f).next }

/-- `pmap_alloc_page`; `none` if the loop goes round in a circle. -/
def pmapAllocPage (p : PhysMem) : Option (PhysMem × AllocResult) :=
  if p.initialized = false then some (p, .uninitialized)
  else if p.freePages = 0 ∨ p.stackTop = 0 then some (p, .empty)
  else
    let p := { p with stackTop := p.stackTop - 1 }
    let f := p.stack p.stackTop
    if p.totalPages ≤ f then some (p, .outOfRange)
    else if (p.pages f).isFree = false then some (p, .notFree)
    else
      (unlinkFrame (p.setPage f { p.pages f with isFree := false, refCount := 1 }) f).map fun p =>
        ({ p.setPage f { p.pages f with next := none } with freePages := p.freePages - 1 }, .frame f)

def pmapFreePage (p : PhysMem) (frame : ℕ) : PhysMem × KernReturn :=
  if p.initialized = false then (p, .invalidArgument)
  else if p.totalPages ≤ frame then (p, .invalidArgument)
  else if frame = 0 then (p, .invalidArgument)
  else if (p.pages frame).isFree then (p, .invalidArgument)
  else
    let p := p.setPage frame { p.pages frame with isFree := true, refCount := 0 }
    if p.stackCap ≤ p.stackTop then (p, .failure) else (linkFrame (pushFrame p frame) frame, .success)

/-! ### The system -/

/-- The manager, and the frames that `pmap_alloc_page` returned and that are not yet freed. -/
structure Tracked where
  mem : PhysMem
  held : List ℕ

inductive Op
  | alloc
  | free (frame : ℕ)
  deriving DecidableEq

def track (t : Tracked) : Op → Option Tracked
  | .alloc =>
    (pmapAllocPage t.mem).map fun
      | (p, .frame f) => ⟨p, f :: t.held⟩
      | (p, _) => ⟨p, t.held⟩
  | .free frame =>
    match pmapFreePage t.mem frame with
    | (p, .success) => some ⟨p, t.held.erase frame⟩
    | (p, _) => some ⟨p, t.held⟩

/-! ### The three representations -/

/-- The frames on the stack, from the bottom. -/
def stackFrames (p : PhysMem) : List ℕ := (List.range p.stackTop).map p.stack

/-- The frames on the linked list, from its end, if it has one. -/
def listFrames (p : PhysMem) : Option (List ℕ) :=
  fold (fun x => (p.pages x).next) (fun l x => x :: l) p.totalPages p.freeList []

variable {p : PhysMem} {t : Tracked} {l : List ℕ} {f : ℕ}

/-- **The free frames** `l`, from the top of the stack. -/
structure Free (p : PhysMem) (l : List ℕ) : Prop where
  nodup : l.Nodup
  stack : stackFrames p = l.reverse
  list : Path (fun x => (p.pages x).next) p.freeList l
  flag : ∀ f, f ∈ l ↔ f < p.totalPages ∧ (p.pages f).isFree = true
  zero : 0 ∉ l
  count : p.freePages = p.stackTop

theorem Free.not_mem (h : Free p l) (hused : (p.pages f).isFree = false) : f ∉ l := by
  intro hm
  have hfree := ((h.flag f).mp hm).2
  rw [hused] at hfree
  exact Bool.false_ne_true hfree

theorem Free.length (h : Free p l) : p.stackTop = l.length := by
  have := congrArg List.length h.stack
  simpa [stackFrames] using this

theorem Free.length_lt (h : Free p l) {f : ℕ} (hlt : f < p.totalPages)
    (hf : (p.pages f).isFree = false) : l.length < p.totalPages := by
  have hsub : (f :: l) ⊆ List.range p.totalPages := by
    intro x hx
    rw [List.mem_range]
    rcases List.mem_cons.mp hx with rfl | hx
    · exact hlt
    · exact ((h.flag x).mp hx).1
  have := (List.nodup_cons.mpr ⟨h.not_mem hf, h.nodup⟩).subperm hsub |>.length_le
  rw [List.length_cons, List.length_range] at this
  omega

theorem stackFrames_push (p : PhysMem) (f : ℕ) :
    stackFrames (pushFrame p f) = stackFrames p ++ [f] := by
  unfold stackFrames pushFrame
  rw [List.range_succ, List.map_append]
  congr 1
  · refine List.map_congr_left fun i hi => ?_
    exact Function.update_of_ne (List.mem_range.mp hi).ne _ _
  · simp

theorem path_link (h : Path (fun x => (p.pages x).next) p.freeList l) (hf : f ∉ l) :
    Path (fun x => ((linkFrame p f).pages x).next) (linkFrame p f).freeList (f :: l) := by
  refine (h.push hf).congr fun x _ => ?_
  by_cases hx : x = f
  · subst hx
    simp [linkFrame, PhysMem.setPage]
  · simp [linkFrame, PhysMem.setPage, hx]

/-! ### Allocation -/

/-- The state after frame `f` was taken from the top of the stack and the head of the list. -/
def takenState (p : PhysMem) (f : ℕ) : PhysMem :=
  { p with
    stackTop := p.stackTop - 1
    pages := Function.update p.pages f { p.pages f with isFree := false, refCount := 1, next := none }
    freeList := (p.pages f).next
    freePages := p.freePages - 1 }

theorem Free.stack_top (h : Free p (f :: l)) :
    p.stackTop = l.length + 1 ∧ p.stack l.length = f ∧
      (List.range l.length).map p.stack = l.reverse := by
  have htop : p.stackTop = l.length + 1 := h.length
  have hstack := h.stack
  unfold stackFrames at hstack
  rw [htop, List.range_succ, List.map_append, List.reverse_cons] at hstack
  obtain ⟨hrest, hlast⟩ := List.append_inj' hstack rfl
  exact ⟨htop, by simpa using hlast, hrest⟩

theorem alloc_empty (hi : p.initialized = true) (h : Free p []) :
    pmapAllocPage p = some (p, .empty) := by
  have htop : p.stackTop = 0 := h.length
  unfold pmapAllocPage
  rw [if_neg (by simp [hi]), if_pos (Or.inr htop)]

theorem unlinkFrame_head (h : p.freeList = some f) :
    unlinkFrame p f = some { p with freeList := (p.pages f).next } := if_pos h

theorem alloc_frame (hi : p.initialized = true) (h : Free p (f :: l)) :
    pmapAllocPage p = some (takenState p f, .frame f) := by
  obtain ⟨htop, hf, -⟩ := h.stack_top
  obtain ⟨hlt, hfree⟩ := (h.flag f).mp List.mem_cons_self
  have hhead : p.freeList = some f := h.list.head
  have hcount : ¬ (p.freePages = 0 ∨ p.stackTop = 0) := by
    have := h.count
    omega
  have hpop : p.stack (p.stackTop - 1) = f := by rw [htop]; exact hf
  unfold pmapAllocPage
  rw [if_neg (by simp [hi]), if_neg hcount]
  dsimp only
  rw [hpop, if_neg (by omega), if_neg (by simp [hfree])]
  rw [unlinkFrame_head]
  · simp [takenState, PhysMem.setPage]
  · exact hhead

theorem Free.taken (h : Free p (f :: l)) : Free (takenState p f) l := by
  obtain ⟨htop, -, hrest⟩ := h.stack_top
  obtain ⟨hf, hnodup⟩ := List.nodup_cons.mp h.nodup
  refine ⟨hnodup, ?_, ?_, fun x => ?_, fun hz => h.zero (List.mem_cons_of_mem f hz), ?_⟩
  · unfold stackFrames takenState
    rw [htop]
    exact hrest
  · refine h.list.tail.congr fun x hx => ?_
    have hne : x ≠ f := fun e => hf (e ▸ hx)
    simp [takenState, hne]
  · by_cases hx : x = f
    · subst hx
      simp [takenState, hf]
    · have hflag := h.flag x
      rw [List.mem_cons, or_iff_right hx] at hflag
      simpa [takenState, hx] using hflag
  · have := h.count
    unfold takenState
    dsimp only
    omega

/-! ### Freeing -/

/-- The state after frame `f` was freed. -/
def freedState (p : PhysMem) (f : ℕ) : PhysMem :=
  linkFrame (pushFrame (p.setPage f { p.pages f with isFree := true, refCount := 0 }) f) f

/-- **A page is freed or the call changes nothing**; in particular the stack always has room. -/
theorem free_cases (hi : p.initialized = true) (hcap : p.stackCap = p.totalPages) (h : Free p l)
    (frame : ℕ) :
    pmapFreePage p frame = (p, .invalidArgument) ∨
      (frame < p.totalPages ∧ frame ≠ 0 ∧ (p.pages frame).isFree = false ∧
        pmapFreePage p frame = (freedState p frame, .success)) := by
  unfold pmapFreePage
  rw [if_neg (by simp [hi])]
  split_ifs with hlt hzero hfree
  · exact Or.inl rfl
  · exact Or.inl rfl
  · exact Or.inl rfl
  · have hused : (p.pages frame).isFree = false := by simpa using hfree
    have hroom : ¬ p.stackCap ≤ p.stackTop := by
      have := h.length_lt (by omega) hused
      have := h.length
      omega
    refine Or.inr ⟨by omega, hzero, hused, ?_⟩
    dsimp only
    rw [if_neg]
    · rfl
    · exact hroom

theorem Free.freed (h : Free p l) (hlt : f < p.totalPages) (hzero : f ≠ 0)
    (hused : (p.pages f).isFree = false) : Free (freedState p f) (f :: l) := by
  have hf := h.not_mem hused
  refine ⟨List.nodup_cons.mpr ⟨hf, h.nodup⟩, ?_, ?_, fun x => ?_, ?_, ?_⟩
  · have hstack : stackFrames (freedState p f) =
        stackFrames (p.setPage f { p.pages f with isFree := true, refCount := 0 }) ++ [f] :=
      stackFrames_push _ f
    rw [hstack, List.reverse_cons, ← h.stack]
    rfl
  · refine path_link (h.list.congr fun x hx => ?_) hf
    have hne : x ≠ f := fun e => hf (e ▸ hx)
    simp [pushFrame, PhysMem.setPage, hne]
  · by_cases hx : x = f
    · subst hx
      simp [freedState, linkFrame, pushFrame, PhysMem.setPage, hlt]
    · rw [List.mem_cons, or_iff_right hx, h.flag x]
      simp [freedState, linkFrame, pushFrame, PhysMem.setPage, hx]
  · simp only [List.mem_cons, not_or]
    exact ⟨Ne.symm hzero, h.zero⟩
  · have := h.count
    simp [freedState, linkFrame, pushFrame, PhysMem.setPage, this]

/-! ### The start -/

theorem foldl_push : ∀ (fs : List ℕ) (p : PhysMem),
    fs.foldl pushFrame p = { p with
      stack := (fs.foldl pushFrame p).stack
      stackTop := p.stackTop + fs.length
      freePages := p.freePages + fs.length } ∧
    stackFrames (fs.foldl pushFrame p) = stackFrames p ++ fs
  | [], p => ⟨rfl, by simp⟩
  | f :: fs, p => by
    obtain ⟨hrest, hstack⟩ := foldl_push fs (pushFrame p f)
    refine ⟨?_, ?_⟩
    · rw [List.foldl_cons, hrest, List.length_cons]
      simp only [pushFrame, PhysMem.mk.injEq, true_and, and_true]
      omega
    · rw [List.foldl_cons, hstack, stackFrames_push, List.append_assoc]
      rfl

theorem foldl_link_rest : ∀ (fs : List ℕ) (p : PhysMem),
    fs.foldl linkFrame p = { p with
      pages := (fs.foldl linkFrame p).pages
      freeList := (fs.foldl linkFrame p).freeList } ∧
    ∀ x, ((fs.foldl linkFrame p).pages x).isFree = (p.pages x).isFree
  | [], p => ⟨rfl, fun _ => rfl⟩
  | f :: fs, p => by
    obtain ⟨hrest, hfree⟩ := foldl_link_rest fs (linkFrame p f)
    refine ⟨?_, fun x => (hfree x).trans ?_⟩
    · rw [List.foldl_cons, hrest]
      rfl
    · by_cases hx : x = f
      · subst hx
        simp [linkFrame, PhysMem.setPage]
      · simp [linkFrame, PhysMem.setPage, hx]

theorem mem_usable {total : ℕ} : f ∈ usable total ↔ f ≠ 0 ∧ f < total := by
  unfold usable
  rw [List.mem_range'_1]
  omega

/-- **The three representations at the start**: all frames but the reserved one are free. -/
theorem buildFree_free (h : p.freePages = 0) :
    Free (buildFree p) (usable p.totalPages).reverse ∧
      (buildFree p).totalPages = p.totalPages ∧ (buildFree p).stackCap = p.stackCap ∧
      ∀ f < p.totalPages, ((buildFree p).pages f).isFree = decide (f ≠ 0) := by
  obtain ⟨hq, hstack⟩ := foldl_push (usable p.totalPages) { describe p with stackTop := 0 }
  unfold buildFree
  dsimp only
  generalize (usable p.totalPages).foldl pushFrame _ = q at hq hstack ⊢
  have htop : q.stackTop = (usable p.totalPages).length :=
    (congrArg PhysMem.stackTop hq).trans (Nat.zero_add _)
  have hcount : q.freePages = p.freePages + (usable p.totalPages).length :=
    (congrArg PhysMem.freePages hq).trans rfl
  have hnodup : ((usable p.totalPages).reverse ++ []).Nodup := by
    rw [List.append_nil, List.nodup_reverse]
    exact List.nodup_range'
  have hlist := Path.foldl_push (fun (p : PhysMem) x => (p.pages x).next) PhysMem.freeList
    (fun _ _ _ => path_link) (usable p.totalPages) [] { q with freeList := none } .nil hnodup
  obtain ⟨hrest, hfree⟩ := foldl_link_rest (usable p.totalPages) { q with freeList := none }
  generalize (usable p.totalPages).foldl linkFrame _ = r at hlist hrest hfree ⊢
  have htotal : r.totalPages = p.totalPages :=
    (congrArg PhysMem.totalPages hrest).trans ((congrArg PhysMem.totalPages hq).trans rfl)
  have hflag : ∀ f < p.totalPages, (r.pages f).isFree = decide (f ≠ 0) := by
    intro f hf
    have hpages : q.pages f = (describe p).pages f := congrFun (congrArg PhysMem.pages hq) f
    rw [hfree f]
    dsimp only
    rw [hpages]
    simp [describe, hf, freshPage]
  rw [List.append_nil] at hnodup hlist
  have hcap : r.stackCap = p.stackCap :=
    (congrArg PhysMem.stackCap hrest).trans ((congrArg PhysMem.stackCap hq).trans rfl)
  refine ⟨⟨hnodup, ?_, hlist, fun f => ?_, ?_, ?_⟩, htotal, hcap, hflag⟩
  · have hsame : stackFrames r = stackFrames q := by
      rw [hrest]
      rfl
    rw [hsame, hstack, List.reverse_reverse]
    rfl
  · rw [List.mem_reverse, mem_usable, htotal]
    constructor
    · rintro ⟨h0, hlt⟩
      exact ⟨hlt, by simp [hflag f hlt, h0]⟩
    · rintro ⟨hlt, hf⟩
      rw [hflag f hlt] at hf
      exact ⟨by simpa using hf, hlt⟩
  · rw [List.mem_reverse, mem_usable]
    omega
  · have hrcount : r.freePages = q.freePages := (congrArg PhysMem.freePages hrest).trans rfl
    have hrtop : r.stackTop = q.stackTop := (congrArg PhysMem.stackTop hrest).trans rfl
    omega

/-! ### Runs -/

/-- **The invariant.** The frames handed out are those that are neither free nor reserved. -/
structure Managed (t : Tracked) : Prop where
  initialized : t.mem.initialized = true
  cap : t.mem.stackCap = t.mem.totalPages
  free : ∃ l, Free t.mem l
  nodup : t.held.Nodup
  held : ∀ f, f ∈ t.held ↔ f ≠ 0 ∧ f < t.mem.totalPages ∧ (t.mem.pages f).isFree = false

theorem managed_init {p₀ : PhysMem} {memSize : ℕ} {gotPages gotStack : Bool}
    (h0 : p₀.initialized = false) (h : pmapInit p₀ memSize gotPages gotStack = (p, .success)) :
    Managed ⟨p, []⟩ := by
  unfold pmapInit at h
  rw [if_neg (by simp [h0])] at h
  by_cases hsize : memSize = 0
  · rw [if_pos hsize] at h
    cases h
  rw [if_neg hsize] at h
  by_cases hpages : memSize / pageSize = 0
  · rw [if_pos hpages] at h
    cases h
  rw [if_neg hpages] at h
  cases gotPages with
  | false => cases h
  | true =>
    cases gotStack with
    | false => cases h
    | true =>
      dsimp only at h
      rw [if_neg (by simp), if_neg (by simp)] at h
      obtain ⟨rfl, -⟩ := Prod.mk.inj h
      obtain ⟨hfree, htotal, hcap, hflag⟩ := buildFree_free
        (p := { p₀ with
          totalPages := min (memSize / pageSize) pmapMaxPages
          freePages := 0
          freeList := none
          stackCap := min (memSize / pageSize) pmapMaxPages }) rfl
      generalize buildFree _ = q at hfree htotal hcap hflag ⊢
      dsimp only at hcap htotal hflag
      refine ⟨rfl, hcap.trans htotal.symm, ⟨_, hfree.nodup, hfree.stack, hfree.list, hfree.flag,
        hfree.zero, hfree.count⟩, List.nodup_nil, fun f => ?_⟩
      simp only [List.not_mem_nil, false_iff, not_and]
      intro hf hlt hused
      rw [hflag f (by omega)] at hused
      simp [hf] at hused

theorem Managed.alloc (h : Managed t) : ∃ t', track t .alloc = some t' ∧ Managed t' := by
  obtain ⟨l, hl⟩ := h.free
  cases l with
  | nil =>
    refine ⟨t, ?_, h⟩
    rw [track, alloc_empty h.initialized hl]
    rfl
  | cons f l =>
    refine ⟨⟨takenState t.mem f, f :: t.held⟩, ?_, h.initialized, h.cap, ⟨l, hl.taken⟩, ?_,
      fun x => ?_⟩
    · rw [track, alloc_frame h.initialized hl]
      rfl
    · refine List.nodup_cons.mpr ⟨fun hm => ?_, h.nodup⟩
      exact hl.not_mem ((h.held f).mp hm).2.2 List.mem_cons_self
    · by_cases hx : x = f
      · subst hx
        have hlt := ((hl.flag x).mp List.mem_cons_self).1
        have hne : x ≠ 0 := fun e => hl.zero (e ▸ List.mem_cons_self)
        simp [takenState, hne, hlt]
      · rw [List.mem_cons, or_iff_right hx, h.held x]
        simp [takenState, hx]

theorem Managed.freePage (h : Managed t) (frame : ℕ) :
    ∃ t', track t (.free frame) = some t' ∧ Managed t' := by
  obtain ⟨l, hl⟩ := h.free
  rw [track]
  rcases free_cases h.initialized h.cap hl frame with hbad | ⟨hlt, hzero, hused, hok⟩
  · rw [hbad]
    exact ⟨_, rfl, h⟩
  · rw [hok]
    refine ⟨_, rfl, h.initialized, h.cap, ⟨_, hl.freed hlt hzero hused⟩, h.nodup.erase frame,
      fun x => ?_⟩
    rw [h.nodup.mem_erase_iff, h.held x]
    by_cases hx : x = frame
    · subst hx
      simp [freedState, linkFrame, pushFrame, PhysMem.setPage]
    · simp [freedState, linkFrame, pushFrame, PhysMem.setPage, hx]

/-- **What the manager guarantees** in a state: the three representations hold the same frames, a
page is handed out only if it is not reserved and not handed out already, and the branches for
states that cannot be are not taken. -/
structure Guarantees (t : Tracked) : Prop where
  stack_nodup : (stackFrames t.mem).Nodup
  stack_free : ∀ f, f ∈ stackFrames t.mem ↔ f < t.mem.totalPages ∧ (t.mem.pages f).isFree = true
  list : ∃ l, listFrames t.mem = some l ∧ l.Nodup ∧ ∀ f, f ∈ l ↔ f ∈ stackFrames t.mem
  count : t.mem.freePages = t.mem.stackTop
  alloc : ∃ p r, pmapAllocPage t.mem = some (p, r) ∧
    (r = .empty ∨ ∃ f, r = .frame f ∧ f ≠ 0 ∧ f ∉ t.held)
  free : ∀ frame, (pmapFreePage t.mem frame).2 ≠ .failure

theorem Managed.guarantees (h : Managed t) : Guarantees t := by
  obtain ⟨l, hl⟩ := h.free
  have hmem : ∀ f, f ∈ stackFrames t.mem ↔ f ∈ l := fun f => by rw [hl.stack, List.mem_reverse]
  refine ⟨by rw [hl.stack]; exact List.nodup_reverse.mpr hl.nodup, fun f => ?_,
    ⟨l.reverse, ?_, List.nodup_reverse.mpr hl.nodup, fun f => by rw [hmem, List.mem_reverse]⟩,
    hl.count, ?_, fun frame => ?_⟩
  · rw [hmem, hl.flag]
  · have hle : l.length ≤ t.mem.totalPages := by
      have hsub : l ⊆ List.range t.mem.totalPages := fun x hx =>
        List.mem_range.mpr ((hl.flag x).mp hx).1
      simpa using (hl.nodup.subperm hsub).length_le
    unfold listFrames
    rw [hl.list.fold _ [] hle, List.foldl_flip_cons_eq_append', List.append_nil]
  · cases l with
    | nil => exact ⟨_, _, alloc_empty h.initialized hl, Or.inl rfl⟩
    | cons f l =>
      refine ⟨_, _, alloc_frame h.initialized hl, Or.inr ⟨f, rfl, ?_, fun hm => ?_⟩⟩
      · exact fun e => hl.zero (e ▸ List.mem_cons_self)
      · exact hl.not_mem ((h.held f).mp hm).2.2 List.mem_cons_self
  · rcases free_cases h.initialized h.cap hl frame with hbad | ⟨-, -, -, hok⟩
    · rw [hbad]
      exact KernReturn.noConfusion
    · rw [hok]
      exact KernReturn.noConfusion

/-- **The physical page manager.** After a successful `pmap_init`, in every run of `pmap_alloc_page`
and `pmap_free_page` with any frame numbers every call returns, and every state reached has the
guarantees. -/
theorem pmap_managed {p₀ p : PhysMem} {memSize : ℕ} {gotPages gotStack : Bool}
    (h0 : p₀.initialized = false) (hinit : pmapInit p₀ memSize gotPages gotStack = (p, .success))
    {st : Option Tracked} (h : Reach (Lifted Any) (lift track) (some ⟨p, []⟩) st) :
    ∃ t, st = some t ∧ Guarantees t := by
  obtain ⟨t, hst, ht⟩ := h.returns ⟨_, rfl, managed_init h0 hinit⟩ fun t op ht _ => by
    cases op with
    | alloc => exact ht.alloc
    | free frame => exact ht.freePage frame
  exact ⟨t, hst, ht.guarantees⟩

def unset : PhysMem := ⟨false, 0, 0, fun _ => ⟨0, 0, false, false, none⟩, none, fun _ => 0, 0, 0⟩

def four : Tracked := ⟨(pmapInit unset 16384 true true).1, []⟩

/-- Two frames are taken and the first of them is freed, twice; then all that are left are taken. -/
def fourFrames : List Op := [.alloc, .alloc, .free 3, .free 3, .free 0, .alloc, .alloc, .alloc]

theorem pmap_managed_four :
    ∃ t, fourFrames.foldl (lift track) (some four) = some t ∧ Guarantees t ∧ t.held = [1, 3, 2] := by
  have hinit : pmapInit unset 16384 true true = (four.mem, .success) := Prod.ext rfl (by decide +kernel)
  have hreach : Reach (Lifted Any) (lift track) (some ⟨four.mem, []⟩)
      (fourFrames.foldl (lift track) (some four)) :=
    Reach.foldl fourFrames .init (Admits.always fourFrames _ fun _ _ _ => trivial)
  obtain ⟨t, ht, hg⟩ := pmap_managed rfl hinit hreach
  have hheld : (fourFrames.foldl (lift track) (some four)).map Tracked.held = some [1, 3, 2] := by
    decide +kernel
  rw [ht] at hheld
  exact ⟨t, ht, hg, Option.some.inj hheld⟩

end Kerneloid.XnuMemory.Pmap
