import Kerneloid.XnuMemory.Heap
import Kerneloid.XnuMemory.Types
import Mathlib.Data.List.Sort

/-! # Virtual memory maps

`vm_map_init`, `vm_map_enter`, `vm_map_remove`, `vm_map_protect` and `vm_map_lookup` of
`xnu_memory.c`. The doubly linked entries are a list; `num_entries` is kept beside it. Addresses and
sizes have 32 bits, and sums of them are taken modulo `2 ^ 32`.

Each call of `kmalloc` may fail. `vm_map_enter` makes one and is told its outcome; the others are
told the outcomes of the calls they make one after the other, and those after the end of the list
succeed. Left out are the lock, the reference count and the flags `is_mapped` and `is_wired`, which
nothing reads. -/

namespace Kerneloid.XnuMemory.VmMaps

open XnuMemory.Heap (alignUp)
open Types

/-- `vm_map_entry_t`; `stop` is its `end`. -/
structure Entry where
  start : ℕ
  stop : ℕ
  protection : ℕ
  inheritance : ℕ
  deriving DecidableEq

structure VmMap where
  entries : List Entry
  numEntries : ℕ
  size : ℕ
  base : ℕ
  deriving DecidableEq

/-- `map->base + map->size`. -/
def VmMap.limit (m : VmMap) : ℕ := (m.base + m.size) % 2 ^ 32

def vmMapInit (base size : ℕ) : Option VmMap := if size = 0 then none else some ⟨[], 0, size, base⟩

/-! ### Entering -/

/-- The alignment asked for by a mask: `mask + 1`, or the page size if that is no power of two. The
test lets 0 pass, which `mask + 1` wraps to for a mask of ones. -/
def enterAlign (mask : ℕ) : ℕ :=
  let align := if mask ≠ 0 then (mask + 1) % 2 ^ 32 else pageSize
  if align &&& ((align + (2 ^ 32 - 1)) % 2 ^ 32) ≠ 0 then pageSize else align

/-- The first-fit search from `cur` on through the entries. -/
def firstFit (size align : ℕ) : List Entry → ℕ → ℕ
  | [], cur => cur
  | e :: es, cur =>
    if (cur + size) % 2 ^ 32 ≤ e.start then cur
    else firstFit size align es (if cur < e.stop then alignUp e.stop align else cur)

/-- The address at which `vm_map_enter` puts `size` bytes: where they fit first, or where they are
asked for. -/
def place (m : VmMap) (req size align : ℕ) (anywhere : Bool) : Except KernReturn ℕ :=
  if anywhere then
    let cur := firstFit size align m.entries (alignUp m.base align)
    if m.limit < (cur + size) % 2 ^ 32 then .error .noSpace else .ok cur
  else
    let a := alignUp req align
    if a < m.base ∨ m.limit < (a + size) % 2 ^ 32 then .error .invalidArgument
    else if m.entries.any fun e => ¬ ((a + size) % 2 ^ 32 ≤ e.start ∨ e.stop ≤ a) then
      .error .noSpace
    else .ok a

/-- Bit 0 of the flags, or an address of 0, asks for any place. -/
def wantsAnywhere (addr flags : ℕ) : Bool := addr = 0 ∨ flags &&& 1 ≠ 0

def insertEntry (m : VmMap) (e : Entry) : VmMap :=
  { m with
    entries := m.entries.orderedInsert (fun a b => a.start ≤ b.start) e
    numEntries := (m.numEntries + 1) % 2 ^ 32 }

/-- `vm_map_enter`, with the address it leaves in `*addr`. -/
def vmMapEnter (m : VmMap) (addr size mask flags prot inherit : ℕ) (got : Bool) :
    VmMap × KernReturn × ℕ :=
  if size = 0 then (m, .invalidArgument, addr)
  else
    let size := alignUp size pageSize
    if size = 0 then (m, .invalidArgument, addr)
    else
      match place m addr size (enterAlign mask) (wantsAnywhere addr flags) with
      | .error r => (m, r, addr)
      | .ok chosen =>
        if got = false then (m, .resourceShortage, addr)
        else
          (insertEntry m ⟨chosen, (chosen + size) % 2 ^ 32, prot, inherit⟩, .success, chosen)

/-! ### Removing and protecting -/

/-- The entries, their number and the result after a loop through the entries. -/
structure Pass where
  entries : List Entry
  count : ℕ
  result : KernReturn
  deriving DecidableEq

/-- Entries that the loop has already gone by. -/
def Pass.after (es : List Entry) (p : Pass) : Pass := { p with entries := es ++ p.entries }

/-- `num_entries` after one more and one less entry. -/
def countUp (n : ℕ) : ℕ := (n + 1) % 2 ^ 32
def countDown (n : ℕ) : ℕ := (n + (2 ^ 32 - 1)) % 2 ^ 32

/-- The loop of `vm_map_remove`; `n` is the number of entries, `mem` the outcomes of `kmalloc`. -/
def removeLoop (start stop : ℕ) : List Entry → ℕ → List Bool → Pass
  | [], n, _ => ⟨[], n, .success⟩
  | e :: es, n, mem =>
    if e.stop ≤ start ∨ stop ≤ e.start then (removeLoop start stop es n mem).after [e]
    else if start ≤ e.start ∧ e.stop ≤ stop then removeLoop start stop es (countDown n) mem
    else if e.start < start ∧ stop < e.stop then
      if mem.head? = some false then ⟨e :: es, n, .resourceShortage⟩
      else
        (removeLoop start stop es (countUp n) mem.tail).after
          [{ e with stop := start }, { e with start := stop }]
    else if start ≤ e.start then (removeLoop start stop es n mem).after [{ e with start := stop }]
    else (removeLoop start stop es n mem).after [{ e with stop := start }]

def vmMapRemove (m : VmMap) (start stop : ℕ) (mem : List Bool) : VmMap × KernReturn :=
  if stop ≤ start then (m, .invalidArgument)
  else if start < m.base ∨ m.limit < stop then (m, .invalidArgument)
  else
    let p := removeLoop start stop m.entries m.numEntries mem
    ({ m with entries := p.entries, numEntries := p.count }, p.result)

/-- The right end of an entry of `vm_map_protect` that starts inside the range: what sticks out is
split off. The part split off starts at `stop`, so the loop goes by it. -/
def protectRight (stop prot : ℕ) (e : Entry) (es : List Entry) (n : ℕ) (mem : List Bool)
    (rest : ℕ → List Bool → Pass) : Pass :=
  if stop < e.stop then
    if mem.head? = some false then ⟨e :: es, n, .resourceShortage⟩
    else
      (rest (countUp n) mem.tail).after
        [{ e with stop := stop, protection := prot }, { e with start := stop }]
  else (rest n mem).after [{ e with protection := prot }]

/-- The loop of `vm_map_protect`; `found` says whether an entry was met before. -/
def protectLoop (start stop prot : ℕ) : List Entry → ℕ → List Bool → Bool → Pass
  | [], n, _, found => ⟨[], n, if found then .success else .notFound⟩
  | e :: es, n, mem, found =>
    if e.stop ≤ start ∨ stop ≤ e.start then
      (protectLoop start stop prot es n mem found).after [e]
    else
      let rest := fun n mem => protectLoop start stop prot es n mem true
      if e.start < start then
        if mem.head? = some false then ⟨e :: es, n, .resourceShortage⟩
        else
          (protectRight stop prot { e with start := start } es (countUp n) mem.tail rest).after
            [{ e with stop := start }]
      else protectRight stop prot e es n mem rest

def vmMapProtect (m : VmMap) (start stop prot : ℕ) (mem : List Bool) : VmMap × KernReturn :=
  if stop ≤ start then (m, .invalidArgument)
  else
    let p := protectLoop start stop prot m.entries m.numEntries mem false
    ({ m with entries := p.entries, numEntries := p.count }, p.result)

def vmMapLookup (m : VmMap) (addr : ℕ) : Option Entry :=
  m.entries.find? fun e => e.start ≤ addr ∧ addr < e.stop

/-! ### The system -/

inductive Op
  | enter (addr size mask flags prot inherit : ℕ) (got : Bool)
  | remove (start stop : ℕ) (mem : List Bool)
  | protect (start stop prot : ℕ) (mem : List Bool)
  deriving DecidableEq

def step (m : VmMap) : Op → VmMap
  | .enter addr size mask flags prot inherit got =>
    (vmMapEnter m addr size mask flags prot inherit got).1
  | .remove start stop mem => (vmMapRemove m start stop mem).1
  | .protect start stop prot mem => (vmMapProtect m start stop prot mem).1

end Kerneloid.XnuMemory.VmMaps
