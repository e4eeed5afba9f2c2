import Kerneloid.Lib.Linked
import Kerneloid.XnuMemory.Heap

/-! # Requests for memory

The functions of `xnu_memory.c` that get their memory from `kmalloc`: `kzalloc`, `kmalloc_aligned`
and `zinit`, over the same byte memory. Sums, products and shifts of sizes and addresses have 32
bits. Left out are the locks and the messages on the serial line.

A zone is a `memory_zone_t` of eight words: the name, the free list, the size of an element, the
greatest number of elements, three counters and the link to the next zone. -/

namespace Kerneloid.XnuMemory.Requests

open Lib.Bytes Lib.Linked Heap

/-! ### Cleared and aligned memory -/

def libMemset (m : Mem) (a : ℕ) (c : UInt8) (n : ℕ) : Mem := storeRound m a (fun _ => c) n

/-- `kzalloc`, with the address it answers. -/
def kzalloc (k : Placement) (s : Statics) (size : ℕ) : Option (Statics × ℕ) := do
  let (s, ptr) ← kmalloc k s size
  if ptr = 0 then return (s, 0)
  return ({ s with mem := libMemset s.mem ptr 0 size }, ptr)

/-- The loop `while (a < align) a <<= 1;`. -/
def double (align : ℕ) : ℕ → ℕ → Option ℕ
  | 0, _ => none
  | fuel + 1, a => if a < align then double align fuel (a * 2 % 2 ^ 32) else some a

/-- The alignment that `kmalloc_aligned` uses. After 32 rounds of the loop `a` is 0 and stays so. -/
def rounded (align : ℕ) : Option ℕ :=
  let align := if align = 0 then kheapAlign else align
  if align &&& (align - 1) ≠ 0 then double align 33 1 else some align

/-- `kmalloc_aligned`, with the address it answers and the address `raw` that it got from
`kmalloc`. -/
def kmallocAligned (k : Placement) (s : Statics) (size align : ℕ) : Option (Statics × ℕ × ℕ) :=
  if size = 0 then some (s, 0, 0)
  else do
    let align ← rounded align
    if align ≤ kheapAlign then
      let (s, raw) ← kmalloc k s size
      return (s, raw, raw)
    else
      let extra := align - 1 + 4
      let (s, raw) ← kmalloc k s ((size + extra) % 2 ^ 32)
      if raw = 0 then return (s, 0, 0)
      let aligned := (raw + 4 + align - 1) % 2 ^ 32 &&& (2 ^ 32 - 1 - (align - 1))
      return ({ s with mem := wr32 s.mem ((aligned + (2 ^ 32 - 4)) % 2 ^ 32) raw }, aligned, raw)

/-! ### Zones -/

/-- The heap, and the statics of the zones. -/
structure World where
  heap : Statics
  allZones : ℕ
  zonesInitialized : Bool

def zoneInit (w : World) : World :=
  if w.zonesInitialized then w else { w with allZones := 0, zonesInitialized := true }

def initZone (m : Mem) (zone name elemSize max : ℕ) : Mem :=
  let m := libMemset m zone 0 32
  let m := wr32 m zone name
  let m := wr32 m (zone + 8) elemSize
  let m := wr32 m (zone + 12) max
  let m := wr32 m (zone + 16) 0
  let m := wr32 m (zone + 20) 0
  let m := wr32 m (zone + 24) 0
  let m := wr32 m (zone + 4) 0
  wr32 m (zone + 28) 0

/-- One round of the loop that builds the free list. -/
def linkElem (zone elem : ℕ) (m : Mem) : Mem :=
  let m := storeRound m elem (byteOf (rd32 m (zone + 4))) 4
  wr32 m (zone + 4) elem

/-- The loop that builds the free list, after `n` rounds. -/
def linkElems (zone memory elemSize : ℕ) : ℕ → Mem → Mem
  | 0, m => m
  | n + 1, m =>
    linkElem zone ((memory + n * elemSize) % 2 ^ 32) (linkElems zone memory elemSize n m)

/-- The number of elements that `zinit` gets memory for. -/
def initialElements (max alloc : ℕ) : ℕ :=
  let initial := if alloc < max then alloc else max
  if initial = 0 then 1 else initial

/-- `elem_size` of a zone for elements of `size` bytes. -/
def elemSizeOf (size : ℕ) : ℕ := if size < 4 then 4 else size

/-- `zinit`, with the address of the zone. -/
def zinit (k : Placement) (w : World) (size max alloc name : ℕ) : Option (World × ℕ) :=
  if size = 0 ∨ max = 0 ∨ name = 0 then some (w, 0)
  else do
    let w := zoneInit w
    let elemSize := elemSizeOf size
    let (s, zone) ← kmalloc k w.heap 32
    if zone = 0 then return ({ w with heap := s }, 0)
    let s := { s with mem := initZone s.mem zone name elemSize max }
    let initial := initialElements max alloc
    let total := elemSize * initial % 2 ^ 32
    let (s, memory) ← kmalloc k s total
    if memory = 0 then
      let s ← kfree k s zone
      return ({ w with heap := s }, 0)
    let m := libMemset s.mem memory 0 total
    let m := linkElems zone memory elemSize initial m
    let m := wr32 m (zone + 28) w.allZones
    return ({ w with heap := { s with mem := m }, allZones := zone }, zone)

/-- The address in the word at `a`, if it is not null. -/
def linkAt (m : Mem) (a : ℕ) : Option ℕ := if rd32 m a = 0 then none else some (rd32 m a)

/-- The elements on the free list of a zone, the last one first. The list cannot have more elements
than there are words in the heap. -/
def freeElems (m : Mem) (zone : ℕ) : Option (List ℕ) :=
  fold (linkAt m) (fun l e => e :: l) (kernelHeapSize / 4) (linkAt m (zone + 4)) []

/-! ### The system -/

inductive Request
  | kmalloc (size : UInt32)
  | kzalloc (size : UInt32)
  | kmallocAligned (size align : UInt32)
  | zinit (size max alloc name : UInt32)
  | kfree (p : UInt32)
  | write (a : UInt32) (v : UInt8)
  deriving DecidableEq

/-- The state after a call, and what the call answers. -/
def serve (k : Placement) (w : World) : Request → Option (World × ℕ)
  | .kmalloc n => (kmalloc k w.heap n.toNat).map fun r => ({ w with heap := r.1 }, r.2)
  | .kzalloc n => (kzalloc k w.heap n.toNat).map fun r => ({ w with heap := r.1 }, r.2)
  | .kmallocAligned n a =>
    (kmallocAligned k w.heap n.toNat a.toNat).map fun r => ({ w with heap := r.1 }, r.2.1)
  | .zinit size max alloc name => zinit k w size.toNat max.toNat alloc.toNat name.toNat
  | .kfree p => (kfree k w.heap p.toNat).map fun s => ({ w with heap := s }, 0)
  | .write a v => some ({ w with heap.mem := Function.update w.heap.mem a.toNat v }, 0)

def advance (k : Placement) (w : World) (req : Request) : Option World :=
  (serve k w req).map Prod.fst

/-- The statics at the start; nothing is known of the memory. -/
def boot (m : Mem) : World := ⟨start m, 0, false⟩

end Kerneloid.XnuMemory.Requests
