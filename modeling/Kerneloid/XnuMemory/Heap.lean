import Kerneloid.Lib.Bytes

/-! # The kernel heap

`kmalloc` and `kfree` of `xnu_memory.c` over byte memory. The heap is the array `kernel_heap`, and a
block is a header of 16 bytes followed by its payload; the headers are linked in the order of their
addresses. Sizes and addresses have 32 bits, and sums of them are taken modulo `2 ^ 32`.

The loops run as long as they need to go once through as many blocks as can lie in the heap; a loop
that needs more goes round in a circle and is `none`. Left out are the lock, which every path
releases, and the messages on the serial line. -/

namespace Kerneloid.XnuMemory.Heap

open Lib.Bytes

def kernelHeapSize : ℕ := 0x00400000

def kheapCanary : ℕ := 0x48454150

def kheapAlign : ℕ := 8

def kheapMinSplit : ℕ := 16

def headerSize : ℕ := 16

/-- Where the array `kernel_heap` lies: not at the null pointer, and its end is an address. -/
structure Placement where
  base : ℕ
  pos : 0 < base
  fits : base + kernelHeapSize < 2 ^ 32

def Placement.stop (k : Placement) : ℕ := k.base + kernelHeapSize

/-! ### Headers

The fields of `block_header_t` at address `h`: the size, the canary, the flag `free` and the address
of the next header. -/

def size (m : Mem) (h : ℕ) : ℕ := rd32 m h
def canary (m : Mem) (h : ℕ) : ℕ := rd32 m (h + 4)
def free (m : Mem) (h : ℕ) : Bool := m (h + 8) ≠ 0
def next (m : Mem) (h : ℕ) : ℕ := rd32 m (h + 12)

def setSize (m : Mem) (h v : ℕ) : Mem := wr32 m h v
def setCanary (m : Mem) (h v : ℕ) : Mem := wr32 m (h + 4) v
def setFree (m : Mem) (h : ℕ) (v : UInt8) : Mem := Function.update m (h + 8) v
def setNext (m : Mem) (h v : ℕ) : Mem := wr32 m (h + 12) v

/-! ### The functions -/

/-- The statics of the heap beside `kernel_heap`, which is part of the memory. -/
structure Statics where
  mem : Mem
  head : ℕ
  initialized : Bool
  totalUsable : ℕ

def alignUp (v a : ℕ) : ℕ :=
  if a = 0 then v
  else
    let mask := a - 1
    (v + mask) % 2 ^ 32 &&& (2 ^ 32 - 1 - mask)

theorem alignUp_pow {j : ℕ} (hj : j ≤ 32) (v : ℕ) :
    alignUp v (2 ^ j) = (v + (2 ^ j - 1)) % 2 ^ 32 / 2 ^ j * 2 ^ j := by
  unfold alignUp
  rw [if_neg (Nat.two_pow_pos j).ne']
  exact and_mask hj (Nat.mod_lt _ (by decide))

/-- `heap_init`, without its warning. -/
def heapInit (k : Placement) (s : Statics) : Statics :=
  if s.initialized then s
  else
    let m := setSize s.mem k.base (kernelHeapSize - headerSize)
    let m := setCanary m k.base kheapCanary
    let m := setFree m k.base 1
    let m := setNext m k.base 0
    { mem := m, head := k.base, initialized := true, totalUsable := size m k.base }

/-- The steps of a loop over the blocks: one for each block there can be, and one for the end. -/
def maxSteps : ℕ := kernelHeapSize / headerSize + 1

/-- The block `cur` takes in `nxt`, the header of which is poisoned. -/
def merge (m : Mem) (cur nxt : ℕ) : Mem :=
  let m := setSize m cur (size m cur + (headerSize + size m nxt))
  let m := setNext m cur (next m nxt)
  setCanary m nxt 0

/-- `heap_coalesce` from the block `cur` on. -/
def heapCoalesce : ℕ → Mem → ℕ → Option Mem
  | 0, _, _ => none
  | fuel + 1, m, cur =>
    if cur = 0 ∨ next m cur = 0 then some m
    else
      let nxt := next m cur
      let curEnd := (cur + headerSize + size m cur) % 2 ^ 32
      if free m cur ∧ free m nxt ∧ curEnd = nxt then
        heapCoalesce fuel (merge m cur nxt) cur
      else heapCoalesce fuel m (next m cur)

/-- The search of `kmalloc`: the first free block from `cur` on that is large enough, or the null
pointer. -/
def firstFit (m : Mem) (size' : ℕ) : ℕ → ℕ → Option ℕ
  | 0, _ => none
  | fuel + 1, cur =>
    if cur = 0 then some 0
    else if free m cur ∧ size' ≤ size m cur then some cur
    else firstFit m size' fuel (next m cur)

/-- The block `cur` is split if enough is left over, and is in use. -/
def takeBlock (m : Mem) (cur size' : ℕ) : Mem :=
  let remaining := size m cur - size'
  let m :=
    if headerSize + kheapMinSplit ≤ remaining then
      let newb := (cur + headerSize + size') % 2 ^ 32
      let m := setSize m newb (remaining - headerSize)
      let m := setCanary m newb kheapCanary
      let m := setFree m newb 1
      let m := setNext m newb (next m cur)
      let m := setSize m cur size'
      setNext m cur newb
    else m
  setCanary (setFree m cur 0) cur kheapCanary

/-- `kmalloc`, with the address it answers. -/
def kmalloc (k : Placement) (s : Statics) (size' : ℕ) : Option (Statics × ℕ) :=
  if size' = 0 then some (s, 0)
  else do
    let s := heapInit k s
    let size' := alignUp size' kheapAlign
    let cur ← firstFit s.mem size' maxSteps s.head
    if cur = 0 then return (s, 0)
    return ({ s with mem := takeBlock s.mem cur size' }, (cur + headerSize) % 2 ^ 32)

/-- The walk of `kfree` along the list: is `cand` a block? -/
def onList (m : Mem) (cand : ℕ) : ℕ → ℕ → Option Bool
  | 0, _ => none
  | fuel + 1, it =>
    if it = 0 then some false
    else if it = cand then some true
    else onList m cand fuel (next m it)

/-- The block whose payload begins at `p`, if `kfree` believes that there is one. -/
def blockOf (k : Placement) (s : Statics) (p : ℕ) : Option (Option ℕ) :=
  let cand := p - headerSize
  if k.base + headerSize ≤ p ∧ p < k.stop ∧ k.base ≤ cand ∧ cand + headerSize ≤ k.stop ∧
      canary s.mem cand = kheapCanary then
    (onList s.mem cand maxSteps s.head).map fun found => if found then some cand else none
  else some none

/-- The block is free, and free neighbours are joined. -/
def releaseBlock (s : Statics) (h : ℕ) : Option Statics :=
  (heapCoalesce maxSteps (setFree s.mem h 1) s.head).map fun m => { s with mem := m }

/-- `kfree`. If `p` is not the payload of a block, the word before `p` may be the address of one:
`kmalloc_aligned` puts it there. -/
def kfree (k : Placement) (s : Statics) (p : ℕ) : Option Statics :=
  if p = 0 then some s
  else if s.initialized = false then some s
  else do
    match ← blockOf k s p with
    | some hdr =>
      if free s.mem hdr then return s
      else if canary s.mem hdr ≠ kheapCanary then return s
      else releaseBlock s hdr
    | none =>
      if k.base ≤ p ∧ p < k.stop ∧ 4 ≤ p then
        match ← blockOf k s (rd32 s.mem (p - 4)) with
        | some cand2 => if free s.mem cand2 then return s else releaseBlock s cand2
        | none => return s
      else return s

/-! ### The system -/

inductive Op
  | malloc (size : UInt32)
  | free (p : UInt32)
  | write (a : UInt32) (v : UInt8)
  deriving DecidableEq

def step (k : Placement) (s : Statics) : Op → Option Statics
  | .malloc n => (kmalloc k s n.toNat).map Prod.fst
  | .free p => kfree k s p.toNat
  | .write a v => some { s with mem := Function.update s.mem a.toNat v }

/-- The statics at the start; nothing is known of the memory. -/
def start (m : Mem) : Statics := ⟨m, 0, false, 0⟩

/-- A client may write at `a`: outside the heap, or in the payload of a block in use. -/
def Owned (k : Placement) (s : Statics) (a : ℕ) : Prop :=
  a < k.base ∨ k.stop ≤ a ∨
    (s.initialized = true ∧ ∃ h, onList s.mem h maxSteps s.head = some true ∧ free s.mem h = false ∧
      h + headerSize ≤ a ∧ a < h + headerSize + size s.mem h)

/-- **The assumption on clients**: they write only where they may. -/
def Disciplined (k : Placement) (s : Statics) : Op → Prop
  | .write a _ => Owned k s a.toNat
  | _ => True

end Kerneloid.XnuMemory.Heap
