import Aios.Lib.FiniteMap
import Aios.Lib.LinkedList
import Aios.Lib.Transition

/-!
The kernel heap: a first-fit allocator over an address-sorted free list in the headers of the free
blocks. The memory is what a header read at an address would give.
-/
namespace Aios.Kernel.Heap

def heapStart : ℕ := 0xFFFFFF0000000000
def heapSize : ℕ := 4*1024*1024

def headerSize : ℕ := 16
def blockAlign : UInt64 := 16
def minPayload : UInt64 := 16
def minBlockSize : ℕ := headerSize+minPayload.toNat

structure BlockHeader where
  size : ℕ
  next : Option ℕ
  deriving DecidableEq

/-- A request. Rust keeps the size, rounded up to the alignment, below `isize::MAX`. -/
structure Layout where
  size : UInt64
  align : UInt64
  bounded : size.toNat+align.toNat ≤ 2^63

structure FreeListAllocator where
  freeHead : Option ℕ
  mem : ℕ → BlockHeader

def alignUp (value align : UInt64) : UInt64 := (value+align-1) &&& ~~~(align-1)

/-- The size of the block that a request takes, header included. -/
def Layout.needed (layout : Layout) : ℕ :=
  (max (alignUp layout.size blockAlign) minPayload).toNat+headerSize

namespace FreeListAllocator

variable (h : FreeListAllocator)

def size (a : ℕ) : ℕ := (h.mem a).size

def next (a : ℕ) : Option ℕ := (h.mem a).next

def setSize (a n : ℕ) : FreeListAllocator :=
  { h with mem := Function.update h.mem a { h.mem a with size := n } }

def setNext (a : ℕ) (p : Option ℕ) : FreeListAllocator :=
  { h with mem := Function.update h.mem a { h.mem a with next := p } }

/-- Make the free list go on at `p` behind `prev`, or at its head. -/
def link (prev p : Option ℕ) : FreeListAllocator :=
  match prev with
  | none => { h with freeHead := p }
  | some a => h.setNext a p

/-- More blocks than this do not fit into the heap, so a longer list has a cycle. -/
def maxBlocks : ℕ := heapSize/minBlockSize

/-- The loop of `alloc`: the first block that is large enough, and the one before it. -/
def firstFit (needed : ℕ) : Option (Option ℕ × Option ℕ) :=
  LinkedList.walk h.next (fun a => needed ≤ h.size a) (maxBlocks+1) none h.freeHead

/-- The loop of `dealloc`: the free blocks around an address. -/
def neighbours (block : ℕ) : Option (Option ℕ × Option ℕ) :=
  LinkedList.walk h.next (fun a => ¬ a < block) (maxBlocks+1) none h.freeHead

/-- The body of the `if` inside the loop of `alloc`. -/
def takeBlock (needed : ℕ) (prev : Option ℕ) (current : ℕ) : FreeListAllocator :=
  let next := h.next current
  let remaining := h.size current-needed
  if minBlockSize ≤ remaining then
    let leftover := current+needed
    let h := ((h.setSize current needed).setSize leftover remaining).setNext leftover next
    h.link prev (some leftover)
  else h.link prev next

/-- `none` when the call does not return; the second component is the pointer, or null. -/
def alloc (layout : Layout) : Option (FreeListAllocator × Option ℕ) :=
  if blockAlign < layout.align then some (h,none)
  else
    match h.firstFit layout.needed with
    | none => none
    | some (_,none) => some (h,none)
    | some (prev,some current) =>
      some (h.takeBlock layout.needed prev current,some (current+headerSize))

/-- Absorb the next free block when it is adjacent, otherwise link it behind the block. -/
def absorbNext (block : ℕ) (next : Option ℕ) : FreeListAllocator :=
  match next with
  | none => h.setNext block none
  | some n =>
    if block+h.size block = n then
      (h.setSize block (h.size block+h.size n)).setNext block (h.next n)
    else h.setNext block (some n)

/-- Absorb the block into the previous free one when it is adjacent, otherwise link it. -/
def absorbIntoPrev (prev : Option ℕ) (block : ℕ) : FreeListAllocator :=
  match prev with
  | none => { h with freeHead := some block }
  | some p =>
    if p+h.size p = block then
      (h.setSize p (h.size p+h.size block)).setNext p (h.next block)
    else h.setNext p (some block)

def dealloc (pointer : ℕ) : Option FreeListAllocator :=
  let block := pointer-headerSize
  (h.neighbours block).map fun (prev,next) => (h.absorbNext block next).absorbIntoPrev prev block

end FreeListAllocator

/-- The state that `init_heap` leaves, over any earlier contents of the memory. -/
def initHeap (mem : ℕ → BlockHeader) : FreeListAllocator where
  freeHead := some heapStart
  mem := Function.update mem heapStart ⟨heapSize,none⟩

structure State where
  heap : FreeListAllocator
  live : Finmap fun _ : ℕ => Layout

/-- Calls to the allocator, and clients that write to the memory they were given. -/
inductive Op where
  | alloc (layout : Layout)
  | dealloc (pointer : ℕ)
  | store (pointer : ℕ) (contents : ℕ → BlockHeader)

/-- A client writes to the `n` bytes at `pointer`: every header that does not overlap them
stays. -/
def FreeListAllocator.overwrite (h : FreeListAllocator) (pointer n : ℕ)
    (contents : ℕ → BlockHeader) : FreeListAllocator :=
  { h with mem := fun a =>
      if a+headerSize ≤ pointer ∨ pointer+n ≤ a then h.mem a else contents a }

namespace State

def init (mem : ℕ → BlockHeader) : State := ⟨initHeap mem,∅⟩

def step (s : State) : Op → Option State
  | .alloc layout =>
    match s.heap.alloc layout with
    | none => none
    | some (t,none) => some { s with heap := t }
    | some (t,some p) => some ⟨t,s.live.insert p layout⟩
  | .dealloc p =>
    if p ∈ s.live then (s.heap.dealloc p).map fun t => ⟨t,s.live.erase p⟩ else none
  | .store p contents =>
    (s.live.lookup p).map fun layout =>
      { s with heap := s.heap.overwrite p layout.size.toNat contents }

end State
end Aios.Kernel.Heap
