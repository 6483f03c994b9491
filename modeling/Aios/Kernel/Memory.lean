import Aios.Lib.Bits

/-!
The memory manager of the kernel: the bump allocator for page frames and the four-level page tables,
read and written through the direct map. The translation buffers are left out.
-/
namespace Aios.Kernel

def pageSize : UInt64 := 0x1000
def ptePresent : UInt64 := 0x1
def pteWritable : UInt64 := 0x2
def pteUser : UInt64 := 0x4
def pteHuge : UInt64 := 0x80
def pteFrame : UInt64 := 0x000ffffffffff000
def indexMask : UInt64 := 0x1ff
def maxFrameRegions : ℕ := 16

def alignUp (addr align : UInt64) : UInt64 := (addr+align-1) &&& ~~~(align-1)

def alignDown (addr align : UInt64) : UInt64 := addr &&& ~~~(align-1)

def isPageAligned (addr : UInt64) : Bool := addr &&& (pageSize-1) == 0

structure MemRegion where
  start : UInt64
  stop : UInt64
  deriving DecidableEq

/-- The state of the frame allocator. The region in use is the first one of `regions`; those
before it are used up. -/
structure FrameAllocator where
  regions : List MemRegion
  next : UInt64
  framesAlloc : UInt64
  deriving DecidableEq

namespace FrameAllocator

/-- The whole pages of a usable region, if it has any. -/
def wholePages (region : MemRegion) : Option MemRegion :=
  let start := alignUp region.start pageSize
  let stop := alignDown region.stop pageSize
  if start < stop then some ⟨start,stop⟩ else none

def init (usable : List MemRegion) : FrameAllocator :=
  let regions := (usable.filterMap wholePages).take maxFrameRegions
  { regions := regions
    next := (regions.head?.map MemRegion.start).getD 0
    framesAlloc := 0 }

/-- The loop of `alloc_frame`, with the regions that are left. -/
def allocFrom (framesAlloc : UInt64) : UInt64 → List MemRegion → FrameAllocator × Option UInt64
  | next, [] => (⟨[],next,framesAlloc⟩,none)
  | next, current::later =>
    if current.stop ≤ next then
      match later.head? with
      | none => (⟨current::later,next,framesAlloc⟩,none)
      | some following => allocFrom framesAlloc following.start later
    else
      (⟨current::later,next+pageSize,framesAlloc+1⟩,some next)

def allocFrame (a : FrameAllocator) : FrameAllocator × Option UInt64 :=
  allocFrom a.framesAlloc a.next a.regions

end FrameAllocator

def pageFlags (user : Bool) : UInt64 :=
  ptePresent ||| pteWritable ||| if user then pteUser else 0

structure Memory where
  words : UInt64 → UInt64
  cr3 : UInt64
  frames : FrameAllocator

namespace Memory

variable (m : Memory)

def readEntry (tablePhys index : UInt64) : UInt64 := m.words (tablePhys+index*8)

def writeEntry (tablePhys index value : UInt64) : Memory :=
  { m with words := fun addr => if addr = tablePhys+index*8 then value else m.words addr }

def allocFrame : Memory × Option UInt64 :=
  ({ m with frames := m.frames.allocFrame.1 },m.frames.allocFrame.2)

def pml4 : UInt64 := m.cr3 &&& pteFrame

def translate (addr : UInt64) : Option UInt64 :=
  let pml4e := m.readEntry m.pml4 ((addr >>> 39) &&& indexMask)
  if pml4e &&& ptePresent = 0 then none else
  let pdpte := m.readEntry (pml4e &&& pteFrame) ((addr >>> 30) &&& indexMask)
  if pdpte &&& ptePresent = 0 then none else
  if pdpte &&& pteHuge ≠ 0 then some ((pdpte &&& pteFrame) ||| (addr &&& 0x3fffffff)) else
  let pde := m.readEntry (pdpte &&& pteFrame) ((addr >>> 21) &&& indexMask)
  if pde &&& ptePresent = 0 then none else
  if pde &&& pteHuge ≠ 0 then some ((pde &&& pteFrame) ||| (addr &&& 0x1fffff)) else
  let pte := m.readEntry (pde &&& pteFrame) ((addr >>> 12) &&& indexMask)
  if pte &&& ptePresent = 0 then none else
  some ((pte &&& pteFrame) ||| (addr &&& 0xfff))

/-- The 512 writes that empty a new table. -/
@[irreducible] def clearTable (frame : UInt64) : Memory :=
  (List.range 512).foldl (fun m i => m.writeEntry frame (UInt64.ofNat i) 0) m

def ensureTable (parent index flags : UInt64) : Memory × Except String UInt64 :=
  let entry := m.readEntry parent index
  if entry &&& ptePresent ≠ 0 then
    (m,.ok entry)
  else
    match m.allocFrame with
    | (m',none) => (m',.error "out of memory for page table")
    | (m',some frame) =>
      ((m'.clearTable frame).writeEntry parent index (frame ||| flags),.ok (frame ||| flags))

/-- One level of `map_page`: the table exists, and ring 3 may walk through it if `user`. -/
def enterTable (parent index flags : UInt64) (user : Bool) : Memory × Except String UInt64 :=
  match m.ensureTable parent index flags with
  | (m',.error e) => (m',.error e)
  | (m',.ok entry) =>
    if user then
      (m'.writeEntry parent index (entry ||| pteUser),.ok (entry ||| pteUser))
    else
      (m',.ok entry)

def mapPage (virt phys : UInt64) (user : Bool) : Memory × Except String Unit :=
  if !isPageAligned virt || !isPageAligned phys then
    (m,.error "map_page: address not page aligned")
  else
    let flags := pageFlags user
    match m.enterTable m.pml4 ((virt >>> 39) &&& indexMask) flags user with
    | (m₁,.error e) => (m₁,.error e)
    | (m₁,.ok pml4e) =>
      match m₁.enterTable (pml4e &&& pteFrame) ((virt >>> 30) &&& indexMask) flags user with
      | (m₂,.error e) => (m₂,.error e)
      | (m₂,.ok pdpte) =>
        if pdpte &&& pteHuge ≠ 0 then (m₂,.error "map_page: 1GiB page in path") else
        match m₂.enterTable (pdpte &&& pteFrame) ((virt >>> 21) &&& indexMask) flags user with
        | (m₃,.error e) => (m₃,.error e)
        | (m₃,.ok pde) =>
          if pde &&& pteHuge ≠ 0 then (m₃,.error "map_page: 2MiB page in path") else
          (m₃.writeEntry (pde &&& pteFrame) ((virt >>> 12) &&& indexMask) (phys ||| flags),.ok ())

def unmapPage (virt : UInt64) : Memory :=
  if !isPageAligned virt then m else
  let pml4e := m.readEntry m.pml4 ((virt >>> 39) &&& indexMask)
  if pml4e &&& ptePresent = 0 then m else
  let pdpte := m.readEntry (pml4e &&& pteFrame) ((virt >>> 30) &&& indexMask)
  if pdpte &&& ptePresent = 0 ∨ pdpte &&& pteHuge ≠ 0 then m else
  let pde := m.readEntry (pdpte &&& pteFrame) ((virt >>> 21) &&& indexMask)
  if pde &&& ptePresent = 0 ∨ pde &&& pteHuge ≠ 0 then m else
  if m.readEntry (pde &&& pteFrame) ((virt >>> 12) &&& indexMask) &&& ptePresent ≠ 0 then
    m.writeEntry (pde &&& pteFrame) ((virt >>> 12) &&& indexMask) 0
  else
    m

end Memory
end Aios.Kernel
