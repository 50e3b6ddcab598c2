import VisualOS.Memory.Bitmap
import VisualOS.X86.Atomic

/-!
# Page frame allocator

`pageframe.c` and the macros of `memory.h` it uses.  Addresses, sizes and counters are
64-bit, so sums and products that can leave the range are reduced modulo `2 ^ 64`; a page
has 4096 bytes.  Every operation takes its mutex bits from the shared word and gives them
back; `none` is an operation that spins forever on a bit nobody will release.
-/

namespace VisualOS.Kernel

/-- `ROUND_UP`. -/
def roundUp (n multiple : Nat) : Nat :=
  if n % multiple = 0 then n else (n - n % multiple + multiple) % 2 ^ 64

/-- `NEAREST_PAGE`. -/
def nearestPage (n : Nat) : Nat := roundUp n 4096 / 4096

inductive MemoryType
  | unusable
  | usable
  deriving DecidableEq, Repr

structure MemoryMapEntry where
  physicalBase : Nat
  numPages : Nat
  type : MemoryType

/-- The linker script's symbols, as addresses. -/
structure LinkerSymbols where
  virtualBase : Nat
  kernelStart : Nat
  kernelEnd : Nat

/-- `KERNEL_PHYSICAL_ADDRESS`. -/
def LinkerSymbols.physicalAddress (symbols : LinkerSymbols) (virtualAddress : Nat) : Nat :=
  (virtualAddress + 2 ^ 64 - symbols.virtualBase) % 2 ^ 64

/-- `PAGEFRAME_INITIAL_RESERVE_PAGES`. -/
def pageframeInitialReservePages : Nat := 256

inductive PageframeMutexBit
  | request
  | lock
  | free
  deriving DecidableEq, Repr

def PageframeMutexBit.toNat : PageframeMutexBit → Nat
  | request => 0
  | lock => 1
  | free => 2

/-- The static variables of `pageframe.c`. -/
structure Pageframe where
  memoryTotalSize : Nat
  memoryUsedSize : Nat
  memoryReservedSize : Nat
  pageframemap : Bitmap
  currentIndex : Nat
  mutex : BitVec 64

namespace Pageframe

/-- The frame is marked in use. -/
def inUse (s : Pageframe) (index : Nat) : Bool := bitmapGet s.pageframemap index

/-- The number of frames the bitmap tracks. -/
def frames (s : Pageframe) : Nat := bitmapAdjustedSize s.pageframemap

@[simp] theorem inUse_hint (s : Pageframe) (hint index : Nat) :
    inUse { s with currentIndex := hint } index = s.inUse index := rfl

@[simp] theorem frames_hint (s : Pageframe) (hint : Nat) :
    frames { s with currentIndex := hint } = s.frames := rfl

end Pageframe

def pageframeSpinlock (bit : PageframeMutexBit) (s : Pageframe) : Option Pageframe := do
  let mutex ← atomicSpinlock s.mutex bit.toNat
  return { s with mutex }

def pageframeUnlock (bit : PageframeMutexBit) (s : Pageframe) : Pageframe :=
  { s with mutex := (atomicUnlock s.mutex bit.toNat).2 }

def pageframeManipulate (index : Nat) (state : Bool) (s : Pageframe) : Bool × Pageframe :=
  if bitmapGet s.pageframemap index = state then (true, s)
  else
    let (ok, bitmap) := bitmapSet s.pageframemap index state
    (ok, { s with pageframemap := bitmap })

/-- The two sizes that the range operations keep up to date. -/
inductive MemoryCounter
  | used
  | reserved
  deriving DecidableEq, Repr

def Pageframe.grow (s : Pageframe) : MemoryCounter → Pageframe
  | .used => { s with memoryUsedSize := (s.memoryUsedSize + 4096) % 2 ^ 64 }
  | .reserved => { s with memoryReservedSize := (s.memoryReservedSize + 4096) % 2 ^ 64 }

def Pageframe.shrink (s : Pageframe) : MemoryCounter → Pageframe
  | .used =>
      if s.memoryUsedSize ≥ 4096 then { s with memoryUsedSize := s.memoryUsedSize - 4096 } else s
  | .reserved =>
      if s.memoryReservedSize ≥ 4096 then
        { s with memoryReservedSize := s.memoryReservedSize - 4096 }
      else s

/-- The body of the loops of `pageframe_lock` and `pageframe_reserve`. -/
def markFrame (counter : MemoryCounter) (s : Pageframe) (index : Nat) : Pageframe :=
  let (ok, s) := pageframeManipulate index true s
  if ok then s.grow counter else s

/-- The body of the loops of `pageframe_free` and `pageframe_unreserve`. -/
def releaseFrame (counter : MemoryCounter) (s : Pageframe) (index : Nat) : Pageframe :=
  let (ok, s) := pageframeManipulate index false s
  if ok then
    let s := s.shrink counter
    if s.currentIndex > index then { s with currentIndex := index } else s
  else s

/-- The indices of `for(i = start; i < start + pages; i++)`; the bound may have wrapped. -/
def frameIndexes (physicalAddress pages : Nat) : List Nat :=
  let start := physicalAddress / 4096
  List.range' start ((start + pages) % 2 ^ 64 - start)

def markFrames (counter : MemoryCounter) (physicalAddress pages : Nat) (s : Pageframe) :
    Option Pageframe := do
  let s ← pageframeSpinlock .lock s
  let s := (frameIndexes physicalAddress pages).foldl (markFrame counter) s
  return pageframeUnlock .lock s

def releaseFrames (counter : MemoryCounter) (physicalAddress pages : Nat) (s : Pageframe) :
    Option Pageframe := do
  let s ← pageframeSpinlock .free s
  let s := (frameIndexes physicalAddress pages).foldl (releaseFrame counter) s
  return pageframeUnlock .free s

def pageframeLock : Nat → Nat → Pageframe → Option Pageframe := markFrames .used

def pageframeReserve : Nat → Nat → Pageframe → Option Pageframe := markFrames .reserved

def pageframeFree : Nat → Nat → Pageframe → Option Pageframe := releaseFrames .used

def pageframeUnreserve : Nat → Nat → Pageframe → Option Pageframe := releaseFrames .reserved

def pageframeReserveSize (physicalAddress size : Nat) : Pageframe → Option Pageframe :=
  pageframeReserve physicalAddress (nearestPage size)

/-- The scan of `pageframe_request`.  The first argument counts the iterations left before
`s_current_index` reaches the end of the bitmap. -/
def pageframeRequestScan : Nat → Pageframe → Option (Nat × Pageframe)
  | 0, s => some (0, s)
  | n + 1, s =>
      if bitmapGet s.pageframemap s.currentIndex = true then
        pageframeRequestScan n { s with currentIndex := (s.currentIndex + 1) % 2 ^ 64 }
      else do
        let page := s.currentIndex * 4096 % 2 ^ 64
        let s ← pageframeLock page 1 { s with currentIndex := (s.currentIndex + 1) % 2 ^ 64 }
        return (page, s)

/-- The answer is an address, 0 being `NULL`. -/
def pageframeRequest (s : Pageframe) : Option (Nat × Pageframe) := do
  let s ← pageframeSpinlock .request s
  let (page, s) ← pageframeRequestScan (s.frames - s.currentIndex) s
  return (page, pageframeUnlock .request s)

/-- The inner loop of `pageframe_request_pages`: the first `j` whose frame is in use. -/
def pageframeProbe (s : Pageframe) (pages : Nat) : Option Nat :=
  (List.range pages).find? fun j => bitmapGet s.pageframemap ((s.currentIndex + j) % 2 ^ 64)

/-- The outer loop of `pageframe_request_pages`.  An index that wraps around can send the
scan back and keep it there forever, so the number of rounds is bounded from outside. -/
def pageframeRequestPagesScan (pages : Nat) : Nat → Pageframe → Option (Nat × Pageframe)
  | 0, _ => none
  | rounds + 1, s =>
      if s.currentIndex < s.frames then
        match pageframeProbe s pages with
        | some j =>
            pageframeRequestPagesScan pages rounds
              { s with currentIndex := (s.currentIndex + (j + 1)) % 2 ^ 64 }
        | none => do
            let page := s.currentIndex * 4096 % 2 ^ 64
            let s ← pageframeLock page pages
              { s with currentIndex := (s.currentIndex + pages) % 2 ^ 64 }
            return (page, s)
      else some (0, s)

/-- `none` when the scan does not end within the given number of rounds. -/
def pageframeRequestPages (rounds pages : Nat) (s : Pageframe) : Option (Nat × Pageframe) := do
  let s ← pageframeSpinlock .request s
  let (page, s) ← pageframeRequestPagesScan pages rounds s
  return (page, pageframeUnlock .request s)

/-- The first loop of `pageframe_init`: the largest usable region, the first one on ties. -/
def largestPrimary (memorymap : List MemoryMapEntry) : Option MemoryMapEntry :=
  memorymap.foldl (fun largest entry =>
    if entry.type = .usable ∧ ∀ e ∈ largest, entry.numPages > e.numPages then some entry
    else largest) none

/-- `s_memory_total_size` as the first loop of `pageframe_init` accumulates it. -/
def totalSize (memorymap : List MemoryMapEntry) : Nat :=
  memorymap.foldl (fun total entry => (total + entry.numPages * 4096) % 2 ^ 64) 0

/-- One round of the unreserving loop of `pageframe_init`. -/
def unreserveEntry (s : Pageframe) (entry : MemoryMapEntry) : Option Pageframe :=
  if entry.type ≠ .usable then some s
  else
    let reservedSize := entry.numPages * 4096 % 2 ^ 64
    pageframeUnreserve entry.physicalBase (reservedSize / 4096) s

/-- From the zeroed static variables.  `memory` is the physical memory the bitmap is laid
over; without a usable region the code dereferences `NULL`, here `none`. -/
def pageframeInit (memory : Nat → BitVec 8) (symbols : LinkerSymbols)
    (memorymap : List MemoryMapEntry) : Option Pageframe := do
  let largest ← largestPrimary memorymap
  let total := totalSize memorymap
  let s : Pageframe :=
    { memoryTotalSize := total
      memoryUsedSize := 0
      memoryReservedSize := 0
      pageframemap :=
        bitmapInitialize (fun i => memory (largest.physicalBase + i)) (total / 4096 / bitmapScale)
      currentIndex := 0
      mutex := 0 }
  let s ← pageframeReserve 0 (total / 4096) s
  let s ← memorymap.foldlM unreserveEntry s
  let s ← pageframeLock largest.physicalBase (nearestPage s.pageframemap.size) s
  let kernelSize := (symbols.kernelEnd + 2 ^ 64 - symbols.kernelStart) % 2 ^ 64
  let s ← pageframeLock (symbols.physicalAddress symbols.kernelStart) (nearestPage kernelSize) s
  pageframeReserve 0 pageframeInitialReservePages s

end VisualOS.Kernel
