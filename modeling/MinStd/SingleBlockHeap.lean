import MinStd.BlockWalk
import MinStd.Transition
import MinStd.Words

/-!
# The single-block heap

`single_block_memory_heap` cuts blocks off the front of the memory it is given.  A block starts with
a header in that memory, which holds the block's size; once the tail is too small, a request takes a
free block of its size, or the largest one, and cuts off what is left.  Blocks are never joined.

A pointer is its address, 0 is null, and all arithmetic is that of 64-bit words.
-/

namespace MinStd.SingleBlockHeap

/-- What the constructor is given: memory, its size, and a power of two. -/
structure Heap where
  location : ℕ
  size : ℕ
  exponent : ℕ
  location_pos : 0 < location
  fits : location + size < WORD64
  exponent_lt : exponent < 64

structure BlockHeader where
  inUse : Bool
  blockSize : ℕ
  numElementsInBlock : ℕ
  deriving DecidableEq

/-- `sizeof(block_header)`. -/
def BLOCK_HEADER_BYTES : ℕ := 24

namespace Heap

variable (H : Heap)

def blockAlignment : ℕ := 2 ^ H.exponent

def startPadding : ℕ :=
  sub64 (sub64 (add64 H.location H.blockAlignment) 1 &&& (WORD64 - H.blockAlignment)) H.location

def heapStart : ℕ := add64 H.location H.startPadding

def maxSize : ℕ := if H.startPadding < H.size then H.size - H.startPadding else 0

def alignedSize (bytes : ℕ) : ℕ :=
  mul64 (bytes / H.blockAlignment + if bytes % H.blockAlignment = 0 then 0 else 1) H.blockAlignment

def headerSize : ℕ := H.alignedSize BLOCK_HEADER_BYTES

def minimumSizeBlockForSplit : ℕ := add64 H.headerSize (H.alignedSize 4)

end Heap

/-- The headers in the memory, by address, the end of the blocks and the counters.  For the record:
the pointers ever returned, and those handed out and not deallocated since, with the bytes asked
for. -/
structure State where
  headers : ℕ → BlockHeader
  currentEnd : ℕ
  bytesAllocated : ℕ
  blocksAllocated : ℕ
  bytesAllocatedButUnused : ℕ
  blocksAllocatedButUnused : ℕ
  returned : List ℕ
  live : List (ℕ × ℕ)

def State.sizeAt (s : State) (b : ℕ) : ℕ := (s.headers b).blockSize

def State.setHeader (s : State) (b : ℕ) (h : BlockHeader) : State :=
  { s with headers := Function.update s.headers b h }

variable (H : Heap)

/-- The loop of `search_for_unused_block`, at the block `current`; 0 is no block. -/
def searchLoop (s : State) (bytes : ℕ) : ℕ → ℕ → ℕ → ℕ → Option ℕ
  | 0, _, _, _ => none
  | fuel + 1, current, best, bestSize =>
    if current < s.currentEnd then
      if (s.headers current).inUse ∨ s.sizeAt current < bytes then
        searchLoop s bytes fuel (add64 current (s.sizeAt current)) best bestSize
      else if s.sizeAt current = bytes then some current
      else if bestSize < s.sizeAt current then
        searchLoop s bytes fuel (add64 current (s.sizeAt current)) current (s.sizeAt current)
      else searchLoop s bytes fuel (add64 current (s.sizeAt current)) best bestSize
    else some best

/-- The free block is cut: its front is taken, and the rest is a free block. -/
def cutBlock (s : State) (best bytes numElements : ℕ) : State :=
  { (s.setHeader (add64 best bytes) ⟨false, sub64 (s.sizeAt best) bytes, 0⟩).setHeader best
      ⟨true, bytes, numElements⟩ with
    blocksAllocated := add64 s.blocksAllocated 1
    bytesAllocatedButUnused := sub64 s.bytesAllocatedButUnused bytes }

/-- The free block is taken whole. -/
def takeBlock (s : State) (best numElements : ℕ) : State :=
  { s.setHeader best ⟨true, s.sizeAt best, numElements⟩ with
    bytesAllocatedButUnused := sub64 s.bytesAllocatedButUnused (s.sizeAt best)
    blocksAllocatedButUnused := sub64 s.blocksAllocatedButUnused 1 }

/-- The pointer found and the state after; `none` if the walk takes more steps than the heap has
bytes. -/
def searchForUnusedBlock (s : State) (bytes numElements : ℕ) : Option (ℕ × State) :=
  if s.blocksAllocatedButUnused = 0 then some (0, s)
  else
    (searchLoop s bytes (H.maxSize + 1) H.heapStart 0 0).map fun best =>
      if best = 0 then (0, s)
      else
        (add64 best H.headerSize,
          if add64 bytes H.minimumSizeBlockForSplit < s.sizeAt best then
            cutBlock s best bytes numElements
          else takeBlock s best numElements)

/-- A block of `bytes` bytes at the end. -/
def newBlock (s : State) (bytes numElements : ℕ) : State :=
  { s.setHeader s.currentEnd ⟨true, bytes, numElements⟩ with
    currentEnd := add64 s.currentEnd bytes
    bytesAllocated := add64 s.bytesAllocated bytes
    blocksAllocated := add64 s.blocksAllocated 1 }

def blockSize (elementSize numElements : ℕ) : ℕ :=
  add64 (H.alignedSize (mul64 elementSize numElements)) H.headerSize

def allocateRawBlock (s : State) (elementSize numElements : ℕ) : Option (ℕ × State) :=
  if numElements ≠ 0 ∧ H.maxSize / numElements < elementSize then some (0, s)
  else if sub64 H.maxSize s.bytesAllocated < blockSize H elementSize numElements then
    searchForUnusedBlock H s (blockSize H elementSize numElements) numElements
  else
    some (add64 s.currentEnd H.headerSize,
      newBlock s (blockSize H elementSize numElements) numElements)

/-- A free block is left as it is: `MINIMAL_STD_FAIL` reports it and returns. -/
def deallocateRawBlock (s : State) (block : ℕ) : State :=
  if (s.headers (sub64 block H.headerSize)).inUse then
    { s.setHeader (sub64 block H.headerSize)
        ⟨false, s.sizeAt (sub64 block H.headerSize), 0⟩ with
      bytesAllocatedButUnused :=
        add64 s.bytesAllocatedButUnused (s.sizeAt (sub64 block H.headerSize))
      blocksAllocatedButUnused := add64 s.blocksAllocatedButUnused 1 }
  else s

/-- The loop of `validate_pointer`, at the block `current`. -/
def validateLoop (s : State) (block : ℕ) : ℕ → ℕ → Option Bool
  | 0, _ => none
  | fuel + 1, current =>
    if block = current then some true
    else if add64 current (s.sizeAt current) < s.currentEnd then
      validateLoop s block fuel (add64 current (s.sizeAt current))
    else some false

def validatePointer (s : State) (block : ℕ) : Option Bool :=
  if sub64 block H.headerSize < H.heapStart ∨ s.currentEnd ≤ sub64 block H.headerSize then
    some false
  else validateLoop s (sub64 block H.headerSize) (H.maxSize + 1) H.heapStart

/-! ### The heap and its callers -/

/-- A caller may deallocate any pointer it was given, and write what it has. -/
inductive Action
  | allocate (elementSize numElements : ℕ)
  | deallocate (block : ℕ)
  | write (block bytes address : ℕ) (value : BlockHeader)

/-- What an allocation returned goes to the caller. -/
def State.handOut (s : State) (block bytes : ℕ) : State :=
  if block = 0 then s
  else { s with returned := block :: s.returned, live := (block, bytes) :: s.live }

def step (s : State) : Action → Option State
  | .allocate elementSize numElements =>
    if elementSize < WORD64 ∧ numElements < WORD64 then
      (allocateRawBlock H s elementSize numElements).map fun r =>
        r.2.handOut r.1 (elementSize * numElements)
    else none
  | .deallocate block =>
    if block ∈ s.returned then
      some { deallocateRawBlock H s block with live := s.live.filter fun p => p.1 ≠ block }
    else none
  | .write block bytes address value =>
    if (block, bytes) ∈ s.live ∧ block < address + BLOCK_HEADER_BYTES ∧ address < block + bytes then
      some (s.setHeader address value)
    else none

/-- A new heap, whose memory holds anything. -/
structure Start (s : State) : Prop where
  currentEnd : s.currentEnd = H.heapStart
  bytesAllocated : s.bytesAllocated = 0
  blocksAllocated : s.blocksAllocated = 0
  bytesAllocatedButUnused : s.bytesAllocatedButUnused = 0
  blocksAllocatedButUnused : s.blocksAllocatedButUnused = 0
  returned : s.returned = []
  live : s.live = []

def machine : Machine State Action where
  init := Start H
  step := step H

/-- The blocks, walked from the start of the heap. -/
def State.blocks (s : State) : List ℕ :=
  blocksFrom s.sizeAt s.currentEnd H.maxSize H.heapStart

/-- The smallest multiple of the alignment that is not less. -/
def Heap.roundUp (bytes : ℕ) : ℕ :=
  (bytes / H.blockAlignment + if bytes % H.blockAlignment = 0 then 0 else 1) * H.blockAlignment

/-- The bytes a request needs with its header. -/
def Heap.need (bytes : ℕ) : ℕ := H.roundUp bytes + H.roundUp BLOCK_HEADER_BYTES

/-- A request that the first test lets through does not wrap the sum of its size and the header's,
nor the sum that a free block found for it is compared with. -/
def NoWrap (s : State) : Action → Prop
  | .allocate elementSize numElements => elementSize * numElements ≤ H.maxSize →
    H.need (elementSize * numElements) < WORD64
      ∧ (H.maxSize - s.bytesAllocated < H.need (elementSize * numElements) →
        ∀ b ∈ s.blocks H, (s.headers b).inUse = false →
          H.need (elementSize * numElements) ≤ s.sizeAt b →
          add64 (H.need (elementSize * numElements)) H.minimumSizeBlockForSplit < s.sizeAt b →
          H.need (elementSize * numElements) + (H.roundUp BLOCK_HEADER_BYTES + H.roundUp 4)
            < s.sizeAt b)
  | _ => True

instance (s : State) : ∀ a, Decidable (NoWrap H s a)
  | .allocate _ _ => inferInstanceAs (Decidable (_ → _ ∧ (_ → ∀ _ ∈ _, _ → _ → _ → _)))
  | .deallocate _ => .isTrue trivial
  | .write _ _ _ _ => .isTrue trivial

end MinStd.SingleBlockHeap
