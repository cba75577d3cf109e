import MinStd.Tiling
import MinStd.Transition

/-!
# The static arena

A caller's buffer cut into 64-byte units: new blocks come from a bump pointer, freed blocks wait in
eight bins.  Bins 0 to 6 keep blocks of one size each; bin 7 keeps larger ones, each with its size in
a header.  Here one thread uses the arena, and a bin is the list of its blocks, its head first.
-/

namespace MinStd.StaticArena

open Function

def MIN_ALIGNMENT : ℕ := 64

def LARGEST_CLASS : ℕ := 4096

def NUM_BINS : ℕ := 8

def UINT32_MAX : ℕ := 2 ^ 32 - 1

/-- `sizeof(link_cell)`. -/
def LINK_CELL_SIZE : ℕ := 4

/-- `sizeof(free_block_header)`. -/
def HEADER_SIZE : ℕ := 8

/-- The next address that is a multiple of `MIN_ALIGNMENT`. -/
def alignUp (address : ℕ) : ℕ := (address + MIN_ALIGNMENT - 1) / MIN_ALIGNMENT * MIN_ALIGNMENT

/-- The buffer the resource is made over. -/
structure Buffer where
  start : ℕ
  size : ℕ

namespace Buffer

variable (B : Buffer)

def arenaStart : ℕ := alignUp B.start

/-- The blocks that fit with their cells once the start is aligned. -/
def blockCount : ℕ :=
  let padding := B.arenaStart - B.start
  let usable := if padding < B.size then B.size - padding else 0
  let blocks := usable / (MIN_ALIGNMENT + LINK_CELL_SIZE)
  if blocks < UINT32_MAX then blocks else UINT32_MAX - 1

def arenaEnd : ℕ := B.arenaStart + B.blockCount * MIN_ALIGNMENT

def capacity : ℕ := B.arenaEnd - B.arenaStart

end Buffer

/-- The doublings of `MIN_ALIGNMENT` that reach a block size, and the last bin above the classes. -/
def getBin (blockSize : ℕ) : ℕ :=
  ((List.range (NUM_BINS - 1)).find? fun bin => blockSize ≤ MIN_ALIGNMENT <<< bin).getD (NUM_BINS - 1)

def blockSizeFor (bytes : ℕ) : ℕ :=
  let size := alignUp (if bytes < HEADER_SIZE then HEADER_SIZE else bytes)
  if LARGEST_CLASS < size then size else MIN_ALIGNMENT <<< getBin size

/-- The loop of `free_pieces` from class `k` down. -/
def classPieces : ℕ → ℕ → ℕ → List Span
  | 0, block, bytes => if MIN_ALIGNMENT ≤ bytes then [⟨block, MIN_ALIGNMENT⟩] else []
  | k + 1, block, bytes =>
    if MIN_ALIGNMENT <<< (k + 1) ≤ bytes then
      ⟨block, MIN_ALIGNMENT <<< (k + 1)⟩
        :: classPieces k (block + MIN_ALIGNMENT <<< (k + 1)) (bytes - MIN_ALIGNMENT <<< (k + 1))
    else classPieces k block bytes

/-- The blocks `free_pieces` frees, in order. -/
def freePieces (block bytes : ℕ) : List Span :=
  if LARGEST_CLASS < bytes then [⟨block, bytes⟩] else classPieces (NUM_BINS - 2) block bytes

/-- The room the bump pointer needs for a block, compared as a remainder of the arena. -/
def HasRoom (B : Buffer) (current allocSize : ℕ) : Prop :=
  alignUp current ≤ B.arenaEnd ∧ allocSize ≤ B.arenaEnd - alignUp current

instance (B : Buffer) (current allocSize : ℕ) : Decidable (HasRoom B current allocSize) :=
  inferInstanceAs (Decidable (_ ∧ _))

/-- The search of a stolen list: the first of its smallest blocks that are large enough. -/
def bestFit (headers : ℕ → ℕ) (allocSize : ℕ) (stolen : List ℕ) : Option ℕ :=
  stolen.foldl (fun best current =>
    if allocSize ≤ headers current ∧ best.all (fun b => headers current < headers b) then
      some current else best) none

/-- An allocation is its address and the bytes asked for. -/
scoped instance lawfulBEq_allocation : LawfulBEq (ℕ × ℕ) := inferInstance

/-- The bump pointer, the bins, and the sizes in the headers of blocks.  For the record: the
allocations not yet given back, with the bytes asked for. -/
structure State where
  currentPtr : ℕ
  bins : ℕ → List ℕ
  headers : ℕ → ℕ
  live : List (ℕ × ℕ)

def State.setBin (s : State) (bin : ℕ) (blocks : List ℕ) : State :=
  { s with bins := update s.bins bin blocks }

def State.pushFree (s : State) (block : Span) : State :=
  { s with
    headers := update s.headers block.start block.len
    bins := update s.bins (getBin block.len) (block.start :: s.bins (getBin block.len)) }

/-- The class bins from `start` on, the first that has a block. -/
def popClass (s : State) : List ℕ → Option (ℕ × ℕ × State)
  | [] => none
  | bin :: bins =>
    match s.bins bin with
    | block :: rest => some (bin, block, s.setBin bin rest)
    | [] => popClass s bins

/-- A block of `size` bytes handed out as `alloc_size`, the rest freed. -/
def State.split (s : State) (block size allocSize : ℕ) : State :=
  if allocSize < size then
    (freePieces (block + allocSize) (size - allocSize)).foldl State.pushFree s
  else s

/-- The search of the last bin.  What is left of the stolen list is pushed back one by one. -/
def allocateLarge (s : State) (allocSize : ℕ) : Option ℕ × State :=
  let stolen := s.bins (NUM_BINS - 1)
  match bestFit s.headers allocSize stolen with
  | none => (none, s.setBin (NUM_BINS - 1) stolen.reverse)
  | some best =>
    (some best, (s.setBin (NUM_BINS - 1) (stolen.erase best).reverse).split best (s.headers best)
      allocSize)

def allocate (B : Buffer) (s : State) (bytes alignment : ℕ) : Option ℕ × State :=
  if MIN_ALIGNMENT < alignment then (none, s)
  else if B.capacity < bytes then (none, s)
  else if HasRoom B s.currentPtr (blockSizeFor bytes) then
    (some (alignUp s.currentPtr),
      { s with currentPtr := alignUp s.currentPtr + blockSizeFor bytes })
  else
    let startBin := getBin (blockSizeFor bytes)
    match popClass s (List.range' startBin (NUM_BINS - 1 - startBin)) with
    | some (bin, block, s') =>
      (some block, s'.split block (MIN_ALIGNMENT <<< bin) (blockSizeFor bytes))
    | none => allocateLarge s (blockSizeFor bytes)

def deallocate (s : State) (p : Option ℕ) (bytes : ℕ) : State :=
  match p with
  | none => s
  | some p => s.pushFree ⟨p, blockSizeFor bytes⟩

inductive Action
  | allocate (bytes alignment : ℕ)
  | deallocate (p : Option ℕ) (bytes : ℕ)
  | write (p bytes offset value : ℕ)

/-- A caller may free what it has, and write into it. -/
def step (B : Buffer) (s : State) : Action → Option State
  | .allocate bytes alignment =>
    match allocate B s bytes alignment with
    | (none, s') => some s'
    | (some p, s') => some { s' with live := (p, bytes) :: s'.live }
  | .deallocate none bytes => some (deallocate s none bytes)
  | .deallocate (some p) bytes =>
    if (p, bytes) ∈ s.live then
      some { deallocate s (some p) bytes with live := s.live.erase (p, bytes) }
    else none
  | .write p bytes offset value =>
    if (p, bytes) ∈ s.live ∧ offset < blockSizeFor bytes then
      some { s with headers := update s.headers (p + offset) value }
    else none

/-- A new arena, whose memory holds anything. -/
structure Start (B : Buffer) (s : State) : Prop where
  currentPtr : s.currentPtr = B.arenaStart
  bins : s.bins = fun _ => []
  live : s.live = []

def machine (B : Buffer) : Machine State Action where
  init := Start B
  step := step B

/-- Who has a block: the callers, a bin, or an operation under way. -/
inductive Holder (τ : Type*)
  | callers
  | bin (b : ℕ)
  | operation (t : τ)
  deriving DecidableEq

/-- What the allocations reserve. -/
def reserved (live : List (ℕ × ℕ)) : List Span := live.map fun a => ⟨a.1, blockSizeFor a.2⟩

/-- A free block, as long as it was when it was freed. -/
def freed (headers : ℕ → ℕ) (p : ℕ) : Span := ⟨p, headers p⟩

/-- Who has what while the operation under way has the blocks `hand`. -/
def State.holdings (s : State) (hand : List Span) : Holder Unit → List Span
  | .callers => reserved s.live
  | .bin b => (s.bins b).map (freed s.headers)
  | .operation _ => hand

end MinStd.StaticArena
