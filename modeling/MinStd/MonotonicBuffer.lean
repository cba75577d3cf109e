import MinStd.Chain
import MinStd.Tiling
import MinStd.Transition
import MinStd.Words

/-!
# The monotonic buffer resource

A request is cut from the front of the current buffer.  One that does not fit there gets a new block
from upstream, of the next size, doubled until it holds the request with its alignment and a header;
the rest of that block is the current buffer from then on.  The headers chain the blocks up to the
last `release`, which gives them back and starts again with the buffer of the constructor.
-/

namespace MinStd.MonotonicBuffer

/-- `sizeof(block_header)`. -/
def HEADER_SIZE : ℕ := 16

/-- `alignof(block_header)`. -/
def HEADER_ALIGNMENT : ℕ := 8

def SIZE_MAX : ℕ := WORD64 - 1

/-- Memory given to the constructor. -/
structure Buffer where
  address : ℕ
  size : ℕ
  nonnull : 0 < address
  fits : address + size < WORD64

/-- The constructors' arguments, apart from the upstream resource. -/
inductive Arguments
  | none
  | initialSize (size : ℕ) (lt : size < WORD64)
  | buffer (B : Buffer)

structure Resource where
  arguments : Arguments
  /-- `upstream_resource_` is not null. -/
  upstream : Bool

namespace Resource

variable (R : Resource)

def initialBuffer : Option ℕ :=
  match R.arguments with
  | .buffer B => some B.address
  | _ => none

def initialBufferSize : ℕ :=
  match R.arguments with
  | .buffer B => B.size
  | _ => 0

/-- `next_buffer_size_` of a new resource. -/
def firstBufferSize : ℕ :=
  match R.arguments with
  | .none => 1024
  | .initialSize size _ => if 0 < size then size else 1024
  | .buffer B => if 0 < B.size then B.size else 1024

/-- The initial buffer, which is empty where there is none. -/
def initialSpan : Span := ⟨R.initialBuffer.getD 0, R.initialBufferSize⟩

end Resource

structure BlockHeader where
  size : ℕ
  next : Option ℕ

structure Allocation where
  address : ℕ
  bytes : ℕ
  alignment : ℕ
  deriving DecidableEq

/-- A block as upstream knows it. -/
structure Block where
  address : ℕ
  size : ℕ
  alignment : ℕ
  deriving DecidableEq

def Allocation.span (a : Allocation) : Span := ⟨a.address, a.bytes⟩

def Block.span (b : Block) : Span := ⟨b.address, b.size⟩

/-- A block behind its header. -/
def Block.usable (b : Block) : Span := ⟨b.address + HEADER_SIZE, b.size - HEADER_SIZE⟩

/-- The members and the headers in memory.  For the record: what was handed out since the last
`release`, and the blocks upstream has given out and not got back. -/
structure State where
  currentBuffer : Option ℕ
  currentBufferSize : ℕ
  nextBufferSize : ℕ
  allocatedBlocksHead : Option ℕ
  header : ℕ → BlockHeader
  live : List Allocation
  held : List Block

/-- `(ptr + alignment - 1) & ~(alignment - 1)`. -/
def alignUp (ptr alignment : ℕ) : ℕ :=
  add64 ptr (alignment - 1) &&& (WORD64 - 1 - (alignment - 1))

def padding (ptr alignment : ℕ) : ℕ := sub64 (alignUp ptr alignment) ptr

/-- An alignment the arithmetic cannot mask. -/
def Refused (alignment : ℕ) : Prop := alignment = 0 ∨ alignment &&& (alignment - 1) ≠ 0

instance (alignment : ℕ) : Decidable (Refused alignment) := inferInstanceAs (Decidable (_ ∨ _))

variable (R : Resource) (s : State)

/-- What the current buffer has room for. -/
def fromCurrent (bytes alignment : ℕ) : Option (ℕ × State) :=
  match s.currentBuffer with
  | none => none
  | some ptr =>
    let padding := padding ptr alignment
    if padding ≤ s.currentBufferSize ∧ bytes ≤ s.currentBufferSize - padding then
      some (ptr + padding,
        { s with
          currentBuffer := some (ptr + (padding + bytes))
          currentBufferSize := s.currentBufferSize - (padding + bytes)
          live := ⟨ptr + padding, bytes, alignment⟩ :: s.live })
    else none

/-- The doubling loop.  Doubled 64 times a word is zero, and stays so. -/
def doubled : ℕ → ℕ → ℕ → Option ℕ
  | 0, _, _ => none
  | fuel + 1, size, required =>
    if size < required then doubled fuel (mul64 size 2) required else some size

/-- Where the loop starts. -/
def startSize : ℕ := if 0 < s.nextBufferSize then s.nextBufferSize else HEADER_SIZE

/-- The size that is asked of upstream, if the loop ends. -/
def nextSize (bytes alignment : ℕ) : Option ℕ :=
  doubled 65 (startSize s) (add64 (add64 bytes HEADER_SIZE) alignment)

/-- The request is cut from a new block. -/
def fromBlock (bytes alignment size block : ℕ) : ℕ × State :=
  let blockStart := block + HEADER_SIZE
  let usableSize := sub64 size HEADER_SIZE
  let aligned := alignUp blockStart alignment
  let padding := padding blockStart alignment
  (aligned,
    { currentBuffer := some (blockStart + padding + bytes)
      currentBufferSize := sub64 (sub64 usableSize padding) bytes
      nextBufferSize := if size ≤ SIZE_MAX / 4 then mul64 size 2 else size
      allocatedBlocksHead := some block
      header := Function.update s.header block ⟨size, s.allocatedBlocksHead⟩
      live := ⟨aligned, bytes, alignment⟩ :: s.live
      held := ⟨block, size, HEADER_ALIGNMENT⟩ :: s.held })

/-- `do_allocate`, with what upstream answers if it is asked.  `none` if the loop does not end. -/
def allocate (bytes alignment : ℕ) (answer : Option ℕ) : Option (Option ℕ × State) :=
  if bytes = 0 then some (none, s)
  else if Refused alignment then some (none, s)
  else
    match fromCurrent s bytes alignment with
    | some (result, s') => some (some result, s')
    | none =>
      if R.upstream = false then some (none, s)
      else if SIZE_MAX / 4 < bytes ∨ SIZE_MAX / 4 < alignment then some (none, s)
      else
        (nextSize s bytes alignment).map fun size =>
          match answer with
          | none => (none, s)
          | some block =>
            (some (fromBlock s bytes alignment size block).1,
              (fromBlock s bytes alignment size block).2)

/-- The loop of `release` and the blocks it gives back. -/
def releaseLoop (header : ℕ → BlockHeader) : ℕ → Option ℕ → Option (List Block)
  | _, none => some []
  | 0, some _ => none
  | fuel + 1, some current =>
    (releaseLoop header fuel (header current).next).map fun calls =>
      if R.upstream then ⟨current, (header current).size, HEADER_ALIGNMENT⟩ :: calls else calls

/-- The loop is given as many steps as there are blocks.  `none` if it does not end by then. -/
def release : Option (List Block × State) :=
  (releaseLoop R s.header s.held.length s.allocatedBlocksHead).map fun calls =>
    (calls,
      { s with
        allocatedBlocksHead := none
        currentBuffer := R.initialBuffer
        currentBufferSize := R.initialBufferSize
        live := []
        held := s.held.diff calls })

inductive Action
  | allocate (bytes alignment : ℕ) (answer : Option ℕ)
  | deallocate (p bytes alignment : ℕ)
  | release

def step : Action → Option State
  | .allocate bytes alignment answer =>
    if bytes < WORD64 ∧ alignment < WORD64 then
      (allocate R s bytes alignment answer).map Prod.snd
    else none
  | .deallocate _ _ _ => some s
  | .release => (release R s).map Prod.snd

/-- A new resource, with memory that holds anything. -/
structure Start : Prop where
  currentBuffer : s.currentBuffer = R.initialBuffer
  currentBufferSize : s.currentBufferSize = R.initialBufferSize
  nextBufferSize : s.nextBufferSize = R.firstBufferSize
  allocatedBlocksHead : s.allocatedBlocksHead = none
  live : s.live = []
  held : s.held = []

def machine : Machine State Action where
  init := Start R
  step := step R

/-- No point is in both. -/
def Apart (b b' : Span) : Prop := ∀ x, b.Meets x → ¬ b'.Meets x

/-- The first is a part of the second. -/
def Inside (b b' : Span) : Prop := b'.start ≤ b.start ∧ b.start + b.len ≤ b'.start + b'.len

/-- Where requests may be: the initial buffer, and the blocks upstream has not got back. -/
def regions : List Span := R.initialSpan :: s.held.map Block.usable

/-- Memory that upstream may hand out: aligned, inside the address space and used by nobody. -/
structure Fresh (size block : ℕ) : Prop where
  nonnull : 0 < block
  aligned : block % HEADER_ALIGNMENT = 0
  fits : block + size < WORD64
  initial : Apart ⟨block, size⟩ R.initialSpan
  held : ∀ b ∈ s.held, Apart ⟨block, size⟩ b.span

/-- Upstream fails, or hands out such memory. -/
def Contract : Action → Prop
  | .allocate bytes alignment answer =>
    ∀ size block, nextSize s bytes alignment = some size → answer = some block →
      Fresh R s size block
  | _ => True

end MinStd.MonotonicBuffer
