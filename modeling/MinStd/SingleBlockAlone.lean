import MinStd.SingleBlockResource

/-!
# The single-block resource run by one thread

Whole calls of `do_allocate` and `do_deallocate`, one after the other.  A caller may free any block
it was ever handed, as often as it likes and with any size.
-/

namespace MinStd.SingleBlockResource.Alone

/-- The members of the resource and the headers.  For the record: the blocks carved so far, the last
one first, and those handed out and not freed since, with their requests. -/
structure State where
  nextEmptyBlock : ℕ
  head : ℕ → Ptr
  nextDeallocated : Block → Ptr
  actualSize : Block → ℕ
  requestedSize : Block → ℕ
  inUse : Block → Bool
  onFreeList : Block → Bool
  totalAllocations : ℕ
  totalDeallocations : ℕ
  carved : List Block
  live : List (Block × Request)

namespace State

/-- The link a scan followed to its current block. -/
def linkTo (s : State) (bin : ℕ) : Option Block → Ptr
  | none => s.head bin
  | some previous => s.nextDeallocated previous

def setLinkTo (s : State) (bin : ℕ) (previous : Option Block) (p : Ptr) : State :=
  match previous with
  | none => { s with head := Function.update s.head bin p }
  | some previous => { s with nextDeallocated := Function.update s.nextDeallocated previous p }

def setFlag (s : State) (b : Block) (v : Bool) : State :=
  { s with onFreeList := Function.update s.onFreeList b v }

/-- The free block is large enough for the request and suitably aligned. -/
def Fits (s : State) (r : Request) (b : Block) : Prop :=
  r.bytes + BLOCK_HEADER_SIZE ≤ s.actualSize b ∧ (b + BLOCK_HEADER_SIZE) % r.alignment = 0

instance (s : State) (r : Request) (b : Block) : Decidable (s.Fits r b) :=
  inferInstanceAs (Decidable (_ ∧ _))

/-- The bin of a block's requested size. -/
def home (s : State) (b : Block) : ℕ := deallocationBin (s.requestedSize b)

end State

def pushFree (s : State) (b : Block) (bin : ℕ) : State :=
  if s.onFreeList b then s
  else
    { s.setFlag b true with
      nextDeallocated := Function.update s.nextDeallocated b (s.head bin)
      head := Function.update s.head bin (.block b) }

/-- A block in use is taken off the list.  Were it freed meanwhile, it would be pushed again. -/
def unlinkBlock (s : State) (bin : ℕ) (previous : Option Block) (current : Block) (next : Ptr) :
    State :=
  if s.inUse current then (s.setLinkTo bin previous next).setFlag current false
  else pushFree ((s.setLinkTo bin previous next).setFlag current false) current bin

/-- The loop over a list: the free block found, if there is one, and the state after. -/
def scanLoop (r : Request) : ℕ → State → Option Block → Ptr → Option (Option Block × State)
  | fuel + 1, s, previous, .block current =>
    if s.nextDeallocated current = .null then some (none, s)
    else if s.inUse current = false ∧ s.Fits r current then some (some current, s)
    else if s.inUse current ∧ s.linkTo r.bin previous = .block current then
      scanLoop r fuel (unlinkBlock s r.bin previous current (s.nextDeallocated current)) previous
        (s.nextDeallocated current)
    else scanLoop r fuel s (some current) (s.nextDeallocated current)
  | _, s, _, .endOfListMarker => some (none, s)
  | _, _, _, _ => none

/-- The free block is claimed for the request. -/
def claim (s : State) (r : Request) (b : Block) : State :=
  { s with
    inUse := Function.update s.inUse b true
    requestedSize := Function.update s.requestedSize b r.bytes
    totalAllocations := add64 s.totalAllocations 1
    live := (b, r) :: s.live }

/-- The carved block's header is written. -/
def initBlock (s : State) (r : Request) (header following : ℕ) : State :=
  { s with
    nextEmptyBlock := following
    inUse := Function.update s.inUse header true
    onFreeList := Function.update s.onFreeList header false
    requestedSize := Function.update s.requestedSize header r.bytes
    actualSize := Function.update s.actualSize header (sub64 following header)
    nextDeallocated := Function.update s.nextDeallocated header .null
    totalAllocations := add64 s.totalAllocations 1
    carved := header :: s.carved
    live := (header, r) :: s.live }

/-- More than a tenth as many deallocations as allocations. -/
def GateOpen (s : State) : Prop := s.totalAllocations / 10 < s.totalDeallocations

instance (s : State) : Decidable (GateOpen s) := inferInstanceAs (Decidable (_ < _))

/-- The search of the request's list.  The loop is given as many steps as there are blocks. -/
def search (s : State) (r : Request) : Option (Option Block × State) :=
  if GateOpen s then scanLoop r (s.carved.length + 1) s none (s.head r.bin) else some (none, s)

/-- A block from the unused tail. -/
def carveBlock (B : Buffer) (s : State) (r : Request) : Option Block × State :=
  match carve B s.nextEmptyBlock r with
  | none => (none, s)
  | some (header, following) => (some header, initBlock s r header following)

/-- The block handed out and the state after; `none` if the scan does not end. -/
def allocate (B : Buffer) (s : State) (bytes alignment : ℕ) : Option (Option Block × State) :=
  if TooLarge bytes (.of bytes alignment) then some (none, s)
  else
    (search s (.of bytes alignment)).map fun found =>
      match found.1 with
      | some b => (some b, claim found.2 (.of bytes alignment) b)
      | none => carveBlock B found.2 (.of bytes alignment)

def deallocate (s : State) (b : Block) (bytes : ℕ) : State :=
  if s.nextEmptyBlock ≤ b ∨ s.inUse b = false ∨ s.requestedSize b ≠ bytes then s
  else
    { pushFree { s with inUse := Function.update s.inUse b false } b (deallocationBin bytes) with
      totalDeallocations := add64 s.totalDeallocations 1
      live := s.live.filter fun p => p.1 ≠ b }

inductive Action
  | allocate (bytes alignment : ℕ)
  | deallocate (b : Block) (bytes : ℕ)

def step (B : Buffer) (s : State) : Action → Option State
  | .allocate bytes alignment =>
    if bytes < WORD64 ∧ alignment < WORD64 then (allocate B s bytes alignment).map Prod.snd
    else none
  | .deallocate b bytes => if b ∈ s.carved then some (deallocate s b bytes) else none

/-- A new resource, in memory that holds anything. -/
structure Start (B : Buffer) (s : State) : Prop where
  nextEmptyBlock : s.nextEmptyBlock = alignPointer B.block DEFAULT_ALIGNMENT
  head : s.head = fun _ => .endOfListMarker
  totalAllocations : s.totalAllocations = 0
  totalDeallocations : s.totalDeallocations = 0
  carved : s.carved = []
  live : s.live = []

def machine (B : Buffer) : Machine State Action where
  init := Start B
  step := step B

/-- A free block of the request's class is large enough for it and suitably aligned. -/
def FreeFit (s : State) (r : Request) : Prop :=
  ∃ b ∈ s.carved, s.inUse b = false ∧ s.home b = r.bin ∧ s.Fits r b

instance (s : State) (r : Request) : Decidable (FreeFit s r) :=
  inferInstanceAs (Decidable (∃ b ∈ s.carved, _ ∧ _ ∧ _))

/-- Where a request takes memory from the tail, the addresses that are rounded up do not wrap. -/
def NoWrap (B : Buffer) (s : State) : Action → Prop
  | .allocate bytes alignment =>
    ¬ TooLarge bytes (.of bytes alignment) → ¬ (GateOpen s ∧ FreeFit s (.of bytes alignment)) →
      roundUp B.block DEFAULT_ALIGNMENT < WORD64
        ∧ roundUp (s.nextEmptyBlock + BLOCK_HEADER_SIZE) (max alignment DEFAULT_ALIGNMENT)
          < WORD64
  | .deallocate _ _ => True

instance (B : Buffer) (s : State) : ∀ a, Decidable (NoWrap B s a)
  | .allocate _ _ => inferInstanceAs (Decidable (_ → _ → _ ∧ _))
  | .deallocate _ _ => .isTrue trivial

end MinStd.SingleBlockResource.Alone
