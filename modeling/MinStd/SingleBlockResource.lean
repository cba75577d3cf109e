import MinStd.Transition
import MinStd.Chain
import MinStd.Words

/-!
# The single-block resource and its callers

`single_block_resource`, one atomic access a step.  `do_allocate` scans the list of the request's
size class when enough has been freed: it claims the first free block that fits by an exchange of
`in_use_`, and unlinks the blocks in use that it meets, by an exchange of the link that led it
there.  Otherwise it moves `next_empty_block_`.  `do_deallocate` clears `in_use_` and calls
`push_free`, which the flag `on_free_list_` keeps from pushing a block twice.

Addresses and sizes are 64-bit words, and a block is its header's address.  A caller calls
`deallocate` on a block it was handed and has not passed to `deallocate` since, with any size.  The
list of all blocks (`head_`), which only `get_allocation_info` reads, is left out.
-/

namespace MinStd.SingleBlockResource

abbrev Block := ℕ

/-- A `block_header *`: null, the end marker, or a block. -/
inductive Ptr
  | null
  | endOfListMarker
  | block (b : Block)
  deriving DecidableEq

/-- The memory the resource is given. -/
structure Buffer where
  block : ℕ
  size : ℕ
  fits : block + size < WORD64

def Buffer.endOfBlock (B : Buffer) : ℕ := B.block + B.size

def SIZE_MAX : ℕ := 2 ^ 64 - 1
def DEFAULT_ALIGNMENT : ℕ := 16
def BLOCK_HEADER_SIZE : ℕ := 48
def NUM_DEALLOCATION_BINS : ℕ := 16

def DEALLOCATION_BIN_SIZES : List ℕ :=
  [1024, 2048, 4096, 8192, 16384, 32768, 65536, 2 * 65536, 3 * 65536, 4 * 65536, 5 * 65536,
    6 * 65536, 7 * 65536, 8 * 65536, 9 * 65536, 10 * 65536]

/-- The first bin that holds the size with its header, else the last one. -/
def deallocationBin (bytes : ℕ) : ℕ :=
  (DEALLOCATION_BIN_SIZES.findIdx? fun size => bytes + BLOCK_HEADER_SIZE ≤ size).getD
    (NUM_DEALLOCATION_BINS - 1)

def alignPointer (ptr alignment : ℕ) : ℕ :=
  if ptr % alignment = 0 then ptr else sub64 (add64 ptr alignment) (ptr % alignment)

/-- The least multiple from an address on, however large. -/
def roundUp (ptr alignment : ℕ) : ℕ :=
  if ptr % alignment = 0 then ptr else ptr + alignment - ptr % alignment

/-- A request: its size and its effective alignment. -/
structure Request where
  bytes : ℕ
  alignment : ℕ
  alignment_pos : 0 < alignment
  deriving DecidableEq

def Request.of (bytes alignment : ℕ) : Request :=
  ⟨bytes, max alignment DEFAULT_ALIGNMENT, by unfold DEFAULT_ALIGNMENT; omega⟩

def Request.bin (r : Request) : ℕ := deallocationBin r.bytes

/-- The size with the header and the alignment would wrap. -/
def TooLarge (bytes : ℕ) (r : Request) : Prop :=
  sub64 (SIZE_MAX - BLOCK_HEADER_SIZE) r.alignment < bytes

instance (bytes : ℕ) (r : Request) : Decidable (TooLarge bytes r) :=
  inferInstanceAs (Decidable (_ < _))

/-- Who called `push_free`, and where it goes on: a scan that unlinked the block, or
`do_deallocate`. -/
inductive Cont
  | scan (r : Request) (previous : Option Block) (next : Ptr)
  | deallocated
  deriving DecidableEq

inductive Pc
  | idle
  | gate (r : Request)
  | loadHead (r : Request)
  | testEnd (r : Request) (previous : Option Block) (current : Ptr)
  | loadNext (r : Request) (previous : Option Block) (current : Block)
  | testFree (r : Request) (previous : Option Block) (current : Block) (next : Ptr)
  | claim (r : Request) (previous : Option Block) (current : Block) (next : Ptr)
  | testInUse (r : Request) (previous : Option Block) (current : Block) (next : Ptr)
  | unlink (r : Request) (previous : Option Block) (current : Block) (next : Ptr)
  | clearFlag (r : Request) (previous : Option Block) (current : Block) (next : Ptr)
  | recheck (r : Request) (previous : Option Block) (current : Block) (next : Ptr)
  | setRequested (r : Request) (b : Block)
  | loadTail (r : Request)
  | moveTail (r : Request) (nextBlock header following : ℕ)
  | initHeader (r : Request) (header following : ℕ)
  | testTail (b : Block) (bytes : ℕ)
  | testLive (b : Block) (bytes : ℕ)
  | testRequested (b : Block) (bytes : ℕ)
  | release (b : Block) (bytes : ℕ)
  | exchangeFlag (b : Block) (bin : ℕ) (k : Cont)
  | pushLoad (b : Block) (bin : ℕ) (k : Cont)
  | pushStore (b : Block) (bin : ℕ) (head : Ptr) (k : Cont)
  | pushCas (b : Block) (bin : ℕ) (head : Ptr) (k : Cont)
  | countDeallocation
  deriving DecidableEq

/-- The block whose link a thread is about to write, having unlinked it or set its flag. -/
def Pc.owned? : Pc → Option Block
  | .clearFlag _ _ b _ | .pushLoad b _ _ | .pushStore b _ _ _ | .pushCas b _ _ _ => some b
  | _ => none

/-- The block a thread is about to return to its caller, or was called with. -/
def Pc.held? : Pc → Option Block
  | .setRequested _ b | .testTail b _ | .testLive b _ | .testRequested b _ | .release b _ => some b
  | _ => none

/-- The header a thread has carved and not yet written. -/
def Pc.carved? : Pc → Option Block
  | .initHeader _ header _ => some header
  | _ => none

/-- The thread is in the loop over a list. -/
def Pc.scanning : Pc → Bool
  | .loadHead _ | .testEnd _ _ _ | .loadNext _ _ _ | .testFree _ _ _ _ | .claim _ _ _ _
  | .testInUse _ _ _ _ | .unlink _ _ _ _ | .clearFlag _ _ _ _ | .recheck _ _ _ _
  | .exchangeFlag _ _ (.scan _ _ _) | .pushLoad _ _ (.scan _ _ _) | .pushStore _ _ _ (.scan _ _ _)
  | .pushCas _ _ _ (.scan _ _ _) => true
  | _ => false

/-- `lists`, `created` and `callers` only record: the blocks each list should hold, the blocks
carved so far, and how often a block was handed out less how often it was passed to
`deallocate`. -/
structure State (Tid : Type*) where
  nextEmptyBlock : ℕ
  head : ℕ → Ptr
  nextDeallocated : Block → Ptr
  actualSize : Block → ℕ
  requestedSize : Block → ℕ
  inUse : Block → Bool
  onFreeList : Block → Bool
  totalAllocations : ℕ
  totalDeallocations : ℕ
  pc : Tid → Pc
  lists : ℕ → List Block
  created : Block → Bool
  callers : Block → ℕ

/-- A call, the totals a thread read from the sharded counters, or the next atomic step. -/
inductive Act
  | allocate (bytes alignment : ℕ)
  | deallocate (b : Block) (bytes : ℕ)
  | readTotals (deallocations allocations : ℕ)
  | run
  deriving DecidableEq

variable {Tid : Type*} [DecidableEq Tid]

namespace State

def start (firstBlock : ℕ) : State Tid where
  nextEmptyBlock := firstBlock
  head _ := .endOfListMarker
  nextDeallocated _ := .null
  actualSize _ := 0
  requestedSize _ := 0
  inUse _ := false
  onFreeList _ := false
  totalAllocations := 0
  totalDeallocations := 0
  pc _ := .idle
  lists _ := []
  created _ := false
  callers _ := 0

def setPc (s : State Tid) (t : Tid) (p : Pc) : State Tid :=
  { s with pc := Function.update s.pc t p }

def setNext (s : State Tid) (b : Block) (p : Ptr) : State Tid :=
  { s with nextDeallocated := Function.update s.nextDeallocated b p }

def setHead (s : State Tid) (bin : ℕ) (p : Ptr) : State Tid :=
  { s with head := Function.update s.head bin p }

def setInUse (s : State Tid) (b : Block) (v : Bool) : State Tid :=
  { s with inUse := Function.update s.inUse b v }

def setFlag (s : State Tid) (b : Block) (v : Bool) : State Tid :=
  { s with onFreeList := Function.update s.onFreeList b v }

def setList (s : State Tid) (bin : ℕ) (l : List Block) : State Tid :=
  { s with lists := Function.update s.lists bin l }

def setCallers (s : State Tid) (b : Block) (n : ℕ) : State Tid :=
  { s with callers := Function.update s.callers b n }

/-- The link a scan followed to its current block. -/
def linkTo (s : State Tid) (bin : ℕ) : Option Block → Ptr
  | none => s.head bin
  | some previous => s.nextDeallocated previous

def setLinkTo (s : State Tid) (bin : ℕ) (previous : Option Block) (p : Ptr) : State Tid :=
  match previous with
  | none => s.setHead bin p
  | some previous => s.setNext previous p

/-- The stores that make a carved block a block in use. -/
def initBlock (s : State Tid) (r : Request) (header following : ℕ) : State Tid :=
  { s with
    inUse := Function.update s.inUse header true
    onFreeList := Function.update s.onFreeList header false
    requestedSize := Function.update s.requestedSize header r.bytes
    actualSize := Function.update s.actualSize header (sub64 following header)
    nextDeallocated := Function.update s.nextDeallocated header .null
    created := Function.update s.created header true }

end State

/-- Where the header of the next block goes, and where the block after it. -/
def carve (B : Buffer) (nextBlock : ℕ) (r : Request) : Option (ℕ × ℕ) :=
  let returned := alignPointer (add64 nextBlock BLOCK_HEADER_SIZE) r.alignment
  if B.endOfBlock ≤ returned ∨ B.endOfBlock - returned < DEFAULT_ALIGNMENT
      ∨ B.endOfBlock - returned - DEFAULT_ALIGNMENT < r.bytes then none
  else
    let following := alignPointer (add64 returned r.bytes) DEFAULT_ALIGNMENT
    if B.endOfBlock ≤ following then none else some (sub64 returned BLOCK_HEADER_SIZE, following)

/-- The free block is large enough for the request and suitably aligned. -/
def fits (s : State Tid) (r : Request) (b : Block) : Bool :=
  r.bytes + BLOCK_HEADER_SIZE ≤ s.actualSize b ∧ (b + BLOCK_HEADER_SIZE) % r.alignment = 0

def afterPush : Cont → Pc
  | .scan r previous next => .testEnd r previous next
  | .deallocated => .countDeallocation

/-- One atomic step of the scan of a list, from the load of its head. -/
def scanStep (s : State Tid) (t : Tid) : Pc → Option (State Tid)
  | .loadHead r => s.setPc t (.testEnd r none (s.head r.bin))
  | .testEnd r previous (.block current) =>
    s.setPc t (if s.nextDeallocated current = .null then .loadTail r
      else .loadNext r previous current)
  | .testEnd r _ _ => s.setPc t (.loadTail r)
  | .loadNext r previous current =>
    s.setPc t (.testFree r previous current (s.nextDeallocated current))
  | .testFree r previous current next =>
    s.setPc t (if s.inUse current = false ∧ fits s r current then .claim r previous current next
      else .testInUse r previous current next)
  | .claim r previous current next =>
    if s.inUse current then s.setPc t (.testEnd r previous next)
    else (s.setInUse current true).setPc t (.setRequested r current)
  | .testInUse r previous current next =>
    s.setPc t (if s.inUse current then .unlink r previous current next
      else .testEnd r (some current) next)
  | .unlink r previous current next =>
    if s.linkTo r.bin previous = .block current then
      ((s.setLinkTo r.bin previous next).setList r.bin ((s.lists r.bin).erase current)).setPc t
        (.clearFlag r previous current next)
    else s.setPc t (.testEnd r (some current) next)
  | .clearFlag r previous current next =>
    (s.setFlag current false).setPc t (.recheck r previous current next)
  | .recheck r previous current next =>
    s.setPc t (if s.inUse current then .testEnd r previous next
      else .exchangeFlag current r.bin (.scan r previous next))
  | .setRequested r b =>
    (({ s with
        requestedSize := Function.update s.requestedSize b r.bytes
        totalAllocations := s.totalAllocations + 1 } : State Tid).setCallers b
      (s.callers b + 1)).setPc t .idle
  | _ => none

/-- One atomic step of `push_free`. -/
def pushFreeStep (s : State Tid) (t : Tid) : Pc → Option (State Tid)
  | .exchangeFlag b bin k =>
    (s.setFlag b true).setPc t (if s.onFreeList b then afterPush k else .pushLoad b bin k)
  | .pushLoad b bin k => s.setPc t (.pushStore b bin (s.head bin) k)
  | .pushStore b bin head k => (s.setNext b head).setPc t (.pushCas b bin head k)
  | .pushCas b bin head k =>
    if s.head bin = head then
      ((s.setHead bin (.block b)).setList bin (b :: s.lists bin)).setPc t (afterPush k)
    else s.setPc t (.pushStore b bin (s.head bin) k)
  | _ => none

/-- One atomic step of an allocation from the unused tail. -/
def tailStep (B : Buffer) (s : State Tid) (t : Tid) : Pc → Option (State Tid)
  | .loadTail r =>
    match carve B s.nextEmptyBlock r with
    | none => s.setPc t .idle
    | some (header, following) => s.setPc t (.moveTail r s.nextEmptyBlock header following)
  | .moveTail r nextBlock header following =>
    if s.nextEmptyBlock = nextBlock then
      ({ s with nextEmptyBlock := following }).setPc t (.initHeader r header following)
    else s.setPc t (.loadTail r)
  | .initHeader r header following =>
    ((({ s with totalAllocations := s.totalAllocations + 1 } : State Tid).initBlock r header
      following).setCallers header (s.callers header + 1)).setPc t .idle
  | _ => none

/-- One atomic step of `do_deallocate` outside `push_free`. -/
def deallocateStep (s : State Tid) (t : Tid) : Pc → Option (State Tid)
  | .testTail b bytes =>
    s.setPc t (if s.nextEmptyBlock ≤ b then .idle else .testLive b bytes)
  | .testLive b bytes => s.setPc t (if s.inUse b then .testRequested b bytes else .idle)
  | .testRequested b bytes =>
    s.setPc t (if s.requestedSize b = bytes then .release b bytes else .idle)
  | .release b bytes =>
    if s.inUse b then
      (s.setInUse b false).setPc t (.exchangeFlag b (deallocationBin bytes) .deallocated)
    else s.setPc t .idle
  | .countDeallocation =>
    ({ s with totalDeallocations := s.totalDeallocations + 1 }).setPc t .idle
  | _ => none

/-- One atomic step of thread `t`.  The counters are sharded, so the totals read lie at or below the
current ones. -/
def step (B : Buffer) (s : State Tid) (t : Tid) (a : Act) : Option (State Tid) :=
  match a, s.pc t with
  | .allocate bytes alignment, .idle =>
    if bytes < WORD64 ∧ alignment < WORD64 then
      let r := Request.of bytes alignment
      s.setPc t (if TooLarge bytes r then .idle else .gate r)
    else none
  | .readTotals deallocations allocations, .gate r =>
    if deallocations ≤ s.totalDeallocations ∧ allocations ≤ s.totalAllocations then
      s.setPc t (if allocations / 10 < deallocations then .loadHead r else .loadTail r)
    else none
  | .deallocate b bytes, .idle =>
    if 0 < s.callers b then (s.setCallers b (s.callers b - 1)).setPc t (.testTail b bytes)
    else none
  | .run, p =>
    (scanStep s t p).or <| (pushFreeStep s t p).or <| (tailStep B s t p).or <|
      deallocateStep s t p
  | _, _ => none

def machine (Tid : Type*) [DecidableEq Tid] (B : Buffer) : Machine (State Tid) (Tid × Act) where
  init s := s = .start (alignPointer B.block DEFAULT_ALIGNMENT)
  step s a := step B s a.1 a.2

/-- An exchange that unlinks a block finds the block before it still listed, and the block aimed
where it was when the scan read it. -/
def UnlinksListed (s : State Tid) (a : Tid × Act) : Prop :=
  match s.pc a.1 with
  | .unlink r previous current next => s.linkTo r.bin previous = .block current →
    (∀ b ∈ previous, b ∈ s.lists r.bin) ∧ s.nextDeallocated current = next
  | _ => True

instance (s : State Tid) (a : Tid × Act) : Decidable (UnlinksListed s a) := by
  unfold UnlinksListed
  split <;> infer_instance

/-- A request that takes memory from the tail finds room for its rounding: the addresses that are
rounded up do not wrap. -/
def CarvesBelow (B : Buffer) (s : State Tid) (a : Tid × Act) : Prop :=
  match s.pc a.1 with
  | .loadTail r => roundUp B.block DEFAULT_ALIGNMENT < WORD64
      ∧ roundUp (s.nextEmptyBlock + BLOCK_HEADER_SIZE) r.alignment < WORD64
  | _ => True

instance (B : Buffer) (s : State Tid) (a : Tid × Act) : Decidable (CarvesBelow B s a) := by
  unfold CarvesBelow
  split <;> infer_instance

/-- The steps that neither unlink from a block off the list nor wrap an address. -/
def Guarded (B : Buffer) (s : State Tid) (a : Tid × Act) : Prop :=
  UnlinksListed s a ∧ CarvesBelow B s a

instance (B : Buffer) (s : State Tid) (a : Tid × Act) : Decidable (Guarded B s a) :=
  inferInstanceAs (Decidable (_ ∧ _))

/-- A step of thread `t` in the loop over a list, from `s` to `s'`. -/
def ScanStep (B : Buffer) (t : Tid) (s' s : State Tid) : Prop :=
  (s.pc t).scanning ∧ UnlinksListed s (t, .run) ∧ step B s t .run = some s'

/-- Each list ends at the marker, its blocks are flagged and on no other list, a scan left to
itself ends, and no block is in two callers' hands. -/
structure Sound (B : Buffer) (s : State Tid) : Prop where
  ends : ∀ k, ∃ l, Linked .block s.nextDeallocated (s.head k) l .endOfListMarker ∧ l.Nodup
    ∧ ∀ b ∈ l, s.onFreeList b = true
  disjoint : ∀ j k l m, j ≠ k → Linked .block s.nextDeallocated (s.head j) l .endOfListMarker →
    Linked .block s.nextDeallocated (s.head k) m .endOfListMarker → l.Disjoint m
  scans : ∀ t, Acc (ScanStep B t) s
  callers : ∀ b, s.callers b ≤ 1

end MinStd.SingleBlockResource
