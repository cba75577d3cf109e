import MinStd.BitblockSet

/-!
# The bitblock resource

Blocks of fixed-size elements, each with a bitblock set that says which elements are taken and a
count of those that are not.  A request tries the block its CPU freed into last, then its arena's
hint, then the blocks of its arena, adding a block when all are full and the cap allows one, then the
blocks of the other arenas.  An allocation's header says which block it is from and how many elements
it has, and a deallocation reads it.  Each action is one access, a set's accesses being its own.

Statistics and the arenas' block counts, which nothing reads, are left out.
-/

namespace MinStd.BitblockResource

open Function

variable {τ : Type*} [DecidableEq τ]

def HEADER_SIZE : ℕ := 16

/-- The values of `size_t`. -/
def SIZES : ℕ := 2 ^ 64

/-- The values of the 32-bit count of free elements. -/
def COUNTS : ℕ := 2 ^ 32

/-- The template's parameters and the number of arenas asked for.  The count of free elements is
initialized in braces, so the elements of a block fit it. -/
structure Params where
  ELEMENT_SIZE_IN_BYTES : ℕ
  ELEMENTS_PER_BLOCK : ℕ
  MAX_NUMBER_OF_ARENAS : ℕ
  MAX_NUMBER_OF_BLOCKS : ℕ
  requested : ℕ
  size_ge : 4 ≤ ELEMENT_SIZE_IN_BYTES
  size_mod : ELEMENT_SIZE_IN_BYTES % 16 = 0
  size_le : ELEMENT_SIZE_IN_BYTES ≤ 256
  elements_ge : 256 ≤ ELEMENTS_PER_BLOCK
  elements_lt : ELEMENTS_PER_BLOCK < COUNTS
  arenas_ge : 1 ≤ MAX_NUMBER_OF_ARENAS
  arenas_le : MAX_NUMBER_OF_ARENAS ≤ 32
  blocks_ge : 1 ≤ MAX_NUMBER_OF_BLOCKS

namespace Params

variable (P : Params)

/-- The size of a block's set. -/
def setSize : BitblockSet.Size := ⟨P.ELEMENTS_PER_BLOCK, Nat.le_trans (by decide) P.elements_ge⟩

/-- Where a block's elements start: after its links, its count, and its set. -/
def DATA_OFFSET : ℕ := 128 + (P.setSize.PADDED_NUM_WORDS * 8 + 63) / 64 * 64 + 64

/-- `sizeof(block)`. -/
def BLOCK_SIZE : ℕ :=
  (P.DATA_OFFSET + P.ELEMENT_SIZE_IN_BYTES * P.ELEMENTS_PER_BLOCK + 63) / 64 * 64

/-- `clamp_arena_count`. -/
def numberOfArenas : ℕ :=
  if P.requested = 0 then 1
  else min P.requested (min P.MAX_NUMBER_OF_ARENAS P.MAX_NUMBER_OF_BLOCKS)

def bytesWithHeader (numBytes : ℕ) : ℕ :=
  if SIZES - 1 - HEADER_SIZE < numBytes then 0 else numBytes + HEADER_SIZE

def elementsForBytes (numBytes : ℕ) : ℕ :=
  if bytesWithHeader numBytes = 0 then 0
  else (bytesWithHeader numBytes + P.ELEMENT_SIZE_IN_BYTES - 1) % SIZES / P.ELEMENT_SIZE_IN_BYTES

/-- The address of an element. -/
def elementAt (block index : ℕ) : ℕ := block + P.DATA_OFFSET + index * P.ELEMENT_SIZE_IN_BYTES

end Params

/-- A call of `allocate`, with the CPU it runs on. -/
structure Request where
  bytes : ℕ
  alignment : ℕ
  coreId : ℕ
  deriving DecidableEq

namespace Request

variable (P : Params) (R : Request)

def numElements : ℕ := P.elementsForBytes R.bytes

def arenaInUse : ℕ :=
  if R.coreId < P.numberOfArenas then R.coreId else R.coreId % P.numberOfArenas

def hintIndex : ℕ := R.coreId % P.MAX_NUMBER_OF_ARENAS

/-- The arena tried `offset` after the request's own. -/
def otherArena (offset : ℕ) : ℕ := (R.arenaInUse P + offset) % P.numberOfArenas

end Request

/-- Where a block is searched from. -/
inductive Where
  | coreHint
  | arenaHint
  | chain
  | other (offset : ℕ)
  deriving DecidableEq

/-- Elements handed out: their block, the first and how many.  For the record: who acquired them. -/
structure Claim (τ : Type*) where
  block : ℕ
  index : ℕ
  numElements : ℕ
  owner : τ
  deriving DecidableEq

/-- Where a thread is in a call. -/
inductive Pc (τ : Type*)
  | idle
  | loadCoreHint (R : Request)
  | loadArenaHint (R : Request)
  | loadFirst (R : Request)
  | reloadFirst (R : Request)
  | loadOther (R : Request) (offset : ℕ)
  | loadFree (w : Where) (block : ℕ) (R : Request)
  | scan (w : Where) (block : ℕ) (R : Request)
  | subFree (w : Where) (block index : ℕ) (R : Request)
  | storeHint (w : Where) (block index : ℕ) (R : Request)
  | finalize (w : Where) (block index : ℕ) (R : Request)
  | storeCoreHint (block index : ℕ) (R : Request)
  | handOut (block index : ℕ) (R : Request)
  | reserveLoad (R : Request)
  | reserveSwap (current : ℕ) (R : Request)
  | upstream (R : Request)
  | releaseReservation (R : Request)
  | firstForPush (block : ℕ) (R : Request)
  | pushSwap (block : ℕ) (expected : Option ℕ) (R : Request)
  | refuse (R : Request)
  | releasing (c : Claim τ) (coreId : ℕ)
  | addFree (c : Claim τ) (coreId : ℕ)
  | freeCoreHint (c : Claim τ) (coreId : ℕ)
  | freeArenaHint (c : Claim τ)
  | freed
  deriving DecidableEq

/-- An allocation not yet given back. -/
structure Allocation (τ : Type*) where
  ptr : ℕ
  bytes : ℕ
  claim : Claim τ
  deriving DecidableEq

/-- The blocks' fields by their address, the arenas' and the CPUs' pointers, the headers by their
address, and the calls under way.  For the record: the blocks there are, who is adding one, which
calls upstream gave nothing, and the allocations not yet given back. -/
structure State (τ : Type*) where
  nextBlock : ℕ → Option ℕ
  arenaIndex : ℕ → ℕ
  freeCount : ℕ → ℕ
  sets : ℕ → BitblockSet.State τ
  firstBlock : ℕ → Option ℕ
  allocationHint : ℕ → Option ℕ
  lastBlock : ℕ → Option ℕ
  totalBlocks : ℕ
  headers : ℕ → ℕ × ℕ
  pc : τ → Pc τ
  made : List ℕ
  reserving : List τ
  upstreamEmpty : τ → Bool
  live : List (Allocation τ)

variable (P : Params)

def newSet (Z : BitblockSet.Size) : BitblockSet.State τ :=
  ⟨BitblockSet.Bits.new Z, fun _ => .idle, fun _ => []⟩

namespace State

variable (s : State τ) (t : τ)

def setPc (p : Pc τ) : State τ := { s with pc := update s.pc t p }

def setSet (block : ℕ) (z : BitblockSet.State τ) : State τ :=
  { s with sets := update s.sets block z }

/-- A block is constructed in the space upstream gave. -/
def makeBlock (block arena : ℕ) : State τ :=
  { s with
    nextBlock := update s.nextBlock block none
    arenaIndex := update s.arenaIndex block arena
    freeCount := update s.freeCount block P.ELEMENTS_PER_BLOCK
    sets := update s.sets block (newSet P.setSize)
    made := block :: s.made }

/-- What upstream may give: space for a block, aligned as it asks, apart from the blocks there are. -/
def Fresh (block : ℕ) : Prop :=
  64 ∣ block ∧ ∀ b ∈ s.made, b + P.BLOCK_SIZE ≤ block ∨ block + P.BLOCK_SIZE ≤ b

instance (block : ℕ) : Decidable (s.Fresh P block) := inferInstanceAs (Decidable (_ ∧ _))

end State

/-- The constructor's loop over the arenas, upstream having `spaces` for them. -/
def construct (spaces : ℕ → Option ℕ) : ℕ → State τ
  | 0 => ⟨fun _ => none, fun _ => 0, fun _ => 0, fun _ => newSet P.setSize, fun _ => none,
      fun _ => none, fun _ => none, 0, fun _ => (0, 0), fun _ => .idle, [], [], fun _ => false, []⟩
  | arena + 1 =>
    match spaces arena with
    | none => construct spaces arena
    | some block =>
      { (construct spaces arena).makeBlock P block arena with
        firstBlock := update (construct spaces arena).firstBlock arena (some block)
        totalBlocks := (construct spaces arena).totalBlocks + 1 }

/-- `acquire_next_empty_block` turns the request away at once. -/
def TooMany (R : Request) : Prop :=
  R.numElements P = 0 ∨ P.ELEMENTS_PER_BLOCK < R.numElements P ∨ 16 < R.numElements P

instance (R : Request) : Decidable (TooMany P R) := inferInstanceAs (Decidable (_ ∨ _))

/-- The head of the loop over the other arenas. -/
def enterOther (R : Request) (offset : ℕ) : Pc τ :=
  if offset < P.numberOfArenas then
    if R.numElements P = 0 ∨ 16 < R.numElements P then .refuse R else .loadOther R offset
  else .refuse R

/-- The arena's own `do_allocate`. -/
def enterChain (R : Request) : Pc τ :=
  if R.numElements P = 0 ∨ 16 < R.numElements P then enterOther P R 1 else .loadFirst R

/-- A block had nothing for the request, `next` being the block after it. -/
def miss (w : Where) (next : Option ℕ) (R : Request) : Pc τ :=
  match w, next with
  | .coreHint, _ => .loadArenaHint R
  | .arenaHint, _ => enterChain P R
  | .chain, some block => .loadFree .chain block R
  | .chain, none => .reserveLoad R
  | .other offset, some block => .loadFree (.other offset) block R
  | .other offset, none => enterOther P R (offset + 1)

/-- `acquire_next_empty_block`, up to its first access. -/
def enterBlock (s : State τ) (w : Where) (block : ℕ) (R : Request) : Pc τ :=
  if TooMany P R then miss P w (s.nextBlock block) R else .loadFree w block R

/-- The head of the loop that reserves a block, `current` having been read. -/
def enterReserve (current : ℕ) (R : Request) : Pc τ :=
  if current < P.MAX_NUMBER_OF_BLOCKS then .reserveSwap current R else enterOther P R 1

/-- The allocation `t` makes of the elements it has acquired. -/
def allocation (t : τ) (block index : ℕ) (R : Request) : Allocation τ :=
  ⟨P.elementAt block index + HEADER_SIZE, R.bytes, ⟨block, index, R.numElements P, t⟩⟩

/-- The next access of the search for elements. -/
def stepSearch (s : State τ) (t : τ) (spurious : Bool) : Option (State τ) :=
  match s.pc t with
  | .loadCoreHint R =>
    match s.lastBlock (R.hintIndex P) with
    | some block =>
      some (s.setPc t (if s.arenaIndex block = R.arenaInUse P then enterBlock P s .coreHint block R
        else .loadArenaHint R))
    | none => some (s.setPc t (.loadArenaHint R))
  | .loadArenaHint R =>
    match s.allocationHint (R.arenaInUse P) with
    | some block => some (s.setPc t (enterBlock P s .arenaHint block R))
    | none => some (s.setPc t (enterChain P R))
  | .loadFirst R =>
    match s.firstBlock (R.arenaInUse P) with
    | some block => some (s.setPc t (.loadFree .chain block R))
    | none => some (s.setPc t (.reserveLoad R))
  | .reloadFirst R =>
    match s.firstBlock (R.arenaInUse P) with
    | some block => some (s.setPc t (.loadFree .chain block R))
    | none => none
  | .loadOther R offset =>
    match s.firstBlock (R.otherArena P offset) with
    | some block => some (s.setPc t (.loadFree (.other offset) block R))
    | none => some (s.setPc t (enterOther P R (offset + 1)))
  | .loadFree w block R =>
    if s.freeCount block < R.numElements P then
      some (s.setPc t (miss P w (s.nextBlock block) R))
    else
      some ((s.setSet block ((s.sets block).setPc t
        (BitblockSet.acquireFirstAvailableContiguous (R.numElements P) R.coreId))).setPc t
        (.scan w block R))
  | .scan w block R =>
    match (s.sets block).pc t with
    | .found (some index) =>
      some ((s.setSet block ((s.sets block).setPc t .idle)).setPc t (.subFree w block index R))
    | .found none =>
      some ((s.setSet block ((s.sets block).setPc t .idle)).setPc t
        (miss P w (s.nextBlock block) R))
    | _ => (BitblockSet.stepRun P.setSize (s.sets block) t spurious).map (s.setSet block)
  | _ => none

/-- The next access after elements were acquired. -/
def stepFound (s : State τ) (t : τ) : Option (State τ) :=
  match s.pc t with
  | .subFree w block index R =>
    some ({ s with
      freeCount := update s.freeCount block
        ((s.freeCount block + COUNTS - R.numElements P) % COUNTS) }.setPc t
      (.storeHint w block index R))
  | .storeHint .arenaHint block index R =>
    some ({ s with lastBlock := update s.lastBlock (R.hintIndex P) (some block) }.setPc t
      (.finalize .arenaHint block index R))
  | .storeHint (.other offset) block index R =>
    some ({ s with
      allocationHint := update s.allocationHint (R.otherArena P offset) (some block) }.setPc t
      (.finalize (.other offset) block index R))
  | .storeHint w block index R =>
    some ({ s with
      allocationHint := update s.allocationHint (R.arenaInUse P) (some block) }.setPc t
      (.finalize w block index R))
  | .finalize w block index R =>
    some ({ s with
      headers := update s.headers (P.elementAt block index) (block, R.numElements P) }.setPc t
      (if w = Where.coreHint ∨ w = Where.arenaHint then .handOut block index R
      else .storeCoreHint block index R))
  | .storeCoreHint block index R =>
    some ({ s with
      lastBlock := update s.lastBlock (R.hintIndex P)
        (some (s.headers (P.elementAt block index)).1) }.setPc t (.handOut block index R))
  | .handOut block index R =>
    some ({ s with live := allocation P t block index R :: s.live }.setPc t .idle)
  | _ => none

/-- The next access of `add_new_block`; `space` is what upstream gives. -/
def stepAdd (s : State τ) (t : τ) (spurious : Bool) (space : Option ℕ) : Option (State τ) :=
  match s.pc t with
  | .reserveLoad R => some (s.setPc t (enterReserve P s.totalBlocks R))
  | .reserveSwap current R =>
    if s.totalBlocks = current ∧ spurious = false then
      some ({ s with totalBlocks := current + 1, reserving := t :: s.reserving }.setPc t
        (.upstream R))
    else some (s.setPc t (enterReserve P s.totalBlocks R))
  | .upstream R =>
    match space with
    | none =>
      some ({ s with upstreamEmpty := update s.upstreamEmpty t true }.setPc t
        (.releaseReservation R))
    | some block =>
      if s.Fresh P block then
        some ({ s.makeBlock P block (R.arenaInUse P) with
          reserving := s.reserving.erase t }.setPc t (.firstForPush block R))
      else none
  | .releaseReservation R =>
    some ({ s with totalBlocks := s.totalBlocks - 1, reserving := s.reserving.erase t }.setPc t
      (enterOther P R 1))
  | .firstForPush block R =>
    some ({ s with
      nextBlock := update s.nextBlock block (s.firstBlock (R.arenaInUse P)) }.setPc t
      (.pushSwap block (s.firstBlock (R.arenaInUse P)) R))
  | .pushSwap block expected R =>
    if s.firstBlock (R.arenaInUse P) = expected then
      some ({ s with
        firstBlock := update s.firstBlock (R.arenaInUse P) (some block) }.setPc t (.reloadFirst R))
    else
      some ({ s with
        nextBlock := update s.nextBlock block (s.firstBlock (R.arenaInUse P)) }.setPc t
        (.pushSwap block (s.firstBlock (R.arenaInUse P)) R))
  | _ => none

/-- The next access of a deallocation. -/
def stepFree (s : State τ) (t : τ) (spurious : Bool) : Option (State τ) :=
  match s.pc t with
  | .releasing c coreId =>
    match (s.sets c.block).pc t with
    | .ret _ =>
      some ((s.setSet c.block ((s.sets c.block).setPc t .idle)).setPc t (.addFree c coreId))
    | _ => (BitblockSet.stepRun P.setSize (s.sets c.block) t spurious).map (s.setSet c.block)
  | .addFree c coreId =>
    some ({ s with
      freeCount := update s.freeCount c.block
        ((s.freeCount c.block + c.numElements) % COUNTS) }.setPc t (.freeCoreHint c coreId))
  | .freeCoreHint c coreId =>
    some ({ s with
      lastBlock := update s.lastBlock (coreId % P.MAX_NUMBER_OF_ARENAS) (some c.block) }.setPc t
      (.freeArenaHint c))
  | .freeArenaHint c =>
    some ({ s with
      allocationHint := update s.allocationHint (s.arenaIndex c.block) (some c.block) }.setPc t
      .freed)
  | _ => none

def stepRun (s : State τ) (t : τ) (spurious : Bool) (space : Option ℕ) : Option (State τ) :=
  match s.pc t with
  | .refuse _ => some (s.setPc t .idle)
  | .freed => some (s.setPc t .idle)
  | _ => ((stepSearch P s t spurious).or (stepFound P s t)).or
      ((stepAdd P s t spurious space).or (stepFree P s t spurious))

/-- `release` of a set, up to its first access. -/
def release (z : BitblockSet.State τ) (t : τ) (c : Claim τ) : BitblockSet.State τ :=
  if BitblockSet.validateRequest P.setSize c.index c.numElements = .success then
    (z.revoke c.owner c.index c.numElements).setPc t (.releaseHint c.index c.numElements)
  else z.setPc t (.ret (BitblockSet.validateRequest P.setSize c.index c.numElements))

/-- What a deallocation reads in the header before a pointer. -/
def fromHeader (s : State τ) (a : Allocation τ) : Claim τ :=
  ⟨(s.headers (a.ptr - HEADER_SIZE)).1,
    (a.ptr - HEADER_SIZE - ((s.headers (a.ptr - HEADER_SIZE)).1 + P.DATA_OFFSET))
      / P.ELEMENT_SIZE_IN_BYTES,
    (s.headers (a.ptr - HEADER_SIZE)).2, a.claim.owner⟩

inductive Action (τ : Type*)
  | allocate (t : τ) (R : Request)
  | deallocate (t : τ) (a : Allocation τ) (coreId : ℕ)
  | deallocateNull (t : τ)
  | write (a : Allocation τ) (x : ℕ) (value : ℕ × ℕ)
  | run (t : τ) (spurious : Bool) (space : Option ℕ)

/-- A caller frees what it has, and writes into it. -/
def step (s : State τ) : Action τ → Option (State τ)
  | .allocate t R =>
    if s.pc t = .idle then
      some ({ s with upstreamEmpty := update s.upstreamEmpty t false }.setPc t
        (if HEADER_SIZE < R.alignment ∨ R.numElements P = 0 then .refuse R else .loadCoreHint R))
    else none
  | .deallocate t a coreId =>
    if s.pc t = .idle ∧ a ∈ s.live then
      some (({ s with live := s.live.erase a }.setSet (fromHeader P s a).block
        (release P (s.sets (fromHeader P s a).block) t (fromHeader P s a))).setPc t
        (.releasing (fromHeader P s a) coreId))
    else none
  | .deallocateNull t => if s.pc t = .idle then some (s.setPc t .freed) else none
  | .write a x value =>
    if a ∈ s.live ∧ a.ptr ≤ x ∧ x < a.ptr + a.bytes then
      some { s with headers := update s.headers x value }
    else none
  | .run t spurious space => stepRun P s t spurious space

/-- A new resource, upstream having given space for some of the arenas' first blocks. -/
def Start (s : State τ) : Prop :=
  ∃ spaces : ℕ → Option ℕ, (∀ arena < P.numberOfArenas, ∀ block, spaces arena = some block →
    (construct (τ := τ) P spaces arena).Fresh P block) ∧ s = construct P spaces P.numberOfArenas

def machine : Machine (State τ) (Action τ) where
  init := Start P
  step := step P

/-- The thread whose step it is. -/
def Action.By (t : τ) : Action τ → Prop
  | .allocate u _ => u = t
  | .deallocate u _ _ => u = t
  | .deallocateNull u => u = t
  | .write _ _ _ => True
  | .run u _ _ => u = t

end MinStd.BitblockResource
