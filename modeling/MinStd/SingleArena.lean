import MinStd.ArenaRegions
import MinStd.SizeClasses
import MinStd.BoundedLoop
import MinStd.Transition

/-!
# The single-arena resource run by one context

Whole calls of `do_allocate` and `do_try_deallocate`, one after the other, each on any CPU.  A block
that is freed waits on a pending list until a maintenance window gives it back to the frontier or
files it in a bin; its metadata record goes with it.

Addresses are in units of 64 bytes from `allocation_base_`, sizes in bytes; record `i` is the unit
`metadataStart - i`.  A stack is the list of its records.  What a compare-and-swap expects was read
just before it, so alone each succeeds, and what is looked at again after one has not changed.

A pointer given to `do_try_deallocate` is named by the unit of the header in front of it, so it is a
multiple of 64 bytes from the base.  One that is not is outside the model.
-/

namespace MinStd.SingleArena

open Function SizeClasses
open ArenaRegions (BlockState AllocationState Header packFrontier unpackFrontier unpackPredecessor
  managerFor NO_PREDECESSOR METADATA_RECORDS_PER_BLOCK TRIMMING_MASK ACTIVE_COUNT_MASK
  MAX_BLOCK_BYTES)

/-! ### The layout -/

def alignPointer (ptr alignment : ℕ) : ℕ :=
  if ptr % alignment = 0 then ptr else ptr + alignment - ptr % alignment

def alignedBlockSize (block blockSize : ℕ) : ℕ :=
  blockSize - (alignPointer block DEFAULT_ALIGNMENT - block)

def ALLOCATION_HEADER_SIZE : ℕ := 64

def ALLOCATION_METADATA_SIZE : ℕ := 64

def METADATA_BLOCK_BYTES : ℕ := METADATA_RECORDS_PER_BLOCK * ALLOCATION_METADATA_SIZE

/-- The arrays of pending shards and of bins, with 64 bytes an entry. -/
def shardBytes (p : BinPolicy) (cpuShards : ℕ) : ℕ :=
  cpuShards * 64 + NUM_FREE_BLOCK_BINS p * cpuShards * 64

def minimumBlockSize (p : BinPolicy) (cpuShards : ℕ) : ℕ :=
  2 * DEFAULT_ALIGNMENT + shardBytes p cpuShards + 64 + METADATA_BLOCK_BYTES + 2 * DEFAULT_ALIGNMENT

/-- The caller's block, the shards and the size classes, with what the constructor asserts.  What the
code may find as the end of a block is an address. -/
structure Buffer where
  block : ℕ
  blockSize : ℕ
  cpuShards : ℕ
  policy : BinPolicy
  shards_pos : 0 < cpuShards
  units_lt : alignedBlockSize block blockSize / DEFAULT_ALIGNMENT < NO_PREDECESSOR
  usable : minimumBlockSize policy cpuShards ≤ alignedBlockSize block blockSize
  fits : block + blockSize + MAX_BLOCK_BYTES ≤ 2 ^ 64

namespace Buffer

variable (B : Buffer)

/-- Where the managers start. -/
def blockManagers : ℕ := alignPointer B.block DEFAULT_ALIGNMENT + shardBytes B.policy B.cpuShards

/-- The end of record 0. -/
def metadataEnd : ℕ := (B.block + B.blockSize) / ALLOCATION_METADATA_SIZE * ALLOCATION_METADATA_SIZE

def managers : ℕ := (B.metadataEnd - B.blockManagers) / (METADATA_BLOCK_BYTES + 64)

def allocationBase : ℕ := alignPointer (B.blockManagers + B.managers * 64) DEFAULT_ALIGNMENT

/-- Record 0, in units from `allocation_base_`. -/
def recordZero : ℕ :=
  (B.metadataEnd - ALLOCATION_METADATA_SIZE - B.allocationBase) / DEFAULT_ALIGNMENT

end Buffer

def NUM_ADDRESS_BINS : ℕ := 8

/-- What the constructor works out of the caller's block. -/
structure Resource extends Buffer where
  maintenanceWindowThreshold : ℕ
  threshold_pos : 0 < maintenanceWindowThreshold
  managerCapacity : ℕ
  metadataStart : ℕ
  addressBinSize : ℕ
  managerCapacity_eq : managerCapacity = toBuffer.managers
  metadataStart_eq : metadataStart = toBuffer.recordZero
  addressBinSize_eq : addressBinSize = max 1 (alignedBlockSize block blockSize / NUM_ADDRESS_BINS)

namespace Resource

variable (R : Resource)

def cpuShardIndex (cpu : ℕ) : ℕ := if cpu < R.cpuShards then cpu else cpu % R.cpuShards

/-- More rounds than a loop can make. -/
def rounds : ℕ := R.metadataStart + 2

end Resource

/-! ### State -/

/-- `block_metadata`. -/
structure Record where
  blockState : BlockState
  requestedSize : ℕ
  totalSize : ℕ
  alignment : ℕ
  originalShard : ℕ
  deriving DecidableEq

/-- The words of the resource, the headers and the records.  A bin is named by its place in the
array and the part of the arena that its blocks are in. -/
structure State where
  nextEmptyMemoryBlock : ℕ
  frontierReclaimInProgress : Bool
  currentMetadataRecordCount : ℕ
  localFree : ℕ → List ℕ
  stateAndActiveCount : ℕ → ℕ
  pending : ℕ → List ℕ
  pendingCount : ℕ → ℕ
  maintenanceWindowOpen : ℕ → Bool
  bins : ℕ × ℕ → List ℕ
  headers : ℕ → Header
  records : ℕ → Record

namespace State

def state (s : State) (i : ℕ) : AllocationState := (s.records i).blockState.state

def blockOf (s : State) (i : ℕ) : Option ℕ := (s.records i).blockState.block

def setRecord (s : State) (i : ℕ) (x : Record) : State :=
  { s with records := update s.records i x }

def setWord (s : State) (i : ℕ) (word : BlockState) : State :=
  s.setRecord i { s.records i with blockState := word }

def setState (s : State) (i : ℕ) (x : AllocationState) : State :=
  s.setWord i { (s.records i).blockState with state := x }

def setHeader (s : State) (block : ℕ) (h : Header) : State :=
  { s with headers := update s.headers block h }

def setManager (s : State) (manager word : ℕ) : State :=
  { s with stateAndActiveCount := update s.stateAndActiveCount manager word }

def setFree (s : State) (manager : ℕ) (l : List ℕ) : State :=
  { s with localFree := update s.localFree manager l }

def setBin (s : State) (key : ℕ × ℕ) (l : List ℕ) : State :=
  { s with bins := update s.bins key l }

end State

variable (R : Resource)

/-! ### Bins -/

def addressBinFor (block : ℕ) : ℕ :=
  if block = 0 then 0
  else if NUM_ADDRESS_BINS ≤ block * DEFAULT_ALIGNMENT / R.addressBinSize then
    NUM_ADDRESS_BINS - 1
  else block * DEFAULT_ALIGNMENT / R.addressBinSize

def binIndex (bin shard : ℕ) : ℕ := bin * R.cpuShards + shard

namespace State

variable (s : State) (i : ℕ)

/-- The shard that the record's block is queued and kept at. -/
def targetShard : ℕ := (s.records i).originalShard % R.cpuShards

/-- The stack that the record's block is kept on when it is free. -/
def binKey : ℕ × ℕ :=
  (binIndex R (freeBlockBinIndex R.policy (s.records i).totalSize) (s.targetShard R i),
    ((s.blockOf i).map (addressBinFor R)).getD 0)

end State

/-! ### Records -/

def reserveActiveSlot (s : State) (manager : ℕ) : Option State :=
  if s.stateAndActiveCount manager &&& TRIMMING_MASK ≠ 0
      ∨ s.stateAndActiveCount manager &&& ACTIVE_COUNT_MASK = ACTIVE_COUNT_MASK then none
  else some (s.setManager manager (s.stateAndActiveCount manager + 1))

def releaseActiveSlot (s : State) (manager : ℕ) : State :=
  s.setManager manager (ArenaRegions.releaseSlot (s.stateAndActiveCount manager))

inductive MetadataGrowthResult
  | GROWN
  | RETRY (currentCount : ℕ)
  | NO_ROOM

/-- The end of the record `currentCount` is not above the frontier. -/
def ReachesFrontier (s : State) (currentCount : ℕ) : Prop :=
  R.metadataStart ≤ unpackFrontier s.nextEmptyMemoryBlock + (currentCount + 1)

instance (s : State) (currentCount : ℕ) : Decidable (ReachesFrontier R s currentCount) :=
  Nat.decLe _ _

def growMetadataRegion (s : State) (currentCount : ℕ) : MetadataGrowthResult × State :=
  if ReachesFrontier R s currentCount then (.NO_ROOM, s)
  else if s.currentMetadataRecordCount = currentCount then
    (.GROWN, { s with currentMetadataRecordCount := currentCount + 1 })
  else (.RETRY s.currentMetadataRecordCount, s)

def recycleMetadata (s : State) (i : ℕ) : State :=
  let s := s.setWord i ⟨none, .METADATA_AVAILABLE, (s.records i).blockState.version⟩
  releaseActiveSlot (s.setFree (managerFor i) (i :: s.localFree (managerFor i))) (managerFor i)

/-- The managers are looked through for a free record. -/
def popFreeRecord (s : State) : List ℕ → Option ℕ × State
  | [] => (none, s)
  | manager :: rest =>
    match reserveActiveSlot s manager with
    | none => popFreeRecord s rest
    | some s =>
      match s.localFree manager with
      | [] => popFreeRecord (releaseActiveSlot s manager) rest
      | i :: l => (some i, s.setFree manager l)

/-- A round of the growth, from the count that was read. -/
def growRound : State × ℕ → State × ℕ ⊕ Option ℕ × State
  | (s, currentCount) =>
    if R.managerCapacity ≤ managerFor currentCount then .inr (none, s)
    else
      match reserveActiveSlot s (managerFor currentCount) with
      | none => .inl (s, s.currentMetadataRecordCount)
      | some s =>
        match growMetadataRegion R s currentCount with
        | (.GROWN, s) => .inr (some currentCount, s)
        | (.NO_ROOM, s) => .inr (none, releaseActiveSlot s (managerFor currentCount))
        | (.RETRY count, s) => .inl (releaseActiveSlot s (managerFor currentCount), count)

/-- The managers up to the last one with a counted record. -/
def managersUpTo (count : ℕ) : List ℕ :=
  if 0 < count then List.range (managerFor (count - 1) + 1) else []

def getNextMetadataRecordIndex (s : State) : Option (Option ℕ × State) :=
  match popFreeRecord s (managersUpTo s.currentMetadataRecordCount) with
  | (some i, s') => some (some i, s')
  | (none, s') => loop (growRound R) R.rounds (s', s.currentMetadataRecordCount)

/-! ### The frontier -/

def FrontierOverlapsMetadata (s : State) (next : ℕ) : Prop :=
  R.metadataStart ≤ next + (s.currentMetadataRecordCount + 1)

instance (s : State) (next : ℕ) : Decidable (FrontierOverlapsMetadata R s next) := Nat.decLe _ _

/-- The unit that a block of the bin at `current` ends at. -/
def nextOf (bin current : ℕ) : ℕ :=
  alignPointer (current * DEFAULT_ALIGNMENT + binSize R.policy bin) DEFAULT_ALIGNMENT
    / DEFAULT_ALIGNMENT

def getNextEmptyMemoryBlock (s : State) (bin : ℕ) : Option ℕ × State :=
  let current := unpackFrontier s.nextEmptyMemoryBlock
  let next := nextOf R bin current
  if FrontierOverlapsMetadata R s next then (none, s)
  else (some current, { s.setHeader current
    { s.headers current with
      sizeIncludingHeader := (next - current) * DEFAULT_ALIGNMENT
      previousBlock := unpackPredecessor s.nextEmptyMemoryBlock } with
    nextEmptyMemoryBlock := packFrontier next (some current) })

/-- The block of the record ends at the frontier and is pending. -/
def EndsAtFrontier (s : State) (i : ℕ) : Prop :=
  s.state i = .DEALLOCATED_PENDING ∧ ∃ b ∈ s.blockOf i, b * DEFAULT_ALIGNMENT
    + (s.records i).totalSize = unpackFrontier s.nextEmptyMemoryBlock * DEFAULT_ALIGNMENT

instance (s : State) (i : ℕ) : Decidable (EndsAtFrontier s i) :=
  inferInstanceAs (Decidable (_ ∧ _))

/-- The frontier goes back to the start of the block. -/
def rollBack (s : State) (block : ℕ) : State :=
  { s with nextEmptyMemoryBlock := packFrontier block (s.headers block).previousBlock }

/-- Each round takes a record out of the batch. -/
def reclaimBatchLoop : ℕ → List ℕ → State → List ℕ × State
  | 0, batch, s => (batch, s)
  | left + 1, batch, s =>
    match batch.find? fun i => EndsAtFrontier s i with
    | none => (batch, s)
    | some i => reclaimBatchLoop left (batch.erase i)
        (recycleMetadata (rollBack (s.setState i .FRONTIER_RECLAIM_IN_PROGRESS)
          ((s.blockOf i).getD 0)) i)

def reclaimPendingFrontierBatch (batch : List ℕ) (s : State) : List ℕ × State :=
  if s.frontierReclaimInProgress then (batch, s)
  else
    let out := reclaimBatchLoop batch.length batch { s with frontierReclaimInProgress := true }
    (out.1, { out.2 with frontierReclaimInProgress := false })

/-- The topmost block is given back if it is free. -/
def tryReclaimRound (s : State) : State ⊕ State :=
  match unpackPredecessor s.nextEmptyMemoryBlock with
  | none => .inr s
  | some prev =>
    let i := (s.headers prev).metadataIndex % WORD32
    if s.currentMetadataRecordCount ≤ i then .inr s
    else if s.blockOf i ≠ some prev then .inr s
    else if s.state i ≠ .AVAILABLE then .inr s
    else .inl ((rollBack (s.setState i .FRONTIER_RECLAIM_IN_PROGRESS) prev).setState i
      .FRONTIER_RECLAIMED)

def tryReclaimFrontierBlocks (s : State) : Option State :=
  if s.frontierReclaimInProgress then some s
  else (loop tryReclaimRound R.rounds { s with frontierReclaimInProgress := true }).map fun s =>
    { s with frontierReclaimInProgress := false }

/-! ### Maintenance -/

/-- A pending block is put into its bin. -/
def publish (s : State) (i : ℕ) : State :=
  if s.state i = .DEALLOCATED_PENDING then
    let s := s.setState i .AVAILABLE
    s.setBin (s.binKey R i) (i :: s.bins (s.binKey R i))
  else s

def processPendingBatch (batch : List ℕ) (s : State) : State :=
  if batch = [] then s
  else
    let out := reclaimPendingFrontierBatch batch s
    out.1.foldl (publish R) out.2

/-- The stolen list is cut into batches. -/
def processPendingList : List ℕ → List ℕ → State → State
  | [], batch, s => processPendingBatch R batch s
  | i :: rest, batch, s =>
    if (batch ++ [i]).length = R.maintenanceWindowThreshold then
      processPendingList rest [] (processPendingBatch R (batch ++ [i]) s)
    else processPendingList rest (batch ++ [i]) s

/-- The pending list of the shard is taken whole. -/
def stealPendingDeallocationList (s : State) (shard : ℕ) : List ℕ × State :=
  (s.pending shard, { s with pending := update s.pending shard [] })

def reducePendingDeallocationCount (s : State) (shard stolenCount : ℕ) : State :=
  { s with pendingCount := update s.pendingCount shard (s.pendingCount shard - stolenCount) }

/-- The pending list is worked off, unless it is empty. -/
def windowRound (shard : ℕ) (s : State) : State ⊕ State :=
  match stealPendingDeallocationList s shard with
  | ([], s) => .inr s
  | (i :: l, s) => .inl (reducePendingDeallocationCount (processPendingList R (i :: l) [] s) shard
      (i :: l).length)

/-- The records of the last manager are given back if none of them is in use. -/
def trimRound (s : State) : State ⊕ State :=
  if s.currentMetadataRecordCount = 0 then .inr s
  else
    let tail := managerFor (s.currentMetadataRecordCount - 1)
    if R.managerCapacity ≤ tail then .inr s
    else if s.stateAndActiveCount tail ≠ 0 then .inr s
    else .inl { (s.setFree tail []).setManager tail 0 with
      currentMetadataRecordCount := tail * METADATA_RECORDS_PER_BLOCK }

def trimMetadataRecords (s : State) : Option State := loop (trimRound R) R.rounds s

def runMaintenanceWindow (s : State) (shard : ℕ) : Option State :=
  (loop (windowRound R shard) R.rounds s).bind fun s =>
    (tryReclaimFrontierBlocks R s).bind fun s => trimMetadataRecords R s

def runMaintenanceWindowAll (s : State) : Option State :=
  (List.range R.cpuShards).foldlM (runMaintenanceWindow R) s

def setWindow (s : State) (shard : ℕ) (isOpen : Bool) : State :=
  { s with maintenanceWindowOpen := update s.maintenanceWindowOpen shard isOpen }

def maybeOpenMaintenanceWindow (s : State) (shard : ℕ) (force : Bool) : Option State :=
  if s.pendingCount shard = 0 then some s
  else if force = false ∧ s.pendingCount shard < R.maintenanceWindowThreshold then some s
  else if s.maintenanceWindowOpen shard then some s
  else (runMaintenanceWindow R (setWindow s shard true) shard).map fun s => setWindow s shard false

/-! ### Reuse -/

inductive ClaimResult
  | CLAIMED
  | RETRY
  | RECLAIM_DEFERRED
  | DISCARD

def tryClaimPoppedBlock (s : State) (head : ℕ) (key : ℕ × ℕ) : ClaimResult × State :=
  match s.state head with
  | .AVAILABLE => (.CLAIMED, s.setState head .LOCKED)
  | .FRONTIER_RECLAIM_IN_PROGRESS => (.RETRY, s.setBin key (head :: s.bins key))
  | .FRONTIER_RECLAIMED => (.RECLAIM_DEFERRED, s)
  | _ => (.DISCARD, s)

/-- The stacks of one bin in the order they are looked at. -/
def scanOrder (bin preferredShard : ℕ) : List (ℕ × ℕ) :=
  (List.range NUM_ADDRESS_BINS).flatMap fun addrBin =>
    (List.range R.cpuShards).map fun shardOffset =>
      (binIndex R bin ((preferredShard % R.cpuShards + shardOffset) % R.cpuShards), addrBin)

inductive Scan
  | claimed (i : ℕ)
  | deferred (i : ℕ)
  | nothing

def scan (s : State) : List (ℕ × ℕ) → Scan × State
  | [] => (.nothing, s)
  | key :: rest =>
    match s.bins key with
    | [] => scan s rest
    | head :: l =>
      match tryClaimPoppedBlock (s.setBin key l) head key with
      | (.CLAIMED, s) => (.claimed head, s)
      | (.RECLAIM_DEFERRED, s) => (.deferred head, s)
      | (.RETRY, s) => scan s rest
      | (.DISCARD, s) => scan s rest

/-- One scan.  The block claimed is returned with its record. -/
def searchRound (bin preferredShard : ℕ) (s : State) : State ⊕ Option (ℕ × ℕ) × State :=
  match scan s (scanOrder R bin preferredShard) with
  | (.deferred i, s) => .inl (recycleMetadata s i)
  | (.claimed i, s) => .inr ((s.blockOf i).map fun block => (block, i), s)
  | (.nothing, s) => .inr (none, s)

def searchForDeallocatedBlock (s : State) (bin preferredShard : ℕ) :
    Option (Option (ℕ × ℕ) × State) :=
  loop (searchRound R bin preferredShard) R.rounds s

/-! ### The calls -/

def MAX_ALLOCATION_SIZE (p : BinPolicy) : ℕ :=
  MAX_ALLOCATION_SIZE_INTERNAL p - ALLOCATION_HEADER_SIZE

/-- What `do_allocate` works out before it looks for a block. -/
structure Request where
  bytes : ℕ
  alignment : ℕ
  shard : ℕ
  bin : ℕ

/-- The header and the record of the block handed out are written. -/
def useBlock (s : State) (r : Request) (block i : ℕ) : State :=
  let s := s.setHeader block { s.headers block with metadataIndex := i }
  s.setRecord i
    { blockState := ⟨some block, .IN_USE, (s.records i).blockState.version⟩
      requestedSize := r.bytes % WORD32
      totalSize := (s.headers block).sizeIncludingHeader % WORD32
      alignment := r.alignment % 256
      originalShard := r.shard % 256 }

/-- The reserved record is given back. -/
def returnRecord (s : State) (i : ℕ) : State :=
  recycleMetadata (s.setRecord i { s.records i with
    requestedSize := 0
    totalSize := 0
    alignment := 0
    originalShard := 0 }) i

/-- A search after maintenance of the caller's shard, and another one after that of every shard. -/
def searchAfterMaintenance (s : State) (r : Request) : Option (Option (ℕ × ℕ) × State) :=
  (maybeOpenMaintenanceWindow R s r.shard true).bind fun s =>
    (searchForDeallocatedBlock R s r.bin r.shard).bind fun found =>
      match found.1 with
      | some claimed => some (some claimed, found.2)
      | none => (runMaintenanceWindowAll R found.2).bind fun s =>
          searchForDeallocatedBlock R s r.bin r.shard

/-- The record `i` is reserved. -/
def allocateReserved (s : State) (r : Request) (i : ℕ) : Option (Option ℕ × State) :=
  match getNextEmptyMemoryBlock R s r.bin with
  | (some block, s) => some (some block, useBlock s r block i)
  | (none, s) => (searchAfterMaintenance R s r).map fun found =>
      match found.1 with
      | some (block, j) => (some block, useBlock (returnRecord found.2 i) r block j)
      | none => (none, returnRecord found.2 i)

def allocateFrontier (s : State) (r : Request) : Option (Option ℕ × State) :=
  (getNextMetadataRecordIndex R s).bind fun found =>
    match found.1 with
    | none => some (none, found.2)
    | some i => allocateReserved R found.2 r i

def allocateRequest (s : State) (r : Request) : Option (Option ℕ × State) :=
  (maybeOpenMaintenanceWindow R s r.shard false).bind fun s =>
    (searchForDeallocatedBlock R s r.bin r.shard).bind fun found =>
      match found.1 with
      | some (block, i) => some (some block, useBlock found.2 r block i)
      | none => allocateFrontier R found.2 r

def totalSize (bytes : ℕ) : ℕ :=
  lockfreeAlignedSize (add64 bytes ALLOCATION_HEADER_SIZE) DEFAULT_ALIGNMENT

/-- The request is refused without a look at the arena. -/
def Refused (bytes alignment : ℕ) : Prop :=
  bytes = 0 ∨ MAX_ALLOCATION_SIZE R.policy < bytes ∨ alignment = 0 ∨ DEFAULT_ALIGNMENT < alignment
    ∨ alignment &&& (alignment - 1) ≠ 0 ∨ MAX_ALLOCATION_SIZE_INTERNAL R.policy < totalSize bytes

instance (bytes alignment : ℕ) : Decidable (Refused R bytes alignment) :=
  inferInstanceAs (Decidable (_ ∨ _ ∨ _ ∨ _ ∨ _ ∨ _))

def requestOf (cpu bytes alignment : ℕ) : Request :=
  ⟨bytes, alignment, R.cpuShardIndex cpu, freeBlockBinIndex R.policy (totalSize bytes)⟩

/-- The header of the block handed out and the state after; `none` if a loop does not end. -/
def doAllocate (s : State) (cpu bytes alignment : ℕ) : Option (Option ℕ × State) :=
  if Refused R bytes alignment then some (none, s)
  else allocateRequest R s (requestOf R cpu bytes alignment)

def pushPending (s : State) (i : ℕ) : State :=
  { s with
    pendingCount := update s.pendingCount (s.targetShard R i)
      (s.pendingCount (s.targetShard R i) + 1)
    pending := update s.pending (s.targetShard R i) (i :: s.pending (s.targetShard R i)) }

def doTryDeallocate (s : State) : Option ℕ → Option (Bool × State)
  | none => some (true, s)
  | some header =>
    let i := (s.headers header).metadataIndex
    if s.currentMetadataRecordCount ≤ i then some (false, s)
    else if s.state i ≠ .IN_USE ∨ s.blockOf i ≠ some header then some (false, s)
    else
      let s := s.setWord i ⟨some header, .LOCKED, ((s.records i).blockState.version + 1) % 4096⟩
      let s := s.setState i .DEALLOCATED_PENDING
      (maybeOpenMaintenanceWindow R (pushPending R s i) (s.targetShard R i) false).map fun s =>
        (true, s)

structure AllocationInfo where
  location : Option ℕ
  state : AllocationState
  size : ℕ
  alignment : ℕ
  deriving DecidableEq

def getAllocationInfo (s : State) (header : ℕ) : AllocationInfo :=
  let i := (s.headers header).metadataIndex
  if i < s.currentMetadataRecordCount then
    ⟨some header, s.state i, (s.records i).requestedSize, (s.records i).alignment⟩
  else ⟨none, .INVALID, 0, 0⟩

/-! ### Runs -/

/-- A block that was handed out: the unit of its header, and what was asked for. -/
structure Block where
  header : ℕ
  bytes : ℕ
  alignment : ℕ
  deriving DecidableEq

/-- The resource, and the blocks handed out and not deallocated since. -/
structure System where
  arena : State
  live : List Block

inductive Action
  | allocate (cpu bytes alignment : ℕ)
  | deallocate (header : Option ℕ)
  | writeHeader (unit : ℕ) (h : Header)
  | writeRecord (i : ℕ) (x : Record)

/-- The unit is the header of a block that a record names. -/
def IsHeader (s : State) (unit : ℕ) : Prop :=
  ∃ i < s.currentMetadataRecordCount, s.blockOf i = some unit
    ∧ (s.state i = .IN_USE ∨ s.state i = .DEALLOCATED_PENDING ∨ s.state i = .AVAILABLE)

instance (s : State) (unit : ℕ) : Decidable (IsHeader s unit) :=
  inferInstanceAs (Decidable (∃ i < _, _))

namespace System

def allocated (x : System) (bytes alignment : ℕ) (out : Option ℕ × State) : System :=
  ⟨out.2, (out.1.map fun header => ⟨header, bytes, alignment⟩).toList ++ x.live⟩

def deallocated (x : System) (header : Option ℕ) (out : Bool × State) : System :=
  ⟨out.2, if out.1 then x.live.filter fun b => some b.header ≠ header else x.live⟩

end System

/-- Callers make calls, and write what is neither the header of a block nor a counted record. -/
def step (x : System) : Action → Option System
  | .allocate cpu bytes alignment =>
    (doAllocate R x.arena cpu bytes alignment).map (x.allocated bytes alignment)
  | .deallocate header => (doTryDeallocate R x.arena header).map (x.deallocated header)
  | .writeHeader unit h =>
    if IsHeader x.arena unit then none else some { x with arena := x.arena.setHeader unit h }
  | .writeRecord i r =>
    if i < x.arena.currentMetadataRecordCount then none
    else some { x with arena := x.arena.setRecord i r }

/-- The constructor, in memory that holds anything. -/
structure Start (x : System) : Prop where
  nextEmptyMemoryBlock : x.arena.nextEmptyMemoryBlock = packFrontier 0 none
  previousBlock : (x.arena.headers 0).previousBlock = none
  frontierReclaimInProgress : x.arena.frontierReclaimInProgress = false
  currentMetadataRecordCount : x.arena.currentMetadataRecordCount = 0
  localFree : x.arena.localFree = fun _ => []
  stateAndActiveCount : x.arena.stateAndActiveCount = fun _ => 0
  pending : x.arena.pending = fun _ => []
  pendingCount : x.arena.pendingCount = fun _ => 0
  maintenanceWindowOpen : x.arena.maintenanceWindowOpen = fun _ => false
  bins : x.arena.bins = fun _ => []
  live : x.live = []

def machine : Machine System Action where
  init := Start
  step := step R

end MinStd.SingleArena
