import MinStd.Transition
import Mathlib.Algebra.Group.Nat.Defs
import Mathlib.Data.Nat.Bitwise

/-!
# The two regions of the arena

Blocks are taken from the bottom of the arena upwards, metadata records from its top downwards, and
each side gives back what it took last.  A side takes first and looks at the other side's word
afterwards.  Addresses are in units of 64 bytes from the first block; record `i` is the unit
`metadataStart - i`.

What is neither a counted record nor the header of a block is memory that its user may write.
-/

namespace MinStd.ArenaRegions

open Function

variable {τ : Type*} [DecidableEq τ]

/-! ### Words -/

def NO_PREDECESSOR : ℕ := 0xFFFFFFFF

def METADATA_RECORDS_PER_BLOCK : ℕ := 4096

def TRIMMING_MASK : ℕ := 0x80000000

def ACTIVE_COUNT_MASK : ℕ := 0x7FFFFFFF

/-- `fetch_sub(1)` on 32 bits. -/
def releaseSlot (word : ℕ) : ℕ := (word + 0xFFFFFFFF) % 0x100000000

def packFrontier (frontier : ℕ) (predecessor : Option ℕ) : ℕ :=
  (predecessor.getD NO_PREDECESSOR) <<< 32 ||| frontier % 2 ^ 32

def unpackFrontier (state : ℕ) : ℕ := state % 2 ^ 32

def unpackPredecessor (state : ℕ) : Option ℕ :=
  if state >>> 32 = NO_PREDECESSOR then none else some (state >>> 32)

inductive AllocationState
  | INVALID
  | IN_USE
  | DEALLOCATED_PENDING
  | AVAILABLE
  | METADATA_AVAILABLE
  | LOCKED
  | FRONTIER_RECLAIM_IN_PROGRESS
  | FRONTIER_RECLAIMED
  deriving DecidableEq

/-- The word `block_state_`. -/
structure BlockState where
  block : Option ℕ
  state : AllocationState
  version : ℕ
  deriving DecidableEq

structure Header where
  metadataIndex : ℕ
  sizeIncludingHeader : ℕ
  previousBlock : Option ℕ
  deriving DecidableEq

/-- The size of every bin is smaller. -/
def MAX_BLOCK_BYTES : ℕ := 2 ^ 32

/-- Where the first block starts, record 0 and how many managers there are.  What the code may find
as the end of a block, wherever the frontier is, is an address. -/
structure Arena where
  allocationBase : ℕ
  metadataStart : ℕ
  managerCapacity : ℕ
  lt : metadataStart < NO_PREDECESSOR
  fits : allocationBase + metadataStart * 64 + MAX_BLOCK_BYTES ≤ 2 ^ 64

/-! ### State -/

/-- What a slot is reserved for: a record from a manager's free list, `count` having been read, or
the record `count`. -/
inductive Reserve
  | free (manager count : ℕ)
  | grow (count : ℕ)
  deriving DecidableEq

def managerFor (metadataIndex : ℕ) : ℕ := metadataIndex / METADATA_RECORDS_PER_BLOCK

def Reserve.manager : Reserve → ℕ
  | free manager _ => manager
  | grow count => managerFor count

/-- What a caller that gives a slot back goes on with. -/
inductive After
  | done
  | search (count manager : ℕ)
  | retry (count : ℕ)
  | batch (rest : List ℕ)
  deriving DecidableEq

/-- Which of the two functions rolls the frontier back: the one that walks down the blocks, or the
one that takes a block from a batch. -/
inductive Roll
  | walk
  | batch (before after : List ℕ)
  deriving DecidableEq

/-- Where a thread is. -/
inductive Pc
  | idle
  | blockLoad (size : ℕ)
  | blockCheck (size tag : ℕ)
  | blockCas (size tag : ℕ)
  | blockRecheck (size tag : ℕ)
  | blockUndo (size tag : ℕ)
  | blockUndoCheck (size tag : ℕ)
  | blockSize (size tag : ℕ)
  | blockLink (size tag : ℕ)
  | recordCount
  | recordRecount
  | reserveLoad (what : Reserve)
  | reserveCas (what : Reserve) (word : ℕ)
  | recordPop (manager count : ℕ)
  | growFrontier (count : ℕ)
  | growCas (count : ℕ)
  | growRecheck (count : ℕ)
  | growUndo (count : ℕ)
  | release (manager : ℕ) (after : After)
  | recycleStore (index : ℕ) (after : After)
  | recyclePush (index : ℕ) (after : After)
  | useIndex (index block : ℕ)
  | useState (index block : ℕ)
  | useSize (index block : ℕ)
  | walkLock
  | walkLoad
  | walkIndex (tag prev : ℕ)
  | walkCount (tag prev index : ℕ)
  | walkState (tag prev index : ℕ)
  | batchLock (batch : List ℕ)
  | batchLoad (batch : List ℕ)
  | batchScan (tag : ℕ) (before after : List ℕ)
  | batchState (tag : ℕ) (before : List ℕ) (index : ℕ) (after : List ℕ)
  | claim (roll : Roll) (tag index : ℕ) (word : BlockState)
  | previous (roll : Roll) (tag index : ℕ) (word : BlockState)
  | rollCas (roll : Roll) (tag index : ℕ) (word : BlockState) (previous : Option ℕ)
  | restore (roll : Roll) (index : ℕ) (word : BlockState)
  | markLoad (index : ℕ)
  | markCas (index : ℕ) (word : BlockState)
  | unlock (rest : List ℕ)
  | publish (rest : List ℕ)
  | trimLoad
  | trimClaim (count : ℕ)
  | trimCheck (count : ℕ)
  | trimShrink (count : ℕ)
  | trimOpen (manager : ℕ)
  deriving DecidableEq

/-- Where a metadata record is, and the block it is for. -/
inductive Place (τ : Type*)
  | region
  | growing (t : τ)
  | hand (t : τ)
  | storing (t : τ) (block : ℕ)
  | live (block : ℕ)
  | pending (block : ℕ)
  | batch (t : τ) (block : ℕ)
  | bin (block : ℕ)
  | claimed (t : τ) (block : ℕ)
  | rolled (t : τ)
  | reclaimed
  | free
  deriving DecidableEq

/-- Who has a block: a thread that may have to give it back, a thread it was returned to, or the
metadata record that names it. -/
inductive Holder (τ : Type*)
  | none
  | reserved (t : τ)
  | kept (t : τ)
  | named (index : ℕ)
  deriving DecidableEq

/-- The words of the two regions, the memory, and the calls under way.  For the record: the blocks
from the frontier down, who has each block, where each record is and if it was written since it was
grown, and the blocks that were returned and not rolled back. -/
structure State (τ : Type*) where
  nextEmptyMemoryBlock : ℕ
  frontierReclaimInProgress : Bool
  currentMetadataRecordCount : ℕ
  stateAndActiveCount : ℕ → ℕ
  headers : ℕ → Header
  blockState : ℕ → BlockState
  totalSize : ℕ → ℕ
  pc : τ → Pc
  tiles : List (ℕ × ℕ)
  holder : ℕ → Holder τ
  place : ℕ → Place τ
  written : ℕ → Bool
  blocks : List (ℕ × ℕ)

namespace State

def setPc (s : State τ) (t : τ) (x : Pc) : State τ := { s with pc := update s.pc t x }

def setWord (s : State τ) (index : ℕ) (word : BlockState) : State τ :=
  { s with blockState := update s.blockState index word }

def setPlace (s : State τ) (index : ℕ) (x : Place τ) : State τ :=
  { s with place := update s.place index x }

def setHolder (s : State τ) (block : ℕ) (x : Holder τ) : State τ :=
  { s with holder := update s.holder block x }

def setHeader (s : State τ) (block : ℕ) (h : Header) : State τ :=
  { s with headers := update s.headers block h }

def setManager (s : State τ) (manager word : ℕ) : State τ :=
  { s with stateAndActiveCount := update s.stateAndActiveCount manager word }

end State

/-- The requests of the callers, and what others do with blocks and records between them. -/
inductive Call
  | block (size : ℕ)
  | record
  | recycle (index : ℕ)
  | store (index block : ℕ)
  | reuse (index : ℕ)
  | walk
  | batch (records : List ℕ)
  | trim
  deriving DecidableEq

inductive Action (τ : Type*)
  | call (t : τ) (c : Call)
  | run (t : τ) (spurious : Bool)
  | pop (t : τ) (index : Option ℕ)
  | deallocate (index : ℕ)
  | writeRecord (index : ℕ) (word : BlockState)
  | writeHeader (block : ℕ) (h : Header)
  deriving DecidableEq

variable (A : Arena)

/-! ### The records' side -/

/-- The free list of a manager is searched, or the region is grown. -/
def growFrom (count : ℕ) : Pc :=
  if A.managerCapacity ≤ managerFor count then .idle else .reserveLoad (.grow count)

def searchFrom (count manager : ℕ) : Pc :=
  if 0 < count ∧ manager ≤ managerFor (count - 1) then .reserveLoad (.free manager count)
  else growFrom A count

def After.pc : After → Pc
  | done => .idle
  | search count manager => searchFrom A count manager
  | retry count => growFrom A count
  | batch rest => .batchLoad rest

/-- `word` is the manager's word as it was last read. -/
def reserveFrom (what : Reserve) (word : ℕ) : Pc :=
  if word &&& TRIMMING_MASK ≠ 0 ∨ word &&& ACTIVE_COUNT_MASK = ACTIVE_COUNT_MASK then
    match what with
    | .free manager count => searchFrom A count (manager + 1)
    | .grow _ => .recordRecount
  else .reserveCas what word

def reserved : Reserve → Pc
  | .free manager count => .recordPop manager count
  | .grow count => .growFrontier count

/-- The next access of a thread that wants a record, or gives one back. -/
def runRecord (s : State τ) (t : τ) (spurious : Bool) : Option (State τ) :=
  match s.pc t with
  | .recordCount => some (s.setPc t (searchFrom A s.currentMetadataRecordCount 0))
  | .recordRecount => some (s.setPc t (growFrom A s.currentMetadataRecordCount))
  | .reserveLoad what =>
    some (s.setPc t (reserveFrom A what (s.stateAndActiveCount what.manager)))
  | .reserveCas what word =>
    if s.stateAndActiveCount what.manager = word ∧ spurious = false then
      some ((s.setManager what.manager (word + 1)).setPc t (reserved what))
    else some (s.setPc t (reserveFrom A what (s.stateAndActiveCount what.manager)))
  | .growFrontier count =>
    if A.metadataStart ≤ unpackFrontier s.nextEmptyMemoryBlock + (count + 1) then
      some (s.setPc t (.release (managerFor count) .done))
    else some (s.setPc t (.growCas count))
  | .growCas count =>
    if s.currentMetadataRecordCount = count then
      some ({ s with
        currentMetadataRecordCount := count + 1
        place := update s.place count (.growing t)
        written := update s.written count false }.setPc t (.growRecheck count))
    else some (s.setPc t (.release (managerFor count) (.retry s.currentMetadataRecordCount)))
  | .growRecheck count =>
    if A.metadataStart ≤ unpackFrontier s.nextEmptyMemoryBlock + (count + 1) then
      some (s.setPc t (.growUndo count))
    else some ((s.setPlace count (.hand t)).setPc t .idle)
  | .growUndo count =>
    if s.currentMetadataRecordCount = count + 1 then
      some ({ s with
        currentMetadataRecordCount := count
        place := update s.place count .region }.setPc t (.release (managerFor count) .done))
    else some (s.setPc t (.growRecheck count))
  | .release manager after =>
    some ((s.setManager manager (releaseSlot (s.stateAndActiveCount manager))).setPc t (after.pc A))
  | .recycleStore index after =>
    some ({ (s.setWord index ⟨none, .METADATA_AVAILABLE, (s.blockState index).version⟩) with
      written := update s.written index true }.setPc t (.recyclePush index after))
  | .recyclePush index after =>
    some ((s.setPlace index .free).setPc t (.release (managerFor index) after))
  | _ => none

/-- The next access of a trim. -/
def runTrim (s : State τ) (t : τ) : Option (State τ) :=
  match s.pc t with
  | .trimLoad =>
    if s.currentMetadataRecordCount = 0 ∨
        A.managerCapacity ≤ managerFor (s.currentMetadataRecordCount - 1) then
      some (s.setPc t .idle)
    else some (s.setPc t (.trimClaim s.currentMetadataRecordCount))
  | .trimClaim count =>
    if s.stateAndActiveCount (managerFor (count - 1)) = 0 then
      some ((s.setManager (managerFor (count - 1)) TRIMMING_MASK).setPc t (.trimCheck count))
    else some (s.setPc t .idle)
  | .trimCheck count =>
    if s.currentMetadataRecordCount = count then some (s.setPc t (.trimShrink count))
    else some (s.setPc t (.trimOpen (managerFor (count - 1))))
  | .trimShrink count =>
    if s.currentMetadataRecordCount = count then
      some ({ s with
        currentMetadataRecordCount := managerFor (count - 1) * METADATA_RECORDS_PER_BLOCK
        place := fun i => if managerFor (count - 1) * METADATA_RECORDS_PER_BLOCK ≤ i then .region
          else s.place i
        written := fun i => if managerFor (count - 1) * METADATA_RECORDS_PER_BLOCK ≤ i then false
          else s.written i }.setPc t (.trimOpen (managerFor (count - 1))))
    else some (s.setPc t (.trimOpen (managerFor (count - 1))))
  | .trimOpen manager => some ((s.setManager manager 0).setPc t .trimLoad)
  | _ => none

/-! ### The blocks' side -/

/-- `frontier_overlaps_metadata`. -/
def Overlaps (s : State τ) (next : ℕ) : Prop :=
  A.metadataStart ≤ next + (s.currentMetadataRecordCount + 1)

instance (s : State τ) (next : ℕ) : Decidable (Overlaps A s next) := Nat.decLe _ _

/-- The next access of a thread that wants a block, or stores what it names. -/
def runBlock (s : State τ) (t : τ) : Option (State τ) :=
  match s.pc t with
  | .blockLoad size => some (s.setPc t (.blockCheck size s.nextEmptyMemoryBlock))
  | .blockCheck size tag =>
    if Overlaps A s (unpackFrontier tag + size) then some (s.setPc t .idle)
    else some (s.setPc t (.blockCas size tag))
  | .blockCas size tag =>
    if s.nextEmptyMemoryBlock = tag then
      some ({ s with
        nextEmptyMemoryBlock := packFrontier (unpackFrontier tag + size) (some (unpackFrontier tag))
        tiles := (unpackFrontier tag, size) :: s.tiles
        holder := update s.holder (unpackFrontier tag) (.reserved t) }.setPc t
          (.blockRecheck size tag))
    else some (s.setPc t (.blockCheck size s.nextEmptyMemoryBlock))
  | .blockRecheck size tag =>
    if Overlaps A s (unpackFrontier tag + size) then some (s.setPc t (.blockUndo size tag))
    else some ((s.setHolder (unpackFrontier tag) (.kept t)).setPc t (.blockSize size tag))
  | .blockUndo size tag =>
    if s.nextEmptyMemoryBlock =
        packFrontier (unpackFrontier tag + size) (some (unpackFrontier tag)) then
      some ({ s with
        nextEmptyMemoryBlock := tag
        tiles := s.tiles.tail
        holder := update s.holder (unpackFrontier tag) .none }.setPc t .idle)
    else some (s.setPc t (.blockUndoCheck size tag))
  | .blockUndoCheck size tag =>
    if Overlaps A s (unpackFrontier tag + size) then some (s.setPc t (.blockUndo size tag))
    else some ((s.setHolder (unpackFrontier tag) (.kept t)).setPc t (.blockSize size tag))
  | .blockSize size tag =>
    some ((s.setHeader (unpackFrontier tag)
      { s.headers (unpackFrontier tag) with sizeIncludingHeader := size }).setPc t
        (.blockLink size tag))
  | .blockLink size tag =>
    some ({ (s.setHeader (unpackFrontier tag)
      { s.headers (unpackFrontier tag) with previousBlock := unpackPredecessor tag }) with
        blocks := (unpackFrontier tag, size) :: s.blocks }.setPc t .idle)
  | .useIndex index block =>
    some ((s.setHeader block { s.headers block with metadataIndex := index }).setPc t
      (.useState index block))
  | .useState index block =>
    some ({ (s.setWord index ⟨some block, .IN_USE, (s.blockState index).version⟩) with
      written := update s.written index true }.setPc t (.useSize index block))
  | .useSize index block =>
    some ({ (s.setPlace index (.live block)) with
      totalSize := update s.totalSize index (s.headers block).sizeIncludingHeader }.setPc t .idle)
  | _ => none

/-- Where a rollback goes on that did not get its block. -/
def Roll.lost (index : ℕ) : Roll → Pc
  | walk => .unlock []
  | batch before after => .batchLoad (before ++ index :: after)

/-- Where the record of a block is that a rollback gives back. -/
def Roll.back (t : τ) (block : ℕ) : Roll → Place τ
  | walk => .bin block
  | batch _ _ => .batch t block

/-- The next access of a rollback of the frontier. -/
def runRoll (s : State τ) (t : τ) : Option (State τ) :=
  match s.pc t with
  | .walkLock =>
    if s.frontierReclaimInProgress then some (s.setPc t .idle)
    else some ({ s with frontierReclaimInProgress := true }.setPc t .walkLoad)
  | .walkLoad =>
    match unpackPredecessor s.nextEmptyMemoryBlock with
    | none => some (s.setPc t (.unlock []))
    | some prev => some (s.setPc t (.walkIndex s.nextEmptyMemoryBlock prev))
  | .walkIndex tag prev => some (s.setPc t (.walkCount tag prev (s.headers prev).metadataIndex))
  | .walkCount tag prev index =>
    if s.currentMetadataRecordCount ≤ index then some (s.setPc t (.unlock []))
    else some (s.setPc t (.walkState tag prev index))
  | .walkState tag prev index =>
    if (s.blockState index).block = some prev ∧ (s.blockState index).state = .AVAILABLE then
      some (s.setPc t (.claim .walk tag index (s.blockState index)))
    else some (s.setPc t (.unlock []))
  | .batchLock batch =>
    if s.frontierReclaimInProgress then some (s.setPc t (.publish batch))
    else some ({ s with frontierReclaimInProgress := true }.setPc t (.batchLoad batch))
  | .batchLoad batch => some (s.setPc t (.batchScan s.nextEmptyMemoryBlock [] batch))
  | .batchScan _ before [] => some (s.setPc t (.unlock before))
  | .batchScan tag before (index :: after) =>
    if (s.blockState index).state = .DEALLOCATED_PENDING ∧
        (s.blockState index).block.map (· + s.totalSize index) = some (unpackFrontier tag) then
      some (s.setPc t (.batchState tag before index after))
    else some (s.setPc t (.batchScan tag (before ++ [index]) after))
  | .batchState tag before index after =>
    if (s.blockState index).state = .DEALLOCATED_PENDING then
      some (s.setPc t (.claim (.batch before after) tag index (s.blockState index)))
    else some (s.setPc t (.batchLoad (before ++ index :: after)))
  | .claim roll tag index word =>
    if s.blockState index = word then
      some (((s.setWord index { word with state := .FRONTIER_RECLAIM_IN_PROGRESS }).setPlace index
        (.claimed t (word.block.getD 0))).setPc t (.previous roll tag index word))
    else some (s.setPc t (roll.lost index))
  | .previous roll tag index word =>
    some (s.setPc t (.rollCas roll tag index word (s.headers (word.block.getD 0)).previousBlock))
  | .rollCas roll tag index word previous =>
    if s.nextEmptyMemoryBlock = tag then
      some ({ s with
        nextEmptyMemoryBlock := packFrontier (word.block.getD 0) previous
        tiles := s.tiles.tail
        holder := update s.holder (word.block.getD 0) .none
        blocks := s.blocks.filter fun b => b.1 ≠ word.block.getD 0
        place := update s.place index
          (match roll with
          | .walk => .rolled t
          | .batch _ _ => .hand t) }.setPc t
        (match roll with
        | .walk => .markLoad index
        | .batch before after => .recycleStore index (.batch (before ++ after))))
    else some (s.setPc t (.restore roll index word))
  | .restore roll index word =>
    if s.blockState index = { word with state := .FRONTIER_RECLAIM_IN_PROGRESS } then
      some (((s.setWord index word).setPlace index (roll.back t (word.block.getD 0))).setPc t
        (roll.lost index))
    else some (s.setPc t (roll.lost index))
  | .markLoad index => some (s.setPc t (.markCas index (s.blockState index)))
  | .markCas index word =>
    if s.blockState index = word then
      some (((s.setWord index { word with state := .FRONTIER_RECLAIMED }).setPlace index
        .reclaimed).setPc t .walkLoad)
    else some (s.setPc t .walkLoad)
  | .unlock rest =>
    some ({ s with frontierReclaimInProgress := false }.setPc t (.publish rest))
  | .publish [] => some (s.setPc t .idle)
  | .publish (index :: rest) =>
    if (s.blockState index).state = .DEALLOCATED_PENDING then
      some (((s.setWord index { s.blockState index with state := .AVAILABLE }).setPlace index
        (.bin ((s.blockState index).block.getD 0))).setPc t (.publish rest))
    else some (s.setPc t (.publish rest))
  | _ => none

/-! ### Steps -/

/-- The records of a batch are taken from the pending list. -/
def takeBatch (s : State τ) (t : τ) (records : List ℕ) : State τ :=
  { s with place := fun i =>
      if i ∈ records then
        match s.place i with
        | .pending block => .batch t block
        | x => x
      else s.place i }

def IsPending : Place τ → Bool
  | .pending _ => true
  | _ => false

def stepCall (s : State τ) (t : τ) : Call → Option (State τ)
  | .block size =>
    if 0 < size ∧ size * 64 < MAX_BLOCK_BYTES then some (s.setPc t (.blockLoad size)) else none
  | .record => some (s.setPc t .recordCount)
  | .recycle index =>
    if s.place index = .hand t ∨ s.place index = .reclaimed then
      some ((s.setPlace index (.hand t)).setPc t (.recycleStore index .done))
    else none
  | .store index block =>
    if s.place index = .hand t ∧ s.holder block = .kept t then
      some (((s.setPlace index (.storing t block)).setHolder block (.named index)).setPc t
        (.useIndex index block))
    else none
  | .reuse index =>
    match s.place index with
    | .bin block =>
      some (((s.setWord index { s.blockState index with state := .LOCKED }).setPlace index
        (.storing t block)).setPc t (.useIndex index block))
    | _ => none
  | .walk => some (s.setPc t .walkLock)
  | .batch records =>
    if records.Nodup ∧ ∀ i ∈ records, IsPending (s.place i) = true then
      some ((takeBatch s t records).setPc t (.batchLock records))
    else none
  | .trim => some (s.setPc t .trimLoad)

def step (s : State τ) : Action τ → Option (State τ)
  | .call t c => if s.pc t = .idle then stepCall s t c else none
  | .run t spurious =>
    (runRecord A s t spurious).or ((runTrim A s t).or ((runBlock A s t).or (runRoll s t)))
  | .pop t index =>
    match s.pc t, index with
    | .recordPop manager count, none =>
      some (s.setPc t (.release manager (.search count (manager + 1))))
    | .recordPop manager _, some i =>
      if s.place i = .free ∧ managerFor i = manager then
        some ((s.setPlace i (.hand t)).setPc t .idle)
      else none
    | _, _ => none
  | .deallocate index =>
    match s.place index with
    | .live block =>
      some ((s.setWord index ⟨some block, .DEALLOCATED_PENDING,
        ((s.blockState index).version + 1) % 4096⟩).setPlace index (.pending block))
    | _ => none
  | .writeRecord index word =>
    if s.place index = .region then some (s.setWord index word) else none
  | .writeHeader block h => if s.holder block = .none then some (s.setHeader block h) else none

/-- The constructor. -/
structure Start (s : State τ) : Prop where
  nextEmptyMemoryBlock : s.nextEmptyMemoryBlock = packFrontier 0 none
  frontierReclaimInProgress : s.frontierReclaimInProgress = false
  currentMetadataRecordCount : s.currentMetadataRecordCount = 0
  stateAndActiveCount : s.stateAndActiveCount = fun _ => 0
  pc : s.pc = fun _ => .idle
  tiles : s.tiles = []
  holder : s.holder = fun _ => .none
  place : s.place = fun _ => .region
  written : s.written = fun _ => false
  blocks : s.blocks = []

def machine : Machine (State τ) (Action τ) where
  init := Start
  step := step A

/-! ### Apart -/

/-- The record was returned and not trimmed since. -/
def Place.Returned : Place τ → Prop
  | region => False
  | growing _ => False
  | _ => True

/-- The record that a walk is about to claim, and the word that it found there. -/
def Action.claims? (s : State τ) : Action τ → Option (ℕ × BlockState)
  | run t _ =>
    match s.pc t with
    | .claim .walk _ index word => some (index, word)
    | _ => none
  | _ => none

/-- A walk claims no record whose word nobody has stored since it was grown. -/
def ClaimsWritten (s : State τ) (a : Action τ) : Prop :=
  ∀ c ∈ a.claims? s, s.blockState c.1 = c.2 → s.written c.1 = true

instance (s : State τ) (a : Action τ) : Decidable (ClaimsWritten s a) :=
  Option.decidableForallMem _

/-- No returned block has a unit in common with a returned record or another returned block. -/
structure Apart (s : State τ) : Prop where
  records : ∀ b ∈ s.blocks, ∀ i, (s.place i).Returned →
    ∀ u, b.1 ≤ u → u < b.1 + b.2 → u + i ≠ A.metadataStart
  blocks : s.blocks.Pairwise fun b c => b.1 + b.2 ≤ c.1 ∨ c.1 + c.2 ≤ b.1

end MinStd.ArenaRegions
