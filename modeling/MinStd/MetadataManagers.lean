import MinStd.ArenaRegions
import MinStd.Chain
import MinStd.CountOf

/-!
# The managers of the metadata records

A manager has 4096 records: a word that counts its slots, and a list of its free records through the
records themselves, whose head has a tag of 16 bits.  A call reserves a slot before it takes a
record of the manager and gives it back after it has put a record on the list; a trim takes a word
that counts none.  The frontier of the blocks moves as it likes.
-/

namespace MinStd.MetadataManagers

open Function ArenaRegions

variable {τ : Type*} [DecidableEq τ]

def TAGS : ℕ := 65536

/-- The word `local_free_head_`. -/
structure Head where
  top : Option ℕ
  tag : ℕ
  deriving DecidableEq

def Head.change (h : Head) (top : Option ℕ) : Head := ⟨top, (h.tag + 1) % TAGS⟩

inductive After
  | done
  | search (count manager : ℕ)
  | retry (count : ℕ)
  deriving DecidableEq

/-- Where a thread is.  For the record: the changes of the head when a pop read it. -/
inductive Pc
  | idle
  | recordCount
  | recordRecount
  | reserveLoad (what : Reserve)
  | reserveCas (what : Reserve) (word : ℕ)
  | popLoad (manager count : ℕ)
  | popLink (manager count current : ℕ) (head : Head) (since : ℕ)
  | popCas (manager count current : ℕ) (head : Head) (next : Option ℕ) (since : ℕ)
  | popClear (current : ℕ)
  | growFrontier (count : ℕ)
  | growCas (count : ℕ)
  | growRecheck (count : ℕ)
  | growUndo (count : ℕ)
  | release (manager : ℕ) (after : After)
  | pushLoad (index : ℕ)
  | pushStore (index : ℕ) (head : Head)
  | pushCas (index : ℕ) (head : Head)
  | trimLoad
  | trimClaim (count : ℕ)
  | trimCheck (count : ℕ)
  | trimShrink (count : ℕ)
  | trimClear (manager : ℕ)
  | trimOpen (manager : ℕ)
  deriving DecidableEq

/-- Where a metadata record is: not counted, with a call, with a caller, or free. -/
inductive Place (τ : Type*)
  | region
  | growing (t : τ)
  | hand (t : τ)
  | out
  | free
  deriving DecidableEq

/-- The frontier, the count, the managers' words and heads, the records' links and the calls under
way.  For the record: where each record is, the free records, the changes of each head, and how many
callers each record is with. -/
structure State (τ : Type*) where
  frontier : ℕ
  currentMetadataRecordCount : ℕ
  stateAndActiveCount : ℕ → ℕ
  localFreeHead : ℕ → Head
  nextFreeHeader : ℕ → Option ℕ
  pc : τ → Pc
  place : ℕ → Place τ
  contents : ℕ → List ℕ
  changes : ℕ → ℕ
  callers : ℕ → ℕ

namespace State

def setPc (s : State τ) (t : τ) (x : Pc) : State τ := { s with pc := update s.pc t x }

def setPlace (s : State τ) (index : ℕ) (x : Place τ) : State τ :=
  { s with place := update s.place index x }

def setLink (s : State τ) (index : ℕ) (link : Option ℕ) : State τ :=
  { s with nextFreeHeader := update s.nextFreeHeader index link }

def setManager (s : State τ) (manager word : ℕ) : State τ :=
  { s with stateAndActiveCount := update s.stateAndActiveCount manager word }

/-- The head of a manager is changed, and with it what is free. -/
def setHead (s : State τ) (manager : ℕ) (head : Head) (contents : List ℕ) : State τ :=
  { s with
    localFreeHead := update s.localFreeHead manager head
    contents := update s.contents manager contents
    changes := update s.changes manager (s.changes manager + 1) }

/-- The record goes to a caller. -/
def give (s : State τ) (index : ℕ) : State τ :=
  { s with
    place := update s.place index .out
    callers := update s.callers index (s.callers index + 1) }

end State

inductive Call
  | record
  | recycle (index : ℕ)
  | trim
  deriving DecidableEq

inductive Action (τ : Type*)
  | call (t : τ) (c : Call)
  | run (t : τ) (spurious : Bool)
  | frontier (frontier : ℕ)
  | writeRecord (index : ℕ) (link : Option ℕ)
  deriving DecidableEq

variable (A : Arena)

def growFrom (count : ℕ) : Pc :=
  if A.managerCapacity ≤ managerFor count then .idle else .reserveLoad (.grow count)

def searchFrom (count manager : ℕ) : Pc :=
  if 0 < count ∧ manager ≤ managerFor (count - 1) then .reserveLoad (.free manager count)
  else growFrom A count

def After.pc : After → Pc
  | done => .idle
  | search count manager => searchFrom A count manager
  | retry count => growFrom A count

/-- `word` is the manager's word as it was last read. -/
def reserveFrom (what : Reserve) (word : ℕ) : Pc :=
  if word &&& TRIMMING_MASK ≠ 0 ∨ word &&& ACTIVE_COUNT_MASK = ACTIVE_COUNT_MASK then
    match what with
    | .free manager count => searchFrom A count (manager + 1)
    | .grow _ => .recordRecount
  else .reserveCas what word

def reserved : Reserve → Pc
  | .free manager count => .popLoad manager count
  | .grow count => .growFrontier count

/-- The head of a pop's loop, `head` having been read. -/
def popFrom (manager count : ℕ) (head : Head) (since : ℕ) : Pc :=
  match head.top with
  | some current => .popLink manager count current head since
  | none => .release manager (.search count (manager + 1))

/-- The next access of `get_next_metadata_record_index`. -/
def runRecord (s : State τ) (t : τ) (spurious : Bool) : Option (State τ) :=
  match s.pc t with
  | .recordCount => some (s.setPc t (searchFrom A s.currentMetadataRecordCount 0))
  | .recordRecount => some (s.setPc t (growFrom A s.currentMetadataRecordCount))
  | .reserveLoad what =>
    some (s.setPc t (reserveFrom A what (s.stateAndActiveCount what.manager)))
  | .reserveCas what word =>
    if s.stateAndActiveCount what.manager = word ∧ spurious = false then
      some ((s.setManager what.manager (word + 1)).setPc t (reserved what))
    else some (s.setPc t (reserveFrom A what (s.stateAndActiveCount what.manager)))
  | .popLoad manager count =>
    some (s.setPc t (popFrom manager count (s.localFreeHead manager) (s.changes manager)))
  | .popLink manager count current head since =>
    some (s.setPc t (.popCas manager count current head (s.nextFreeHeader current) since))
  | .popCas manager count current head next _ =>
    if s.localFreeHead manager = head then
      some (((s.setHead manager (head.change next) (s.contents manager).tail).setPlace current
        (.hand t)).setPc t (.popClear current))
    else some (s.setPc t (popFrom manager count (s.localFreeHead manager) (s.changes manager)))
  | .popClear current => some (((s.setLink current none).give current).setPc t .idle)
  | .growFrontier count =>
    if A.metadataStart ≤ s.frontier + (count + 1) then
      some (s.setPc t (.release (managerFor count) .done))
    else some (s.setPc t (.growCas count))
  | .growCas count =>
    if s.currentMetadataRecordCount = count then
      some ({ s with
        currentMetadataRecordCount := count + 1
        place := update s.place count (.growing t) }.setPc t (.growRecheck count))
    else some (s.setPc t (.release (managerFor count) (.retry s.currentMetadataRecordCount)))
  | .growRecheck count =>
    if A.metadataStart ≤ s.frontier + (count + 1) then some (s.setPc t (.growUndo count))
    else some ((s.give count).setPc t .idle)
  | .growUndo count =>
    if s.currentMetadataRecordCount = count + 1 then
      some ({ s with
        currentMetadataRecordCount := count
        place := update s.place count .region }.setPc t (.release (managerFor count) .done))
    else some (s.setPc t (.growRecheck count))
  | _ => none

/-- The next access of `recycle_metadata`, and the release of a slot. -/
def runRecycle (s : State τ) (t : τ) : Option (State τ) :=
  match s.pc t with
  | .pushLoad index => some (s.setPc t (.pushStore index (s.localFreeHead (managerFor index))))
  | .pushStore index head => some ((s.setLink index head.top).setPc t (.pushCas index head))
  | .pushCas index head =>
    if s.localFreeHead (managerFor index) = head then
      some (((s.setHead (managerFor index) (head.change (some index))
        (index :: s.contents (managerFor index))).setPlace index .free).setPc t
          (.release (managerFor index) .done))
    else some (s.setPc t (.pushStore index (s.localFreeHead (managerFor index))))
  | .release manager after =>
    some ((s.setManager manager (releaseSlot (s.stateAndActiveCount manager))).setPc t (after.pc A))
  | _ => none

/-- The next access of `trim_metadata_records`. -/
def runTrim (s : State τ) (t : τ) : Option (State τ) :=
  match s.pc t with
  | .trimLoad =>
    if s.currentMetadataRecordCount = 0 ∨
        A.managerCapacity ≤ managerFor (s.currentMetadataRecordCount - 1) then
      some (s.setPc t .idle)
    else some (s.setPc t (.trimClaim s.currentMetadataRecordCount))
  | .trimClaim count =>
    if s.stateAndActiveCount (managerFor (count - 1)) = 0 then
      some ((s.setManager (managerFor (count - 1)) TRIMMING_MASK).setPc t (.trimCheck count))
    else some (s.setPc t .idle)
  | .trimCheck count =>
    if s.currentMetadataRecordCount = count then some (s.setPc t (.trimShrink count))
    else some (s.setPc t (.trimOpen (managerFor (count - 1))))
  | .trimShrink count =>
    if s.currentMetadataRecordCount = count then
      some ({ s with
        currentMetadataRecordCount := managerFor (count - 1) * METADATA_RECORDS_PER_BLOCK
        place := fun i => if managerFor (count - 1) * METADATA_RECORDS_PER_BLOCK ≤ i then .region
          else s.place i
        contents := update s.contents (managerFor (count - 1)) [] }.setPc t
          (.trimClear (managerFor (count - 1))))
    else some (s.setPc t (.trimOpen (managerFor (count - 1))))
  | .trimClear manager =>
    some ({ s with
      localFreeHead := update s.localFreeHead manager ⟨none, 0⟩
      changes := update s.changes manager 0 }.setPc t (.trimOpen manager))
  | .trimOpen manager => some ((s.setManager manager 0).setPc t .trimLoad)
  | _ => none

def stepCall (s : State τ) (t : τ) : Call → Option (State τ)
  | .record => some (s.setPc t .recordCount)
  | .recycle index =>
    if 0 < s.callers index then
      some ({ s with
        place := update s.place index (.hand t)
        callers := update s.callers index (s.callers index - 1) }.setPc t (.pushLoad index))
    else none
  | .trim => some (s.setPc t .trimLoad)

/-- Memory that is no counted record is written by its users. -/
def step (s : State τ) : Action τ → Option (State τ)
  | .call t c => if s.pc t = .idle then stepCall s t c else none
  | .run t spurious => (runRecord A s t spurious).or ((runRecycle A s t).or (runTrim A s t))
  | .frontier frontier => some { s with frontier := frontier }
  | .writeRecord index link =>
    if s.currentMetadataRecordCount ≤ index then some (s.setLink index link) else none

/-- The constructor. -/
structure Start (s : State τ) : Prop where
  currentMetadataRecordCount : s.currentMetadataRecordCount = 0
  stateAndActiveCount : s.stateAndActiveCount = fun _ => 0
  localFreeHead : s.localFreeHead = fun _ => ⟨none, 0⟩
  pc : s.pc = fun _ => .idle
  place : s.place = fun _ => .region
  contents : s.contents = fun _ => []
  changes : s.changes = fun _ => 0
  callers : s.callers = fun _ => 0

def machine : Machine (State τ) (Action τ) where
  init := Start
  step := step A

/-- The manager of a pop at its compare-and-swap, and the changes of the head when it read it. -/
def Pc.since? : Pc → Option (ℕ × ℕ)
  | popCas manager _ _ _ _ since => some (manager, since)
  | _ => none

/-- The tag does not come round while a pop stands between its read of the head and its
compare-and-swap. -/
def Unwrapped (s : State τ) : Action τ → Prop
  | .run t _ => ∀ c ∈ (s.pc t).since?, s.changes c.1 < c.2 + TAGS
  | _ => True

instance (s : State τ) : ∀ a, Decidable (Unwrapped s a)
  | .run _ _ => Option.decidableForallMem _
  | .call _ _ => .isTrue trivial
  | .frontier _ => .isTrue trivial
  | .writeRecord _ _ => .isTrue trivial

/-! ### Free lists and active counts -/

/-- The head of the manager leads through the records. -/
def State.FreeList (s : State τ) (manager : ℕ) (l : List ℕ) : Prop :=
  Linked some s.nextFreeHeader (s.localFreeHead manager).top l none

/-- The record that the thread's call has. -/
def Pc.record? : Pc → Option ℕ
  | popClear current => some current
  | growRecheck count => some count
  | growUndo count => some count
  | pushLoad index => some index
  | pushStore index _ => some index
  | pushCas index _ => some index
  | _ => none

/-- The trim has taken the records off and not emptied their list yet. -/
def Pc.clears? : Pc → Option ℕ
  | trimClear manager => some manager
  | _ => none

/-- A manager that is not trimmed counts at least its records that are not on its list, and all of
them while no call is under way.  A record that a caller has is counted, and it is with one caller.
The list of a manager is of free records, each of them counted, unless a trim is about to empty it;
and a counted record is with a caller, in a call or on the list of its manager. -/
structure Correct (s : State τ) : Prop where
  active : ∀ m, s.stateAndActiveCount m &&& TRIMMING_MASK = 0 → ∀ l, s.FreeList m l →
    ∀ S : Finset ℕ, (∀ i ∈ S, i < s.currentMetadataRecordCount ∧ managerFor i = m ∧ i ∉ l) →
      S.card ≤ s.stateAndActiveCount m &&& ACTIVE_COUNT_MASK
  quiescent : (∀ t, s.pc t = .idle) → ∀ m, s.stateAndActiveCount m &&& TRIMMING_MASK = 0
    ∧ ∃ l, s.FreeList m l ∧ CountOf (fun i => i < s.currentMetadataRecordCount ∧ managerFor i = m
      ∧ i ∉ l) (s.stateAndActiveCount m &&& ACTIVE_COUNT_MASK)
  kept : ∀ i, 0 < s.callers i → i < s.currentMetadataRecordCount
  one : ∀ i, s.callers i ≤ 1
  free : ∀ m, (∀ t, (s.pc t).clears? ≠ some m) → ∃ l, s.FreeList m l ∧ l.Nodup
    ∧ ∀ i ∈ l, i < s.currentMetadataRecordCount ∧ managerFor i = m ∧ s.callers i = 0
  lost : ∀ i, i < s.currentMetadataRecordCount → 0 < s.callers i ∨ (∃ t, (s.pc t).record? = some i)
    ∨ ∃ l, s.FreeList (managerFor i) l ∧ i ∈ l

/-- A trim takes records off the count that no caller and no call has, bars the manager until its
list is empty, and when it opens the manager again every record of the list is counted. -/
structure Trims (s : State τ) : Prop where
  discards : ∀ t count, s.pc t = .trimShrink count → s.currentMetadataRecordCount = count →
    ∀ i, managerFor (count - 1) * METADATA_RECORDS_PER_BLOCK ≤ i → s.callers i = 0
      ∧ ∀ u, (s.pc u).record? ≠ some i
  bars : ∀ t m, (s.pc t).clears? = some m → s.stateAndActiveCount m &&& TRIMMING_MASK ≠ 0
  opens : ∀ t m, s.pc t = .trimOpen m → ∃ l, s.FreeList m l
    ∧ ∀ i ∈ l, i < s.currentMetadataRecordCount
  calls : ∀ t i, (s.pc t).record? = some i → i < s.currentMetadataRecordCount ∧ s.callers i = 0

end MinStd.MetadataManagers
