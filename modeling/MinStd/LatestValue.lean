import MinStd.Transition
import MinStd.Words
import Mathlib.Data.List.OfFn

/-!
# The latest-value slot array

A store writes its value into the slot after the published one, between an odd and an even number
of the slot's 32-bit sequence, and then publishes slot and sequence in `current_`.  A load reads
`current_`, copies the slot it names, and keeps the copy if the slot's sequence was the published
one before and after.  Each action is one access to an atomic word; a value is its 64-bit words,
the last padded with zeros.
-/

namespace MinStd.LatestValue

open Function

variable {τ : Type*} [DecidableEq τ]

def STORED_FLAG : ℕ := 0x80000000

/-- What the static assertions ask of the number of slots. -/
structure Layout where
  NUM_SLOTS : ℕ
  two_le : 2 ≤ NUM_SLOTS
  lt : NUM_SLOTS < STORED_FLAG
  WORD_COUNT : ℕ

variable (L : Layout)

abbrev Layout.Value : Type := Fin L.WORD_COUNT → ℕ

inductive Result
  | SUCCESS
  | FAILURE
  | TRUNCATED
  | EMPTY
  deriving DecidableEq

structure Slot where
  sequenceNumber : ℕ
  bufferInWords : L.Value

/-- Where a thread is in `store` or `load`.  A load keeps, for the record, the full sequence number
of the slot and the latest value when it read `published`. -/
inductive Pc
  | idle
  | exchange (value : L.Value)
  | loadCurrent (value : L.Value)
  | loadSequence (value : L.Value) (index : ℕ)
  | setOdd (value : L.Value) (index sequence : ℕ)
  | write (value : L.Value) (index sequence i : ℕ)
  | publish (value : L.Value) (index sequence : ℕ)
  | release
  | stored (result : Result)
  | read
  | check (published since : ℕ) (seen : Option L.Value)
  | copy (published since : ℕ) (seen : Option L.Value) (buffer : L.Value) (i : ℕ)
  | loaded (result : Result) (out : L.Value) (seen : Option L.Value)

/-- The members and the calls under way.  For the record: the sequence numbers as they would be
without wrapping, and the value last published. -/
structure State (τ : Type*) where
  slots : ℕ → Slot L
  current : ℕ
  writerBusy : ℕ
  pc : τ → Pc L
  sequence : ℕ → ℕ
  latest : Option L.Value

inductive Action (τ : Type*)
  | store (t : τ) (value : L.Value)
  | load (t : τ)
  | run (t : τ)

/-- The packing of `current_`. -/
def packCurrent (sequence index : ℕ) : ℕ := pack sequence (STORED_FLAG ||| index)

def sequenceNumberOf (packed : ℕ) : ℕ := hi32 packed

/-- The low half without `STORED_FLAG`. -/
def slotOf (packed : ℕ) : ℕ := lo32 packed &&& (STORED_FLAG - 1)

def isStored (packed : ℕ) : Bool := (lo32 packed &&& STORED_FLAG) ≠ 0

/-- The result of a load that keeps its copy. -/
def resultOf (published : ℕ) : Result := if isStored published then .SUCCESS else .EMPTY

variable {L}

def State.setPc (s : State L τ) (t : τ) (p : Pc L) : State L τ := { s with pc := update s.pc t p }

/-- Stores the sequence number that follows slot `i`'s. -/
def State.bump (s : State L τ) (i sequenceNumber : ℕ) : State L τ :=
  { s with
    slots := update s.slots i { s.slots i with sequenceNumber := sequenceNumber }
    sequence := update s.sequence i (s.sequence i + 1) }

def State.writeWord (s : State L τ) (i : ℕ) (k : Fin L.WORD_COUNT) (word : ℕ) : State L τ :=
  { s with
    slots := update s.slots i
      { s.slots i with bufferInWords := update (s.slots i).bufferInWords k word } }

/-- The next access of a call. -/
def stepRun (s : State L τ) (t : τ) : Option (State L τ) :=
  match s.pc t with
  | .idle => none
  | .exchange value =>
    some ({ s with writerBusy := 1 }.setPc t
      (if s.writerBusy ≠ 0 then .stored .FAILURE else .loadCurrent value))
  | .loadCurrent value =>
    some (s.setPc t (.loadSequence value ((slotOf s.current + 1) % WORD32 % L.NUM_SLOTS)))
  | .loadSequence value i => some (s.setPc t (.setOdd value i (s.slots i).sequenceNumber))
  | .setOdd value i q => some ((s.bump i ((q + 1) % WORD32)).setPc t (.write value i q 0))
  | .write value i q k =>
    if hk : k < L.WORD_COUNT then
      some ((s.writeWord i ⟨k, hk⟩ (value ⟨k, hk⟩)).setPc t (.write value i q (k + 1)))
    else some ((s.bump i ((q + 2) % WORD32)).setPc t (.publish value i q))
  | .publish value i q =>
    some ({ s with
      current := packCurrent ((q + 2) % WORD32) i
      latest := some value }.setPc t .release)
  | .release => some ({ s with writerBusy := 0 }.setPc t (.stored .SUCCESS))
  | .stored _ => some (s.setPc t .idle)
  | .read => some (s.setPc t (.check s.current (s.sequence (slotOf s.current)) s.latest))
  | .check published since seen =>
    if (s.slots (slotOf published)).sequenceNumber ≠ sequenceNumberOf published then
      some (s.setPc t .read)
    else some (s.setPc t (.copy published since seen (fun _ => 0) 0))
  | .copy published since seen buffer k =>
    if hk : k < L.WORD_COUNT then
      some (s.setPc t (.copy published since seen
        (update buffer ⟨k, hk⟩ ((s.slots (slotOf published)).bufferInWords ⟨k, hk⟩)) (k + 1)))
    else if (s.slots (slotOf published)).sequenceNumber = sequenceNumberOf published then
      some (s.setPc t (.loaded (resultOf published) buffer seen))
    else some (s.setPc t .read)
  | .loaded _ _ _ => some (s.setPc t .idle)

def step (s : State L τ) : Action L τ → Option (State L τ)
  | .store t value =>
    match s.pc t with
    | .idle => some (s.setPc t (.exchange value))
    | _ => none
  | .load t =>
    match s.pc t with
    | .idle => some (s.setPc t .read)
    | _ => none
  | .run t => stepRun s t

/-- A new array: all zeros. -/
structure Start (s : State L τ) : Prop where
  slots : s.slots = fun _ => ⟨0, fun _ => 0⟩
  current : s.current = 0
  writerBusy : s.writerBusy = 0
  pc : s.pc = fun _ => .idle
  sequence : s.sequence = fun _ => 0
  latest : s.latest = none

variable (L) in
def machine : Machine (State L τ) (Action L τ) where
  init := Start
  step := step

/-- What a load is about to return. -/
def Pc.outcome? : Pc L → Option (Result × List ℕ)
  | .loaded result out _ => some (result, List.ofFn out)
  | _ => none

/-- The slot a load is reading, and its full sequence number when the load read `current_`. -/
def Pc.reading? : Pc L → Option (ℕ × ℕ)
  | .check published since _ => some (slotOf published, since)
  | .copy published since _ _ _ => some (slotOf published, since)
  | _ => none

/-- The slot a running load reads does not come back to the sequence number it had when the load
read `current_`. -/
def Unreturned (s : State L τ) : Action L τ → Prop
  | .run t => ∀ r ∈ (s.pc t).reading?,
    s.sequence r.1 % WORD32 = r.2 % WORD32 → s.sequence r.1 = r.2
  | _ => True

instance (s : State L τ) : ∀ a, Decidable (Unreturned s a)
  | .run _ => Option.decidableForallMem _
  | .store _ _ => .isTrue trivial
  | .load _ => .isTrue trivial

end MinStd.LatestValue
