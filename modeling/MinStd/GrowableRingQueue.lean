import MinStd.Transition
import MinStd.SlotLedger
import Mathlib.Data.Fintype.Card
import Mathlib.Data.Nat.Bitwise

/-!
# The growable ring queue

Producers claim the slots of a segment in order by counting up one word, which also holds the
capacity the claim is checked against, and then fill the slot claimed.  The one consumer empties the
slots in order, and when it has emptied a segment up to its capacity, gives it another buffer and
opens it again: the segment's next life.  It may close a lightly loaded segment early, at the
position it has come to.  Each action is one access to what the threads share.
-/

namespace MinStd.GrowableRingQueue

open Function

/-- The values of `size_t`. -/
def SIZES : ℕ := 2 ^ 64

def POS_MASK : ℕ := 2 ^ 32 - 1

def POSITION_CLAMP_DISTANCE : ℕ := 2 ^ 30

/-- `tagged_enqueue_state::pack`. -/
def packState (capacity pos : ℕ) : ℕ := (capacity <<< 32) % SIZES ||| (pos &&& POS_MASK)

def unpackCapacity (value : ℕ) : ℕ := value >>> 32

def unpackPos (value : ℕ) : ℕ := value &&& POS_MASK

/-- The template's and the constructor's parameters, with room for an element at first: the
constructor accepts a capacity of 0 too. -/
structure Params where
  SegmentCount : ℕ
  initial_capacity : ℕ
  growth_numerator : ℕ
  growth_denominator : ℕ
  idle_rotation_interval : ℕ
  max_capacity : ℕ
  segments_ge : 2 ≤ SegmentCount
  initial_ge : 1 ≤ initial_capacity
  max_ge : 1 ≤ max_capacity

namespace Params

variable (P : Params)

/-- `grown` in `compute_new_capacity`, as first computed. -/
def grown (reference_capacity : ℕ) : ℕ :=
  (reference_capacity * P.growth_numerator + P.growth_denominator + (SIZES - 1)) % SIZES
    / P.growth_denominator

def computeNewCapacity (reference_capacity : ℕ) : ℕ :=
  if P.max_capacity < (if reference_capacity < P.grown reference_capacity then
    P.grown reference_capacity else reference_capacity + 1) then P.max_capacity
  else if reference_capacity < P.grown reference_capacity then P.grown reference_capacity
  else reference_capacity + 1

def computeShrunkCapacity (current : ℕ) : ℕ :=
  if 0 < current * P.growth_denominator % SIZES / P.growth_numerator then
    current * P.growth_denominator % SIZES / P.growth_numerator
  else 1

/-- The index of a segment. -/
abbrev Index : Type := Fin P.SegmentCount

variable {P}

/-- `next_`. -/
def Index.next (k : P.Index) : P.Index :=
  ⟨(k + 1) % P.SegmentCount, Nat.mod_lt _ (Nat.lt_of_lt_of_le (by decide) P.segments_ge)⟩

variable (P)

def firstSegment : P.Index := ⟨0, Nat.lt_of_lt_of_le (by decide) P.segments_ge⟩

end Params

/-- A push that has claimed a slot. -/
abbrev Push (P : Params) (τ ε : Type*) : Type _ := Claim P.Index τ ε

/-- A slot, whose element is known by its push. -/
structure Slot (P : Params) (τ ε : Type*) where
  ready : Bool
  element : Option (Push P τ ε)

/-- A segment.  For the record: how often it has been opened again, and how many elements have been
popped from it since. -/
structure Segment where
  original_capacity : ℕ
  capacity : ℕ
  buffer : ℕ
  enqueue_pos : ℕ
  dequeue_state : ℕ
  life : ℕ
  taken : ℕ

/-- A call of `push_back`: the value, the call's number, the segment it tries and the attempt. -/
structure Attempt (P : Params) (ε : Type*) where
  value : ε
  call : ℕ
  target : P.Index
  attempt : ℕ

/-- Where a producer is in `push_back`. -/
inductive Producer (P : Params) (τ ε : Type*)
  | idle
  | loadTarget (value : ε) (call : ℕ)
  | claim (A : Attempt P ε)
  | clampLoad (A : Attempt P ε) (capacity_at_claim : ℕ)
  | clampSwap (A : Attempt P ε) (capacity_at_claim current : ℕ)
  | storeTarget (A : Attempt P ε)
  | readBuffer (c : Push P τ ε)
  | construct (c : Push P τ ε) (buffer : ℕ)
  | readAgain (c : Push P τ ε)
  | publish (c : Push P τ ε) (buffer : ℕ)
  | ret (result : Bool)

/-- Where the consumer is in `pop_front`.  A segment is given another buffer after the given attempt
has emptied it, or after `maybe_shrink_active_segment` has closed it (`none`). -/
inductive Consumer (P : Params)
  | idle
  | tryPop (candidate : P.Index) (attempt : ℕ)
  | loadReady (candidate : P.Index) (attempt : ℕ)
  | take (candidate : P.Index) (attempt : ℕ)
  | clearReady (candidate : P.Index) (attempt : ℕ)
  | retire (k : P.Index) (after : Option ℕ)
  | free (k : P.Index) (new_buffer effective_capacity : ℕ) (after : Option ℕ)
  | install (k : P.Index) (new_buffer effective_capacity : ℕ) (after : Option ℕ)
  | opening (k : P.Index) (effective_capacity : ℕ) (after : Option ℕ)
  | loadTarget
  | loadState (k : P.Index)
  | capState (k : P.Index) (state : ℕ)
  | setCapacity (k : P.Index) (position : ℕ)
  | ret (result : Bool)

/-- The segments, the slots of each buffer, the two targets, and the calls under way.  For the
record: the buffers allocated and not freed, the number of calls of `push_back`, the pushes that have
claimed a slot, those that have returned true, and those popped, in order; the value and the number
of each producer's last call, how many had been popped when the consumer last called, and what that
call has moved to its caller. -/
structure State (P : Params) (τ ε : Type*) where
  segments : P.Index → Segment
  slots : ℕ → ℕ → Slot P τ ε
  producer_target : P.Index
  consumer_target : P.Index
  pop_count : ℕ
  producers : τ → Producer P τ ε
  consumer : Consumer P
  allocated : List ℕ
  calls : ℕ
  claims : List (Push P τ ε)
  pushed : List (Push P τ ε)
  popped : List (Push P τ ε)
  asked : τ → Option (ε × ℕ)
  before : ℕ
  given : Option ε

variable {P : Params} {τ ε : Type*}

/-- The first `n` slots of a buffer are constructed. -/
def constructSlots (slots : ℕ → ℕ → Slot P τ ε) (buffer n : ℕ) : ℕ → ℕ → Slot P τ ε :=
  update slots buffer fun i => if i < n then ⟨false, none⟩ else slots buffer i

namespace State

variable (s : State P τ ε)

def setProducer [DecidableEq τ] (t : τ) (p : Producer P τ ε) : State P τ ε :=
  { s with producers := update s.producers t p }

def goTo (p : Consumer P) : State P τ ε := { s with consumer := p }

def setSegment (k : P.Index) (seg : Segment) : State P τ ε :=
  { s with segments := update s.segments k seg }

def setEnqueuePos (k : P.Index) (value : ℕ) : State P τ ε :=
  s.setSegment k { s.segments k with enqueue_pos := value }

def setSlot (buffer i : ℕ) (x : Slot P τ ε) : State P τ ε :=
  { s with slots := update s.slots buffer (update (s.slots buffer) i x) }

/-- The slot the consumer comes to next in a segment. -/
def front (k : P.Index) : Slot P τ ε :=
  s.slots (s.segments k).buffer (s.segments k).dequeue_state

def setFront (k : P.Index) (x : Slot P τ ε) : State P τ ε :=
  s.setSlot (s.segments k).buffer (s.segments k).dequeue_state x

end State

/-- An attempt has failed. -/
def missed (A : Attempt P ε) : Producer P τ ε :=
  if A.attempt + 1 < P.SegmentCount then
    .storeTarget { A with target := A.target.next, attempt := A.attempt + 1 }
  else .ret false

/-- The loop that pulls the position back, `current` having been read. -/
def enterClamp (A : Attempt P ε) (capacity_at_claim current : ℕ) : Producer P τ ε :=
  if unpackCapacity current = capacity_at_claim ∧ capacity_at_claim ≤ unpackPos current
      ∧ POSITION_CLAMP_DISTANCE ≤ unpackPos current - capacity_at_claim then
    .clampSwap A capacity_at_claim current
  else missed A

/-- What a producer does after `fetch_add` has returned `before`. -/
def claimed (t : τ) (life : ℕ) (A : Attempt P ε) (before : ℕ) : Producer P τ ε :=
  if unpackCapacity before ≤ unpackPos before then
    if POSITION_CLAMP_DISTANCE ≤ unpackPos before - unpackCapacity before then
      .clampLoad A (unpackCapacity before)
    else missed A
  else .readBuffer ⟨t, A.value, A.call, A.target, life, unpackPos before⟩

/-- The slot a producer has claimed. -/
def Producer.claim? : Producer P τ ε → Option (Push P τ ε)
  | .readBuffer c => some c
  | .construct c _ => some c
  | .readAgain c => some c
  | .publish c _ => some c
  | _ => none

/-- The next access of a producer. -/
def stepProducer [DecidableEq τ] (s : State P τ ε) (t : τ) (spurious : Bool) :
    Option (State P τ ε) :=
  match s.producers t with
  | .idle => none
  | .loadTarget value call => some (s.setProducer t (.claim ⟨value, call, s.producer_target, 0⟩))
  | .claim A =>
    some (({ s with
      claims := s.claims ++ (claimed t (s.segments A.target).life A
        (s.segments A.target).enqueue_pos).claim?.toList }.setEnqueuePos A.target
      (((s.segments A.target).enqueue_pos + 1) % SIZES)).setProducer t
      (claimed t (s.segments A.target).life A (s.segments A.target).enqueue_pos))
  | .clampLoad A capacity_at_claim =>
    some (s.setProducer t (enterClamp A capacity_at_claim (s.segments A.target).enqueue_pos))
  | .clampSwap A capacity_at_claim current =>
    if (s.segments A.target).enqueue_pos = current ∧ spurious = false then
      some ((s.setEnqueuePos A.target (packState capacity_at_claim capacity_at_claim)).setProducer t
        (missed A))
    else some (s.setProducer t (enterClamp A capacity_at_claim (s.segments A.target).enqueue_pos))
  | .storeTarget A => some ({ s with producer_target := A.target }.setProducer t (.claim A))
  | .readBuffer c => some (s.setProducer t (.construct c (s.segments c.segment).buffer))
  | .construct c buffer =>
    some ((s.setSlot buffer c.index
      { s.slots buffer c.index with element := some c }).setProducer t (.readAgain c))
  | .readAgain c => some (s.setProducer t (.publish c (s.segments c.segment).buffer))
  | .publish c buffer =>
    some ({ s.setSlot buffer c.index { s.slots buffer c.index with ready := true } with
      pushed := s.pushed ++ [c] }.setProducer t (.ret true))
  | .ret _ => some (s.setProducer t .idle)

/-- The end of a `pop_front` that has taken an element. -/
def finishPop (s : State P τ ε) (candidate : P.Index) (attempt : ℕ) : State P τ ε :=
  { s with
    consumer_target := if attempt ≠ 0 then candidate else s.consumer_target
    pop_count := if P.idle_rotation_interval ≠ 0 then (s.pop_count + 1) % SIZES else s.pop_count
    consumer :=
      if P.idle_rotation_interval ≠ 0 ∧ (s.pop_count + 1) % SIZES % P.idle_rotation_interval = 0 then
        .loadTarget
      else .ret true }

/-- What the consumer goes on with after `retire_and_grow`. -/
def finishRetire (s : State P τ ε) (k : P.Index) : Option ℕ → State P τ ε
  | some attempt => finishPop s k attempt
  | none => s.goTo (.ret true)

/-- The capacity `retire_and_grow` asks for. -/
def newCapacity (s : State P τ ε) (k : P.Index) : ℕ :=
  if (s.segments k).capacity < (s.segments k).original_capacity then
    P.computeShrunkCapacity (s.segments k).capacity
  else P.computeNewCapacity (s.segments k.next).capacity

/-- `maybe_shrink_active_segment` leaves a segment in this state alone. -/
def KeepsOpen (state : ℕ) : Prop :=
  unpackPos state = 0 ∨ unpackCapacity state ≤ unpackPos state
    ∨ unpackCapacity state ≤ unpackPos state * 2

instance (state : ℕ) : Decidable (KeepsOpen state) := inferInstanceAs (Decidable (_ ∨ _))

/-- The slot the consumer has emptied is not ready any more, and the cursor is past it. -/
def clearFront (s : State P τ ε) (k : P.Index) : State P τ ε :=
  (s.setFront k { s.front k with ready := false }).setSegment k
    { s.segments k with dequeue_state := (s.segments k).dequeue_state + 1 }

/-- The consumer's next access in `try_pop_from`. -/
def stepPop (s : State P τ ε) : Option (State P τ ε) :=
  match s.consumer with
  | .tryPop k attempt =>
    some (s.goTo (if attempt < P.SegmentCount then
        if (s.segments k).capacity ≤ (s.segments k).dequeue_state then .tryPop k.next (attempt + 1)
        else .loadReady k attempt
      else .ret false))
  | .loadReady k attempt =>
    some (s.goTo (if (s.front k).ready then .take k attempt else .tryPop k.next (attempt + 1)))
  | .take k attempt =>
    some (({ s.setFront k { s.front k with element := none } with
      popped := s.popped ++ (s.front k).element.toList
      given := (s.front k).element.map Claim.value }.setSegment k
      { s.segments k with taken := (s.segments k).taken + 1 }).goTo (.clearReady k attempt))
  | .clearReady k attempt =>
    if (s.segments k).dequeue_state + 1 = (s.segments k).capacity then
      some ((clearFront s k).goTo (.retire k (some attempt)))
    else some (finishPop (clearFront s k) k attempt)
  | _ => none

/-- The consumer's next access in `retire_and_grow`; `space` is what the allocator gives. -/
def stepRetire (s : State P τ ε) (space : Option ℕ) : Option (State P τ ε) :=
  match s.consumer with
  | .retire k after =>
    match space with
    | none =>
      some (s.goTo (.install k (s.segments k).buffer (s.segments k).original_capacity after))
    | some buffer =>
      if buffer ∈ s.allocated then none
      else
        some ({ s with allocated := buffer :: s.allocated }.goTo
          (.free k buffer (newCapacity s k) after))
  | .free k buffer capacity after =>
    some ({ s with allocated := s.allocated.erase (s.segments k).buffer }.goTo
      (.install k buffer capacity after))
  | .install k buffer capacity after =>
    some (({ s with slots := constructSlots s.slots buffer capacity }.setSegment k
      { s.segments k with
        buffer := buffer, original_capacity := capacity, capacity := capacity,
        dequeue_state := 0 }).goTo (.opening k capacity after))
  | .opening k capacity after =>
    some (finishRetire (s.setSegment k
      { s.segments k with
        enqueue_pos := packState capacity 0, life := (s.segments k).life + 1, taken := 0 }) k after)
  | _ => none

/-- The consumer's next access in `maybe_shrink_active_segment`. -/
def stepShrink (s : State P τ ε) : Option (State P τ ε) :=
  match s.consumer with
  | .loadTarget => some (s.goTo (.loadState s.producer_target))
  | .loadState k =>
    some (s.goTo (if KeepsOpen (s.segments k).enqueue_pos then .ret true
      else .capState k (s.segments k).enqueue_pos))
  | .capState k state =>
    if (s.segments k).enqueue_pos = state then
      some ((s.setEnqueuePos k (packState (unpackPos state) (unpackPos state))).goTo
        (.setCapacity k (unpackPos state)))
    else some (s.goTo (.ret true))
  | .setCapacity k position =>
    some ((s.setSegment k { s.segments k with capacity := position }).goTo
      (if position ≤ (s.segments k).dequeue_state then .retire k none else .ret true))
  | _ => none

def stepConsumer (s : State P τ ε) (space : Option ℕ) : Option (State P τ ε) :=
  match s.consumer with
  | .idle => none
  | .ret _ => some (s.goTo .idle)
  | _ => ((stepPop s).or (stepRetire s space)).or (stepShrink s)

inductive Action (τ ε : Type*)
  | push (t : τ) (value : ε)
  | pop
  | produce (t : τ) (spurious : Bool)
  | consume (space : Option ℕ)

def step [DecidableEq τ] (s : State P τ ε) : Action τ ε → Option (State P τ ε)
  | .push t value =>
    match s.producers t with
    | .idle => some ({ s with
        calls := s.calls + 1
        asked := update s.asked t (some (value, s.calls)) }.setProducer t
          (.loadTarget value s.calls))
    | _ => none
  | .pop =>
    match s.consumer with
    | .idle => some ({ s with before := s.popped.length }.goTo (.tryPop s.consumer_target 0))
    | _ => none
  | .produce t spurious => stepProducer s t spurious
  | .consume space => stepConsumer s space

/-- A new queue, for whose segments the allocator has given the buffers. -/
structure Start (s : State P τ ε) : Prop where
  buffers : Injective fun k => (s.segments k).buffer
  allocated : ∀ b, b ∈ s.allocated ↔ ∃ k, (s.segments k).buffer = b
  segments : ∀ k, s.segments k = ⟨P.initial_capacity, P.initial_capacity, (s.segments k).buffer,
    packState P.initial_capacity 0, 0, 0, 0⟩
  slots : ∀ k, ∀ i < P.initial_capacity, s.slots (s.segments k).buffer i = ⟨false, none⟩
  producer_target : s.producer_target = P.firstSegment
  consumer_target : s.consumer_target = P.firstSegment
  pop_count : s.pop_count = 0
  producers : s.producers = fun _ => .idle
  consumer : s.consumer = .idle
  claims : s.claims = []
  pushed : s.pushed = []
  popped : s.popped = []

def machine (P : Params) [DecidableEq τ] : Machine (State P τ ε) (Action τ ε) where
  init := Start
  step := step

variable (τ) in
/-- A capacity and the positions past it that producers may come to are below 2^32. -/
def Roomy [Fintype τ] (capacity : ℕ) : Prop :=
  capacity + POSITION_CLAMP_DISTANCE + Fintype.card τ < 2 ^ 32

/-- A regrow gets a buffer only of a capacity that has room in the word. -/
def Headroom [Fintype τ] (s : State P τ ε) : Action τ ε → Prop
  | .consume (some _) => ∀ k after, s.consumer = .retire k after → Roomy τ (newCapacity s k)
  | _ => True

end MinStd.GrowableRingQueue
