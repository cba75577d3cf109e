import MinStd.Transition
import MinStd.Words
import MinStd.Linearization
import MinStd.Ring

/-!
# The single-producer single-consumer queue

A ring of `size_` slots between two 32-bit indices.  The producer alone moves `write_index_`, after
constructing an element in the slot there; the consumer alone moves `read_index_`, after moving the
element out of the slot there and destroying it.  One slot stays empty.  Each action is one access
to an index or one construction, move or destruction in a slot.
-/

namespace MinStd.SpscQueue

open Function

variable {α : Type*}

/-- A buffer of `size_` slots; the allocator may have failed to supply it. -/
structure Buffer where
  size_ : ℕ
  size_lt : size_ < WORD32
  allocated : Bool

/-- The test at the head of `push_back`, negated. -/
def Buffer.Usable (Q : Buffer) : Prop := ¬ (Q.size_ < 2 ∨ Q.allocated = false)

instance (Q : Buffer) : Decidable Q.Usable := inferInstanceAs (Decidable (¬ _))

/-- The number of elements there is room for. -/
def Buffer.capacity (Q : Buffer) : ℕ := if Q.Usable then Q.size_ - 1 else 0

/-- A slot's memory: raw, or a live object constructed from `value` that may have been moved
from. -/
inductive Slot (α : Type*)
  | raw
  | live (value : α) (moved : Bool)

/-- The consumer's two operations. -/
inductive Take
  | pop_front
  | popFront
  deriving DecidableEq

inductive Op (α : Type*)
  | push_back (value : α)
  | take (k : Take)

inductive Res (α : Type*)
  | pushed (ok : Bool)
  | popped (front : Option α)
  | dropped
  deriving DecidableEq

inductive Caller
  | producer
  | consumer
  deriving DecidableEq

/-- Where the producer is in `push_back`. -/
inductive Push (α : Type*)
  | idle
  | loadWrite (value : α)
  | loadRead (value : α) (current : ℕ)
  | construct (value : α) (current next : ℕ)
  | store (value : α) (next : ℕ)
  | ret (ok : Bool)
  deriving DecidableEq

/-- Where the consumer is in `pop_front` or `popFront`; `out` is what a `pop_front` moved out, and
`gone` is what the destroyed object had been constructed from. -/
inductive Pop (α : Type*)
  | idle
  | loadRead (k : Take)
  | loadWrite (k : Take) (current : ℕ)
  | move (current next : ℕ)
  | destroy (k : Take) (current next : ℕ) (out : Option α)
  | store (k : Take) (next : ℕ) (out : Option α) (gone : α)
  | ret (res : Res α)
  deriving DecidableEq

/-- The members of the queue and the calls under way.  For the record: whether a slot was misused,
the elements pushed and taken so far, and the calls and returns. -/
structure State (α : Type*) where
  elements : ℕ → Slot α
  readIndex : ℕ
  writeIndex : ℕ
  producer : Push α
  consumer : Pop α
  misused : Bool
  pushed : List α
  taken : List α
  history : List (Event Caller (Op α) (Res α))

inductive Action (α : Type*)
  | push_back (value : α)
  | take (k : Take)
  | stepPush
  | stepPop

variable (Q : Buffer)

/-- `current + 1`, or 0 where that is `size_`. -/
def nextIndex (current : ℕ) : ℕ :=
  if (current + 1) % WORD32 = Q.size_ then 0 else (current + 1) % WORD32

/-- What a call returns that takes nothing, or what `pop_front` moved out. -/
def Take.res (k : Take) (out : Option α) : Res α :=
  match k with
  | .pop_front => .popped out
  | .popFront => .dropped

/-- The next access of `push_back`. -/
def stepPush (s : State α) : Option (State α) :=
  match s.producer with
  | .idle => none
  | .loadWrite value => some { s with producer := .loadRead value s.writeIndex }
  | .loadRead value current =>
    if nextIndex Q current ≠ s.readIndex then
      some { s with producer := .construct value current (nextIndex Q current) }
    else some { s with producer := .ret false }
  | .construct value current next =>
    match s.elements current with
    | .raw =>
      some { s with
        elements := update s.elements current (.live value false)
        producer := .store value next }
    | .live _ _ => some { s with misused := true }
  | .store value next =>
    some { s with
      writeIndex := next
      pushed := s.pushed ++ [value]
      producer := .ret true }
  | .ret ok =>
    some { s with producer := .idle, history := s.history ++ [.ret .producer (.pushed ok)] }

/-- The next access of `pop_front` or `popFront`. -/
def stepPop (s : State α) : Option (State α) :=
  match s.consumer with
  | .idle => none
  | .loadRead k => some { s with consumer := .loadWrite k s.readIndex }
  | .loadWrite k current =>
    if current = s.writeIndex then some { s with consumer := .ret (k.res none) }
    else
      match k with
      | .pop_front => some { s with consumer := .move current (nextIndex Q current) }
      | .popFront => some { s with consumer := .destroy .popFront current (nextIndex Q current) none }
  | .move current next =>
    match s.elements current with
    | .live value false =>
      some { s with
        elements := update s.elements current (.live value true)
        consumer := .destroy .pop_front current next (some value) }
    | _ => some { s with misused := true }
  | .destroy k current next out =>
    match s.elements current with
    | .live value _ =>
      some { s with
        elements := update s.elements current .raw
        consumer := .store k next out value }
    | .raw => some { s with misused := true }
  | .store k next out gone =>
    some { s with
      readIndex := next
      taken := s.taken ++ [gone]
      consumer := .ret (k.res out) }
  | .ret res =>
    some { s with consumer := .idle, history := s.history ++ [.ret .consumer res] }

def step (s : State α) : Action α → Option (State α)
  | .push_back value =>
    match s.producer with
    | .idle =>
      some { s with
        producer := if Q.Usable then .loadWrite value else .ret false
        history := s.history ++ [.call .producer (.push_back value)] }
    | _ => none
  | .take k =>
    match s.consumer with
    | .idle =>
      some { s with
        consumer := .loadRead k
        history := s.history ++ [.call .consumer (.take k)] }
    | _ => none
  | .stepPush => stepPush Q s
  | .stepPop => stepPop Q s

/-- A new queue. -/
structure Start (s : State α) : Prop where
  elements : s.elements = fun _ => .raw
  readIndex : s.readIndex = 0
  writeIndex : s.writeIndex = 0
  producer : s.producer = .idle
  consumer : s.consumer = .idle
  misused : s.misused = false
  pushed : s.pushed = []
  taken : s.taken = []
  history : s.history = []

def machine : Machine (State α) (Action α) where
  init := Start
  step := step Q

/-- The loop of the destructor, with what it destroyed so far; `none` when out of fuel. -/
def destroyLoop (fuel : ℕ) (current last : ℕ) (elements : ℕ → Slot α) (destroyed : List (Slot α)) :
    Option ((ℕ → Slot α) × List (Slot α)) :=
  match fuel with
  | 0 => none
  | fuel + 1 =>
    if current ≠ last then
      destroyLoop fuel (nextIndex Q current) last (update elements current .raw)
        (destroyed ++ [elements current])
    else some (elements, destroyed)

/-- The destructor: the slots it leaves and the objects it destroyed. -/
def destructor (fuel : ℕ) (s : State α) : Option ((ℕ → Slot α) × List (Slot α)) :=
  destroyLoop Q fuel s.readIndex s.writeIndex s.elements []

/-- A first-in first-out queue of at most `capacity` elements. -/
inductive Takes (capacity : ℕ) : Op α → List α → Res α → List α → Prop
  | push {value : α} {l : List α} : l.length < capacity →
      Takes capacity (.push_back value) l (.pushed true) (l ++ [value])
  | full {value : α} {l : List α} : l.length = capacity →
      Takes capacity (.push_back value) l (.pushed false) l
  | pop {value : α} {l : List α} :
      Takes capacity (.take .pop_front) (value :: l) (.popped (some value)) l
  | drop {value : α} {l : List α} : Takes capacity (.take .popFront) (value :: l) .dropped l
  | empty {k : Take} : Takes capacity (.take k) [] (k.res none) []

/-- The bounded queue. -/
def boundedQueue (α : Type*) (capacity : ℕ) : SequentialObject (Op α) (Res α) (List α) where
  start := []
  Takes := Takes capacity

/-- The elements pushed and not taken. -/
def State.queue (s : State α) : List α := s.pushed.drop s.taken.length

end MinStd.SpscQueue
