import MinStd.Transition
import MinStd.Words
import MinStd.Linearization

/-!
# The single-producer stack of values

`state_` packs a 32-bit generation, which every push increments, over the 32-bit number of entries.
The producer writes the cell above the entries and then moves the packed word; a consumer reads the
top cell and then moves the packed word, so that either one's compare-and-swap fails when the word
has changed under it.  Each action is one atomic access; a weak compare-and-swap may also fail with
the expected word in place.
-/

namespace MinStd.ValueStack

open Function

variable {α C : Type*} [DecidableEq C]

/-- A capacity the static assertions accept. -/
structure Capacity where
  CAPACITY : ℕ
  pos : 0 < CAPACITY
  le : CAPACITY ≤ 0xFFFFFFFF

/-- The calls of the producer and of the consumers. -/
inductive Op (α : Type*)
  | push (value : α)
  | pop

inductive Res (α : Type*)
  | pushed (ok : Bool)
  | popped (out : Option α)

inductive Caller (C : Type*)
  | producer
  | consumer (c : C)
  deriving DecidableEq

/-- Where the producer is in `push`. -/
inductive Push (α : Type*)
  | idle
  | load (value : α)
  | write (value : α) (old : ℕ)
  | cas (value : α) (old : ℕ)
  | ret (ok : Bool)
  deriving DecidableEq

/-- Where a consumer is in `pop`; `since` is the number of pushes made when it read `old`. -/
inductive Pop (α : Type*)
  | idle
  | load
  | read (old since : ℕ)
  | cas (old : ℕ) (val : α) (since : ℕ)
  | ret (out : Option α)
  deriving DecidableEq

/-- The members of the stack, the calls under way, and, for the record, the number of pushes made
and the calls and returns so far. -/
structure State (α C : Type*) where
  word : ℕ
  slots : ℕ → α
  producer : Push α
  consumer : C → Pop α
  pushes : ℕ
  history : List (Event (Caller C) (Op α) (Res α))

inductive Action (α C : Type*)
  | push (value : α)
  | pop (c : C)
  | stepPush (spurious : Bool)
  | stepPop (c : C) (spurious : Bool)

variable (K : Capacity)

/-- The head of the loop of `push`, `old` having been read. -/
def pushLoop (value : α) (old : ℕ) : Push α :=
  if lo32 old ≥ K.CAPACITY % WORD32 then .ret false else .write value old

/-- The head of the loop of `pop`, `old` having been read. -/
def popLoop (old since : ℕ) : Pop α :=
  if lo32 old ≠ 0 then .read old since else .ret none

/-- The next atomic access of `push`. -/
def stepPush (s : State α C) (spurious : Bool) : Option (State α C) :=
  match s.producer with
  | .idle => none
  | .load value => some { s with producer := pushLoop K value s.word }
  | .write value old =>
    some { s with slots := update s.slots (lo32 old) value, producer := .cas value old }
  | .cas value old =>
    if s.word = old ∧ spurious = false then
      some { s with
        word := pack ((hi32 old + 1) % WORD32) ((lo32 old + 1) % WORD32)
        pushes := s.pushes + 1
        producer := .ret true }
    else some { s with producer := pushLoop K value s.word }
  | .ret ok =>
    some { s with producer := .idle, history := s.history ++ [.ret .producer (.pushed ok)] }

/-- The next atomic access of a `pop`. -/
def stepPop (s : State α C) (c : C) (spurious : Bool) : Option (State α C) :=
  match s.consumer c with
  | .idle => none
  | .load => some { s with consumer := update s.consumer c (popLoop s.word s.pushes) }
  | .read old since =>
    some { s with consumer := update s.consumer c (.cas old (s.slots (lo32 old - 1)) since) }
  | .cas old val _ =>
    if s.word = old ∧ spurious = false then
      some { s with
        word := pack (hi32 old) (lo32 old - 1)
        consumer := update s.consumer c (.ret (some val)) }
    else some { s with consumer := update s.consumer c (popLoop s.word s.pushes) }
  | .ret out =>
    some { s with
      consumer := update s.consumer c .idle
      history := s.history ++ [.ret (.consumer c) (.popped out)] }

def step (s : State α C) : Action α C → Option (State α C)
  | .push value =>
    match s.producer with
    | .idle =>
      some { s with
        producer := .load value
        history := s.history ++ [.call .producer (.push value)] }
    | _ => none
  | .pop c =>
    match s.consumer c with
    | .idle =>
      some { s with
        consumer := update s.consumer c .load
        history := s.history ++ [.call (.consumer c) .pop] }
    | _ => none
  | .stepPush spurious => stepPush K s spurious
  | .stepPop c spurious => stepPop s c spurious

/-- A new stack: the word is 0 and the cells hold anything. -/
structure Start (s : State α C) : Prop where
  word : s.word = 0
  producer : s.producer = .idle
  consumer : s.consumer = fun _ => .idle
  pushes : s.pushes = 0
  history : s.history = []

def machine : Machine (State α C) (Action α C) where
  init := Start
  step := step K

/-- The number of pushes made when a pop at its compare-and-swap read the word. -/
def Pop.since? : Pop α → Option ℕ
  | .cas _ _ since => some since
  | _ => none

/-- Fewer than 2^32 pushes are made while a pop stands between its read of the word and its
compare-and-swap. -/
def Unwrapped (s : State α C) : Action α C → Prop
  | .stepPop c _ => ∀ since ∈ (s.consumer c).since?, s.pushes < since + WORD32
  | _ => True

instance (s : State α C) : ∀ a, Decidable (Unwrapped s a)
  | .stepPop _ _ => Option.decidableForallMem _
  | .push _ => .isTrue trivial
  | .pop _ => .isTrue trivial
  | .stepPush _ => .isTrue trivial

/-- A last-in first-out stack of at most `capacity` values, its top first. -/
inductive Takes (capacity : ℕ) : Op α → List α → Res α → List α → Prop
  | push {value : α} {l : List α} : l.length < capacity →
      Takes capacity (.push value) l (.pushed true) (value :: l)
  | full {value : α} {l : List α} : l.length = capacity →
      Takes capacity (.push value) l (.pushed false) l
  | pop {value : α} {l : List α} : Takes capacity .pop (value :: l) (.popped (some value)) l
  | empty : Takes capacity .pop [] (.popped none) []

/-- The bounded stack. -/
def boundedStack (α : Type*) (capacity : ℕ) : SequentialObject (Op α) (Res α) (List α) where
  start := []
  Takes := Takes capacity

/-- The values in the first `n` cells, the last of them first. -/
def stackOf (slots : ℕ → α) : ℕ → List α
  | 0 => []
  | n + 1 => slots n :: stackOf slots n

/-- The entries, the top first. -/
def State.entries (s : State α C) : List α := stackOf s.slots (lo32 s.word)

end MinStd.ValueStack
