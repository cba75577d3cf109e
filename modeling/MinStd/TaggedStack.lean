import MinStd.ArenaTaggedPtr
import MinStd.Chain
import MinStd.Linearization
import MinStd.Transition

/-!
# The intrusive stack with a tagged head

The head word packs a pointer to the top node with a counter that every change of the head advances.
The link is in the node: a push stores it before its compare-and-swap, a pop reads it from a node it
does not have, and the one who has a node may store any link in it.  A steal takes the whole list.
Each action is one atomic access; a weak compare-and-swap may also fail with the expected word in
place.
-/

namespace MinStd.TaggedStack

open Function

variable {τ ν L : Type*} [DecidableEq τ] [DecidableEq ν]

/-- A codec of head words: `Fits` are the pointers a word can hold. -/
structure Codec (ν : Type*) where
  counters : ℕ
  counters_pos : 0 < counters
  Fits : Option ν → Prop
  fits_none : Fits none
  pack : Option ν → ℕ → ℕ
  unpackPtr : ℕ → Option ν
  unpackCounter : ℕ → ℕ
  unpackPtr_pack : ∀ {ptr counter}, Fits ptr → unpackPtr (pack ptr counter) = ptr
  unpackCounter_pack : ∀ {ptr counter}, Fits ptr →
    unpackCounter (pack ptr counter) = counter % counters

/-- The link that stands for a pointer, and the pointer a link is read as. -/
structure Adapter (C : Codec ν) (L : Type*) where
  toLink : Option ν → L
  toNode : L → Option ν
  toNode_toLink : ∀ {ptr}, C.Fits ptr → toNode (toLink ptr) = ptr

/-- The codec of an arena that is small enough for it. -/
def arenaCodec (C : ArenaTaggedPtr) (small : C.units + 1 < 2 ^ 64) : Codec ℕ where
  counters := C.counters
  counters_pos := C.counters_pos
  Fits := C.Fits
  fits_none := ⟨small, by simp⟩
  pack := C.pack
  unpackPtr := C.unpackPtr
  unpackCounter := C.unpackCounter
  unpackPtr_pack := ArenaTaggedPtr.unpackPtr_pack
  unpackCounter_pack := ArenaTaggedPtr.unpackCounter_pack

/-- Who has a node. -/
inductive Place (τ : Type*)
  | stack
  | owned (t : τ)
  | elsewhere
  deriving DecidableEq

inductive Op (ν : Type*)
  | push (node : ν)
  | pop
  | stealAll

inductive Res (ν : Type*)
  | pushed
  | popped (out : Option ν)
  | stolen (chain : List ν)

/-- Where a thread is in a call.  For the record: the changes of the head when a pop read it, and
the nodes a steal took. -/
inductive Pc (ν : Type*)
  | idle
  | pushLoad (node : ν)
  | pushStore (node : ν) (tag : ℕ)
  | pushCas (node : ν) (tag : ℕ)
  | pushRet
  | popLoad
  | popLink (current : ν) (tag since : ℕ)
  | popCas (current : ν) (tag nextTag since : ℕ)
  | popClear (current : ν)
  | popRet (out : Option ν)
  | stealLoad
  | stealCas (stolen : ℕ)
  | stealRet (out : Option ν) (chain : List ν)
  deriving DecidableEq

/-- The head, the nodes' links and the calls under way.  For the record: who has each node, the
nodes pushed and not taken since, the changes of the head, and the calls and returns so far. -/
structure State (τ ν L : Type*) where
  head : ℕ
  link : ν → L
  pc : τ → Pc ν
  place : ν → Place τ
  contents : List ν
  changes : ℕ
  history : List (Event τ (Op ν) (Res ν))

def State.setPc (s : State τ ν L) (t : τ) (x : Pc ν) : State τ ν L :=
  { s with pc := update s.pc t x }

def State.storeLink (s : State τ ν L) (node : ν) (link : L) : State τ ν L :=
  { s with link := update s.link node link }

/-- A call is made, and the caller goes on to `x`. -/
def State.call (s : State τ ν L) (t : τ) (op : Op ν) (x : Pc ν) : State τ ν L :=
  { s with pc := update s.pc t x, history := s.history ++ [.call t op] }

def State.ret (s : State τ ν L) (t : τ) (res : Res ν) : State τ ν L :=
  { s with pc := update s.pc t .idle, history := s.history ++ [.ret t res] }

/-- The head is changed, and with it what is on the stack. -/
def State.swap (s : State τ ν L) (head : ℕ) (contents : List ν) (place : ν → Place τ) :
    State τ ν L :=
  { s with head := head, contents := contents, place := place, changes := s.changes + 1 }

inductive Action (τ ν L : Type*)
  | push (t : τ) (node : ν)
  | pop (t : τ)
  | stealAll (t : τ)
  | store (t : τ) (node : ν) (link : L)
  | give (t u : τ) (node : ν)
  | run (t : τ) (spurious : Bool)

variable {C : Codec ν} (A : Adapter C L)

/-- The head of a pop's loop, `tag` having been read. -/
def popLoop (C : Codec ν) (tag since : ℕ) : Pc ν :=
  match C.unpackPtr tag with
  | some current => .popLink current tag since
  | none => .popRet none

/-- The next access of a call, or its return. -/
def run (s : State τ ν L) (t : τ) (spurious : Bool) : Option (State τ ν L) :=
  match s.pc t with
  | .idle => none
  | .pushLoad node => some (s.setPc t (.pushStore node s.head))
  | .pushStore node tag =>
    some ((s.storeLink node (A.toLink (C.unpackPtr tag))).setPc t (.pushCas node tag))
  | .pushCas node tag =>
    if s.head = tag then
      some ((s.swap (C.pack (some node) (C.unpackCounter tag + 1)) (node :: s.contents)
        (update s.place node .stack)).setPc t .pushRet)
    else some (s.setPc t (.pushStore node s.head))
  | .pushRet => some (s.ret t .pushed)
  | .popLoad => some (s.setPc t (popLoop C s.head s.changes))
  | .popLink current tag since =>
    some (s.setPc t (.popCas current tag
      (C.pack (A.toNode (s.link current)) (C.unpackCounter tag + 1)) since))
  | .popCas current tag nextTag _ =>
    if s.head = tag then
      some ((s.swap nextTag s.contents.tail (update s.place current (.owned t))).setPc t
        (.popClear current))
    else some (s.setPc t (popLoop C s.head s.changes))
  | .popClear current =>
    some ((s.storeLink current (A.toLink none)).setPc t (.popRet (some current)))
  | .popRet out => some (s.ret t (.popped out))
  | .stealLoad => some (s.setPc t (.stealCas s.head))
  | .stealCas stolen =>
    if s.head = stolen ∧ spurious = false then
      some ((s.swap (C.pack none (C.unpackCounter stolen + 1)) []
        (fun n => if n ∈ s.contents then .owned t else s.place n)).setPc t
        (.stealRet (C.unpackPtr stolen) s.contents))
    else some (s.setPc t (.stealCas s.head))
  | .stealRet _ chain => some (s.ret t (.stolen chain))

/-- A thread that is in no call may push a node it has, store a link in it or give it away. -/
def step (s : State τ ν L) : Action τ ν L → Option (State τ ν L)
  | .push t node =>
    if s.pc t = .idle ∧ s.place node = .owned t then some (s.call t (.push node) (.pushLoad node))
    else none
  | .pop t => if s.pc t = .idle then some (s.call t .pop .popLoad) else none
  | .stealAll t => if s.pc t = .idle then some (s.call t .stealAll .stealLoad) else none
  | .store t node link =>
    if s.pc t = .idle ∧ s.place node = .owned t then some (s.storeLink node link) else none
  | .give t u node =>
    if s.pc t = .idle ∧ s.place node = .owned t then
      some { s with place := update s.place node (.owned u) }
    else none
  | .run t spurious => run A s t spurious

/-- The node a node's link leads to. -/
def State.next (s : State τ ν L) (node : ν) : Option ν := A.toNode (s.link node)

/-- The stack holds `initial`, whose nodes the head leads through; the others are with threads or
out of use. -/
structure Start (initial : List ν) (s : State τ ν L) : Prop where
  contents : s.contents = initial
  chain : Linked some (s.next A) (C.unpackPtr s.head) initial none
  counter : C.unpackCounter s.head = s.changes % C.counters
  stack : ∀ n, n ∈ initial ↔ s.place n = .stack
  fits : ∀ n, s.place n ≠ .elsewhere → C.Fits (some n)
  pc : s.pc = fun _ => .idle
  history : s.history = []

def machine (initial : List ν) : Machine (State τ ν L) (Action τ ν L) where
  init := Start A initial
  step := step A

/-- The changes of the head when a pop at its compare-and-swap read it. -/
def Pc.since? : Pc ν → Option ℕ
  | .popCas _ _ _ since => some since
  | _ => none

/-- The counter does not come round while a pop stands between its read of the head and its
compare-and-swap. -/
def Unwrapped (C : Codec ν) (s : State τ ν L) : Action τ ν L → Prop
  | .run t _ => ∀ since ∈ (s.pc t).since?, s.changes < since + C.counters
  | _ => True

instance (s : State τ ν L) : ∀ a, Decidable (Unwrapped C s a)
  | .run _ _ => Option.decidableForallMem _
  | .push _ _ => .isTrue trivial
  | .pop _ => .isTrue trivial
  | .stealAll _ => .isTrue trivial
  | .store _ _ _ => .isTrue trivial
  | .give _ _ _ => .isTrue trivial

/-- A last-in first-out stack, its top first. -/
inductive Takes : Op ν → List ν → Res ν → List ν → Prop
  | push {node : ν} {l : List ν} : Takes (.push node) l .pushed (node :: l)
  | pop {node : ν} {l : List ν} : Takes .pop (node :: l) (.popped (some node)) l
  | empty : Takes .pop [] (.popped none) []
  | steal {l : List ν} : Takes .stealAll l (.stolen l) []

def lifo (initial : List ν) : SequentialObject (Op ν) (Res ν) (List ν) where
  start := initial
  Takes := Takes

end MinStd.TaggedStack
