import MinStd.Transition

/-!
# The elimination array

A put and a get that meet in a slot exchange an element without touching the stack they serve.  The
first to arrive claims an empty slot and waits a while for the other; it gives up by taking the
slot back to empty, or finds that the other has taken up the offer and waits for it to finish.
Each action is one access to a slot's state or element; the slot a thread tries is the action's
choice.
-/

namespace MinStd.EliminationArray

open Function

variable {τ ι ε : Type*} [DecidableEq τ] [DecidableEq ι]

inductive SlotState
  | EMPTY
  | PUT_SETUP
  | WAITING_PUT
  | ELIMINATING_PUT
  | WAITING_GET
  | ELIMINATING_GET
  | GET_CLEANUP
  | ELIMINATED
  deriving DecidableEq

/-- A slot; for the record, the thread that claimed it and the one that took up its offer. -/
structure Slot (τ ε : Type*) where
  state : SlotState
  element : Option ε
  owner : τ
  partner : τ

/-- Where a thread is in `put_element` or `get_element`.  A pointer is `none` when null; a call of
`get_element` that returns false returns `none`. -/
inductive Pc (ι ε : Type*)
  | idle
  | putFirst (newElement : ε) (attempts : ℕ)
  | putSecond (newElement : ε) (attempts : ℕ) (index : ι)
  | putElement (newElement : ε) (index : ι)
  | putWaiting (newElement : ε) (index : ι)
  | putCancel (newElement : ε) (index : ι)
  | putFinish (index : ι)
  | putGive (newElement : ε) (index : ι)
  | putGiven (index : ι)
  | putRet (ok : Bool)
  | getFirst (attempts : ℕ)
  | getSecond (attempts : ℕ) (index : ι)
  | getTake (index : ι)
  | getClear (index : ι) (element : Option ε)
  | getTaken (index : ι) (element : Option ε)
  | getCancel (index : ι)
  | getFinish (index : ι)
  | getLoad (index : ι)
  | getNull (index : ι) (element : Option ε)
  | getEmpty (index : ι) (element : Option ε)
  | getRet (element : Option (Option ε))
  deriving DecidableEq

/-- The calls and returns, each call with a number of its own. -/
inductive Event (ε : Type*)
  | put (call : ℕ) (newElement : Option ε)
  | get (call : ℕ)
  | putRet (call : ℕ) (ok : Bool)
  | getRet (call : ℕ) (element : Option (Option ε))

/-- A put and a get that have met, and the element put. -/
structure Exchange (ε : Type*) where
  put : ℕ
  get : ℕ
  element : ε

/-- The slots and the calls under way.  For the record: the numbers of the calls, the exchanges,
and the calls and returns so far. -/
structure State (τ ι ε : Type*) where
  slots : ι → Slot τ ε
  pc : τ → Pc ι ε
  call : τ → ℕ
  calls : ℕ
  exchanges : List (Exchange ε)
  history : List (Event ε)

inductive Action (τ ι ε : Type*)
  | put (t : τ) (newElement : Option ε)
  | get (t : τ)
  | run (t : τ) (index : ι) (spurious : Bool)

def State.setPc (s : State τ ι ε) (t : τ) (p : Pc ι ε) : State τ ι ε :=
  { s with pc := update s.pc t p }

def State.setState (s : State τ ι ε) (i : ι) (state : SlotState) : State τ ι ε :=
  { s with slots := update s.slots i { s.slots i with state := state } }

def State.setElement (s : State τ ι ε) (i : ι) (element : Option ε) : State τ ι ε :=
  { s with slots := update s.slots i { s.slots i with element := element } }

/-- A compare-and-swap of an empty slot's state, which makes `t` the slot's owner. -/
def State.claim (s : State τ ι ε) (t : τ) (i : ι) (state : SlotState) : State τ ι ε :=
  { s with slots := update s.slots i { s.slots i with state := state, owner := t } }

/-- A compare-and-swap of an offering slot's state, which makes `t` the owner's partner. -/
def State.join (s : State τ ι ε) (t : τ) (i : ι) (state : SlotState) : State τ ι ε :=
  { s with slots := update s.slots i { s.slots i with state := state, partner := t } }

/-- Notes a put and a get that have met. -/
def State.exchange (s : State τ ι ε) (put get : ℕ) (element : Option ε) : State τ ι ε :=
  { s with exchanges := s.exchanges ++ (element.map fun e => ⟨put, get, e⟩).toList }

def State.record (s : State τ ι ε) (e : Event ε) : State τ ι ε :=
  { s with history := s.history ++ [e] }

/-- The end of an attempt of `put_element` that found neither state. -/
def putNext (newElement : ε) (attempts : ℕ) : Pc ι ε :=
  if attempts + 1 < 3 then .putFirst newElement (attempts + 1) else .putRet false

/-- The end of an attempt of `get_element` that found neither state. -/
def getNext (attempts : ℕ) : Pc ι ε :=
  if attempts + 1 < 3 then .getFirst (attempts + 1) else .getRet none

/-- The next atomic access of `put_element`. -/
def stepPut (s : State τ ι ε) (t : τ) (choice : ι) : Option (State τ ι ε) :=
  match s.pc t with
  | .putFirst e attempts =>
    if (s.slots choice).state = .EMPTY then
      some ((s.claim t choice .PUT_SETUP).setPc t (.putElement e choice))
    else some (s.setPc t (.putSecond e attempts choice))
  | .putSecond e attempts i =>
    if (s.slots i).state = .WAITING_PUT then
      some (((s.join t i .ELIMINATING_PUT).exchange (s.call t) (s.call (s.slots i).owner) (some e)).setPc
        t (.putGive e i))
    else some (s.setPc t (putNext e attempts))
  | .putElement e i => some ((s.setElement i (some e)).setPc t (.putWaiting e i))
  | .putWaiting e i => some ((s.setState i .WAITING_GET).setPc t (.putCancel e i))
  | .putCancel _ i =>
    if (s.slots i).state = .WAITING_GET then
      some ((s.setState i .EMPTY).setPc t (.putRet false))
    else some (s.setPc t (.putFinish i))
  | .putFinish i =>
    if (s.slots i).state = .ELIMINATED then
      some ((s.setState i .EMPTY).setPc t (.putRet true))
    else some s
  | .putGive e i => some ((s.setElement i (some e)).setPc t (.putGiven i))
  | .putGiven i => some ((s.setState i .ELIMINATED).setPc t (.putRet true))
  | .putRet ok => some ((s.record (.putRet (s.call t) ok)).setPc t .idle)
  | _ => none

/-- The next atomic access of `get_element`. -/
def stepGet (s : State τ ι ε) (t : τ) (choice : ι) (spurious : Bool) : Option (State τ ι ε) :=
  match s.pc t with
  | .getFirst attempts =>
    if (s.slots choice).state = .EMPTY ∧ spurious = false then
      some ((s.claim t choice .WAITING_PUT).setPc t (.getCancel choice))
    else some (s.setPc t (.getSecond attempts choice))
  | .getSecond attempts i =>
    if (s.slots i).state = .WAITING_GET ∧ spurious = false then
      some (((s.join t i .ELIMINATING_GET).exchange (s.call (s.slots i).owner) (s.call t)
        (s.slots i).element).setPc t (.getTake i))
    else some (s.setPc t (getNext attempts))
  | .getTake i => some (s.setPc t (.getClear i (s.slots i).element))
  | .getClear i e => some ((s.setElement i none).setPc t (.getTaken i e))
  | .getTaken i e => some ((s.setState i .ELIMINATED).setPc t (.getRet (some e)))
  | .getCancel i =>
    if (s.slots i).state = .WAITING_PUT then
      some ((s.setState i .EMPTY).setPc t (.getRet none))
    else some (s.setPc t (.getFinish i))
  | .getFinish i =>
    if (s.slots i).state = .ELIMINATED then
      some ((s.setState i .GET_CLEANUP).setPc t (.getLoad i))
    else some s
  | .getLoad i => some (s.setPc t (.getNull i (s.slots i).element))
  | .getNull i e => some ((s.setElement i none).setPc t (.getEmpty i e))
  | .getEmpty i e => some ((s.setState i .EMPTY).setPc t (.getRet (some e)))
  | .getRet e => some ((s.record (.getRet (s.call t) e)).setPc t .idle)
  | _ => none

/-- Gives thread `t` the next call number. -/
def State.start (s : State τ ι ε) (t : τ) : State τ ι ε :=
  { s with call := update s.call t s.calls, calls := s.calls + 1 }

def step (s : State τ ι ε) : Action τ ι ε → Option (State τ ι ε)
  | .put t newElement =>
    match s.pc t with
    | .idle =>
      some (((s.start t).record (.put s.calls newElement)).setPc t
        (match newElement with
        | none => .putRet false
        | some e => .putFirst e 0))
    | _ => none
  | .get t =>
    match s.pc t with
    | .idle => some (((s.start t).record (.get s.calls)).setPc t (.getFirst 0))
    | _ => none
  | .run t choice spurious => (stepPut s t choice).or (stepGet s t choice spurious)

/-- A new array: every slot is empty. -/
structure Start (s : State τ ι ε) : Prop where
  slots : ∀ i, (s.slots i).state = .EMPTY
  pc : s.pc = fun _ => .idle
  exchanges : s.exchanges = []
  history : s.history = []

def machine : Machine (State τ ι ε) (Action τ ι ε) where
  init := Start
  step := step

end MinStd.EliminationArray
