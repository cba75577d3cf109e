import MinStd.ArenaTaggedPtr
import MinStd.Chain
import MinStd.StaticArena

/-!
# The static arena and its threads

The static arena, one atomic access a step.  A bin is a stack of blocks linked through a table with
a cell for each unit; its head word has a counter that every change advances.  A request too large
for the class bins steals the last bin's list, searches it, unlinks the best fit and pushes the
others back.
-/

namespace MinStd.StaticArena

def Buffer.headCodec (B : Buffer) : ArenaTaggedPtr := ⟨B.blockCount⟩

def Buffer.cellOf (B : Buffer) (block : ℕ) : ℕ := (block - B.arenaStart) / MIN_ALIGNMENT

def Buffer.blockOf (B : Buffer) (cell : ℕ) : ℕ := B.arenaStart + cell * MIN_ALIGNMENT

/-- The blocks of cells, as long as they were when they were freed. -/
def Buffer.blocks (B : Buffer) (headers : ℕ → ℕ) (cells : List ℕ) : List Span :=
  cells.map fun c => freed headers (B.blockOf c)

namespace Threads

open Function

variable {τ : Type*} [DecidableEq τ]

def toLink : Option ℕ → ℕ
  | some cell => cell + 1
  | none => 0

def toNode (link : ℕ) : Option ℕ := if link = 0 then none else some (link - 1)

/-- The variables of a search of the last bin.  For the record: the stolen cells not given up. -/
structure Search where
  bytes : ℕ
  stolenList : Option ℕ
  bestFit : Option ℕ
  prev : Option ℕ
  bestFitPrev : Option ℕ
  bestFitSize : ℕ
  cells : List ℕ
  deriving DecidableEq

/-- Where a thread goes on after a push: the other pieces of a remainder, the rest of a stolen list,
or nowhere. -/
inductive Next
  | pieces (block bytes : ℕ) (rest : List Span)
  | rePush (S : Search) (next : Option ℕ)
  | done
  deriving DecidableEq

/-- Where a thread is in a call.  For the record: the changes of a bin's head when it was read. -/
inductive Pc
  | idle
  | bumpLoad (bytes : ℕ)
  | bumpCas (bytes expected : ℕ)
  | popLoad (bytes bin : ℕ)
  | popLink (bytes bin tag since : ℕ)
  | popCas (bytes bin tag since link : ℕ)
  | popClear (bytes bin cell : ℕ)
  | stealLoad (bytes : ℕ)
  | stealCas (bytes stolen : ℕ)
  | searchSize (S : Search) (current : ℕ)
  | searchLink (S : Search) (current : ℕ)
  | bestLink (S : Search) (best : ℕ)
  | unlinkBest (S : Search) (best prev afterBest : ℕ)
  | clearBest (S : Search) (best : ℕ)
  | rePushLink (S : Search) (current : ℕ)
  | pushHeader (block : Span) (k : Next)
  | pushLoad (cell bin : ℕ) (k : Next)
  | pushLink (cell bin tag : ℕ) (k : Next)
  | pushCas (cell bin tag : ℕ) (k : Next)
  | handOut (block bytes : ℕ)
  | refuse
  | freed
  deriving DecidableEq

/-- The bump pointer, the head words, the link cells, the headers and the calls under way.  For the
record: each bin's list and the changes of its head, and the allocations not yet given back, with
the bytes asked for. -/
structure State (τ : Type*) where
  currentPtr : ℕ
  heads : ℕ → ℕ
  links : ℕ → ℕ
  headers : ℕ → ℕ
  pc : τ → Pc
  lists : ℕ → List ℕ
  changes : ℕ → ℕ
  live : List (ℕ × ℕ)

/-- The node a cell's link leads to. -/
def State.next (s : State τ) (cell : ℕ) : Option ℕ := toNode (s.links cell)

def State.setPc (s : State τ) (t : τ) (p : Pc) : State τ := { s with pc := update s.pc t p }

def State.storeLink (s : State τ) (cell link : ℕ) : State τ :=
  { s with links := update s.links cell link }

/-- A bin's head is changed, and its list with it. -/
def State.setHead (s : State τ) (bin tag : ℕ) (list : List ℕ) : State τ :=
  { s with
    heads := update s.heads bin tag
    lists := update s.lists bin list
    changes := update s.changes bin (s.changes bin + 1) }

/-- Handing out a block of `size` bytes as what was asked for: the rest is freed first. -/
def split (block size bytes : ℕ) : Pc :=
  if blockSizeFor bytes < size then
    match freePieces (block + blockSizeFor bytes) (size - blockSizeFor bytes) with
    | piece :: rest => .pushHeader piece (.pieces block bytes rest)
    | [] => .handOut block bytes
  else .handOut block bytes

/-- The head of the loop over the class bins. -/
def enterBin (bytes bin : ℕ) : Pc :=
  if bin < NUM_BINS - 1 then .popLoad bytes bin else .stealLoad bytes

/-- The head of the loop over the bump pointer, `expected` having been read. -/
def enterBump (B : Buffer) (bytes expected : ℕ) : Pc :=
  if HasRoom B expected (blockSizeFor bytes) then .bumpCas bytes expected
  else enterBin bytes (getBin (blockSizeFor bytes))

/-- The head of a pop's loop, `tag` having been read. -/
def enterPop (B : Buffer) (bytes bin tag since : ℕ) : Pc :=
  if B.headCodec.unpackPtr tag = none then enterBin bytes (bin + 1)
  else .popLink bytes bin tag since

/-- The end of a search: the best fit is cut, or there is none. -/
def finishSearch (B : Buffer) (S : Search) : Pc :=
  match S.bestFit with
  | some best => split (B.blockOf best) S.bestFitSize S.bytes
  | none => .refuse

/-- The head of the loop that pushes back. -/
def enterRePush (B : Buffer) (S : Search) : Option ℕ → Pc
  | some current => .rePushLink S current
  | none => finishSearch B S

/-- The head of the loop that searches. -/
def enterSearch (B : Buffer) (S : Search) : Option ℕ → Pc
  | some current => .searchSize S current
  | none =>
    match S.bestFit with
    | some best => .bestLink S best
    | none => enterRePush B S S.stolenList

/-- A block of the stolen list has been found to have `size` bytes. -/
def Search.see (S : Search) (current size : ℕ) : Search :=
  if blockSizeFor S.bytes ≤ size ∧ (S.bestFit = none ∨ size < S.bestFitSize) then
    { S with bestFit := some current, bestFitPrev := S.prev, bestFitSize := size,
             prev := some current }
  else { S with prev := some current }

/-- After a push. -/
def Next.resume (B : Buffer) : Next → Pc
  | .pieces block bytes [] => .handOut block bytes
  | .pieces block bytes (piece :: rest) => .pushHeader piece (.pieces block bytes rest)
  | .rePush S next => enterRePush B S next
  | .done => .freed

variable (B : Buffer)

/-- The next access of the bump pointer or of the class bins. -/
def stepTake (s : State τ) (t : τ) (spurious : Bool) : Option (State τ) :=
  match s.pc t with
  | .bumpLoad bytes => some (s.setPc t (enterBump B bytes s.currentPtr))
  | .bumpCas bytes expected =>
    if s.currentPtr = expected ∧ spurious = false then
      some ({ s with currentPtr := alignUp expected + blockSizeFor bytes }.setPc t
        (.handOut (alignUp expected) bytes))
    else some (s.setPc t (enterBump B bytes s.currentPtr))
  | .popLoad bytes bin => some (s.setPc t (enterPop B bytes bin (s.heads bin) (s.changes bin)))
  | .popLink bytes bin tag since =>
    match B.headCodec.unpackPtr tag with
    | some cell => some (s.setPc t (.popCas bytes bin tag since (s.links cell)))
    | none => none
  | .popCas bytes bin tag _ link =>
    match B.headCodec.unpackPtr tag with
    | some cell =>
      if s.heads bin = tag then
        some ((s.setHead bin (B.headCodec.pack (toNode link) (B.headCodec.unpackCounter tag + 1))
          (s.lists bin).tail).setPc t (.popClear bytes bin cell))
      else some (s.setPc t (enterPop B bytes bin (s.heads bin) (s.changes bin)))
    | none => none
  | .popClear bytes bin cell =>
    some ((s.storeLink cell (toLink none)).setPc t
      (split (B.blockOf cell) (MIN_ALIGNMENT <<< bin) bytes))
  | _ => none

/-- The next access of the search of the last bin. -/
def stepSearch (s : State τ) (t : τ) (spurious : Bool) : Option (State τ) :=
  match s.pc t with
  | .stealLoad bytes => some (s.setPc t (.stealCas bytes (s.heads (NUM_BINS - 1))))
  | .stealCas bytes stolen =>
    if s.heads (NUM_BINS - 1) = stolen ∧ spurious = false then
      some ((s.setHead (NUM_BINS - 1)
        (B.headCodec.pack none (B.headCodec.unpackCounter stolen + 1)) []).setPc t
        (enterSearch B ⟨bytes, B.headCodec.unpackPtr stolen, none, none, none, 0,
          s.lists (NUM_BINS - 1)⟩ (B.headCodec.unpackPtr stolen)))
    else some (s.setPc t (.stealCas bytes (s.heads (NUM_BINS - 1))))
  | .searchSize S current =>
    some (s.setPc t (.searchLink (S.see current (s.headers (B.blockOf current))) current))
  | .searchLink S current => some (s.setPc t (enterSearch B S (s.next current)))
  | .bestLink S best =>
    match S.bestFitPrev with
    | some prev => some (s.setPc t (.unlinkBest S best prev (s.links best)))
    | none =>
      some (s.setPc t (.clearBest
        { S with stolenList := s.next best, cells := S.cells.erase best } best))
  | .unlinkBest S best prev afterBest =>
    some ((s.storeLink prev afterBest).setPc t
      (.clearBest { S with cells := S.cells.erase best } best))
  | .clearBest S best =>
    some ((s.storeLink best 0).setPc t (enterRePush B S S.stolenList))
  | .rePushLink S current =>
    some (s.setPc t (.pushLoad current (NUM_BINS - 1)
      (.rePush { S with cells := S.cells.tail } (s.next current))))
  | _ => none

/-- The next access of a push. -/
def stepPush (s : State τ) (t : τ) : Option (State τ) :=
  match s.pc t with
  | .pushHeader block k =>
    some ({ s with headers := update s.headers block.start block.len }.setPc t
      (.pushLoad (B.cellOf block.start) (getBin block.len) k))
  | .pushLoad cell bin k => some (s.setPc t (.pushLink cell bin (s.heads bin) k))
  | .pushLink cell bin tag k =>
    some ((s.storeLink cell (toLink (B.headCodec.unpackPtr tag))).setPc t (.pushCas cell bin tag k))
  | .pushCas cell bin tag k =>
    if s.heads bin = tag then
      some ((s.setHead bin (B.headCodec.pack (some cell) (B.headCodec.unpackCounter tag + 1))
        (cell :: s.lists bin)).setPc t (k.resume B))
    else some (s.setPc t (.pushLink cell bin (s.heads bin) k))
  | _ => none

/-- The next access of a call, or its return. -/
def stepRun (s : State τ) (t : τ) (spurious : Bool) : Option (State τ) :=
  match s.pc t with
  | .handOut block bytes => some ({ s with live := (block, bytes) :: s.live }.setPc t .idle)
  | .refuse => some (s.setPc t .idle)
  | .freed => some (s.setPc t .idle)
  | _ => ((stepTake B s t spurious).or (stepSearch B s t spurious)).or (stepPush B s t)

inductive Action (τ : Type*)
  | allocate (t : τ) (bytes alignment : ℕ)
  | deallocate (t : τ) (p : Option ℕ) (bytes : ℕ)
  | write (p bytes offset value : ℕ)
  | run (t : τ) (spurious : Bool)

def step (s : State τ) : Action τ → Option (State τ)
  | .allocate t bytes alignment =>
    if s.pc t = .idle then
      some (s.setPc t (if MIN_ALIGNMENT < alignment ∨ B.capacity < bytes then .refuse
        else .bumpLoad bytes))
    else none
  | .deallocate t none _ => if s.pc t = .idle then some (s.setPc t .freed) else none
  | .deallocate t (some p) bytes =>
    if s.pc t = .idle ∧ (p, bytes) ∈ s.live then
      some ({ s with live := s.live.erase (p, bytes) }.setPc t
        (.pushHeader ⟨p, blockSizeFor bytes⟩ .done))
    else none
  | .write p bytes offset value =>
    if (p, bytes) ∈ s.live ∧ offset < blockSizeFor bytes then
      some { s with headers := update s.headers (p + offset) value }
    else none
  | .run t spurious => stepRun B s t spurious

/-- A new arena, whose memory holds anything. -/
structure Start (s : State τ) : Prop where
  currentPtr : s.currentPtr = B.arenaStart
  heads : s.heads = fun _ => B.headCodec.pack none 0
  pc : s.pc = fun _ => .idle
  lists : s.lists = fun _ => []
  changes : s.changes = fun _ => 0
  live : s.live = []

def machine : Machine (State τ) (Action τ) where
  init := Start B
  step := step B

/-- The bin a pop has read, and the changes of its head then. -/
def Pc.since? : Pc → Option (ℕ × ℕ)
  | .popLink _ bin _ since => some (bin, since)
  | .popCas _ bin _ since _ => some (bin, since)
  | _ => none

/-- A bin's counter does not come round while a pop stands between its read of the head and its
compare-and-swap. -/
def Unwrapped (s : State τ) : Action τ → Prop
  | .run t _ => ∀ r ∈ (s.pc t).since?, s.changes r.1 < r.2 + B.headCodec.counters
  | _ => True

instance (s : State τ) : ∀ a, Decidable (Unwrapped B s a)
  | .run _ _ => Option.decidableForallMem _
  | .allocate _ _ _ => .isTrue trivial
  | .deallocate _ _ _ => .isTrue trivial
  | .write _ _ _ _ => .isTrue trivial

/-! ### Who has what -/

/-- The cells of the blocks a thread has freed in part, or has not yet given back. -/
def Next.cells : Next → List ℕ
  | .rePush S _ => S.bestFit.toList ++ S.cells
  | _ => []

/-- The other blocks of a thread. -/
def Next.spans : Next → List Span
  | .pieces block bytes rest => ⟨block, blockSizeFor bytes⟩ :: rest
  | _ => []

def Pc.cells : Pc → List ℕ
  | .popClear _ _ cell => [cell]
  | .searchSize S _ => S.cells
  | .searchLink S _ => S.cells
  | .bestLink S _ => S.cells
  | .unlinkBest S _ _ _ => S.cells
  | .clearBest S best => best :: S.cells
  | .rePushLink S _ => S.bestFit.toList ++ S.cells
  | .pushHeader _ k => k.cells
  | .pushLoad cell _ k => cell :: k.cells
  | .pushLink cell _ _ k => cell :: k.cells
  | .pushCas cell _ _ k => cell :: k.cells
  | _ => []

def Pc.spans : Pc → List Span
  | .pushHeader block k => block :: k.spans
  | .pushLoad _ _ k => k.spans
  | .pushLink _ _ _ k => k.spans
  | .pushCas _ _ _ k => k.spans
  | .handOut block bytes => [⟨block, blockSizeFor bytes⟩]
  | _ => []

/-- The blocks of a thread. -/
def Pc.held (headers : ℕ → ℕ) (p : Pc) : List Span := B.blocks headers p.cells ++ p.spans

def State.holdings (s : State τ) : Holder τ → List Span
  | .callers => reserved s.live
  | .bin b => B.blocks s.headers (s.lists b)
  | .operation t => (s.pc t).held B s.headers

end Threads

end MinStd.StaticArena
