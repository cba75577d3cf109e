import MinStd.Transition
import MinStd.Chain
import Mathlib.Data.Int.Notation
import Mathlib.Order.Lattice

/-!
# The skip list's operations

`insert`, `remove` and `find` of `skip_list`, one atomic access a step.  All three walk a level
from a predecessor: a node whose link is tombstoned is stepped over and, at an upper level or once
its upper levels are drained, unlinked on the way.  `find_with_nodelists` walks every level down to
0; the retries of `insert` and `remove` walk level 0 again (`Mode`).

A handle carries its slot's generation, so it never names a later node in the slot: nodes are
numbered and not reused.  It may resolve to null once its node is retired.  A
`compare_exchange_strong` loads the link, compares, and then exchanges it.  The list a retired
node is pushed on, epochs and reclamation are another module's subject.
-/

namespace MinStd.SkipList

abbrev Node := ℕ

def head : Node := 0
def NIL : Node := 1

def MAX_INSERT_LEVEL0_RETRIES : ℕ := 1024
def MAX_INSERT_UPPER_LEVEL_RETRIES : ℕ := 256
def MAX_REMOVE_MARK_RETRIES_PER_LEVEL : ℕ := 256
def MAX_REMOVE_BOTTOM_RETRIES : ℕ := 1024
def MAX_INSERT_LOCAL_ASSIST_FAILURES : ℕ := 8
def MAX_REMOVE_LOCAL_ASSIST_FAILURES : ℕ := 8

/-- An `atomic_forward_link`. -/
structure Link where
  target : Option Node
  tombstoned : Bool
  deriving DecidableEq

/-- Where a node's link of one level is in its predecessors' links. -/
inductive LevelStatus
  | unpublished
  | linked
  | unlinked
  | counted
  deriving DecidableEq

/-- The registers of a walk. -/
structure Walk (K : Type*) where
  key : K
  level : ℕ
  pred : Node
  preds : ℕ → Node
  succs : ℕ → Node

/-- An insert that has linked its node at level 0. -/
structure Insertion where
  topLevel : ℕ
  newNode : Node
  level : ℕ
  retries : ℕ

/-- What asked `find_with_nodelists`. -/
inductive Caller
  | find
  | insert (topLevel : ℕ) (newNode : Option Node) (retries : ℕ)
  | publish (i : Insertion)
  | remove

inductive Mode
  | search (c : Caller)
  | insertAssist (topLevel : ℕ) (newNode : Node) (retries : ℕ) (softDeleted : Bool) (failures : ℕ)
  | removeAssist (node : Node) (retries : ℕ) (softDeleted : Bool) (failures : ℕ)

/-- Where `retire_node` returns to. -/
inductive Resume (K : Type*)
  | walk (w : Walk K) (m : Mode) (curr : Node) (succ : Option Node) (tombstoned : Bool)
  | removed

/-- `loaded`: the exchange has loaded the link and found what it expects. -/
inductive Pc (K : Type*)
  | idle
  | loadFirst (w : Walk K) (m : Mode)
  | loadSucc (w : Walk K) (m : Mode) (curr : Node)
  | loadHelped (w : Walk K) (m : Mode) (tombstonedNode curr : Node)
  | testDrained (w : Walk K) (m : Mode) (tombstonedNode curr : Node) (succ : Option Node)
      (tombstoned : Bool)
  | unlink (w : Walk K) (m : Mode) (tombstonedNode curr : Node) (succ : Option Node)
      (tombstoned loaded : Bool)
  | uncount (w : Walk K) (m : Mode) (tombstonedNode curr : Node) (succ : Option Node)
      (tombstoned : Bool)
  | storeUnlinked (node : Node) (k : Resume K)
  | claimRetire (node : Node) (k : Resume K)
  | enqueue (node : Node) (k : Resume K)
  | allocate (w : Walk K) (topLevel retries : ℕ)
  | aimAll (w : Walk K) (topLevel : ℕ) (newNode : Node) (retries : ℕ)
  | aimBottom (w : Walk K) (topLevel : ℕ) (newNode : Node) (retries : ℕ)
  | linkBottom (w : Walk K) (topLevel : ℕ) (newNode : Node) (retries : ℕ) (loaded : Bool)
  | testPred (w : Walk K) (topLevel : ℕ) (newNode : Node) (retries : ℕ)
  | reserve (w : Walk K) (i : Insertion)
  | loadOwn (w : Walk K) (i : Insertion)
  | aimOwn (w : Walk K) (i : Insertion) (ownNext : Option Node) (loaded : Bool)
  | publish (w : Walk K) (i : Insertion) (loaded : Bool)
  | unreserve (w : Walk K) (i : Insertion) (abandon : Bool)
  | markLoad (w : Walk K) (node : Node) (level : ℕ)
  | softDeleteLoad (w : Walk K) (node : Node) (level retries : ℕ)
  | softDeleteCas (w : Walk K) (node : Node) (level retries : ℕ) (current : Option Node)
  | recheckMark (w : Walk K) (node : Node) (level retries : ℕ)
  | loadBottom (w : Walk K) (node : Node) (retries : ℕ)
  | markBottom (w : Walk K) (node : Node) (retries : ℕ) (succ : Option Node) (loaded : Bool)
  | checkBottom (w : Walk K) (node : Node) (retries : ℕ) (success : Bool)
  | drainedRemoved (w : Walk K) (node : Node) (succ : Option Node)
  | unlinkRemoved (w : Walk K) (node : Node) (succ : Option Node) (loaded : Bool)

section Holds

variable {K : Type*}

def Caller.newNode? : Caller → Option Node
  | .insert _ newNode _ => newNode
  | _ => none

def Mode.newNode? : Mode → Option Node
  | .search c => c.newNode?
  | .insertAssist _ newNode _ _ _ => some newNode
  | _ => none

def Resume.newNode? : Resume K → Option Node
  | .walk _ m _ _ _ => m.newNode?
  | .removed => none

/-- The node an `insert` has built and not linked. -/
def Pc.newNode? : Pc K → Option Node
  | .loadFirst _ m | .loadSucc _ m _ | .loadHelped _ m _ _ | .testDrained _ m _ _ _ _
  | .unlink _ m _ _ _ _ _ | .uncount _ m _ _ _ _ => m.newNode?
  | .storeUnlinked _ k | .claimRetire _ k | .enqueue _ k => k.newNode?
  | .aimAll _ _ newNode _ | .aimBottom _ _ newNode _ | .linkBottom _ _ newNode _ _
  | .testPred _ _ newNode _ => some newNode
  | _ => none

def Mode.inserting? : Mode → Option (Node × ℕ)
  | .search (.publish i) => some (i.newNode, i.level)
  | _ => none

def Resume.inserting? : Resume K → Option (Node × ℕ)
  | .walk _ m _ _ _ => m.inserting?
  | .removed => none

/-- The node an `insert` has linked at level 0, and the level it goes on to publish. -/
def Pc.inserting? : Pc K → Option (Node × ℕ)
  | .loadFirst _ m | .loadSucc _ m _ | .loadHelped _ m _ _ | .testDrained _ m _ _ _ _
  | .unlink _ m _ _ _ _ _ | .uncount _ m _ _ _ _ => m.inserting?
  | .storeUnlinked _ k | .claimRetire _ k | .enqueue _ k => k.inserting?
  | .reserve _ i | .loadOwn _ i | .aimOwn _ i _ _ | .publish _ i _ | .unreserve _ i _ =>
    some (i.newNode, i.level)
  | _ => none

/-- The node whose counter holds the thread's reservation. -/
def Pc.reserved? : Pc K → Option Node
  | .loadOwn _ i | .aimOwn _ i _ _ | .publish _ i _ | .unreserve _ i _ => some i.newNode
  | _ => none

/-- The node an `insert` may still publish, its own link found untombstoned. -/
def Pc.checked? : Pc K → Option Node
  | .aimOwn _ i _ _ | .publish _ i _ => some i.newNode
  | _ => none

/-- The node and level a thread has unlinked and not counted. -/
def Pc.uncounts? : Pc K → Option (Node × ℕ)
  | .uncount w _ tombstonedNode _ _ _ => some (tombstonedNode, w.level)
  | _ => none

/-- The tombstoned node whose upper levels a thread found drained. -/
def Pc.drained? : Pc K → Option Node
  | .unlink w _ tombstonedNode _ _ _ _ => if w.level = 0 then some tombstonedNode else none
  | .unlinkRemoved _ node _ _ => some node
  | _ => none

/-- The node a thread has unlinked for the last time and not enqueued. -/
def Pc.retiring? : Pc K → Option Node
  | .storeUnlinked node _ | .claimRetire node _ | .enqueue node _ => some node
  | _ => none

def Mode.unmarked : Mode → Bool
  | .search .remove | .removeAssist _ _ _ _ => true
  | _ => false

def Resume.unmarked : Resume K → Bool
  | .walk _ m _ _ _ => m.unmarked
  | .removed => false

/-- The thread is in a `remove` that has marked no node at level 0. -/
def Pc.unmarked : Pc K → Bool
  | .loadFirst _ m | .loadSucc _ m _ | .loadHelped _ m _ _ | .testDrained _ m _ _ _ _
  | .unlink _ m _ _ _ _ _ | .uncount _ m _ _ _ _ => m.unmarked
  | .storeUnlinked _ k | .claimRetire _ k | .enqueue _ k => k.unmarked
  | .markLoad _ _ _ | .softDeleteLoad _ _ _ _ | .softDeleteCas _ _ _ _ _ | .recheckMark _ _ _ _
  | .loadBottom _ _ _ | .markBottom _ _ _ _ _ => true
  | .checkBottom _ _ _ success => !success
  | _ => false

end Holds

/-- From `fresh` on the fields only record: the nodes' numbers used, the status of their levels, the
nodes enqueued for reclamation, the level-0 links (`true`) and marks of each key in order, and the
marks of each thread's last `remove`. -/
structure State (Tid K : Type*) where
  link : Node → ℕ → Link
  key : Node → K
  topLevel : Node → ℕ
  upperLevelsRemaining : Node → ℤ
  fullyUnlinked : Node → Bool
  retirementEnqueued : Node → Bool
  pc : Tid → Pc K
  fresh : ℕ
  status : Node → ℕ → LevelStatus
  retired : List Node
  history : K → List Bool
  marks : Tid → ℕ

/-- A call, an allocation that succeeds or not, or the next atomic step; `stale` where a load
finds a null in place of a retired node. -/
inductive Act (K : Type*)
  | find (key : K)
  | insert (key : K) (topLevel : ℕ)
  | remove (key : K)
  | allocate (ok : Bool)
  | run (stale : Bool)
  deriving DecidableEq

variable {Tid K : Type*}

section Update

variable [DecidableEq Tid] [DecidableEq K]

namespace State

variable (s : State Tid K) (t : Tid)

/-- The sentinels, and no node. -/
def start [Inhabited K] : State Tid K where
  link n _ := if n = head then ⟨some NIL, false⟩ else ⟨none, false⟩
  key _ := default
  topLevel _ := 0
  upperLevelsRemaining _ := 0
  fullyUnlinked _ := false
  retirementEnqueued _ := false
  pc _ := .idle
  fresh := 2
  status _ _ := .unpublished
  retired := []
  history _ := []
  marks _ := 0

def setPc (p : Pc K) : State Tid K := { s with pc := Function.update s.pc t p }

def setLink (n : Node) (level : ℕ) (l : Link) : State Tid K :=
  { s with link := Function.update s.link n (Function.update (s.link n) level l) }

def setStatus (n : Node) (level : ℕ) (st : LevelStatus) : State Tid K :=
  { s with status := Function.update s.status n (Function.update (s.status n) level st) }

def addRemaining (n : Node) (d : ℤ) : State Tid K :=
  { s with
    upperLevelsRemaining :=
      Function.update s.upperLevelsRemaining n (s.upperLevelsRemaining n + d) }

def record (k : K) (inserted : Bool) : State Tid K :=
  { s with history := Function.update s.history k (s.history k ++ [inserted]) }

/-- `new_node`'s links aimed at the successors the search found. -/
def aimAll (w : Walk K) (topLevel : ℕ) (newNode : Node) : State Tid K :=
  { s with
    link := Function.update s.link newNode fun i =>
      if i < topLevel ∨ i = 0 then ⟨some (w.succs i), false⟩ else s.link newNode i }

/-- A node as its constructor leaves it. -/
def construct (n : Node) (key : K) (topLevel : ℕ) : State Tid K :=
  { s with
    key := Function.update s.key n key
    topLevel := Function.update s.topLevel n topLevel
    link := Function.update s.link n fun _ => ⟨none, false⟩
    upperLevelsRemaining := Function.update s.upperLevelsRemaining n 0
    fullyUnlinked := Function.update s.fullyUnlinked n false
    retirementEnqueued := Function.update s.retirementEnqueued n false
    fresh := n + 1 }

/-- The node a link's handle resolves to: a retired node's slot may have been freed. -/
def resolve (stale : Bool) : Option Node → Option Node
  | none => none
  | some n => if stale ∧ s.retirementEnqueued n then none else some n

end State

end Update

section Walk

variable [LinearOrder K]

def keyBefore (s : State Tid K) (n : Node) (key : K) : Bool := n ≠ NIL ∧ s.key n < key

def keyMatches (s : State Tid K) (n : Node) (key : K) : Bool := n ≠ NIL ∧ s.key n = key

variable (MAX_LEVELS : ℕ)

/-- The start of `find_with_nodelists`. -/
def startSearch (w : Walk K) (c : Caller) : Pc K :=
  .loadFirst { w with level := MAX_LEVELS, pred := head } (.search c)

/-- `remove`'s next level to mark, or the bottom one. -/
def markFrom (w : Walk K) (node : Node) (level : ℕ) : Pc K :=
  if 1 ≤ level then .markLoad w node level else .loadBottom { w with pred := w.preds 0 } node 0

/-- `insert`'s next level to publish, or its return. -/
def publishFrom (w : Walk K) (i : Insertion) (level : ℕ) : Pc K :=
  if level < i.topLevel then .reserve w { i with level, retries := 0 } else .idle

/-- What the caller does with the search's result. -/
def searched (s : State Tid K) (w : Walk K) (c : Caller) (curr : Node) : Pc K :=
  match c with
  | .find => .idle
  | .insert topLevel none retries =>
    if keyMatches s curr w.key then .idle else .allocate w topLevel retries
  | .insert topLevel (some newNode) retries =>
    if keyMatches s curr w.key then .idle else .aimAll w topLevel newNode retries
  | .publish i => .reserve w i
  | .remove =>
    if keyMatches s curr w.key then markFrom w (w.succs 0) (s.topLevel (w.succs 0) - 1) else .idle

/-- The walk of a level ends before `curr`. -/
def finishLevel (s : State Tid K) (w : Walk K) (m : Mode) (curr : Node) : Pc K :=
  let w' := { w with
    preds := Function.update w.preds w.level w.pred, succs := Function.update w.succs w.level curr }
  match m with
  | .search c =>
    if w.level = 0 then searched s w' c curr else .loadFirst { w' with level := w.level - 1 } m
  | .insertAssist topLevel newNode retries softDeleted _ =>
    if keyMatches s curr w.key ∨ softDeleted then .idle else .aimBottom w' topLevel newNode retries
  | .removeAssist node retries softDeleted _ =>
    if softDeleted ∨ ¬ keyMatches s curr w.key then .idle
    else if curr ≠ node then startSearch MAX_LEVELS w .remove
    else .loadBottom w node retries

/-- The walk met a null. -/
def lost (s : State Tid K) (w : Walk K) (m : Mode) : Pc K :=
  match m with
  | .search _ => finishLevel MAX_LEVELS s w m NIL
  | .insertAssist topLevel newNode retries _ _ =>
    startSearch MAX_LEVELS w (.insert topLevel (some newNode) retries)
  | .removeAssist _ _ _ _ => startSearch MAX_LEVELS w .remove

/-- A retry's walk notes that a tombstoned node had its key. -/
def Mode.seen (matched : Bool) : Mode → Mode
  | .search c => .search c
  | .insertAssist topLevel newNode retries softDeleted failures =>
    .insertAssist topLevel newNode retries (softDeleted || matched) failures
  | .removeAssist node retries softDeleted failures =>
    .removeAssist node retries (softDeleted || matched) failures

/-- The walk at `curr`, whose link it has loaded. -/
def walkOn (s : State Tid K) (w : Walk K) (m : Mode) (curr : Node) (succ : Option Node)
    (tombstoned : Bool) : Pc K :=
  if tombstoned then
    match succ with
    | none => lost MAX_LEVELS s w m
    | some next => .loadHelped w (m.seen (keyMatches s curr w.key)) curr next
  else if keyBefore s curr w.key then
    match succ with
    | none => lost MAX_LEVELS s { w with pred := curr } m
    | some next => .loadSucc { w with pred := curr } m next
  else finishLevel MAX_LEVELS s w m curr

def resume (s : State Tid K) : Resume K → Pc K
  | .walk w m curr succ tombstoned => walkOn MAX_LEVELS s w m curr succ tombstoned
  | .removed => .idle

/-- The upper levels of the stepped-over node are not drained: a retry's walk gives up after a few
such nodes. -/
def notDrained (s : State Tid K) (w : Walk K) (m : Mode) (curr : Node) (succ : Option Node)
    (tombstoned : Bool) : Pc K :=
  match m with
  | .search _ => walkOn MAX_LEVELS s w m curr succ tombstoned
  | .insertAssist topLevel newNode retries softDeleted failures =>
    if MAX_INSERT_LOCAL_ASSIST_FAILURES ≤ failures + 1 then
      startSearch MAX_LEVELS w (.insert topLevel (some newNode) retries)
    else walkOn MAX_LEVELS s w (.insertAssist topLevel newNode retries softDeleted (failures + 1))
      curr succ tombstoned
  | .removeAssist node retries softDeleted failures =>
    if MAX_REMOVE_LOCAL_ASSIST_FAILURES ≤ failures + 1 then .idle
    else walkOn MAX_LEVELS s w (.removeAssist node retries softDeleted (failures + 1)) curr succ
      tombstoned

variable [DecidableEq Tid]

/-- `compare_exchange_strong`: `load` where the link is as expected and not yet exchanged. -/
def compareExchange (s : State Tid K) (t : Tid) (n : Node) (level : ℕ) (expected : Option Node)
    (desired : Link) (loaded : Bool) (load : Pc K) (success : State Tid K → State Tid K)
    (fail : Pc K) : State Tid K :=
  if s.link n level = ⟨expected, false⟩ then
    if loaded then success (s.setLink n level desired) else s.setPc t load
  else s.setPc t fail

/-- A step of a walk. -/
def walkStep (s : State Tid K) (t : Tid) (stale : Bool) : Pc K → Option (State Tid K)
  | .loadFirst w m =>
    s.setPc t (match s.resolve stale (s.link w.pred w.level).target with
      | none => lost MAX_LEVELS s w m
      | some curr => .loadSucc w m curr)
  | .loadSucc w m curr =>
    s.setPc t (walkOn MAX_LEVELS s w m curr (s.resolve stale (s.link curr w.level).target)
      (s.link curr w.level).tombstoned)
  | .loadHelped w m tombstonedNode curr =>
    let succ := s.resolve stale (s.link curr w.level).target
    let tombstoned := (s.link curr w.level).tombstoned
    s.setPc t (if w.level = 0 then .testDrained w m tombstonedNode curr succ tombstoned
      else .unlink w m tombstonedNode curr succ tombstoned false)
  | .testDrained w m tombstonedNode curr succ tombstoned =>
    s.setPc t (if s.upperLevelsRemaining tombstonedNode ≤ 0 then
        .unlink w m tombstonedNode curr succ tombstoned false
      else notDrained MAX_LEVELS s w m curr succ tombstoned)
  | .unlink w m tombstonedNode curr succ tombstoned loaded =>
    compareExchange s t w.pred w.level (some tombstonedNode) ⟨some curr, false⟩ loaded
      (.unlink w m tombstonedNode curr succ tombstoned true)
      (fun s => (s.setStatus tombstonedNode w.level .unlinked).setPc t
        (if w.level = 0 then .storeUnlinked tombstonedNode (.walk w m curr succ tombstoned)
          else .uncount w m tombstonedNode curr succ tombstoned))
      (walkOn MAX_LEVELS s w m curr succ tombstoned)
  | .uncount w m tombstonedNode curr succ tombstoned =>
    ((s.addRemaining tombstonedNode (-1)).setStatus tombstonedNode w.level .counted).setPc t
      (walkOn MAX_LEVELS s w m curr succ tombstoned)
  | .storeUnlinked node k =>
    ({ s with fullyUnlinked := Function.update s.fullyUnlinked node true }).setPc t
      (.claimRetire node k)
  | .claimRetire node k =>
    if s.retirementEnqueued node then s.setPc t (resume MAX_LEVELS s k)
    else ({ s with retirementEnqueued := Function.update s.retirementEnqueued node true }).setPc t
      (.enqueue node k)
  | .enqueue node k => ({ s with retired := s.retired ++ [node] }).setPc t (resume MAX_LEVELS s k)
  | _ => none

/-- A step of `insert` outside its searches. -/
def insertStep (s : State Tid K) (t : Tid) (stale : Bool) : Pc K → Option (State Tid K)
  | .aimAll w topLevel newNode retries =>
    (s.aimAll w topLevel newNode).setPc t (.linkBottom w topLevel newNode retries false)
  | .aimBottom w topLevel newNode retries =>
    (s.setLink newNode 0 ⟨some (w.succs 0), false⟩).setPc t
      (.linkBottom w topLevel newNode retries false)
  | .linkBottom w topLevel newNode retries loaded =>
    compareExchange s t (w.preds 0) 0 (some (w.succs 0)) ⟨some newNode, false⟩ loaded
      (.linkBottom w topLevel newNode retries true)
      (fun s => ((s.setStatus newNode 0 .linked).record w.key true).setPc t
        (publishFrom w ⟨topLevel, newNode, 0, 0⟩ 1))
      (if MAX_INSERT_LEVEL0_RETRIES ≤ retries + 1 then .idle
        else .testPred w topLevel newNode (retries + 1))
  | .testPred w topLevel newNode retries =>
    s.setPc t (if (s.link (w.preds 0) 0).tombstoned then
        startSearch MAX_LEVELS w (.insert topLevel (some newNode) retries)
      else .loadFirst { w with level := 0, pred := w.preds 0 }
        (.insertAssist topLevel newNode retries false 0))
  | .reserve w i => (s.addRemaining i.newNode 1).setPc t (.loadOwn w i)
  | .loadOwn w i =>
    let ownNext := s.resolve stale (s.link i.newNode i.level).target
    s.setPc t (if (s.link i.newNode i.level).tombstoned then .unreserve w i true
      else if ownNext = some (w.succs i.level) then .publish w i false
      else .aimOwn w i ownNext false)
  | .aimOwn w i ownNext loaded =>
    compareExchange s t i.newNode i.level ownNext ⟨some (w.succs i.level), false⟩ loaded
      (.aimOwn w i ownNext true) (fun s => s.setPc t (.publish w i false)) (.unreserve w i true)
  | .publish w i loaded =>
    compareExchange s t (w.preds i.level) i.level (some (w.succs i.level)) ⟨some i.newNode, false⟩
      loaded (.publish w i true)
      (fun s => (s.setStatus i.newNode i.level .linked).setPc t (publishFrom w i (i.level + 1)))
      (.unreserve w i false)
  | .unreserve w i abandon =>
    (s.addRemaining i.newNode (-1)).setPc t (if abandon then .idle
      else if MAX_INSERT_UPPER_LEVEL_RETRIES ≤ i.retries + 1 then publishFrom w i (i.level + 1)
      else startSearch MAX_LEVELS w (.publish { i with retries := i.retries + 1 }))
  | _ => none

/-- A step of `remove` outside its searches. -/
def removeStep (s : State Tid K) (t : Tid) (stale : Bool) : Pc K → Option (State Tid K)
  | .markLoad w node level =>
    s.setPc t (if (s.link node level).tombstoned then markFrom w node (level - 1)
      else .softDeleteLoad w node level 0)
  | .softDeleteLoad w node level retries =>
    s.setPc t (if (s.link node level).tombstoned then .recheckMark w node level retries
      else .softDeleteCas w node level retries (s.link node level).target)
  | .softDeleteCas w node level retries current =>
    if s.link node level = ⟨current, false⟩ then
      (s.setLink node level ⟨current, true⟩).setPc t (.recheckMark w node level retries)
    else s.setPc t (.softDeleteLoad w node level retries)
  | .recheckMark w node level retries =>
    s.setPc t (if MAX_REMOVE_MARK_RETRIES_PER_LEVEL ≤ retries + 1 then
        startSearch MAX_LEVELS w .remove
      else if (s.link node level).tombstoned then markFrom w node (level - 1)
      else .softDeleteLoad w node level (retries + 1))
  | .loadBottom w node retries =>
    s.setPc t (.markBottom w node retries (s.resolve stale (s.link node 0).target) false)
  | .markBottom w node retries succ loaded =>
    compareExchange s t node 0 succ ⟨succ, true⟩ loaded (.markBottom w node retries succ true)
      (fun s => ({ s.record w.key false with
        marks := Function.update s.marks t (s.marks t + 1) } : State Tid K).setPc t
          (.checkBottom w node retries true))
      (.checkBottom w node retries false)
  | .checkBottom w node retries success =>
    let succ := s.resolve stale (s.link node 0).target
    s.setPc t (if success then .drainedRemoved w node succ
      else if (s.link node 0).tombstoned then .idle
      else if MAX_REMOVE_BOTTOM_RETRIES ≤ retries + 1 then .idle
      else .loadFirst { w with level := 0 } (.removeAssist node (retries + 1) false 0))
  | .drainedRemoved w node succ =>
    s.setPc t (if s.upperLevelsRemaining node ≤ 0 then .unlinkRemoved w node succ false else .idle)
  | .unlinkRemoved w node succ loaded =>
    compareExchange s t w.pred 0 (some node) ⟨succ, false⟩ loaded (.unlinkRemoved w node succ true)
      (fun s => (s.setStatus node 0 .unlinked).setPc t (.storeUnlinked node .removed)) .idle
  | _ => none

/-- A new node, or `insert` gives up. -/
def allocateStep (s : State Tid K) (t : Tid) (w : Walk K) (topLevel retries : ℕ) (ok : Bool) :
    State Tid K :=
  if ok then (s.construct s.fresh w.key topLevel).setPc t (.aimAll w topLevel s.fresh retries)
  else s.setPc t .idle

def Walk.start (key : K) : Walk K := ⟨key, 0, head, fun _ => head, fun _ => NIL⟩

/-- One atomic step of thread `t`. -/
def step (s : State Tid K) (t : Tid) (a : Act K) : Option (State Tid K) :=
  match a, s.pc t with
  | .find key, .idle => s.setPc t (startSearch MAX_LEVELS (.start key) .find)
  | .insert key topLevel, .idle =>
    -- what `random_level` may return
    if 1 ≤ topLevel ∧ topLevel ≤ MAX_LEVELS + 1 then
      s.setPc t (startSearch MAX_LEVELS (.start key) (.insert topLevel none 0))
    else none
  | .remove key, .idle =>
    ({ s with marks := Function.update s.marks t 0 }).setPc t
      (startSearch MAX_LEVELS (.start key) .remove)
  | .allocate ok, .allocate w topLevel retries => allocateStep s t w topLevel retries ok
  | .run stale, p =>
    (walkStep MAX_LEVELS s t stale p).or <| (insertStep MAX_LEVELS s t stale p).or <|
      removeStep MAX_LEVELS s t stale p
  | _, _ => none

def machine (Tid K : Type*) [DecidableEq Tid] [LinearOrder K] [Inhabited K] (MAX_LEVELS : ℕ) :
    Machine (State Tid K) (Tid × Act K) where
  init s := s = .start
  step s a := step MAX_LEVELS s a.1 a.2

end Walk

end MinStd.SkipList
