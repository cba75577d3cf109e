import MinStd.EpochReclaimer

/-!
# Nodes that are unlinked, retired and destroyed

What the skip list does with the reclaimer.  A thread in a read section takes the last link of a
node away, stores `FULLY_UNLINKED` and calls `retire_node`, which claims the node with
`retirement_enqueued_`, stamps it with the current epoch and pushes it on the retired list of the
thread's slot.  A reclaim scan that passed lets its thread exchange that list for an empty one
and destroy the nodes stamped by the reclaim epoch; the others go back.

A retired list is the nodes from its head along `retired_next`.  Node ids are not reused, so a
destroyed node's memory is not told apart from it.
-/

namespace MinStd.RetiredNodes

open EpochReclaimer (Pc)

abbrev Node := ℕ

inductive Status
  | fresh
  | linked
  | unlinked
  | destroyed
  deriving DecidableEq

/-- What a thread is at between two actions of the reclaimer. -/
inductive Work
  | none
  | storeUnlinkState (n : Node)
  | setEnqueued (n : Node)
  | stamp (n : Node)
  | pushLoad (n : Node)
  | pushCas (n : Node) (oldHead : Option Node)
  | exchange
  | freeing (current retained : List Node)
  | restoreLoad (retained : List Node)
  | restoreCas (retained : List Node) (head : Option Node)
  deriving DecidableEq

/-- The nodes a thread took off the retired lists, or is about to put there, all stamped. -/
def Work.stamped : Work → List Node
  | .pushLoad n | .pushCas n _ => [n]
  | .freeing current retained => current ++ retained
  | .restoreLoad retained | .restoreCas retained _ => retained
  | _ => []

/-- The node a thread has unlinked and not yet stamped. -/
def Work.unstamped? : Work → Option Node
  | .storeUnlinkState n | .setEnqueued n | .stamp n => some n
  | _ => Option.none

inductive Act
  | epoch (a : EpochReclaimer.Act)
  | link (n : Node)
  | unlink (n : Node)
  | work
  deriving DecidableEq

/-- `unlinkedAt` records the step of a node's final unlink. -/
structure State (Tid : Type*) where
  epoch : EpochReclaimer.State Tid
  status : Node → Status
  fullyUnlinked : Node → Bool
  retirementEnqueued : Node → Bool
  retiredEpoch : Node → ℕ
  localRetiredHead : ℕ → List Node
  work : Tid → Work
  unlinkedAt : Node → ℕ

variable {Tid : Type*} [DecidableEq Tid]

namespace State

def start : State Tid where
  epoch := .start
  status _ := .fresh
  fullyUnlinked _ := false
  retirementEnqueued _ := false
  retiredEpoch _ := 0
  localRetiredHead _ := []
  work _ := .none
  unlinkedAt _ := 0

def setWork (s : State Tid) (t : Tid) (w : Work) : State Tid :=
  { s with
    work := Function.update s.work t w
    epoch := { s.epoch with clock := s.epoch.clock + 1 } }

def setStatus (s : State Tid) (n : Node) (st : Status) : State Tid :=
  { s with status := Function.update s.status n st }

def setHead (s : State Tid) (slot : ℕ) (l : List Node) : State Tid :=
  { s with localRetiredHead := Function.update s.localRetiredHead slot l }

section Fields

variable (s : State Tid) (t : Tid) (w : Work)

@[simp] theorem setWork_status : (s.setWork t w).status = s.status := rfl
@[simp] theorem setWork_fullyUnlinked : (s.setWork t w).fullyUnlinked = s.fullyUnlinked := rfl
@[simp] theorem setWork_retiredEpoch : (s.setWork t w).retiredEpoch = s.retiredEpoch := rfl
@[simp] theorem setWork_localRetiredHead :
    (s.setWork t w).localRetiredHead = s.localRetiredHead := rfl
@[simp] theorem setWork_unlinkedAt : (s.setWork t w).unlinkedAt = s.unlinkedAt := rfl
@[simp] theorem setWork_clock : (s.setWork t w).epoch.clock = s.epoch.clock + 1 := rfl
@[simp] theorem setWork_insiders : (s.setWork t w).epoch.insiders = s.epoch.insiders := rfl
@[simp] theorem setWork_enteredAt : (s.setWork t w).epoch.enteredAt = s.epoch.enteredAt := rfl
@[simp] theorem setWork_entryEpoch : (s.setWork t w).epoch.entryEpoch = s.epoch.entryEpoch := rfl

@[simp] theorem setWork_work_self : (s.setWork t w).work t = w := by
  simp [setWork]

theorem setWork_work_of_ne {u : Tid} (h : u ≠ t) : (s.setWork t w).work u = s.work u := by
  simp [setWork, h]

end Fields

end State

/-- A thread whose scan passed goes on to detach its slot's retired list. -/
def workAfter : Pc → Work
  | .reclaiming _ _ _ => .exchange
  | _ => .none

/-- The step on one node of the detached list. -/
def freeStep (s : State Tid) (t : Tid) (reclaimEpoch : ℕ) (n : Node) (rest retained : List Node) :
    State Tid :=
  if s.fullyUnlinked n ∧ s.retiredEpoch n ≤ reclaimEpoch then
    (s.setStatus n .destroyed).setWork t (.freeing rest retained)
  else s.setWork t (.freeing rest (n :: retained))

open State in
/-- The steps inside a read section: linking a node, the final unlink, and `retire_node`. -/
def sectionStep (s : State Tid) (t : Tid) (slot : ℕ) (a : Act) : Option (State Tid) :=
  match s.work t, a with
  | .none, .link n =>
    if s.status n = .fresh then (s.setStatus n .linked).setWork t .none else none
  | .none, .unlink n =>
    if s.status n = .linked then
      (({ s with unlinkedAt := Function.update s.unlinkedAt n s.epoch.clock }).setStatus n
        .unlinked).setWork t (.storeUnlinkState n)
    else none
  | .storeUnlinkState n, .work =>
    ({ s with fullyUnlinked := Function.update s.fullyUnlinked n true }).setWork t (.setEnqueued n)
  | .setEnqueued n, .work =>
    if s.retirementEnqueued n then s.setWork t .none
    else ({ s with retirementEnqueued := Function.update s.retirementEnqueued n true }).setWork t
      (.stamp n)
  | .stamp n, .work =>
    ({ s with retiredEpoch := Function.update s.retiredEpoch n s.epoch.globalEpoch }).setWork t
      (.pushLoad n)
  | .pushLoad n, .work => s.setWork t (.pushCas n (s.localRetiredHead slot).head?)
  | .pushCas n oldHead, .work =>
    if (s.localRetiredHead slot).head? = oldHead then
      (s.setHead slot (n :: s.localRetiredHead slot)).setWork t .none
    else s.setWork t (.pushCas n (s.localRetiredHead slot).head?)
  | _, _ => none

open State in
/-- `reclaim_detached_retired_list`, once the scan has passed for `reclaimEpoch`. -/
def reclaimStep (s : State Tid) (t : Tid) (exempt reclaimEpoch : ℕ) : Option (State Tid) :=
  match s.work t with
  | .exchange => (s.setHead exempt []).setWork t (.freeing (s.localRetiredHead exempt) [])
  | .freeing (n :: rest) retained => freeStep s t reclaimEpoch n rest retained
  | .freeing [] [] => s.setWork t .none
  | .freeing [] retained => s.setWork t (.restoreLoad retained)
  | .restoreLoad retained => s.setWork t (.restoreCas retained (s.localRetiredHead exempt).head?)
  | .restoreCas retained head =>
    if (s.localRetiredHead exempt).head? = head then
      (s.setHead exempt (retained ++ s.localRetiredHead exempt)).setWork t .none
    else s.setWork t (.restoreCas retained (s.localRetiredHead exempt).head?)
  | _ => none

/-- One atomic step of thread `t`. -/
def step (NUM_SLOTS : ℕ) (s : State Tid) (t : Tid) (a : Act) : Option (State Tid) :=
  match a, s.epoch.pc t with
  | .epoch e, _ =>
    if s.work t = .none then
      (EpochReclaimer.step NUM_SLOTS s.epoch t e).map fun epoch' =>
        { s with epoch := epoch', work := Function.update s.work t (workAfter (epoch'.pc t)) }
    else none
  | a, .reading slot => sectionStep s t slot a
  | .work, .reclaiming _ exempt reclaimEpoch => reclaimStep s t exempt reclaimEpoch
  | _, _ => none

/-- The reclaimer called as `remove()` calls it. -/
def CalledByRemove (s : State Tid) : Tid × Act → Prop
  | (t, .epoch e) => EpochReclaimer.ExemptsOwn s.epoch t e
  | _ => True

instance (s : State Tid) (a : Tid × Act) : Decidable (CalledByRemove s a) :=
  match a with
  | (t, .epoch e) => inferInstanceAs (Decidable (EpochReclaimer.ExemptsOwn s.epoch t e))
  | (_, .link _) | (_, .unlink _) | (_, .work) => inferInstanceAs (Decidable True)

/-- The reclaimer called so that no exemption is taken from a reader other than the caller. -/
def ExemptsNoOther (s : State Tid) : Tid × Act → Prop
  | (t, .epoch e) => EpochReclaimer.ExemptsNoOther s.epoch t e
  | _ => True

instance (s : State Tid) (a : Tid × Act) : Decidable (ExemptsNoOther s a) :=
  match a with
  | (t, .epoch e) => inferInstanceAs (Decidable (EpochReclaimer.ExemptsNoOther s.epoch t e))
  | (_, .link _) | (_, .unlink _) | (_, .work) => inferInstanceAs (Decidable True)

/-- No counter of the reclaimer is about to wrap. -/
def CountersFit (s : State Tid) : Tid × Act → Prop
  | (t, .epoch e) => EpochReclaimer.CountersFit s.epoch t e
  | _ => True

def machine (Tid : Type*) [DecidableEq Tid] (NUM_SLOTS : ℕ) : Machine (State Tid) (Tid × Act) where
  init s := s = .start
  step s a := step NUM_SLOTS s a.1 a.2

/-- The same with the counters in the code's words. -/
def wordMachine (Tid : Type*) [DecidableEq Tid] (NUM_SLOTS : ℕ) :
    Machine (State Tid) (Tid × Act) where
  init s := s = .start
  step s a := (step NUM_SLOTS s a.1 a.2).map fun s' => { s' with epoch := s'.epoch.wrap }

end MinStd.RetiredNodes
