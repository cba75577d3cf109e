import MinStd.Transition
import Mathlib.Algebra.Group.Nat.Defs
import Mathlib.Data.Finset.Card

/-!
# Read sections and epochs

`epoch_reclaimer_core` over `cpu_slot_policy_state`, one atomic access a step.  A thread enters a
read section on the slot `acquire_slot` gave it: it loads the global epoch, adds one to the slot's
depth, and records the epoch only if the depth was 0.  `try_advance_epoch` and `try_reclaim` scan
the slots in order, and skip the exempt slot where its depth is at most 1.

Several threads may share a slot.  An interrupt handler that enters on the slot of the code it
interrupted is one more thread.  Depths and epochs are unbounded naturals: the code's 32-bit depth
counts the sections open on one slot, and its 64-bit epoch the advances made.  While neither is
about to wrap (`CountersFit`) they are the code's.
-/

namespace MinStd.EpochReclaimer

/-- `EPOCH_RECLAIM_LAG` of the skip list. -/
def EPOCH_RECLAIM_LAG : ℕ := 2

/-- What a scan of the slots is for: advancing the epoch it loaded, with `try_reclaim` to follow
or not, or reclaiming what was retired by an epoch. -/
inductive Check
  | advance (epoch : ℕ) (reclaims : Bool)
  | reclaim (reclaimEpoch : ℕ)
  deriving DecidableEq

/-- The snapshots of active readers at which the scan gives up. -/
def Check.stops : Check → ℕ → Bool
  | .advance epoch _, snapshot => snapshot < epoch
  | .reclaim reclaimEpoch, snapshot => snapshot ≤ reclaimEpoch

/-- Where a thread is.  `own` is the slot of the read section the thread is in, if any. -/
inductive Pc
  | idle
  | loadEpoch (slot : ℕ)
  | beginReadSection (slot epoch : ℕ)
  | storeEpoch (slot epoch : ℕ)
  | reading (slot : ℕ)
  | advanceLoad (own : Option ℕ) (exempt : ℕ) (reclaims : Bool)
  | scanDepth (own : Option ℕ) (exempt : ℕ) (c : Check) (i : ℕ)
  | scanActive (own : Option ℕ) (exempt : ℕ) (c : Check) (i : ℕ)
  | scanSnapshot (own : Option ℕ) (exempt : ℕ) (c : Check) (i : ℕ)
  | advanceCas (own : Option ℕ) (exempt epoch : ℕ) (reclaims : Bool)
  | reclaimLoad (own : Option ℕ) (exempt : ℕ)
  | reclaiming (own : Option ℕ) (exempt reclaimEpoch : ℕ)
  | endLoad (slot : ℕ)
  | endCas (slot depth : ℕ)
  deriving DecidableEq

/-- The slot a thread counts on: from its `fetch_add` to the exchange that takes it off. -/
def Pc.section? : Pc → Option ℕ
  | .idle | .loadEpoch _ | .beginReadSection _ _ => none
  | .storeEpoch slot _ | .reading slot | .endLoad slot | .endCas slot _ => some slot
  | .advanceLoad own _ _ | .scanDepth own _ _ _ | .scanActive own _ _ _ | .scanSnapshot own _ _ _
  | .advanceCas own _ _ _ | .reclaimLoad own _ | .reclaiming own _ _ => own

/-- What a thread does next: enter on the slot it acquired, call `advance_and_reclaim` or
`try_advance_epoch` with an exempt slot, leave its section, or go on with what it is at. -/
inductive Act
  | enter (slot : ℕ)
  | advanceAndReclaim (exempt : ℕ)
  | tryAdvanceEpoch (exempt : ℕ)
  | leave
  | run
  deriving DecidableEq

/-- The reclaimer and its slots.  `clock`, `enteredAt`, `entryEpoch` and `insiders` only record:
the steps taken, when and in which epoch a thread's section began, and who is on a slot. -/
structure State (Tid : Type*) where
  globalEpoch : ℕ
  readerDepth : ℕ → ℕ
  readerEpoch : ℕ → ℕ
  pc : Tid → Pc
  clock : ℕ
  enteredAt : Tid → ℕ
  entryEpoch : Tid → ℕ
  insiders : ℕ → Finset Tid

variable {Tid : Type*} [DecidableEq Tid]

namespace State

def start : State Tid where
  globalEpoch := 1
  readerDepth _ := 0
  readerEpoch _ := 0
  pc _ := .idle
  clock := 0
  enteredAt _ := 0
  entryEpoch _ := 0
  insiders _ := ∅

def setPc (s : State Tid) (t : Tid) (p : Pc) : State Tid :=
  { s with pc := Function.update s.pc t p, clock := s.clock + 1 }

/-- `fetch_add` on the slot's depth: the section begins. -/
def enterSlot (s : State Tid) (t : Tid) (slot : ℕ) : State Tid :=
  { s with
    readerDepth := Function.update s.readerDepth slot (s.readerDepth slot + 1)
    enteredAt := Function.update s.enteredAt t s.clock
    entryEpoch := Function.update s.entryEpoch t s.globalEpoch
    insiders := Function.update s.insiders slot (insert t (s.insiders slot)) }

def storeEpoch (s : State Tid) (slot epoch : ℕ) : State Tid :=
  { s with readerEpoch := Function.update s.readerEpoch slot epoch }

/-- The exchange of `end_read_section`: the section ends. -/
def leaveSlot (s : State Tid) (t : Tid) (slot depth : ℕ) : State Tid :=
  { s with
    readerDepth := Function.update s.readerDepth slot (depth - 1)
    insiders := Function.update s.insiders slot ((s.insiders slot).erase t) }

end State

/-- Back from the reclaimer: a caller inside a section leaves it, touching nothing more. -/
def finished : Option ℕ → Pc
  | none => .idle
  | some slot => .endLoad slot

def afterAdvance (own : Option ℕ) (exempt : ℕ) (reclaims : Bool) : Pc :=
  if reclaims then .reclaimLoad own exempt else finished own

/-- The scan gives up. -/
def scanStop (own : Option ℕ) (exempt : ℕ) : Check → Pc
  | .advance _ reclaims => afterAdvance own exempt reclaims
  | .reclaim _ => finished own

/-- The scan has passed every slot. -/
def scanDone (own : Option ℕ) (exempt : ℕ) : Check → Pc
  | .advance epoch reclaims => .advanceCas own exempt epoch reclaims
  | .reclaim reclaimEpoch => .reclaiming own exempt reclaimEpoch

/-- The scan comes to slot `i`. -/
def scanAt (NUM_SLOTS : ℕ) (own : Option ℕ) (exempt : ℕ) (c : Check) (i : ℕ) : Pc :=
  if i < NUM_SLOTS then
    if i = exempt then .scanDepth own exempt c i else .scanActive own exempt c i
  else scanDone own exempt c

open State in
/-- One atomic step of thread `t`. -/
def step (NUM_SLOTS : ℕ) (s : State Tid) (t : Tid) (a : Act) : Option (State Tid) :=
  match s.pc t, a with
  | .idle, .enter slot => if slot < NUM_SLOTS then s.setPc t (.loadEpoch slot) else none
  | .idle, .advanceAndReclaim exempt => s.setPc t (.advanceLoad none exempt true)
  | .idle, .tryAdvanceEpoch exempt => s.setPc t (.advanceLoad none exempt false)
  | .loadEpoch slot, .run => s.setPc t (.beginReadSection slot s.globalEpoch)
  | .beginReadSection slot epoch, .run =>
    (s.enterSlot t slot).setPc t
      (if s.readerDepth slot = 0 then .storeEpoch slot epoch else .reading slot)
  | .storeEpoch slot epoch, .run => (s.storeEpoch slot epoch).setPc t (.reading slot)
  | .reading slot, .advanceAndReclaim exempt =>
    s.setPc t (.advanceLoad (some slot) exempt true)
  | .reading slot, .tryAdvanceEpoch exempt => s.setPc t (.advanceLoad (some slot) exempt false)
  | .reading slot, .leave => s.setPc t (.endLoad slot)
  | .advanceLoad own exempt reclaims, .run =>
    s.setPc t (scanAt NUM_SLOTS own exempt (.advance s.globalEpoch reclaims) 0)
  | .scanDepth own exempt c i, .run =>
    s.setPc t (if s.readerDepth i ≤ 1 then scanAt NUM_SLOTS own exempt c (i + 1)
      else .scanActive own exempt c i)
  | .scanActive own exempt c i, .run =>
    s.setPc t (if s.readerDepth i = 0 then scanAt NUM_SLOTS own exempt c (i + 1)
      else .scanSnapshot own exempt c i)
  | .scanSnapshot own exempt c i, .run =>
    s.setPc t (if c.stops (s.readerEpoch i) then scanStop own exempt c
      else scanAt NUM_SLOTS own exempt c (i + 1))
  | .advanceCas own exempt epoch reclaims, .run =>
    ({ s with globalEpoch := if s.globalEpoch = epoch then epoch + 1 else s.globalEpoch }).setPc t
      (afterAdvance own exempt reclaims)
  | .reclaimLoad own exempt, .run =>
    s.setPc t (if s.globalEpoch ≤ EPOCH_RECLAIM_LAG then finished own
      else scanAt NUM_SLOTS own exempt (.reclaim (s.globalEpoch - EPOCH_RECLAIM_LAG)) 0)
  | .reclaiming own _ _, .leave => s.setPc t (finished own)
  | .endLoad slot, .run =>
    s.setPc t (if s.readerDepth slot = 0 then .idle else .endCas slot (s.readerDepth slot))
  | .endCas slot depth, .run =>
    if s.readerDepth slot = depth then (s.leaveSlot t slot depth).setPc t .idle
    else s.setPc t (if s.readerDepth slot = 0 then .idle else .endCas slot (s.readerDepth slot))
  | _, _ => none

/-- The depth and the epoch that the step adds one to fit their words. -/
def CountersFit (s : State Tid) (t : Tid) : Act → Prop
  | .run =>
    match s.pc t with
    | .beginReadSection slot _ => s.readerDepth slot + 1 < 2 ^ 32
    | .advanceCas _ _ _ _ => s.globalEpoch + 1 < 2 ^ 64
    | _ => True
  | _ => True

/-- The counters as 32-bit and 64-bit words. -/
def State.wrap (s : State Tid) : State Tid :=
  { s with
    globalEpoch := s.globalEpoch % 2 ^ 64
    readerDepth := fun i => s.readerDepth i % 2 ^ 32 }

/-- `remove()`'s use of the reclaimer: the exempt slot is the one the caller reads on. -/
def ExemptsOwn (s : State Tid) (t : Tid) : Act → Prop
  | .advanceAndReclaim exempt | .tryAdvanceEpoch exempt => s.pc t = .reading exempt
  | _ => True

instance (s : State Tid) (t : Tid) (a : Act) : Decidable (ExemptsOwn s t a) :=
  match a with
  | .advanceAndReclaim exempt | .tryAdvanceEpoch exempt =>
    inferInstanceAs (Decidable (s.pc t = .reading exempt))
  | .enter _ | .leave | .run => inferInstanceAs (Decidable True)

/-- The exemption is not taken while a thread other than the caller is on the slot. -/
def ExemptsNoOther (s : State Tid) (t : Tid) : Act → Prop
  | .run =>
    match s.pc t with
    | .scanDepth _ _ _ i => s.readerDepth i ≤ 1 → ∀ u ∈ s.insiders i, u = t
    | _ => True
  | _ => True

instance (s : State Tid) (t : Tid) (a : Act) : Decidable (ExemptsNoOther s t a) := by
  unfold ExemptsNoOther
  split
  · split <;> infer_instance
  · infer_instance

end MinStd.EpochReclaimer
