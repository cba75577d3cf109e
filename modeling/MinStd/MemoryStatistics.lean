import MinStd.Transition
import MinStd.Words
import Mathlib.Algebra.BigOperators.Intervals

/-!
# Statistics of a memory resource

Each CPU counts the blocks and bytes that it allocates and deallocates in counters of its own.  A
reader sums the counters, one load at a time, while others count: all that is deallocated first,
and then all that is allocated.
-/

namespace MinStd.MemoryStatistics

open Function

variable {τ : Type*} [DecidableEq τ]

def STATISTICS_SHARDS : ℕ := 16

/-- What a counter counts. -/
inductive Kind
  | blocks
  | bytes
  deriving DecidableEq

/-- What one block of the size is counted as. -/
def Kind.of : Kind → ℕ → ℕ
  | blocks, _ => 1
  | bytes, size => size

/-- `shard_counters`: `allocations_` and `bytes_allocated_`, `deallocations_` and
`bytes_deallocated_`. -/
structure ShardCounters where
  allocated : Kind → ℕ
  deallocated : Kind → ℕ

/-- What the shards from `i` on to `j` have counted. -/
def allocatedBy (shards : ℕ → ShardCounters) (kind : Kind) (i j : ℕ) : ℕ :=
  ∑ n ∈ Finset.Ico i j, (shards n).allocated kind

def deallocatedBy (shards : ℕ → ShardCounters) (kind : Kind) (i j : ℕ) : ℕ :=
  ∑ n ∈ Finset.Ico i j, (shards n).deallocated kind

/-- What is counted as allocated and not as deallocated. -/
def currentBy (shards : ℕ → ShardCounters) (kind : Kind) : ℕ :=
  allocatedBy shards kind 0 STATISTICS_SHARDS - deallocatedBy shards kind 0 STATISTICS_SHARDS

/-- Who sums the counters. -/
inductive Reader
  | caller
  | peak
  deriving DecidableEq

/-- Where a thread is.  For the record: what was counted, and what callers had, when the reader went
over to the allocations. -/
inductive Pc
  | idle
  | allocated (kind : Kind) (shard size : ℕ)
  | deallocated (kind : Kind) (shard size : ℕ)
  | sumDeallocated (reader : Reader) (kind : Kind) (shard sum : ℕ)
  | sumAllocated (reader : Reader) (kind : Kind) (shard sum deallocated between held : ℕ)
  | peakLoad (current between : ℕ)
  | peakCas (current peak between : ℕ)
  deriving DecidableEq

/-- What `current_allocated` or `current_bytes_allocated` has returned. -/
structure Answer where
  kind : Kind
  value : ℕ
  between : ℕ
  held : ℕ
  deriving DecidableEq

/-- The counters and the calls under way.  For the record: the sizes of the blocks that callers
have, what was ever asked for, the answers, and the most blocks that callers have had. -/
structure State (τ : Type*) where
  shards : ℕ → ShardCounters
  peakAllocated : ℕ
  pc : τ → Pc
  live : List ℕ
  asked : Kind → ℕ
  answers : List Answer
  most : ℕ

namespace State

def setPc (s : State τ) (t : τ) (x : Pc) : State τ := { s with pc := update s.pc t x }

def setShard (s : State τ) (shard : ℕ) (x : ShardCounters) : State τ :=
  { s with shards := update s.shards shard x }

end State

inductive Call
  | allocationMade (cpu size : ℕ)
  | deallocationMade (cpu size : ℕ)
  | currentAllocated (kind : Kind)
  deriving DecidableEq

inductive Action (τ : Type*)
  | call (t : τ) (c : Call)
  | run (t : τ) (spurious : Bool)
  deriving DecidableEq

/-- `local_shard` -/
def localShard (cpu : ℕ) : ℕ := cpu &&& (STATISTICS_SHARDS - 1)

/-- The difference that a reader returns. -/
def difference (allocated deallocated : ℕ) : ℕ :=
  if deallocated < allocated then allocated - deallocated else 0

/-- What callers have. -/
def State.held (s : State τ) (kind : Kind) : ℕ := (s.live.map kind.of).sum

/-- The counters are added, and `current` is what there is. -/
def summed (s : State τ) (t : τ) (kind : Kind) (current between held : ℕ) : Reader → State τ
  | .caller => { s with answers := ⟨kind, current, between, held⟩ :: s.answers }.setPc t .idle
  | .peak => s.setPc t (.peakLoad current between)

/-- The next access of a call. -/
def run (s : State τ) (t : τ) (spurious : Bool) : Option (State τ) :=
  match s.pc t with
  | .allocated kind shard size =>
    let x := s.shards shard
    let s' := s.setShard shard { x with
      allocated := update x.allocated kind (add64 (x.allocated kind) (kind.of size)) }
    match kind with
    | .blocks => some (s'.setPc t (.allocated .bytes shard size))
    | .bytes =>
      let live := size :: s.live
      some ({ s' with live := live, most := max s.most live.length }.setPc t
        (.sumDeallocated .peak .blocks 0 0))
  | .deallocated kind shard size =>
    let x := s.shards shard
    let s' := s.setShard shard { x with
      deallocated := update x.deallocated kind (add64 (x.deallocated kind) (kind.of size)) }
    match kind with
    | .blocks => some (s'.setPc t (.deallocated .bytes shard size))
    | .bytes => some (s'.setPc t .idle)
  | .sumDeallocated reader kind shard sum =>
    let sum := add64 sum ((s.shards shard).deallocated kind)
    if shard + 1 < STATISTICS_SHARDS then
      some (s.setPc t (.sumDeallocated reader kind (shard + 1) sum))
    else
      some (s.setPc t
        (.sumAllocated reader kind 0 0 sum (currentBy s.shards kind) (s.held kind)))
  | .sumAllocated reader kind shard sum deallocated between held =>
    let sum := add64 sum ((s.shards shard).allocated kind)
    if shard + 1 < STATISTICS_SHARDS then
      some (s.setPc t (.sumAllocated reader kind (shard + 1) sum deallocated between held))
    else some (summed s t kind (difference sum deallocated) between held reader)
  | .peakLoad current between =>
    if s.peakAllocated < current then
      some (s.setPc t (.peakCas current s.peakAllocated between))
    else some (s.setPc t .idle)
  | .peakCas current peak between =>
    if s.peakAllocated = peak ∧ spurious = false then
      some ({ s with peakAllocated := current }.setPc t .idle)
    else if s.peakAllocated < current then
      some (s.setPc t (.peakCas current s.peakAllocated between))
    else some (s.setPc t .idle)
  | .idle => none

/-- A caller deallocates a block that it has. -/
def stepCall (s : State τ) (t : τ) : Call → Option (State τ)
  | .allocationMade cpu size =>
    some ({ s with asked := fun kind => s.asked kind + kind.of size }.setPc t
      (.allocated .blocks (localShard cpu) size))
  | .deallocationMade cpu size =>
    if size ∈ s.live then
      some ({ s with live := s.live.erase size }.setPc t
        (.deallocated .blocks (localShard cpu) size))
    else none
  | .currentAllocated kind => some (s.setPc t (.sumDeallocated .caller kind 0 0))

def step (s : State τ) : Action τ → Option (State τ)
  | .call t c => if s.pc t = .idle then stepCall s t c else none
  | .run t spurious => run s t spurious

structure Start (s : State τ) : Prop where
  shards : s.shards = fun _ => ⟨fun _ => 0, fun _ => 0⟩
  peakAllocated : s.peakAllocated = 0
  pc : s.pc = fun _ => .idle
  live : s.live = []
  asked : s.asked = fun _ => 0
  answers : s.answers = []
  most : s.most = 0

def machine : Machine (State τ) (Action τ) where
  init := Start
  step := step

/-- What is ever asked for fits in a machine word. -/
def Bounded (s : State τ) : Action τ → Prop
  | .call _ (.allocationMade _ size) => ∀ kind : Kind, s.asked kind + kind.of size < WORD64
  | _ => True

/-- Calls do not overlap. -/
def Alone (s : State τ) (a : Action τ) : Prop :=
  Bounded s a ∧ match a with
    | .call t _ => ∀ u, u ≠ t → s.pc u = .idle
    | .run t _ => ∀ u, u ≠ t → s.pc u = .idle

/-! ### Answers and the peak -/

/-- The thread is in an `allocation_made`. -/
def Pc.Allocates : Pc → Prop
  | allocated _ _ _ => True
  | sumDeallocated reader _ _ _ => reader = .peak
  | sumAllocated reader _ _ _ _ _ _ => reader = .peak
  | peakLoad _ _ => True
  | peakCas _ _ _ => True
  | _ => False

/-- While no call is under way the counters say what callers have.  An answer is no less than what
was counted, and so than what callers had, between its two sums, and no more than what was ever
allocated; and while no allocation is counted the peak is no less than what there is. -/
structure Correct (s : State τ) : Prop where
  quiescent : (∀ t, s.pc t = .idle) → ∀ kind, currentBy s.shards kind = s.held kind
  answers : ∀ a ∈ s.answers, a.held ≤ a.between ∧ a.between ≤ a.value
    ∧ a.value ≤ allocatedBy s.shards a.kind 0 STATISTICS_SHARDS ∧ a.value ≤ s.asked a.kind
  covered : (∀ t, ¬ (s.pc t).Allocates) → s.held .blocks ≤ currentBy s.shards .blocks
    ∧ currentBy s.shards .blocks ≤ s.peakAllocated
  peak : s.peakAllocated ≤ allocatedBy s.shards .blocks 0 STATISTICS_SHARDS

/-- Answers are what callers have, and the peak is the most blocks that they have had. -/
structure Exact (s : State τ) : Prop where
  answers : ∀ a ∈ s.answers, a.value = a.held
  peak : (∀ t, ¬ (s.pc t).Allocates) → s.peakAllocated = s.most

end MinStd.MemoryStatistics
