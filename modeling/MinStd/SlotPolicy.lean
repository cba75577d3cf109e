import MinStd.Transition
import Mathlib.Algebra.Group.Nat.Defs
import Mathlib.Data.Finset.Card

/-!
# Slots for CPUs

`bare_metal_cpu_slot_policy` gives each CPU a slot: the first one from its own on that it claims or
finds claimed for it.  Several contexts of one CPU may look for its slot at once.  A CPU that finds
every slot claimed for another shares the one it starts from.  The throttle of a slot is adapted by
whoever is on it.
-/

namespace MinStd.SlotPolicy

open Function

variable {τ : Type*} [DecidableEq τ]

def INVALID_CPU_ID : ℕ := 0xFFFFFFFF

/-- The template parameters. -/
structure Policy where
  NUM_SLOTS : ℕ
  THROTTLE_INITIAL : ℕ
  THROTTLE_MIN : ℕ
  pos : 0 < NUM_SLOTS

variable (P : Policy)

/-- The slot that a CPU probes after `probe` others. -/
def slotAt (cpu probe : ℕ) : ℕ := (cpu % P.NUM_SLOTS + probe) % P.NUM_SLOTS

inductive Pc
  | idle
  | claim (cpu probe : ℕ)
  | owned (cpu probe : ℕ)
  | period (slot : ℕ) (shorten : Bool)
  | setPeriod (slot period : ℕ)
  deriving DecidableEq

/-- What `acquire_slot` has returned to a CPU. -/
structure Answer where
  cpu : ℕ
  slot : ℕ
  deriving DecidableEq

/-- The slots and the calls under way.  For the record: who has called, and the answers. -/
structure State (τ : Type*) where
  assignedCpuId : ℕ → ℕ
  reclaimThrottleCounter : ℕ → ℕ
  reclaimThrottlePeriod : ℕ → ℕ
  pc : τ → Pc
  cpus : Finset ℕ
  answers : List Answer

def State.setPc (s : State τ) (t : τ) (x : Pc) : State τ := { s with pc := update s.pc t x }

inductive Call
  | acquireSlot (cpu : ℕ)
  | increment (slot : ℕ)
  | adapt (slot : ℕ) (shorten : Bool)
  deriving DecidableEq

inductive Action (τ : Type*)
  | call (t : τ) (c : Call)
  | run (t : τ)
  deriving DecidableEq

def State.answer (s : State τ) (t : τ) (cpu slot : ℕ) : State τ :=
  { s with answers := ⟨cpu, slot⟩ :: s.answers }.setPc t .idle

/-- The next access of `acquire_slot` or of `adapt_reclaim_throttle`. -/
def run (s : State τ) (t : τ) : Option (State τ) :=
  match s.pc t with
  | .claim cpu probe =>
    if s.assignedCpuId (slotAt P cpu probe) = INVALID_CPU_ID then
      some ({ s with assignedCpuId := update s.assignedCpuId (slotAt P cpu probe) cpu }.answer t cpu
        (slotAt P cpu probe))
    else some (s.setPc t (.owned cpu probe))
  | .owned cpu probe =>
    if s.assignedCpuId (slotAt P cpu probe) = cpu then some (s.answer t cpu (slotAt P cpu probe))
    else if probe + 1 < P.NUM_SLOTS then some (s.setPc t (.claim cpu (probe + 1)))
    else some (s.answer t cpu (cpu % P.NUM_SLOTS))
  | .period slot shorten =>
    let period := s.reclaimThrottlePeriod slot
    if shorten then
      if P.THROTTLE_MIN < period then some (s.setPc t (.setPeriod slot (period - 1)))
      else some (s.setPc t .idle)
    else if period < P.THROTTLE_INITIAL then some (s.setPc t (.setPeriod slot (period + 1)))
    else some (s.setPc t .idle)
  | .setPeriod slot period =>
    some ({ s with reclaimThrottlePeriod := update s.reclaimThrottlePeriod slot period }.setPc t
      .idle)
  | .idle => none

def stepCall (s : State τ) (t : τ) : Call → Option (State τ)
  | .acquireSlot cpu =>
    if cpu = INVALID_CPU_ID then none
    else some ({ s with cpus := insert cpu s.cpus }.setPc t (.claim cpu 0))
  | .increment slot =>
    some { s with
      reclaimThrottleCounter := update s.reclaimThrottleCounter slot
        ((s.reclaimThrottleCounter slot + 1) % 2 ^ 32) }
  | .adapt slot shorten =>
    some ({ s with reclaimThrottleCounter := update s.reclaimThrottleCounter slot 0 }.setPc t
      (.period slot shorten))

def step (s : State τ) : Action τ → Option (State τ)
  | .call t c => if s.pc t = .idle then stepCall s t c else none
  | .run t => run P s t

structure Start (s : State τ) : Prop where
  assignedCpuId : s.assignedCpuId = fun _ => INVALID_CPU_ID
  reclaimThrottlePeriod : s.reclaimThrottlePeriod = fun _ => P.THROTTLE_INITIAL
  pc : s.pc = fun _ => .idle
  cpus : s.cpus = ∅
  answers : s.answers = []

def machine : Machine (State τ) (Action τ) where
  init := Start P
  step := step P

/-! ### Slots and periods -/

/-- A CPU is always given the same slot, one of the policy's; CPUs that are no more than the slots
are given slots of their own; and the throttle's period stays between its bounds. -/
structure Correct (s : State τ) : Prop where
  slot : ∀ a ∈ s.answers, a.slot < P.NUM_SLOTS
  stable : ∀ a ∈ s.answers, ∀ b ∈ s.answers, a.cpu = b.cpu → a.slot = b.slot
  apart : s.cpus.card ≤ P.NUM_SLOTS → ∀ a ∈ s.answers, ∀ b ∈ s.answers, a.slot = b.slot →
    a.cpu = b.cpu
  period : ∀ i, min P.THROTTLE_MIN P.THROTTLE_INITIAL ≤ s.reclaimThrottlePeriod i
    ∧ s.reclaimThrottlePeriod i ≤ P.THROTTLE_INITIAL

end MinStd.SlotPolicy
