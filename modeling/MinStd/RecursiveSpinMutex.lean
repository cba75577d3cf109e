import MinStd.Transition
import Mathlib.Algebra.Group.Nat.Defs

/-!
# The recursive spin mutex

A spin mutex with the owner that holds it and how many times over.  The owner and the depth are
fields of their own: a caller compares the owner with itself before it knows whether it holds the
mutex, and the holder counts the depth up and down with a load and a store.  Each action is a
call or one access to a field.

An owner's id is never the sentinel `NO_OWNER`, which is `none` here.
-/

namespace MinStd.RecursiveSpinMutex

open Function

variable {ι : Type*} [DecidableEq ι]

inductive Call
  | lock
  | tryLock
  | unlock
  deriving DecidableEq

/-- How a caller's last call returned; `fresh` before the first. -/
inductive Answer
  | fresh
  | lock
  | tryLock (taken : Bool)
  | unlock
  deriving DecidableEq

/-- Where a caller is in `lock`, `try_lock` or `unlock`.  The two that lock carry the answer they
will return. -/
inductive Pc
  | idle (answer : Answer)
  | lockOwner
  | tryOwner
  | unlockOwner
  /-- The exchange of `spin_mutex::lock`. -/
  | exchange
  /-- The load it spins on. -/
  | spin
  /-- The load of `spin_mutex::try_lock`. -/
  | tryLoad
  | tryExchange
  | storeOwner (answer : Answer)
  | storeDepth (answer : Answer)
  | deepenLoad (answer : Answer)
  | deepenStore (answer : Answer) (depth : ℕ)
  | lowerLoad
  | lowerStore (depth : ℕ)
  | clearOwner
  /-- The store of `spin_mutex::unlock`. -/
  | release
  deriving DecidableEq

/-- The mutex and the calls under way.  For the record: each owner's successful locks and unlocks
since the mutex was last free, and how many times over it held the mutex when it made its last
call. -/
structure State (ι : Type*) where
  locked : Bool
  owner : Option ι
  depth : ℕ
  pc : ι → Pc
  locks : ι → ℕ
  unlocks : ι → ℕ
  before : ι → ℕ

inductive Action (ι : Type*)
  | call (i : ι) (c : Call)
  | run (i : ι)

/-- How many times over `i` holds the mutex. -/
def State.count (s : State ι) (i : ι) : ℕ := s.locks i - s.unlocks i

/-- `i` has locked the mutex more often than it has unlocked it. -/
def Holds (s : State ι) (i : ι) : Prop := s.unlocks i < s.locks i

instance (s : State ι) (i : ι) : Decidable (Holds s i) := inferInstanceAs (Decidable (_ < _))

def State.setPc (s : State ι) (i : ι) (p : Pc) : State ι := { s with pc := update s.pc i p }

/-- `depth_ + 1` and `depth_ - 1`, in 32 bits. -/
def deeper (depth : ℕ) : ℕ := (depth + 1) % 2 ^ 32
def lower (depth : ℕ) : ℕ := (depth + 2 ^ 32 - 1) % 2 ^ 32

def State.setDepth (s : State ι) (depth : ℕ) : State ι := { s with depth := depth }

def State.addLock (s : State ι) (i : ι) : State ι :=
  { s with locks := update s.locks i (s.locks i + 1) }

def State.addUnlock (s : State ι) (i : ι) : State ι :=
  { s with unlocks := update s.unlocks i (s.unlocks i + 1) }

/-- Frees the spin mutex, from where the locks and unlocks are counted anew. -/
def State.free (s : State ι) : State ι :=
  { s with locked := false, locks := fun _ => 0, unlocks := fun _ => 0 }

def Call.start : Call → Pc
  | .lock => .lockOwner
  | .tryLock => .tryOwner
  | .unlock => .unlockOwner

/-- One access of a call under way; a `--depth_` that stores zero goes on to free the mutex. -/
def run (s : State ι) (i : ι) : Pc → Option (State ι)
  | .idle _ => none
  | .lockOwner => some (s.setPc i (if s.owner = some i then .deepenLoad .lock else .exchange))
  | .tryOwner =>
    some (s.setPc i (if s.owner = some i then .deepenLoad (.tryLock true) else .tryLoad))
  | .unlockOwner => some (s.setPc i (if s.owner = some i then .lowerLoad else .idle .unlock))
  | .exchange =>
    some ({ s with locked := true }.setPc i (if s.locked then .spin else .storeOwner .lock))
  | .spin => some (s.setPc i (if s.locked then .spin else .exchange))
  | .tryLoad => some (s.setPc i (if s.locked then .idle (.tryLock false) else .tryExchange))
  | .tryExchange =>
    some ({ s with locked := true }.setPc i
      (if s.locked then .idle (.tryLock false) else .storeOwner (.tryLock true)))
  | .storeOwner answer => some ({ s with owner := some i }.setPc i (.storeDepth answer))
  | .storeDepth answer => some (((s.setDepth 1).addLock i).setPc i (.idle answer))
  | .deepenLoad answer => some (s.setPc i (.deepenStore answer s.depth))
  | .deepenStore answer depth =>
    some (((s.setDepth (deeper depth)).addLock i).setPc i (.idle answer))
  | .lowerLoad => some (s.setPc i (.lowerStore s.depth))
  | .lowerStore depth =>
    let s' := (s.setDepth (lower depth)).addUnlock i
    some (s'.setPc i (if s'.depth = 0 then .clearOwner else .idle .unlock))
  | .clearOwner => some ({ s with owner := none }.setPc i .release)
  | .release => some (s.free.setPc i (.idle .unlock))

def step (s : State ι) : Action ι → Option (State ι)
  | .call i c =>
    match s.pc i with
    | .idle _ => some ({ s with before := update s.before i (s.count i) }.setPc i c.start)
    | _ => none
  | .run i => run s i (s.pc i)

def initial : State ι where
  locked := false
  owner := none
  depth := 0
  pc := fun _ => .idle .fresh
  locks := fun _ => 0
  unlocks := fun _ => 0
  before := fun _ => 0

def machine : Machine (State ι) (Action ι) where
  init s := s = initial
  step := step

/-- The depth to be stored is below `2 ^ 32`. -/
def Nested (s : State ι) : Action ι → Prop
  | .call _ _ => True
  | .run i =>
    match s.pc i with
    | .deepenStore _ _ => s.count i + 1 < 2 ^ 32
    | _ => True

instance (s : State ι) (a : Action ι) : Decidable (Nested s a) := by
  cases a with
  | call i c => exact instDecidableTrue
  | run i => unfold Nested; dsimp only; split <;> infer_instance

/-- The spin mutex is taken, and the `lock` or `try_lock` that took it has not yet returned. -/
def Pc.Entering : Pc → Prop
  | .storeOwner _ | .storeDepth _ => True
  | _ => False

/-- An unlock has brought the depth to zero, and has not yet freed the spin mutex. -/
def Pc.Leaving : Pc → Prop
  | .clearOwner | .release => True
  | _ => False

end MinStd.RecursiveSpinMutex
