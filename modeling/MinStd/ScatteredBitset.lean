import MinStd.BitFields
import MinStd.Linearization
import MinStd.Transition
import MinStd.Words
import Mathlib.Data.Set.Insert

/-!
# The scattered bitset

Consecutive words of the set are in different cache lines.  A call makes one access, which sets or
clears the bit and returns the old word; an index is checked before.  What the code does with a
division by zero or an index outside of the array is not defined, and no step.
-/

namespace MinStd.ScatteredBitset

open Function

variable {τ : Type*} [DecidableEq τ]

inductive Result
  | INDEX_OUT_OF_RANGE
  | SUCCESS
  | FAILED_BIT_ALREADY_ACQUIRED
  | FAILED_BIT_ALREADY_RELEASED
  deriving DecidableEq

def WORDS_PER_CACHE_LINE : ℕ := 8

/-- A size and a scaling that the class accepts. -/
structure Layout where
  SIZE_IN_BITS : ℕ
  CACHE_LINE_SCALING : ℕ
  lt : SIZE_IN_BITS < WORD64
  size : 64 ≤ SIZE_IN_BITS
  scaling : 1 ≤ CACHE_LINE_SCALING
  power : CACHE_LINE_SCALING &&& (CACHE_LINE_SCALING - 1) = 0
  divides : WORDS_PER_CACHE_LINE % CACHE_LINE_SCALING = 0

namespace Layout

variable (L : Layout)

def STORAGE_WORDS_PER_BLOCK : ℕ := WORDS_PER_CACHE_LINE * L.CACHE_LINE_SCALING

def NUM_STORAGE_WORDS : ℕ :=
  mul64 (sub64 (add64 (sub64 (add64 L.SIZE_IN_BITS 64) 1 / 64) WORDS_PER_CACHE_LINE) 1
    / WORDS_PER_CACHE_LINE) L.STORAGE_WORDS_PER_BLOCK

def physicalWordIndexFromLogical (logicalWordIdx : ℕ) : Option ℕ :=
  let numLines := L.NUM_STORAGE_WORDS / WORDS_PER_CACHE_LINE
  if numLines = 0 then none
  else
    let lineIdx := logicalWordIdx % numLines
    let wordInLine := logicalWordIdx / numLines
    some (add64 (mul64 lineIdx WORDS_PER_CACHE_LINE) wordInLine)

def wordIndex (bitIndex : ℕ) : Option ℕ := L.physicalWordIndexFromLogical (bitIndex / 64)

end Layout

def wordBitIndex (bitIndex : ℕ) : ℕ := 63 - bitIndex % 64

def mask (bitIndex : ℕ) : BitVec 64 := 1#64 <<< wordBitIndex bitIndex

inductive Op
  | acquire (bitIndex : ℕ)
  | release (bitIndex : ℕ)
  deriving DecidableEq

def Op.bitIndex : Op → ℕ
  | acquire i => i
  | release i => i

/-- What the access stores, from the old word. -/
def Op.store : Op → BitVec 64 → BitVec 64
  | acquire i, old => old ||| mask i
  | release i, old => old &&& ~~~mask i

/-- What the call returns, from the old word. -/
def Op.result : Op → BitVec 64 → Result
  | acquire i, old => if old &&& mask i ≠ 0#64 then .FAILED_BIT_ALREADY_ACQUIRED else .SUCCESS
  | release i, old => if old &&& mask i = 0#64 then .FAILED_BIT_ALREADY_RELEASED else .SUCCESS

/-- Where a thread is in a call. -/
inductive Pc
  | idle
  | access (op : Op)
  | ret (result : Result)
  deriving DecidableEq

/-- The words, the calls under way and, for the record, the calls and returns so far. -/
structure State (τ : Type*) where
  words : ℕ → BitVec 64
  pc : τ → Pc
  history : List (Event τ Op Result)

inductive Action (τ : Type*)
  | call (t : τ) (op : Op)
  | run (t : τ)

variable (L : Layout)

/-- The access of a call, at a word of the array. -/
def access (s : State τ) (t : τ) (op : Op) : Option (State τ) :=
  (L.wordIndex op.bitIndex).bind fun w =>
    if w < L.NUM_STORAGE_WORDS then
      some { s with
        words := update s.words w (op.store (s.words w))
        pc := update s.pc t (.ret (op.result (s.words w))) }
    else none

def step (s : State τ) : Action τ → Option (State τ)
  | .call t op =>
    if s.pc t = .idle then
      some { s with
        pc := update s.pc t
          (if L.SIZE_IN_BITS ≤ op.bitIndex then .ret .INDEX_OUT_OF_RANGE else .access op)
        history := s.history ++ [.call t op] }
    else none
  | .run t =>
    match s.pc t with
    | .idle => none
    | .access op => access L s t op
    | .ret result =>
      some { s with pc := update s.pc t .idle, history := s.history ++ [.ret t result] }

/-- The constructor. -/
structure Start (s : State τ) : Prop where
  words : s.words = fun _ => 0#64
  pc : s.pc = fun _ => .idle
  history : s.history = []

def machine : Machine (State τ) (Action τ) where
  init := Start
  step := step L

/-! ### A set of indices -/

/-- What a call returns and leaves of a set of indices below the size. -/
inductive Takes : Op → Set ℕ → Result → Set ℕ → Prop
  | outOfRange {op S} : L.SIZE_IN_BITS ≤ op.bitIndex → Takes op S .INDEX_OUT_OF_RANGE S
  | acquired {i S} : i < L.SIZE_IN_BITS → i ∉ S → Takes (.acquire i) S .SUCCESS (insert i S)
  | present {i S} : i < L.SIZE_IN_BITS → i ∈ S →
      Takes (.acquire i) S .FAILED_BIT_ALREADY_ACQUIRED S
  | released {i S} : i < L.SIZE_IN_BITS → i ∈ S → Takes (.release i) S .SUCCESS (S \ {i})
  | absent {i S} : i < L.SIZE_IN_BITS → i ∉ S →
      Takes (.release i) S .FAILED_BIT_ALREADY_RELEASED S

/-- The set of indices. -/
def indexSet : SequentialObject Op Result (Set ℕ) where
  start := ∅
  Takes := Takes L

/-- The indices whose bits are set. -/
def State.indices (s : State τ) : Set ℕ :=
  {i | i < L.SIZE_IN_BITS ∧
    ∃ w, L.wordIndex i = some w ∧ (s.words w).getLsbD (wordBitIndex i) = true}

end MinStd.ScatteredBitset
