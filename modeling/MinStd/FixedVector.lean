import Mathlib.Data.List.Basic

/-!
# The vector of fixed capacity

A cell of the buffer is raw or holds an element, and the first `size` of them are meant to hold one.
Construction on a cell that is not raw, and whatever else needs an element on one that is, is no
step.  An element that is moved from is still there, and its class says what is left of it.  The
assertions of the failure policy return.
-/

namespace MinStd.FixedVector

variable {α : Type*}

/-- What a move leaves of its source: a move constructor, and a move assignment, which also finds
the old value of its target. -/
structure Element (α : Type*) where
  afterMove : α → α
  afterAssign : α → α → α

inductive Cell (α : Type*)
  | raw
  | holds (v : α)

/-- The buffer at `begin_`, and how far `end_` is from there.  For the record: how many elements
were constructed and destroyed. -/
structure State (α : Type*) where
  buffer : List (Cell α)
  size : ℕ
  currentAllocatedSize : ℕ
  constructions : ℕ
  destructions : ℕ

/-- A value from elsewhere, or a reference to an element. -/
inductive Ref (α : Type*)
  | value (v : α)
  | element (i : ℕ)

/-- An argument of `emplace`: it may also be an element to move from. -/
inductive Arg (α : Type*)
  | ref (r : Ref α)
  | moved (i : ℕ)

variable (E : Element α) (MAX_SIZE : ℕ)

namespace State

variable (s : State α)

/-! ### Cells -/

def construct (i : ℕ) (v : α) : Option (State α) :=
  match s.buffer[i]? with
  | some .raw =>
    some { s with buffer := s.buffer.set i (.holds v), constructions := s.constructions + 1 }
  | _ => none

def destroy (i : ℕ) : Option (State α) :=
  match s.buffer[i]? with
  | some (.holds _) =>
    some { s with buffer := s.buffer.set i .raw, destructions := s.destructions + 1 }
  | _ => none

def read (i : ℕ) : Option α :=
  match s.buffer[i]? with
  | some (.holds v) => some v
  | _ => none

/-- An element is given a new value. -/
def write (i : ℕ) (v : α) : Option (State α) :=
  match s.buffer[i]? with
  | some (.holds _) => some { s with buffer := s.buffer.set i (.holds v) }
  | _ => none

def moveConstruct (target source : ℕ) : Option (State α) :=
  (s.read source).bind fun v =>
    (s.construct target v).bind fun s => s.write source (E.afterMove v)

def moveAssign (target source : ℕ) : Option (State α) :=
  (s.read source).bind fun v => (s.read target).bind fun old =>
    (s.write target v).bind fun s => s.write source (E.afterAssign old v)

def value : Ref α → Option α
  | .value v => some v
  | .element i => s.read i

/-- The value of an argument, and the state when an element is constructed from it. -/
def take : Arg α → Option (α × State α)
  | .ref r => (s.value r).map fun v => (v, s)
  | .moved i => (s.read i).bind fun v => (s.write i (E.afterMove v)).map fun s => (v, s)

/-! ### Members -/

/-- What an addition checks. -/
def Full : Prop := MAX_SIZE ≤ s.size ∨ s.currentAllocatedSize ≤ s.size

instance : Decidable (s.Full MAX_SIZE) := inferInstanceAs (Decidable (_ ∨ _))

def constructBack (v : α) : Option (State α) :=
  (s.construct s.size v).map fun s => { s with size := s.size + 1 }

def pushBack (r : Ref α) : Option (State α) :=
  if s.Full MAX_SIZE then some s else (s.value r).bind s.constructBack

/-- Traps when full and empty. -/
def emplaceBack (a : Arg α) : Option (State α) :=
  if s.Full MAX_SIZE then if s.size = 0 then none else some s
  else (s.take E a).bind fun p => p.2.constructBack p.1

/-- The loop that moves the elements after `pos` up, the last one first. -/
def shift (pos : ℕ) : ℕ → State α → Option (State α)
  | 0, s => some s
  | current + 1, s =>
    if pos < current + 1 then (s.moveAssign E (current + 1) current).bind (shift pos current)
    else some s

/-- A temporary element is constructed. -/
def temporary : State α := { s with constructions := s.constructions + 1 }

/-- An element is put before others, from a temporary, which is destroyed at the end. -/
def insertBefore (pos : ℕ) (a : Arg α) : Option (State α) :=
  (s.take E a).bind fun p =>
    (p.2.temporary.moveConstruct E s.size (s.size - 1)).bind fun s =>
      (shift E pos (s.size - 1) s).bind fun s => (s.write pos p.1).map fun s =>
        { s with size := s.size + 1, destructions := s.destructions + 1 }

def insert (pos : ℕ) (r : Ref α) : Option (State α) :=
  if s.Full MAX_SIZE then some s
  else if pos = s.size then s.pushBack MAX_SIZE r
  else s.insertBefore E pos (.ref r)

def emplace (pos : ℕ) (a : Arg α) : Option (State α) :=
  if s.Full MAX_SIZE then some s
  else if pos = s.size then s.emplaceBack E MAX_SIZE a
  else s.insertBefore E pos a

def popBack : Option (State α) :=
  if s.size = 0 then some s
  else
    let s := { s with size := s.size - 1 }
    s.destroy s.size

/-- Destroys `count` elements from `current` on. -/
def destroyLoop : ℕ → ℕ → State α → Option (State α)
  | _, 0, s => some s
  | current, count + 1, s => (s.destroy current).bind (destroyLoop (current + 1) count)

def clear : Option (State α) := (destroyLoop 0 s.size s).map fun s => { s with size := 0 }

/-- Adds elements as long as there is room. -/
def copyLoop : List α → State α → Option (State α)
  | [], s => some s
  | element :: rest, s =>
    if s.currentAllocatedSize ≤ s.size then some s
    else (s.emplaceBack E MAX_SIZE (.ref (.value element))).bind (copyLoop rest)

/-- The buffer is replaced where it is too small and may be larger; `alloc` says whether there is
memory for another. -/
def reserve (n : ℕ) (alloc : Bool) : State α :=
  if s.currentAllocatedSize < n ∧ s.currentAllocatedSize < MAX_SIZE then
    if alloc then
      { s with
        buffer := List.replicate (min n MAX_SIZE) .raw
        size := 0
        currentAllocatedSize := min n MAX_SIZE }
    else s
  else s

/-- `operator=`, from another vector with these elements. -/
def assign (other : List α) (alloc : Bool) : Option (State α) :=
  s.clear.bind fun s => copyLoop E MAX_SIZE other (s.reserve MAX_SIZE other.length alloc)

/-- The destructor, which then gives the buffer back. -/
def destruct : Option (State α) := destroyLoop 0 s.size s

end State

/-- A new vector. -/
def new (initialSize : ℕ) (alloc : Bool) : State α :=
  if min initialSize MAX_SIZE ≠ 0 ∧ alloc = false then ⟨[], 0, 0, 0, 0⟩
  else ⟨List.replicate (min initialSize MAX_SIZE) .raw, 0, min initialSize MAX_SIZE, 0, 0⟩

/-- A new vector with the elements of an initializer list. -/
def ofList (initialValues : List α) (initialSize : ℕ) (alloc : Bool) : Option (State α) :=
  State.copyLoop E MAX_SIZE initialValues (new MAX_SIZE initialSize alloc)

inductive Call (α : Type*)
  | pushBack (r : Ref α)
  | emplaceBack (a : Arg α)
  | insert (pos : ℕ) (r : Ref α)
  | emplace (pos : ℕ) (a : Arg α)
  | popBack
  | clear
  | assign (other : List α) (alloc : Bool)
  | assignSelf

def State.call (s : State α) : Call α → Option (State α)
  | .pushBack r => s.pushBack MAX_SIZE r
  | .emplaceBack a => s.emplaceBack E MAX_SIZE a
  | .insert pos r => s.insert E MAX_SIZE pos r
  | .emplace pos a => s.emplace E MAX_SIZE pos a
  | .popBack => s.popBack
  | .clear => s.clear
  | .assign other alloc => s.assign E MAX_SIZE other alloc
  | .assignSelf => some s

/-! ### The bounded sequence -/

/-- The value an argument has. -/
def Ref.of (l : List α) : Ref α → Option α
  | .value v => some v
  | .element i => l[i]?

def Arg.of (l : List α) : Arg α → Option α
  | .ref r => r.of l
  | .moved i => l[i]?

/-- The sequence once an element is constructed from the argument. -/
def Arg.after (l : List α) : Arg α → List α
  | .ref _ => l
  | .moved i => l.modify i E.afterMove

/-- Adds an element where there is room. -/
def added (capacity : ℕ) (l : List α) (pos : ℕ) (v : Option α) (after : List α) : List α :=
  if l.length < capacity then
    match v with
    | none => l
    | some v => after.insertIdx pos v
  else l

/-- The capacity after a call. -/
def Call.capacity (before : ℕ) : Call α → ℕ
  | .assign other alloc =>
    if before < other.length ∧ before < MAX_SIZE ∧ alloc = true then min other.length MAX_SIZE
    else before
  | _ => before

/-- The sequence after a call, with the capacities before and after. -/
def Call.reference (before after : ℕ) (l : List α) : Call α → List α
  | .pushBack r => added before l l.length (r.of l) l
  | .emplaceBack a => added before l l.length (a.of l) (a.after E l)
  | .insert pos r => added before l pos (r.of l) l
  | .emplace pos a => added before l pos (a.of l) (a.after E l)
  | .popBack => l.dropLast
  | .clear => []
  | .assign other _ => other.take after
  | .assignSelf => l

/-- A reference is to one of `size` elements. -/
def Ref.Valid (size : ℕ) : Ref α → Prop
  | .value _ => True
  | .element i => i < size

def Arg.Valid (size : ℕ) : Arg α → Prop
  | .ref r => r.Valid size
  | .moved i => i < size

/-- A position is one from begin to end, and `emplace_back` does not trap. -/
def Call.Legal (s : State α) : Call α → Prop
  | .pushBack r => r.Valid s.size
  | .emplaceBack a => a.Valid s.size ∧ ¬ (s.Full MAX_SIZE ∧ s.size = 0)
  | .insert pos r => pos ≤ s.size ∧ r.Valid s.size
  | .emplace pos a => pos ≤ s.size ∧ a.Valid s.size
  | _ => True

/-- The calls made on a new vector, and the bounded sequence after them. -/
inductive Run : State α → List α → Prop
  | new (initialSize : ℕ) (alloc : Bool) : Run (new MAX_SIZE initialSize alloc) []
  | ofList {s : State α} {initialValues : List α} {initialSize : ℕ} {alloc : Bool} :
      ofList E MAX_SIZE initialValues initialSize alloc = some s →
      Run s (initialValues.take s.currentAllocatedSize)
  | call {s s' : State α} {l : List α} {c : Call α} : Run s l → c.Legal MAX_SIZE s →
      s.call E MAX_SIZE c = some s' →
      Run s' (c.reference E s.currentAllocatedSize s'.currentAllocatedSize l)

end MinStd.FixedVector
