import Mathlib.Data.Finset.Basic
import MinStd.BalancedTree

/-!
# The tree of nodes linked both ways

`avl_tree` keeps its nodes in the heap: a node links to its children, and back to its parent by the
reverse link of the side on which it hangs.  Insertion and removal recurse from the root and relink
and rebalance on their way back.

A node is its address.  What is done on one side is done on the other, so the two are one function
of the side; a null pointer that is followed, and a loop that does not end, give no result.
-/

namespace MinStd.AvlTree

variable {ν κ β : Type*} [DecidableEq ν]

/-- The links and depths of the nodes: `left_`, `right_`, `left_reverse_`, `right_reverse_` and
`depth_`. -/
structure Links (ν : Type*) where
  child : Side → ν → Option ν
  reverse : Side → ν → Option ν
  depth : ν → ℕ

namespace Links

variable (s : Links ν)

/-- `set_left` and `set_right`. -/
def setChild (d : Side) (a : ν) : Option ν → Links ν
  | none => { s with child := fun e b => if e = d ∧ b = a then none else s.child e b }
  | some c =>
    { s with
      child := fun e b => if e = d ∧ b = a then some c else s.child e b
      reverse := fun e b => if b = c then if e = d then some a else none else s.reverse e b }

def setLeft : ν → Option ν → Links ν := s.setChild .left

def setRight : ν → Option ν → Links ν := s.setChild .right

/-- A node as its constructor leaves it. -/
def construct (a : ν) : Links ν where
  child := fun e b => if b = a then none else s.child e b
  reverse := fun e b => if b = a then none else s.reverse e b
  depth := Function.update s.depth a 1

/-- The reverse links of the root are none. -/
def clearReverse (a : ν) : Links ν :=
  { s with reverse := fun e b => if b = a then none else s.reverse e b }

/-- `depth` of a pointer. -/
def depthOf : Option ν → ℕ
  | none => 0
  | some a => s.depth a

def getBalance : Option ν → ℤ
  | none => 0
  | some a => (s.depthOf (s.child .left a) : ℤ) - s.depthOf (s.child .right a)

def fixDepth (a : ν) : Links ν :=
  { s with
    depth := Function.update s.depth a
      (max (s.depthOf (s.child .left a)) (s.depthOf (s.child .right a)) + 1) }

/-- A rotation by which the child on the side `d` takes the place of `a`. -/
def rotate (d : Side) (a : ν) : Option (Links ν × ν) :=
  (s.child d a).map fun b =>
    (((s.setChild d.other b (some a)).setChild d a (s.child d.other b)).fixDepth a |>.fixDepth b, b)

def rightRotate : ν → Option (Links ν × ν) := s.rotate .left

def leftRotate : ν → Option (Links ν × ν) := s.rotate .right

/-- The child on the side `d` is rotated the other way, then `a`. -/
def rotateTwice (d : Side) (a : ν) : Option (Links ν × ν) :=
  (s.child d a).bind fun b =>
    (s.rotate d.other b).bind fun r => (r.1.setChild d a (some r.2)).rotate d a

def rebalanceAfterInsert [LinearOrder κ] (key : ν → κ) (a : ν) (k : κ) : Option (Links ν × ν) :=
  let s := s.fixDepth a
  let balance := s.getBalance (some a)
  if 1 < balance ∧ ∃ b ∈ s.child .left a, k < key b then s.rightRotate a
  else if balance < -1 ∧ ∃ b ∈ s.child .right a, key b < k then s.leftRotate a
  else if 1 < balance ∧ ∃ b ∈ s.child .left a, key b < k then s.rotateTwice .left a
  else if balance < -1 ∧ ∃ b ∈ s.child .right a, k < key b then s.rotateTwice .right a
  else some (s, a)

def rebalanceAfterErase (a : ν) : Option (Links ν × ν) :=
  let s := s.fixDepth a
  let balance := s.getBalance (some a)
  if 1 < balance ∧ 0 ≤ s.getBalance (s.child .left a) then s.rightRotate a
  else if balance < -1 ∧ s.getBalance (s.child .right a) ≤ 0 then s.leftRotate a
  else if 1 < balance ∧ s.getBalance (s.child .left a) < 0 then s.rotateTwice .left a
  else if balance < -1 ∧ 0 < s.getBalance (s.child .right a) then s.rotateTwice .right a
  else some (s, a)

/-- The unlinked node, and the rest of the subtree. -/
def unlinkFront : ℕ → Links ν → ν → Option (Links ν × ν × Option ν)
  | 0, _, _ => none
  | fuel + 1, s, a =>
    match s.child .left a with
    | none => some (s, a, s.child .right a)
    | some b => (unlinkFront fuel s b).bind fun r =>
      ((r.1.setLeft a r.2.2).rebalanceAfterErase a).map fun r' => (r'.1, r.2.1, some r'.2)

/-- The end of the branch on the side `d`: `find_front` and `find_back`. -/
def findEnd (d : Side) : ℕ → Option ν → Option (Option ν)
  | _, none => some none
  | 0, some _ => none
  | fuel + 1, some a =>
    match s.child d a with
    | none => some (some a)
    | some b => findEnd d fuel (some b)

/-- The first reverse link to the left, on the way up. -/
def climb : ℕ → ν → Option (Option ν)
  | 0, _ => none
  | fuel + 1, a =>
    match s.reverse .left a with
    | some b => some (some b)
    | none =>
      match s.reverse .right a with
      | none => some none
      | some b => climb fuel b

/-- The loop of `move_backward`, along the reverse links to the left, and the link to the right at
its end. -/
def climbBack : ℕ → ν → Option (Option ν)
  | 0, _ => none
  | fuel + 1, a =>
    match s.reverse .left a with
    | none => some (s.reverse .right a)
    | some b => climbBack fuel b

end Links

/-- The nodes at which an iterator is until it is at the end, moved from each to the next. -/
def visit (move : Option ν → Option (Option ν)) : ℕ → Option ν → Option (List ν)
  | _, none => some []
  | 0, some _ => none
  | fuel + 1, some a =>
    (move (some a)).bind fun p => (visit move fuel p).map fun l => a :: l

/-- The tree, with what its nodes hold and, for the record, which are allocated. -/
structure State (ν κ β : Type*) extends Links ν where
  key : ν → κ
  value : ν → β
  root : Option ν
  size : ℕ
  live : Finset ν

namespace State

variable [LinearOrder κ] (s : State ν κ β)

/-- No recursion goes deeper than there are nodes. -/
def fuel : ℕ := s.size + 1

/-- The node `a` with the key and the value. -/
def construct (a : ν) (k : κ) (v : β) : State ν κ β where
  toLinks := s.toLinks.construct a
  key := Function.update s.key a k
  value := Function.update s.value a v
  root := s.root
  size := s.size + 1
  live := insert a s.live

/-- `destroy` and `deallocate`. -/
def destroy (a : ν) : State ν κ β :=
  { s with size := s.size - 1, live := s.live.erase a }

def withLinks (l : Links ν) : State ν κ β :=
  { s with toLinks := l }

/-- What the recursion does to a node on its way back, the links and the root of its subtree. -/
def relinked (r : Option (Links ν × ν)) : Option (State ν κ β × Option ν) :=
  r.map fun r => (s.withLinks r.1, some r.2)

/-- `alloc` is the node that the allocator returns. -/
def insertRecursive (k : κ) (v : β) (alloc : Option ν) :
    ℕ → State ν κ β → Option ν → Option (State ν κ β × Option ν)
  | 0, _, _ => none
  | _ + 1, s, none =>
    match alloc with
    | none => some (s, none)
    | some a => some (s.construct a k v, some a)
  | fuel + 1, s, some a =>
    if k < s.key a then
      (insertRecursive k v alloc fuel s (s.child .left a)).bind fun r =>
        r.1.relinked ((r.1.setLeft a r.2).rebalanceAfterInsert r.1.key a k)
    else if s.key a < k then
      (insertRecursive k v alloc fuel s (s.child .right a)).bind fun r =>
        r.1.relinked ((r.1.setRight a r.2).rebalanceAfterInsert r.1.key a k)
    else some (s, some a)

/-- The erased node's place is taken by its child, or by the first node of its right subtree. -/
def replace (fuel : ℕ) (a : ν) : Option (Links ν × Option ν) :=
  match s.child .left a, s.child .right a with
  | none, q => some (s.toLinks, q)
  | some b, none => some (s.toLinks, some b)
  | some b, some c => (s.toLinks.unlinkFront fuel c).map fun r =>
    ((r.1.setLeft r.2.1 (some b)).setRight r.2.1 r.2.2, some r.2.1)

def eraseRecursive (k : κ) : ℕ → State ν κ β → Option ν → Option (State ν κ β × Option ν)
  | 0, _, _ => none
  | _ + 1, s, none => some (s, none)
  | fuel + 1, s, some a =>
    if k < s.key a then
      (eraseRecursive k fuel s (s.child .left a)).bind fun r =>
        r.1.relinked ((r.1.setLeft a r.2).rebalanceAfterErase a)
    else if s.key a < k then
      (eraseRecursive k fuel s (s.child .right a)).bind fun r =>
        r.1.relinked ((r.1.setRight a r.2).rebalanceAfterErase a)
    else
      (s.replace fuel a).bind fun r =>
        match r.2 with
        | none => some ((s.destroy a).withLinks r.1, none)
        | some b => (s.destroy a).relinked (r.1.rebalanceAfterErase b)

def findNode (k : κ) : ℕ → Option ν → Option (Option ν)
  | _, none => some none
  | 0, some _ => none
  | fuel + 1, some a =>
    if k = s.key a then some (some a)
    else if s.key a < k then findNode k fuel (s.child .right a)
    else findNode k fuel (s.child .left a)

def find (k : κ) : Option (Option ν) := s.findNode k s.fuel s.root

/-- The new root, which has no reverse link. -/
def setRoot : Option ν → State ν κ β
  | none => { s with root := none }
  | some a => { s with toLinks := s.clearReverse a, root := some a }

/-- An iterator and whether the element was inserted. -/
def insertValue (k : κ) (v : β) (alloc : Option ν) : Option (State ν κ β × Option ν × Bool) :=
  (s.find k).bind fun e =>
    match e with
    | some a => some (s, some a, false)
    | none => (s.insertRecursive k v alloc s.fuel s.root).bind fun r =>
      if r.2 = none ∨ r.1.size = s.size then some ({ r.1 with root := r.2 }, none, false)
      else ((r.1.setRoot r.2).find k).map fun e => (r.1.setRoot r.2, e, true)

def eraseKey (k : κ) : Option (State ν κ β × ℕ) :=
  (eraseRecursive k s.fuel s s.root).map fun r => (r.1.setRoot r.2, s.size - r.1.size)

/-- `move_forward`. -/
def moveForward : Option ν → Option (Option ν)
  | none => some none
  | some a =>
    match s.child .right a with
    | some b => s.findEnd .left s.fuel (some b)
    | none => s.climb s.fuel a

/-- `move_backward`; before the end is the last node. -/
def moveBackward : Option ν → Option (Option ν)
  | none => s.findEnd .right s.fuel s.root
  | some a =>
    match s.child .left a with
    | some b => s.findEnd .right s.fuel (some b)
    | none =>
      match s.reverse .right a with
      | some b => some (some b)
      | none =>
        match s.reverse .left a with
        | some b => s.climbBack s.fuel b
        | none => some none

/-- `begin`. -/
def beginning : Option (Option ν) := s.findEnd .left s.fuel s.root

/-- `erase` of an iterator, which returns the next one. -/
def eraseAt : Option ν → Option (State ν κ β × Option ν)
  | none => some (s, none)
  | some a => (s.moveForward (some a)).bind fun next =>
    (s.eraseKey (s.key a)).map fun r => (r.1, next)

/-- The loop of `clear`. -/
def clearLoop : ℕ → State ν κ β → Option (State ν κ β)
  | 0, _ => none
  | fuel + 1, s =>
    if s.size = 0 then some s
    else (s.findEnd .right s.fuel s.root).bind fun p =>
      (s.eraseAt p).bind fun r => clearLoop fuel r.1

def clear : Option (State ν κ β) := clearLoop s.fuel s

/-- An empty tree, as constructed. -/
def Empty : Prop := s.root = none ∧ s.size = 0 ∧ s.live = ∅

end State

inductive Call (ν κ β : Type*)
  | insert (k : κ) (v : β) (alloc : Option ν)
  | erase (k : κ)
  | eraseAt (p : Option ν)
  | clear

inductive Answer (ν : Type*)
  | inserted (p : Option ν) (new : Bool)
  | erased (count : ℕ)
  | next (p : Option ν)
  | cleared
  deriving DecidableEq

variable [LinearOrder κ]

def State.call (s : State ν κ β) : Call ν κ β → Option (State ν κ β × Answer ν)
  | .insert k v alloc => (s.insertValue k v alloc).map fun r => (r.1, .inserted r.2.1 r.2.2)
  | .erase k => (s.eraseKey k).map fun r => (r.1, .erased r.2)
  | .eraseAt p => (s.eraseAt p).map fun r => (r.1, .next r.2)
  | .clear => s.clear.map fun s' => (s', .cleared)

/-- The allocator returns no node that is in use, and an iterator is the end or one of the tree's
nodes. -/
def Call.Legal (s : State ν κ β) : Call ν κ β → Prop
  | .insert _ _ alloc => ∀ a, alloc = some a → a ∉ s.live
  | .eraseAt p => ∀ a, p = some a → a ∈ s.live
  | _ => True

/-- What the call does to a map. -/
def Call.onMap (s : State ν κ β) (m : κ → Option β) : Call ν κ β → κ → Option β
  | .insert k v alloc => if m k = none ∧ alloc ≠ none then Function.update m k (some v) else m
  | .erase k => Function.update m k none
  | .eraseAt none => m
  | .eraseAt (some a) => Function.update m (s.key a) none
  | .clear => fun _ => none

/-- The calls made from an empty tree, and the map they make. -/
inductive Run : State ν κ β → (κ → Option β) → Prop
  | start {s : State ν κ β} : s.Empty → Run s fun _ => none
  | call {s s' : State ν κ β} {m : κ → Option β} {c : Call ν κ β} {r : Answer ν} :
      Run s m → c.Legal s → s.call c = some (s', r) → Run s' (c.onMap s m)

end MinStd.AvlTree
