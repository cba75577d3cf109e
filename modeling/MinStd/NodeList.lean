import MinStd.LruCache

/-!
# The list

The rest of `list`: what it does at its back and in its middle, and where the allocator has no node.
The reference sequence is a list of the nodes with their values, so it also says which nodes stay.
-/

namespace MinStd.LruCache.NodeList

variable {ν ε : Type*} [DecidableEq ν] (s : NodeList ν ε)

/-- `node(next, prev, element)`, in the memory `a`. -/
def construct (a : ν) (next prev : Option ν) (e : ε) : NodeList ν ε where
  toTwoWay := (s.setLink .right a next).setLink .left a prev
  element := Function.update s.element a e
  size := s.size
  live := insert a s.live

/-- `none` where a null `front_` is followed. -/
def emplaceBack (a : ν) (e : ε) : Option (NodeList ν ε) :=
  let s' := s.construct a none (s.tip .right) e
  let linked :=
    match s'.tip .right with
    | none => some s'.toTwoWay
    | some b =>
      let t := s'.setLink .right b (some a)
      -- a back without a previous node is the front
      if t.link .left b = none then (t.tip .left).map fun f => t.setLink .right f (some a)
      else some t
  linked.map fun t =>
    let t := t.setTip .right (some a)
    { s' with
      toTwoWay := if t.tip .left = none then t.setTip .left (some a) else t
      size := s.size + 1 }

/-- `insert_after` and `emplace_after`, once the node is allocated. -/
def emplaceAfter (pos a : ν) (e : ε) : NodeList ν ε :=
  let s' := s.construct a (s.link .right pos) (some pos) e
  let t := s'.setLink .right pos (some a)
  { s' with
    toTwoWay :=
      match t.link .right a with
      | none => t.setTip .right (some a)
      | some n => t.setLink .left n (some a)
    size := s.size + 1 }

def eraseAfter (pos : ν) : NodeList ν ε :=
  match s.link .right pos with
  | none => s
  | some n =>
    let t := s.setLink .right pos (s.link .right n)
    s.destroy n
      (match t.link .right pos with
      | none => t.setTip .right (some pos)
      | some m => t.setLink .left m (some pos))

/-- A call, with the iterator it is given and what the allocator returns.  `emplace_front` and
`emplace_back` trap without a node. -/
inductive Call (ν ε : Type*)
  | pushFront (alloc : Option ν) (e : ε)
  | pushBack (alloc : Option ν) (e : ε)
  | emplaceFront (a : ν) (e : ε)
  | emplaceBack (a : ν) (e : ε)
  | insertAfter (pos : ν) (alloc : Option ν) (e : ε)
  | emplaceAfter (pos : ν) (alloc : Option ν) (e : ε)
  | erase (pos : ν)
  | eraseAfter (pos : ν)
  | moveFront (pos : Option ν)
  | popFront
  | popBack
  | clear

def call : Call ν ε → Option (NodeList ν ε)
  | .pushFront none _ => some s
  | .pushFront (some a) e => some (s.emplaceFront a e)
  | .pushBack none _ => some s
  | .pushBack (some a) e => s.emplaceBack a e
  | .emplaceFront a e => some (s.emplaceFront a e)
  | .emplaceBack a e => s.emplaceBack a e
  | .insertAfter _ none _ => some s
  | .insertAfter pos (some a) e => some (s.emplaceAfter pos a e)
  | .emplaceAfter _ none _ => some s
  | .emplaceAfter pos (some a) e => some (s.emplaceAfter pos a e)
  | .erase pos => some (s.erase pos)
  | .eraseAfter pos => some (s.eraseAfter pos)
  | .moveFront pos => s.moveFront pos
  | .popFront => some s.popFront
  | .popBack => some s.popBack
  | .clear => s.clear

/-- The node that the allocator returns. -/
def Call.alloc? : Call ν ε → Option ν
  | .pushFront alloc _ => alloc
  | .pushBack alloc _ => alloc
  | .emplaceFront a _ => some a
  | .emplaceBack a _ => some a
  | .insertAfter _ alloc _ => alloc
  | .emplaceAfter _ alloc _ => alloc
  | _ => none

/-- The node of the iterator given. -/
def Call.pos? : Call ν ε → Option ν
  | .insertAfter pos _ _ => some pos
  | .emplaceAfter pos _ _ => some pos
  | .erase pos => some pos
  | .eraseAfter pos => some pos
  | .moveFront pos => pos
  | _ => none

/-- The allocator returns memory that is not in use, and an iterator is of a node that is. -/
structure Call.Legal (c : Call ν ε) : Prop where
  alloc : ∀ a, c.alloc? = some a → a ∉ s.live
  pos : ∀ a, c.pos? = some a → a ∈ s.live

/-! ### The reference sequence -/

namespace Sequence

/-- `x` put after the node. -/
def insertAfter (pos : ν) (x : ν × ε) : List (ν × ε) → List (ν × ε)
  | [] => []
  | y :: l => if y.1 = pos then y :: x :: l else y :: insertAfter pos x l

def erase (pos : ν) (l : List (ν × ε)) : List (ν × ε) := l.filter fun y => y.1 ≠ pos

/-- What follows the node taken out. -/
def eraseAfter (pos : ν) : List (ν × ε) → List (ν × ε)
  | [] => []
  | y :: l => if y.1 = pos then y :: l.tail else y :: eraseAfter pos l

def moveFront (pos : ν) (l : List (ν × ε)) : List (ν × ε) :=
  (l.filter fun y => y.1 = pos) ++ l.filter fun y => y.1 ≠ pos

end Sequence

def Call.reference (l : List (ν × ε)) : Call ν ε → List (ν × ε)
  | .pushFront none _ => l
  | .pushFront (some a) e => (a, e) :: l
  | .pushBack none _ => l
  | .pushBack (some a) e => l ++ [(a, e)]
  | .emplaceFront a e => (a, e) :: l
  | .emplaceBack a e => l ++ [(a, e)]
  | .insertAfter _ none _ => l
  | .insertAfter pos (some a) e => Sequence.insertAfter pos (a, e) l
  | .emplaceAfter _ none _ => l
  | .emplaceAfter pos (some a) e => Sequence.insertAfter pos (a, e) l
  | .erase pos => Sequence.erase pos l
  | .eraseAfter pos => Sequence.eraseAfter pos l
  | .moveFront none => l
  | .moveFront (some pos) => Sequence.moveFront pos l
  | .popFront => l.tail
  | .popBack => l.dropLast
  | .clear => []

/-- A new list. -/
structure Empty : Prop where
  tip : ∀ d, s.tip d = none
  size : s.size = 0
  live : s.live = ∅

/-- The calls made on a new list, and the reference sequence after them. -/
inductive Run : NodeList ν ε → List (ν × ε) → Prop
  | start {s : NodeList ν ε} : s.Empty → Run s []
  | call {s s' : NodeList ν ε} {l : List (ν × ε)} {c : Call ν ε} :
      Run s l → c.Legal s → s.call c = some s' → Run s' (c.reference l)

end MinStd.LruCache.NodeList
