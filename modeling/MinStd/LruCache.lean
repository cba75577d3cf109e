import MinStd.AvlTree
import MinStd.TwoWayList
import MinStd.Words

/-!
# The cache of the most recently used

`lru_cache` keeps its entries in a list, the most recently used first, and an `avl_tree` from the
keys to iterators of that list.  An addition makes room by dropping the last entry of the list, and
is taken back where the tree gets no node.

An iterator of the list is its node, or none at the end.  `next_` and `prev_` are a node's links to
the right and to the left, `front_` and `back_` the list's tips.  An addition reads its arguments
again after it has made room, and does nothing that is defined where they are gone by then.
-/

namespace MinStd.LruCache

/-- The nodes of `list`, what they hold, and, for the record, which are allocated. -/
structure NodeList (ν ε : Type*) extends TwoWay ν where
  element : ν → ε
  size : ℕ
  live : Finset ν

namespace NodeList

variable {ν ε : Type*} [DecidableEq ν] (s : NodeList ν ε)

/-- `destroy` and `deallocate`, once the node is unlinked. -/
def destroy (a : ν) (links : TwoWay ν) : NodeList ν ε where
  toTwoWay := links
  element := s.element
  size := s.size - 1
  live := s.live.erase a

/-- `a` is the node that the allocator returns. -/
def emplaceFront (a : ν) (e : ε) : NodeList ν ε where
  toTwoWay := s.push .left a
  element := Function.update s.element a e
  size := s.size + 1
  live := insert a s.live

def popFront : NodeList ν ε :=
  match s.tip .left with
  | none => s
  | some a => s.destroy a (s.pop .left)

def popBack : NodeList ν ε :=
  match s.tip .right with
  | none => s
  | some a => s.destroy a (s.pop .right)

def erase (a : ν) : NodeList ν ε := s.destroy a (s.unlink .left a)

/-- The node before it is linked past it, then it is linked before the front. -/
def moveFront : Option ν → Option (NodeList ν ε)
  | none => some s
  | some a =>
    if s.link .left a = none then some s
    else
      let u := s.unlink .left a
      (u.tip .left).map fun f =>
        { s with
          toTwoWay := (((u.setLink .right a (some f)).setLink .left a none).setLink .left f
            (some a)).setTip .left (some a) }

/-- The loop of `clear`, which frees the nodes. -/
def clearLoop : ℕ → Option ν → Finset ν → Option (Finset ν)
  | _, none, live => some live
  | 0, some _, _ => none
  | fuel + 1, some a, live => clearLoop fuel (s.link .right a) (live.erase a)

def clear : Option (NodeList ν ε) :=
  (s.clearLoop s.size (s.tip .left) s.live).map fun live =>
    { s with tip := fun _ => none, size := 0, live := live }

end NodeList

/-- An argument passed by reference: to an object of the caller's, or to a part of an entry. -/
inductive Arg (ν ε γ : Type*)
  | outside (v : γ)
  | inside (a : ν) (part : ε → γ)

namespace Arg

variable {ν ε γ : Type*} [DecidableEq ν]

def Inside (a : ν) : Arg ν ε γ → Prop
  | .outside _ => False
  | .inside b _ => b = a

/-- What is read, if the entry is still there. -/
def read (s : NodeList ν ε) : Arg ν ε γ → Option γ
  | .outside v => some v
  | .inside a part => if a ∈ s.live then some (part (s.element a)) else none

end Arg

variable {ν μ κ β : Type*} [DecidableEq ν] [DecidableEq μ] [LinearOrder κ]

structure State (ν μ κ β : Type*) where
  cacheEntries : NodeList ν (κ × β)
  cacheEntryMap : AvlTree.State μ κ (Option ν)
  maxCacheSize : ℕ
  cacheHits : ℕ
  cacheMisses : ℕ

namespace State

variable (s : State ν μ κ β)

def insureSpaceExists : Option (State ν μ κ β) :=
  if s.maxCacheSize ≤ s.cacheEntries.size then
    (s.cacheEntries.tip .right).bind fun b =>
      (s.cacheEntryMap.eraseKey (s.cacheEntries.element b).1).map fun r =>
        { s with cacheEntryMap := r.1, cacheEntries := s.cacheEntries.popBack }
  else some s

/-- `a` is the list's new node, and `alloc` what the tree's allocator returns. -/
def add (k : Arg ν (κ × β) κ) (v : Arg ν (κ × β) β) (a : ν) (alloc : Option μ) :
    Option (State ν μ κ β × Bool) :=
  if s.maxCacheSize = 0 then some (s, false)
  else (k.read s.cacheEntries).bind fun key => (s.cacheEntryMap.find key).bind fun e =>
    if e ≠ none then some (s, false)
    else s.insureSpaceExists.bind fun s =>
      (k.read s.cacheEntries).bind fun key => (v.read s.cacheEntries).bind fun value =>
        let entries := s.cacheEntries.emplaceFront a (key, value)
        (k.read entries).bind fun key =>
          (s.cacheEntryMap.insertValue key (entries.tip .left) alloc).map fun r =>
            if r.2.2 = false then
              ({ s with cacheEntries := entries.popFront, cacheEntryMap := r.1 }, false)
            else ({ s with cacheEntries := entries, cacheEntryMap := r.1 }, true)

/-- The value found. -/
def find (k : κ) : Option (State ν μ κ β × Option β) :=
  (s.cacheEntryMap.find k).bind fun e =>
    match e with
    | none => some ({ s with cacheMisses := add64 s.cacheMisses 1 }, none)
    | some b => (s.cacheEntryMap.value b).bind fun a =>
      (s.cacheEntries.moveFront (some a)).map fun entries =>
        ({ s with cacheEntries := entries, cacheHits := add64 s.cacheHits 1 },
          some (s.cacheEntries.element a).2)

def remove (k : κ) : Option (State ν μ κ β × Bool) :=
  (s.cacheEntryMap.find k).bind fun e =>
    match e with
    | none => some (s, false)
    | some b => (s.cacheEntryMap.value b).bind fun a =>
      (s.cacheEntryMap.eraseAt (some b)).map fun r =>
        ({ s with cacheEntries := s.cacheEntries.erase a, cacheEntryMap := r.1 }, true)

def clear : Option (State ν μ κ β) :=
  s.cacheEntries.clear.bind fun entries => s.cacheEntryMap.clear.map fun map =>
    { s with cacheEntries := entries, cacheEntryMap := map }

/-- An empty cache, as constructed. -/
structure Empty : Prop where
  tip : ∀ d, s.cacheEntries.tip d = none
  size : s.cacheEntries.size = 0
  live : s.cacheEntries.live = ∅
  map : s.cacheEntryMap.Empty

end State

/-! ### The reference cache -/

namespace Reference

/-- The entries, the most recently used first.  `ok` tells whether the entry can be stored. -/
def add (size : ℕ) (k : κ) (v : β) (ok : Bool) (l : List (κ × β)) : List (κ × β) × Bool :=
  if size = 0 then (l, false)
  else if k ∈ l.map Prod.fst then (l, false)
  else
    let l := if size ≤ l.length then l.dropLast else l
    if ok then ((k, v) :: l, true) else (l, false)

def find (k : κ) (l : List (κ × β)) : List (κ × β) × Option β :=
  match l.find? fun e => e.1 = k with
  | none => (l, none)
  | some e => (e :: l.filter fun e => e.1 ≠ k, some e.2)

def remove (k : κ) (l : List (κ × β)) : List (κ × β) × Bool :=
  (l.filter fun e => e.1 ≠ k, decide (k ∈ l.map Prod.fst))

end Reference

inductive Call (ν μ κ β : Type*)
  | add (k : Arg ν (κ × β) κ) (v : Arg ν (κ × β) β) (a : ν) (alloc : Option μ)
  | find (k : κ)
  | remove (k : κ)
  | clear

inductive Answer (β : Type*)
  | added (b : Bool)
  | found (v : Option β)
  | removed (b : Bool)
  | cleared

def State.call (s : State ν μ κ β) : Call ν μ κ β → Option (State ν μ κ β × Answer β)
  | .add k v a alloc => (s.add k v a alloc).map fun r => (r.1, .added r.2)
  | .find k => (s.find k).map fun r => (r.1, .found r.2)
  | .remove k => (s.remove k).map fun r => (r.1, .removed r.2)
  | .clear => s.clear.map fun s' => (s', .cleared)

/-- The key is not in the cache, so that it is made room for. -/
def State.Adds (s : State ν μ κ β) (k : Arg ν (κ × β) κ) : Prop :=
  s.maxCacheSize ≠ 0
    ∧ ∃ key, k.read s.cacheEntries = some key ∧ s.cacheEntryMap.find key = some none

/-- Arguments are there when the call is made, and where nodes are allocated, they are none that
are in use then. -/
def Call.Legal (s : State ν μ κ β) : Call ν μ κ β → Prop
  | .add k v a alloc =>
    (k.read s.cacheEntries).isSome ∧ (v.read s.cacheEntries).isSome ∧
      (s.Adds k → ∀ s', s.insureSpaceExists = some s' →
        a ∉ s'.cacheEntries.live ∧ ∀ b, alloc = some b → b ∉ s'.cacheEntryMap.live)
  | _ => True

/-- The entry that an addition drops has none of its arguments in it. -/
def Call.Spares (s : State ν μ κ β) : Call ν μ κ β → Prop
  | .add k v _ _ =>
    s.Adds k → s.maxCacheSize ≤ s.cacheEntries.size →
      ∀ a, s.cacheEntries.tip .right = some a → ¬ k.Inside a ∧ ¬ v.Inside a
  | _ => True

/-- What the reference cache does with the values of the arguments. -/
def Call.reference (s : State ν μ κ β) (l : List (κ × β)) :
    Call ν μ κ β → List (κ × β) × Answer β
  | .add k v _ alloc =>
    match k.read s.cacheEntries, v.read s.cacheEntries with
    | some key, some value =>
      ((Reference.add s.maxCacheSize key value alloc.isSome l).1,
        .added (Reference.add s.maxCacheSize key value alloc.isSome l).2)
    | _, _ => (l, .added false)
  | .find k => ((Reference.find k l).1, .found (Reference.find k l).2)
  | .remove k => ((Reference.remove k l).1, .removed (Reference.remove k l).2)
  | .clear => ([], .cleared)

/-- The calls made on an empty cache, and the reference cache after them. -/
inductive Run : State ν μ κ β → List (κ × β) → Prop
  | start {s : State ν μ κ β} : s.Empty → Run s []
  | call {s s' : State ν μ κ β} {l : List (κ × β)} {c : Call ν μ κ β} {r : Answer β} :
      Run s l → c.Legal s → c.Spares s → s.call c = some (s', r) → Run s' (c.reference s l).1

end MinStd.LruCache
