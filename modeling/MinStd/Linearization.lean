import Mathlib.Logic.Function.Basic
import Mathlib.Data.List.Basic

/-!
# Linearizability

A sequential object says which result an operation may give on a value and which value it leaves.
The atomic object lets any number of callers use it at once: a call is made, takes effect in one
instant, and returns the result it had there.  A history of calls and returns is linearizable when
the atomic object has it too, so that every call that returned took effect at an instant of its own
between its call and its return, and the effects in the order of these instants are a run of the
sequential object.
-/

namespace MinStd

open Function

variable {τ ω ρ ν : Type*} [DecidableEq τ]

/-- What a caller `τ` sees of an object with operations `ω` and results `ρ`. -/
inductive Event (τ ω ρ : Type*)
  | call (t : τ) (op : ω)
  | ret (t : τ) (res : ρ)

/-- The first value, and the results and next values an operation may have on a value. -/
structure SequentialObject (ω ρ ν : Type*) where
  start : ν
  Takes : ω → ν → ρ → ν → Prop

/-- How far a caller's operation is. -/
inductive Stage (ω ρ : Type*)
  | idle
  | called (op : ω)
  | taken (res : ρ)

namespace SequentialObject

variable (O : SequentialObject ω ρ ν)

/-- The histories of the atomic object, with its callers' stages and its value after them. -/
inductive Atomic : List (Event τ ω ρ) → (τ → Stage ω ρ) → ν → Prop
  | start : Atomic [] (fun _ => .idle) O.start
  | call {h p v t} (op : ω) : Atomic h p v → p t = .idle →
      Atomic (h ++ [.call t op]) (update p t (.called op)) v
  | take {h p v t op res v'} : Atomic h p v → p t = .called op → O.Takes op v res v' →
      Atomic h (update p t (.taken res)) v'
  | ret {h p v t res} : Atomic h p v → p t = .taken res →
      Atomic (h ++ [.ret t res]) (update p t .idle) v

variable {O} {h : List (Event τ ω ρ)} {p : τ → Stage ω ρ} {v v' : ν} {t : τ} {op : ω} {res : ρ}

/-- The call takes effect in the step that makes it. -/
theorem Atomic.call_take (ha : O.Atomic h p v) (ht : p t = .idle) (hv : O.Takes op v res v') :
    O.Atomic (h ++ [.call t op]) (update p t (.taken res)) v' := by
  have := (ha.call op ht).take (update_self ..) hv
  rwa [update_idem] at this

end SequentialObject

end MinStd
