import Mathlib.Order.Lattice

/-!
# Sides

What a structure does on its left it does on its right, so it is said once, of a side and the other.
-/

namespace MinStd

/-- A side. -/
inductive Side
  | left
  | right
  deriving DecidableEq

def Side.other : Side → Side
  | .left => .right
  | .right => .left

@[simp] theorem Side.other_other (d : Side) : d.other.other = d := by cases d <;> rfl

theorem Side.ne_other (d : Side) : d ≠ d.other := by cases d <;> exact Side.noConfusion

theorem Side.eq_or_other (d e : Side) : e = d ∨ e = d.other := by
  cases d <;> cases e <;> simp [other]

/-- The first key is on this side of the second. -/
def Side.Before {κ : Type*} [LT κ] : Side → κ → κ → Prop
  | .left, k, k' => k < k'
  | .right, k, k' => k' < k

theorem Side.before_other {κ : Type*} [LT κ] (d : Side) {k k' : κ} :
    d.other.Before k k' ↔ d.Before k' k := by
  cases d <;> exact Iff.rfl

end MinStd
