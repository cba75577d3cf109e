import MinStd.CharConv
import Mathlib.Algebra.Order.Ring.Int

/-!
# Integer types

The conversions between the integer types of C++ and the arithmetic on their values.  Signed
arithmetic that leaves its type is undefined; unsigned arithmetic and every conversion wrap.
-/

namespace MinStd.CharConv.IntType

def int32 : IntType := ⟨.bits32, true⟩

def int64 : IntType := ⟨.bits64, true⟩

variable (T U : IntType)

/-- The type has the value. -/
def Fits (x : ℤ) : Prop := T.min ≤ x ∧ x ≤ T.max

instance (x : ℤ) : Decidable (T.Fits x) := inferInstanceAs (Decidable (_ ∧ _))

/-- A conversion to the type. -/
def cast (x : ℤ) : ℤ := (x - T.min) % 2 ^ T.width.bits + T.min

/-- The type that arithmetic on values of this one is done in. -/
def promote : IntType := if T.width.bits < 32 then int32 else T

/-- The usual arithmetic conversions. -/
def arithmetic : IntType :=
  if T.promote.width.bits = U.promote.width.bits then
    if T.promote.signed then U.promote else T.promote
  else if T.promote.width.bits < U.promote.width.bits then U.promote
  else T.promote

/-- The common type. -/
def common : IntType := if T = U then T else arithmetic T U

/-- What an operation in the type comes to, from its exact result. -/
def result (x : ℤ) : Option ℤ :=
  if T.Fits x then some x else if T.signed then none else some (T.cast x)

def add (x y : ℤ) : Option ℤ := T.promote.result (x + y)

def sub (x y : ℤ) : Option ℤ := T.promote.result (x - y)

def mul (x y : ℤ) : Option ℤ := T.promote.result (x * y)

/-- Division truncates, and is not defined where its result is not in the type. -/
def div (x y : ℤ) : Option ℤ :=
  if y = 0 ∨ ¬ T.promote.Fits (x.tdiv y) then none else some (x.tdiv y)

/-- The remainder is defined where the quotient is. -/
def mod (x y : ℤ) : Option ℤ :=
  if y = 0 ∨ ¬ T.promote.Fits (x.tdiv y) then none else some (x.tmod y)

variable {T U} {x y z : ℤ}

theorem fits_zero : T.Fits 0 := by
  rcases T with ⟨_ | _ | _ | _, _ | _⟩ <;> decide

theorem max_eq : T.max = T.min + 2 ^ T.width.bits - 1 := by
  rcases T with ⟨_ | _ | _ | _, _ | _⟩ <;> decide

theorem cast_eq (h : T.Fits x) : T.cast x = x := by
  rw [Fits, max_eq] at h
  rw [cast, Int.emod_eq_of_lt (by omega) (by omega)]
  omega

theorem result_eq (h : T.Fits x) : T.result x = some x := if_pos h

/-- A value between zero and one of the type is one of it. -/
theorem Fits.of_le (h : T.Fits x) (hle : 0 ≤ y ∧ y ≤ x ∨ x ≤ y ∧ y ≤ 0) : T.Fits y := by
  have hzero := fits_zero (T := T)
  unfold Fits at *
  omega

/-- What a multiple fits, the value fits. -/
theorem Fits.of_mul {n : ℤ} (h : T.Fits (x * n)) (hn : 0 < n) : T.Fits x := by
  refine h.of_le ?_
  rcases le_total 0 x with hx | hx
  · exact .inl ⟨hx, le_mul_of_one_le_right hx hn⟩
  · exact .inr ⟨mul_le_of_one_le_right hx hn, hx⟩

/-- Every value of `T` is one of `U`. -/
def Le (T U : IntType) : Prop := U.min ≤ T.min ∧ T.max ≤ U.max

instance (T U : IntType) : Decidable (T.Le U) := inferInstanceAs (Decidable (_ ∧ _))

theorem Fits.mono (h : T.Fits x) (hle : T.Le U) : U.Fits x :=
  ⟨hle.1.trans h.1, h.2.trans hle.2⟩

theorem le_promote : T.Le T.promote := by
  rcases T with ⟨_ | _ | _ | _, _ | _⟩ <;> decide

theorem add_eq (h : T.Fits (x + y)) : T.add x y = some (x + y) := result_eq (h.mono le_promote)

theorem sub_eq (h : T.Fits (x - y)) : T.sub x y = some (x - y) := result_eq (h.mono le_promote)

theorem mul_eq (h : T.Fits (x * y)) : T.mul x y = some (x * y) := result_eq (h.mono le_promote)

theorem div_eq (hy : y ≠ 0) (h : T.promote.Fits (x.tdiv y)) : T.div x y = some (x.tdiv y) :=
  if_neg (not_or.2 ⟨hy, not_not.2 h⟩)

theorem mod_eq (hy : y ≠ 0) (h : T.promote.Fits (x.tdiv y)) : T.mod x y = some (x.tmod y) :=
  if_neg (not_or.2 ⟨hy, not_not.2 h⟩)

theorem Fits.tdiv {n : ℤ} (h : T.Fits x) (hn : 0 < n) : T.Fits (x.tdiv n) := by
  have hle : (x.tdiv n).natAbs ≤ x.natAbs := Int.natAbs_tdiv_le_natAbs ..
  refine h.of_le ?_
  rcases le_total 0 x with hx | hx
  · have hnonneg := Int.tdiv_nonneg hx hn.le
    omega
  · have hneg := Int.tdiv_nonneg (neg_nonneg.2 hx) hn.le
    rw [Int.neg_tdiv] at hneg
    omega

/-- The remainder has the sign of the dividend and is no larger. -/
theorem Fits.tmod (h : T.Fits x) : T.Fits (x.tmod y) := by
  have hle : (x.tmod y).natAbs ≤ x.natAbs := by
    rw [Int.natAbs_tmod]
    exact Nat.mod_le _ _
  refine h.of_le ?_
  rcases le_total 0 x with hx | hx
  · have hnonneg := Int.tmod_nonneg y hx
    omega
  · have hneg := Int.tmod_nonneg y (neg_nonneg.2 hx)
    rw [Int.neg_tmod] at hneg
    omega

end MinStd.CharConv.IntType
