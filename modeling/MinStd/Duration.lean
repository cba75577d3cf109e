import MinStd.IntType
import Mathlib.Data.Rat.Defs

/-!
# Durations

A duration type has a representation and a period, the period being a `ratio` class; a duration is
its count.  The ratios are computed by the compiler, where an overflow is an error: what does not
compile, and what is undefined, is `none`.
-/

namespace MinStd.Chrono

open CharConv (IntType)

/-! ### Ratios -/

/-- A constant of the compiler's. -/
def constant (x : ℤ) : Option ℤ := if IntType.int64.Fits x then some x else none

def staticGcd (R1 R2 : ℤ) : ℤ :=
  if R2 = 0 then if R1 = 0 then 1 else R1 else staticGcd R2 (R1.tmod R2)
termination_by R2.natAbs
decreasing_by
  rw [Int.natAbs_tmod]
  exact Nat.mod_lt _ (by omega)

def staticLcm (R1 R2 : ℤ) : Option ℤ := constant (R1.tdiv (staticGcd R1 R2) * R2)

def staticAbs (R1 : ℤ) : ℤ := if R1 < 0 then -R1 else R1

def staticSign (R1 : ℤ) : ℤ := if R1 = 0 then 0 else if R1 < 0 then -1 else 1

/-- The class `ratio<Num, Denom>`. -/
structure Ratio where
  Num : ℤ
  Denom : ℤ
  deriving DecidableEq

namespace Ratio

variable (R : Ratio)

def gcd : ℤ := staticGcd (staticAbs R.Num) (staticAbs R.Denom)

def num : ℤ := (staticSign R.Num * staticSign R.Denom * staticAbs R.Num).tdiv R.gcd

def den : ℤ := (staticAbs R.Denom).tdiv R.gcd

/-- The class compiles. -/
structure Compiles : Prop where
  num : IntType.int64.Fits R.Num ∧ IntType.int64.Fits (staticAbs R.Num)
  den : IntType.int64.Fits R.Denom ∧ IntType.int64.Fits (staticAbs R.Denom)
  ne_zero : R.Denom ≠ 0

instance : Decidable R.Compiles :=
  decidable_of_iff (_ ∧ _ ∧ _) ⟨fun h => ⟨h.1, h.2.1, h.2.2⟩, fun h => ⟨h.num, h.den, h.ne_zero⟩⟩

end Ratio

def ratio (Num Denom : ℤ) : Option Ratio :=
  if (Ratio.mk Num Denom).Compiles then some ⟨Num, Denom⟩ else none

/-- `ratio<Num, Denom>::type`. -/
def ratioType (Num Denom : ℤ) : Option Ratio := (ratio Num Denom).bind fun R => ratio R.num R.den

/-- `ratio_divide<R1, R2>::type`. -/
def ratioDivide (R1 R2 : Ratio) : Option Ratio := do
  let num ← constant (R1.num * R2.den)
  let den ← constant (R1.den * R2.num)
  ratioType num den

/-! ### Durations -/

/-- The class `duration<Rep, Period>`. -/
structure Duration where
  rep : IntType
  period : Ratio
  deriving DecidableEq

/-- `common_type` of two durations. -/
def commonType (D₁ D₂ : Duration) : Option Duration := do
  let den ← staticLcm D₁.period.den D₂.period.den
  let period ← ratioType (staticGcd D₁.period.num D₂.period.num) den
  return ⟨D₁.rep.common D₂.rep, period⟩

/-- The type in which `duration_cast` computes. -/
def castType (FromDuration ToDuration : Duration) : IntType :=
  (ToDuration.rep.common FromDuration.rep).common .int64

/-- The four specialisations of `__duration_cast`. -/
def durationCastBy (Ct : IntType) (Period : Ratio) (count : ℤ) : Option ℤ :=
  match decide (Period.num = 1), decide (Period.den = 1) with
  | true, true => some count
  | true, false => Ct.div (Ct.cast count) (Ct.cast Period.den)
  | false, true => Ct.mul (Ct.cast count) (Ct.cast Period.num)
  | false, false =>
    (Ct.mul (Ct.cast count) (Ct.cast Period.num)).bind fun product =>
      Ct.div product (Ct.cast Period.den)

def durationCast (FromDuration ToDuration : Duration) (count : ℤ) : Option ℤ := do
  let Period ← ratioDivide FromDuration.period ToDuration.period
  let result ← durationCastBy (castType FromDuration ToDuration) Period count
  return ToDuration.rep.cast result

/-- The constructor from another duration, which the same class only copies. -/
def convert (FromDuration ToDuration : Duration) (count : ℤ) : Option ℤ :=
  if FromDuration = ToDuration then some count
  else
    (ratioDivide FromDuration.period ToDuration.period).bind fun R =>
      if R.den = 1 then durationCast FromDuration ToDuration count else none

section Operators

variable (D₁ D₂ : Duration) (lhs rhs : ℤ)

/-- Both operands in their common type. -/
def toCommon : Option (Duration × ℤ × ℤ) := do
  let Cd ← commonType D₁ D₂
  let lhs ← convert D₁ Cd lhs
  let rhs ← convert D₂ Cd rhs
  return (Cd, lhs, rhs)

/-- `==`, on the counts alone where the classes are the same. -/
def eq : Option Bool :=
  if D₁ = D₂ then some (lhs = rhs)
  else (toCommon D₁ D₂ lhs rhs).map fun p => p.2.1 = p.2.2

/-- `<`, on the counts alone where the classes are the same. -/
def lt : Option Bool :=
  if D₁ = D₂ then some (lhs < rhs)
  else (toCommon D₁ D₂ lhs rhs).map fun p => p.2.1 < p.2.2

def add : Option ℤ := do
  let (Cd, lhs, rhs) ← toCommon D₁ D₂ lhs rhs
  let sum ← Cd.rep.add lhs rhs
  return Cd.rep.cast sum

def sub : Option ℤ := do
  let (Cd, lhs, rhs) ← toCommon D₁ D₂ lhs rhs
  let difference ← Cd.rep.sub lhs rhs
  return Cd.rep.cast difference

/-- The quotient of two durations is a number. -/
def div : Option ℤ := do
  let (Cd, lhs, rhs) ← toCommon D₁ D₂ lhs rhs
  let quotient ← Cd.rep.div lhs rhs
  return Cd.rep.cast quotient

def mod : Option ℤ := do
  let (Cd, lhs, rhs) ← toCommon D₁ D₂ lhs rhs
  let remainder ← Cd.rep.mod (Cd.rep.cast lhs) (Cd.rep.cast rhs)
  return Cd.rep.cast remainder

end Operators

/-! ### What they stand for -/

/-- A period that a duration may have. -/
structure Ratio.IsPeriod (R : Ratio) : Prop where
  compiles : R.Compiles
  pos : 0 < R.num

def Ratio.value (R : Ratio) : ℚ := R.num / R.den

/-- The time that a count is. -/
def Duration.value (D : Duration) (count : ℤ) : ℚ := count * D.period.value

end MinStd.Chrono
