import MinStd.CharConv
import MinStd.Sampler
import MinStd.Words
import Mathlib.Data.Int.ConditionallyCompleteOrder

/-!
# `uniform_int_distribution`

The distribution draws a value up to the length of its interval in 64-bit words, and adds it to the
interval's start in the unsigned type of the result.
-/

namespace MinStd.UniformInt

open CharConv (IntType toSigned)

/-- A `uniform_random_bit_generator`: what it puts out are the values from `min` to `max`. -/
structure Engine where
  min : ℤ
  max : ℤ
  min_lt_max : min < max
  max_lt : max < min + WORD64

abbrev Engine.Output (G : Engine) := Set.Icc G.min G.max

/-- `static_cast<engine_result_type>`. -/
def cast64 (z : ℤ) : ℕ := (z % WORD64).toNat

section Draw

variable (G : Engine)

def engineRange : ℕ := sub64 (cast64 G.max) (cast64 G.min)

def engineValues : ℕ := add64 (engineRange G) 1

def raw : Sampler G.Output ℕ := do
  let g ← Sampler.next
  return sub64 (cast64 g) (cast64 G.min)

/-- What a turn of the loop over one output accepts. -/
def narrowed (range value : ℕ) : Option ℕ :=
  let rangePlusOne := add64 range 1
  let threshold := sub64 (engineRange G) range % rangePlusOne
  if value < threshold then none else some (value % rangePlusOne)

/-- What a turn of the loop over combined outputs accepts. -/
def combined (range part value : ℕ) : Option ℕ :=
  let high := mul64 (engineValues G) part
  let value := add64 high value
  if range < value ∨ value < high then none else some value

theorem engineRange_eq : (engineRange G : ℤ) = G.max - G.min := by
  have := G.min_lt_max
  have := G.max_lt
  unfold engineRange sub64 cast64 WORD64 at *
  omega

theorem engineRange_pos : 0 < engineRange G := by
  have := G.min_lt_max
  have := engineRange_eq G
  omega

theorem engineRange_lt : engineRange G < WORD64 := by
  unfold engineRange
  exact sub64_lt _ _

theorem engineValues_eq (h : engineRange G ≠ WORD64 - 1) :
    engineValues G = engineRange G + 1 := by
  have := engineRange_lt G
  rw [engineValues, add64_eq (by omega)]

theorem div_engineValues_lt {range : ℕ} (h : engineRange G < range)
    (hG : engineRange G ≠ WORD64 - 1) : range / engineValues G < range := by
  have := engineRange_pos G
  rw [engineValues_eq G hG]
  exact Nat.div_lt_self (by omega) (by omega)

def draw (range : ℕ) : Sampler G.Output ℕ :=
  if range = engineRange G then raw G
  else if range < engineRange G then
    Sampler.retry do
      let value ← raw G
      return narrowed G range value
  -- a full-width engine never gets here
  else if _ : engineRange G = WORD64 - 1 then raw G
  else
    Sampler.retry do
      let part ← draw (range / engineValues G)
      let value ← raw G
      return combined G range part value
termination_by range
decreasing_by exact div_engineValues_lt G (by omega) ‹_›

end Draw

/-- The cast to the unsigned type of the result type. -/
def toUnsigned (T : IntType) (z : ℤ) : ℕ := (z % 2 ^ T.width.bits).toNat

/-- The cast back. -/
def ofUnsigned (T : IntType) (n : ℕ) : ℤ := if T.signed then toSigned T.width n else n

def generate (G : Engine) (T : IntType) (a b : ℤ) : Sampler G.Output ℤ := do
  let range := (toUnsigned T b + 2 ^ T.width.bits - toUnsigned T a) % 2 ^ T.width.bits
  if range = 0 then return a
  let value ← draw G range
  return ofUnsigned T ((value % 2 ^ T.width.bits + toUnsigned T a) % 2 ^ T.width.bits)

/-! ### One round -/

/-- A turn of the loop in `draw`. -/
def turn (G : Engine) (range : ℕ) : Sampler G.Output (Option ℕ) :=
  if range < engineRange G then do
    let value ← raw G
    return narrowed G range value
  else do
    let part ← draw G (range / engineValues G)
    let value ← raw G
    return combined G range part value

/-- The outputs `draw` takes when no loop turns twice. -/
def roundLength (G : Engine) (range : ℕ) : ℕ :=
  if h : range ≤ engineRange G ∨ engineRange G = WORD64 - 1 then 1
  else roundLength G (range / engineValues G) + 1
termination_by range
decreasing_by exact div_engineValues_lt G (by omega) (by omega)

/-- The outputs a call takes when no loop turns twice. -/
def callLength (G : Engine) (a b : ℤ) : ℕ := if a = b then 0 else roundLength G (b - a).toNat

end MinStd.UniformInt
