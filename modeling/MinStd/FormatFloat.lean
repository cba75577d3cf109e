import MinStd.FormatPadding

/-!
# Writing floating point numbers

Below 2⁶⁴ the decimals of a number come from its fraction alone, which is `m` of 2ᵉ parts: it is
scaled by a power of ten in 128-bit integers and rounded.  A fraction is its 64-bit pattern, taken
apart into `m` and `e`.
-/

namespace MinStd.FormatSpec

open CharConv FormatNumber

def WORD128 : ℕ := 2 ^ 128

def pow10 : List ℕ :=
  [1, 10, 100, 1000, 10000, 100000, 1000000, 10000000, 100000000, 1000000000, 10000000000,
    100000000000, 1000000000000, 10000000000000, 100000000000000, 1000000000000000,
    10000000000000000, 100000000000000000, 1000000000000000000, 10000000000000000000]

/-- `m` and `e` of the fraction a bit pattern stands for. -/
def decompose (bits : ℕ) : ℕ × ℕ :=
  let biasedExponent := (bits >>> 52) &&& 0x7FF
  if biasedExponent = 0 then (bits &&& (1 <<< 52 - 1), 1074)
  else ((bits &&& (1 <<< 52 - 1)) ||| 1 <<< 52, 1075 - biasedExponent)

/-- The decimals of the fraction, and whether to round them up. -/
def scaledFraction (units m e computedDigits : ℕ) : ℕ × Bool :=
  if m = 0 then (0, false)
  else if e < 128 then
    let product := m * pow10.getD computedDigits 0 % WORD128
    let one := 1 <<< e % WORD128
    let remainder := product &&& ((one + WORD128 - 1) % WORD128)
    let half := one >>> 1
    let decimals := (product >>> e) % WORD64
    let lastDigit := if 0 < computedDigits then decimals else units
    (decimals, half < remainder ∨ remainder = half ∧ lastDigit &&& 1 ≠ 0)
  -- far below one half: rounds to zero
  else (0, false)

/-- The units and the decimals to print. -/
def roundedParts (units m e computedDigits : ℕ) : ℕ × ℕ :=
  let (decimals, roundUp) := scaledFraction units m e computedDigits
  if roundUp then
    if add64 decimals 1 = pow10.getD computedDigits 0 then (add64 units 1, 0)
    else (units, add64 decimals 1)
  else (units, decimals)

/-- The loop over the decimals, from the first. -/
def pushDecimals (number : NumericText) (decimals : ℕ) : ℕ → NumericText
  | 0 => number
  | i + 1 => pushDecimals
      (number.pushBack (Char.ofNat ('0'.toNat + decimals / pow10.getD i 0 % 10))) decimals i

def floatNumber (isNegative : Bool) (units m e : ℕ) (format : FormatOptions) :
    Option NumericText :=
  let precision := format.precision.getD 0
  let computedDigits := min precision 19
  let (units, decimals) := roundedParts units m e computedDigits
  let number : NumericText :=
    ⟨determineSign isNegative format.toArgFormatOptions, [], [], 0, 0, 0, true⟩
  (appendDigits number units 10 LOWER_CASE_NUMERIC_CONVERSION_DIGITS).map fun number =>
    if 0 < precision then
      let number := { number with fraction_start := number.digits.length }
      let number := pushDecimals (number.pushBack '.') decimals computedDigits
      { number with trailing_zeros := precision - computedDigits }
    else number

/-- `FloatToString` of a finite number below 2⁶⁴, of these units and `m` of 2ᵉ parts. -/
def floatToString (buffer : StringBuffer) (isNegative : Bool) (units m e : ℕ)
    (format : FormatOptions) : Option StringBuffer :=
  (floatNumber isNegative units m e format).map fun number =>
    emitNumber buffer number format.toArgFormatOptions

end MinStd.FormatSpec
