import MinStd.CharConv
import MinStd.StringBuffer

/-!
# Writing integers

A number is rendered most significant character first into a `numeric_text`, from the digits of its
magnitude taken least significant first, and then emitted with its sign, its prefix and its fill.
-/

namespace MinStd.FormatNumber

open CharConv

inductive Align
  | left
  | right
  | center
  deriving DecidableEq

inductive SignTreatment
  | always_plus
  | minus
  | space
  deriving DecidableEq

/-- The parts of a format specification that are given. -/
structure ArgFormatOptions where
  width : Option ℕ
  fill : Option Char
  alignment : Option Align
  alt : Option Bool
  sign : Option SignTreatment
  zero_fill : Option Bool
  type_specifier : Option Char
  integer_base : Option ℕ

namespace ArgFormatOptions

variable (format : ArgFormatOptions)

def isRightAligned : Bool := format.alignment == some .right

def isCenterAligned : Bool := format.alignment == some .center

def isAlt : Bool := format.alt == some true

def isZeroFill : Bool := format.zero_fill == some true

end ArgFormatOptions

def CAPACITY : ℕ := 80

structure NumericText where
  sign : List Char
  pre : List Char
  digits : List Char
  fraction_start : ℕ
  integer_zeros : ℕ
  trailing_zeros : ℕ
  finite : Bool

def NumericText.pushBack (number : NumericText) (c : Char) : NumericText :=
  if number.digits.length < CAPACITY then { number with digits := number.digits ++ [c] } else number

def integerPrefix (format : ArgFormatOptions) (valueIsZero : Bool) : List Char :=
  if format.isAlt then
    match format.type_specifier with
    | some 'b' => ['0', 'b']
    | some 'B' => ['0', 'B']
    | some 'o' => if valueIsZero then [] else ['0']
    | some 'x' => ['0', 'x']
    | some 'X' => ['0', 'X']
    | _ => []
  else []

def determineSign (isNegative : Bool) (format : ArgFormatOptions) : List Char :=
  if isNegative then ['-']
  else
    match format.sign with
    | some .always_plus => ['+']
    | some .space => [' ']
    | _ => []

/-- The loop of `AppendRepeated`, which stops where the buffer does not grow. -/
def repeatLoop (buffer : StringBuffer) (c : Char) : ℕ → StringBuffer
  | 0 => buffer
  | i + 1 =>
    if (buffer.pushBack c).size = buffer.size then buffer.pushBack c
    else repeatLoop (buffer.pushBack c) c i

def appendRepeated (buffer : StringBuffer) (c : Char) (count : ℕ) : StringBuffer :=
  repeatLoop buffer c (min count (buffer.max_size - buffer.size))

/-- The fill before the number, the zeros after its sign, and the fill after it. -/
def fills (number : NumericText) (format : ArgFormatOptions) (numberLength : ℕ) : ℕ × ℕ × ℕ :=
  match format.width with
  | none => (0, 0, 0)
  | some width =>
    if numberLength < width then
      let fillCount := width - numberLength
      if format.isZeroFill ∧ number.finite then (0, fillCount, 0)
      else if format.isZeroFill ∨ format.isRightAligned then (fillCount, 0, 0)
      else if format.isCenterAligned then (fillCount / 2, 0, fillCount - fillCount / 2)
      else (0, 0, fillCount)
    else (0, 0, 0)

def emitNumber (buffer : StringBuffer) (number : NumericText) (format : ArgFormatOptions) :
    StringBuffer :=
  let numberLength := number.sign.length + number.pre.length + number.digits.length
    + number.integer_zeros + number.trailing_zeros
  let fill := if format.isZeroFill then ' ' else format.fill.getD ' '
  let fractionStart :=
    if 0 < number.fraction_start then number.fraction_start else number.digits.length
  let (fillBefore, zeroFill, fillAfter) := fills number format numberLength
  let buffer := appendRepeated buffer fill fillBefore
  let buffer := (buffer.append number.sign).append number.pre
  let buffer := appendRepeated buffer '0' zeroFill
  let buffer := buffer.pushAll (number.digits.take fractionStart)
  let buffer := appendRepeated buffer '0' number.integer_zeros
  let buffer := buffer.pushAll (number.digits.drop fractionStart)
  let buffer := appendRepeated buffer '0' number.trailing_zeros
  appendRepeated buffer fill fillAfter

/-- The digits of a value, the last first, or `none` where they overflow the array of `slots`. -/
def reversedDigits (table : List Char) (base : ℕ) : ℕ → ℕ → Option (List Char)
  | 0, _ => none
  | slots + 1, value =>
    if value / base ≠ 0 then
      (reversedDigits table base slots (value / base)).map
        (table.getD (value % base) '\x00' :: ·)
    else some [table.getD (value % base) '\x00']

def appendDigits (number : NumericText) (value base : ℕ) (table : List Char) :
    Option NumericText :=
  (reversedDigits table base 64 value).map fun reversed =>
    reversed.reverse.foldl NumericText.pushBack number

def unsignedMagnitudeToString (buffer : StringBuffer) (magnitude : ℕ) (isNegative : Bool)
    (format : ArgFormatOptions) : Option StringBuffer :=
  match format.integer_base with
  | none => some (buffer.append "{Invalid base}".toList)
  | some base =>
    if base < 2 ∨ 36 < base then some (buffer.append "{Invalid base}".toList)
    else
      let table :=
        if format.type_specifier = some 'X' ∨ format.type_specifier = some 'B' then
          UPPER_CASE_NUMERIC_CONVERSION_DIGITS
        else LOWER_CASE_NUMERIC_CONVERSION_DIGITS
      let number : NumericText := ⟨determineSign isNegative format,
        integerPrefix format (magnitude == 0), [], 0, 0, 0, true⟩
      (appendDigits number magnitude base table).map fun number => emitNumber buffer number format

def unsignedIntToString (buffer : StringBuffer) (value : ℕ) (format : ArgFormatOptions) :
    Option StringBuffer :=
  unsignedMagnitudeToString buffer value false format

/-- The magnitude of a negative value is zero less its cast, in the unsigned type of the width. -/
def signedIntToString (w : Width) (buffer : StringBuffer) (value : ℤ)
    (format : ArgFormatOptions) : Option StringBuffer :=
  if value < 0 then
    unsignedMagnitudeToString buffer
      ((2 ^ w.bits - (value % 2 ^ w.bits).toNat) % 2 ^ w.bits) true format
  else unsignedMagnitudeToString buffer value.toNat false format

/-- `AppendInternal` of the integer types. -/
def appendInternal (T : IntType) (buffer : StringBuffer) (value : ℤ)
    (format : ArgFormatOptions) : Option StringBuffer :=
  if T.signed then signedIntToString T.width buffer value format
  else unsignedIntToString buffer value.toNat format

end MinStd.FormatNumber
