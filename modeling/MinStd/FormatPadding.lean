import MinStd.FormatSpec

/-!
# Merged options and strings

The options a specification gives are completed from the defaults of the argument's type.  A string
is clipped to its precision and filled to its width.
-/

namespace MinStd.FormatSpec

open FormatNumber (Align SignTreatment appendRepeated)

namespace FormatOptions

def mergeDefaults (options defaults : FormatOptions) : FormatOptions where
  width := options.width.or defaults.width
  fill := options.fill.or defaults.fill
  alignment := options.alignment.or defaults.alignment
  alt := options.alt.or defaults.alt
  sign := options.sign.or defaults.sign
  zero_fill := options.zero_fill.or defaults.zero_fill
  type_specifier := options.type_specifier.or defaults.type_specifier
  integer_base := options.integer_base.or defaults.integer_base
  precision := options.precision.or defaults.precision

end FormatOptions

def DEFAULT_INTEGER_FORMAT : FormatOptions where
  width := none
  precision := none
  fill := some ' '
  alignment := some .right
  alt := none
  sign := some .minus
  zero_fill := none
  type_specifier := none
  integer_base := some 10

def DEFAULT_STRING_FORMAT : FormatOptions where
  width := none
  precision := none
  fill := some ' '
  alignment := some .left
  alt := none
  sign := none
  zero_fill := none
  type_specifier := none
  integer_base := none

def DEFAULT_POINTER_FORMAT : FormatOptions where
  width := some 18
  precision := none
  fill := some ' '
  alignment := some .left
  alt := some true
  sign := none
  zero_fill := some true
  type_specifier := some 'X'
  integer_base := some 16

/-- A precision on a string is the most characters to print. -/
def printedLength (options : FormatOptions) (length : ℕ) : ℕ :=
  match options.precision with
  | none => length
  | some precision => if precision < length then precision else length

/-- The fill before a string and after it. -/
def stringFills (options : FormatOptions) (length : ℕ) : ℕ × ℕ :=
  match options.width with
  | none => (0, 0)
  | some width =>
    if length < width then
      let fillCount := width - length
      match options.alignment with
      | none => (0, 0)
      | some .left => (0, fillCount)
      | some .right => (fillCount, 0)
      | some .center => (fillCount / 2, fillCount - fillCount / 2)
    else (0, 0)

/-- `none` where the fill is read and there is none. -/
def formattedStringAppend (buffer : StringBuffer) (value : List Char) (length : ℕ)
    (options : FormatOptions) : Option StringBuffer :=
  let length := printedLength options length
  let (fillBefore, fillAfter) := stringFills options length
  options.fill.map fun fill =>
    let buffer := appendRepeated buffer fill fillBefore
    -- `append` stops at a terminator
    let buffer := buffer.append ((value.take length).takeWhile fun c => c ≠ '\x00')
    appendRepeated buffer fill fillAfter

end MinStd.FormatSpec
