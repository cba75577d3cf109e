import MinStd.FormatNumber
import MinStd.Words

/-!
# Format specifications

`ParseArgFormatString` takes a specification apart from the front, one optional field after another.
What is left of it is a list; the end of the string reads as a null character.
-/

namespace MinStd.FormatSpec

open FormatNumber (Align SignTreatment ArgFormatOptions)

/-- The options with the precision, which the integer formatters do not read. -/
structure FormatOptions extends ArgFormatOptions where
  precision : Option ℕ

def clear : FormatOptions := ⟨⟨none, none, none, none, none, none, none, none⟩, none⟩

def UINT32_MAX : ℕ := WORD32 - 1

/-- The characters before the first that is rejected, up to the terminator. -/
def strcspn (s reject : List Char) : ℕ :=
  (s.takeWhile fun c => c ≠ '\x00' ∧ c ∉ reject).length

def parseTypeSpecifier (character : Char) (options : FormatOptions) : FormatOptions :=
  match character with
  | 'd' => { options with integer_base := some 10, type_specifier := some 'd' }
  | 'x' => { options with integer_base := some 16, type_specifier := some 'x' }
  | 'X' => { options with integer_base := some 16, type_specifier := some 'X' }
  | 'b' => { options with integer_base := some 2, type_specifier := some 'b' }
  | 'B' => { options with integer_base := some 2, type_specifier := some 'B' }
  | 'o' => { options with integer_base := some 8, type_specifier := some 'o' }
  | 'p' => { options with integer_base := some 16, type_specifier := some 'X' }
  | c => { options with type_specifier := some c }

def isAlignmentCharacter (c : Char) : Bool := c = '<' ∨ c = '>' ∨ c = '^'

def setAlignment (c : Char) (options : FormatOptions) : FormatOptions :=
  match c with
  | '<' => { options with alignment := some .left }
  | '>' => { options with alignment := some .right }
  | '^' => { options with alignment := some .center }
  | _ => options

/-- No alignment, so there must be no alignment character anywhere else. -/
def parseNoAlignment (format : List Char) (options : FormatOptions) :
    Option (List Char × FormatOptions) :=
  if format.length ≤ strcspn format ['<', '>', '^'] then some (format, options) else none

def parseAlignmentAndFill (format : List Char) (options : FormatOptions) :
    Option (List Char × FormatOptions) :=
  match format with
  | c :: c' :: rest =>
    if isAlignmentCharacter c' then
      if c = '\x7b' then none else some (rest, { setAlignment c' options with fill := some c })
    else if isAlignmentCharacter c then some (c' :: rest, setAlignment c options)
    else parseNoAlignment format options
  | [c] =>
    if isAlignmentCharacter c then some ([], setAlignment c options)
    else parseNoAlignment format options
  | [] => parseNoAlignment format options

def parseSignSpecifier (format : List Char) (options : FormatOptions) :
    List Char × FormatOptions :=
  match format with
  | '+' :: rest => (rest, { options with sign := some .always_plus })
  | '-' :: rest => (rest, { options with sign := some .minus })
  | ' ' :: rest => (rest, { options with sign := some .space })
  | _ => (format, options)

/-- The loops over the digits of a width or a precision, on the number so far. -/
def parseDigits : List Char → Option ℕ → Option (List Char × Option ℕ)
  | [], n => some ([], n)
  | c :: rest, n =>
    if c ≠ '\x00' ∧ c.isDigit then
      if n.any fun v => (UINT32_MAX - 9) / 10 < v then none
      else parseDigits rest (some ((n.elim 0 (· * 10) + (c.toNat - '0'.toNat)) % WORD32))
    else some (c :: rest, n)

/-! ### The fields

Each returns where the string ends. -/

def parseType (format : List Char) (options : FormatOptions) : Option FormatOptions :=
  match format with
  | [] => some options
  | c :: _ => some (parseTypeSpecifier c options)

def parsePrecision (format : List Char) (options : FormatOptions) : Option FormatOptions :=
  match format with
  | [] => some options
  | '.' :: rest => do
    let (rest, precision) ← parseDigits rest options.precision
    parseType rest { options with precision := precision }
  | _ => parseType format options

def parseWidth (format : List Char) (options : FormatOptions) : Option FormatOptions :=
  match format with
  | [] => some options
  | _ => do
    let (rest, width) ← parseDigits format options.width
    parsePrecision rest { options with width := width }

def parseZeroFill (format : List Char) (options : FormatOptions) : Option FormatOptions :=
  match format with
  | [] => some options
  | '0' :: rest => parseWidth rest { options with zero_fill := some options.alignment.isNone }
  | _ => parseWidth format options

def parseAlt (format : List Char) (options : FormatOptions) : Option FormatOptions :=
  match format with
  | [] => some options
  | '#' :: rest => parseZeroFill rest { options with alt := some true }
  | _ => parseZeroFill format options

def parseSign (format : List Char) (options : FormatOptions) : Option FormatOptions :=
  match format with
  | [] => some options
  | _ =>
    let (rest, options) := parseSignSpecifier format options
    parseAlt rest options

/-- An explicit alignment overrides a type's default zero fill. -/
def overrideZeroFill (options : FormatOptions) : FormatOptions :=
  if options.alignment.isSome then { options with zero_fill := some false } else options

/-- What stands after the colon, if anything does. -/
def specOf (argumentFormat : List Char) : List Char :=
  (argumentFormat.dropWhile fun c => c ≠ ':').tail

def parseArgFormatString (argumentFormat : List Char) : Option FormatOptions :=
  match specOf argumentFormat with
  | [] => some clear
  | spec => do
    let (rest, options) ← parseAlignmentAndFill spec clear
    parseSign rest (overrideZeroFill options)

end MinStd.FormatSpec
