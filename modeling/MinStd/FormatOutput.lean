import MinStd.CharConv
import MinStd.StringBuffer

/-!
# The format driver

`BuildFormatOutput` goes through a format string run by run: the literal text up to an opening
brace, then an escaped brace or a placeholder.  A format string is the characters before its
terminator, and reading past the terminator gives `none`.  What the output should be is said over
the string's segmentation into characters and placeholders.
-/

namespace MinStd.FormatOutput

open CharConv

/-- A format argument, which appends its text for a format where the buffer has room. -/
structure FmtArg where
  text : List Char → List Char
  append : StringBuffer → List Char → StringBuffer
  appends : ∀ (b : StringBuffer) (format : List Char),
    b.chars.length + (text format).length ≤ b.max_size → b.Appends (text format) (append b format)

def UINT32_MAX : ℕ := 2 ^ 32 - 1

/-! ### The driver -/

def isDigit (c : Char) : Bool := '0' ≤ c ∧ c ≤ '9'

/-- The loop of `ParseArgId`. -/
def parseIdLoop : List Char → ℕ → Bool × Option ℕ
  | [], position => (true, some position)
  | c :: cs, position =>
    if ¬ isDigit c then (false, none)
    else if (UINT32_MAX - 9) / 10 < position then (false, none)
    else parseIdLoop cs ((position * 10 + (c.toNat - '0'.toNat)) % 2 ^ 32)

/-- `ParseArgId`; without a colon the position found is the length. -/
def parseArgId (argumentFormat : List Char) : Bool × Option ℕ :=
  if argumentFormat = [] then (true, none)
  else if argumentFormat.idxOf ':' = 0 then (true, none)
  else parseIdLoop (argumentFormat.take (argumentFormat.idxOf ':')) 0

/-- `fmt[i]`, the terminator after the characters. -/
def charAt (fmt : List Char) (i : ℕ) : Option Char :=
  if i ≤ fmt.length then some (fmt.getD i '\x00') else none

/-- `strcspn(fmt + i, c)`. -/
def strcspn (fmt : List Char) (i : ℕ) (c : Char) : Option ℕ :=
  if i ≤ fmt.length then some ((fmt.drop i).takeWhile (· ≠ c)).length else none

/-- The loop over a literal run. -/
def literal (buffer : StringBuffer) : List Char → StringBuffer
  | [] => buffer
  | [c] => buffer.pushBack c
  | c :: d :: cs =>
    if c = '}' ∧ d = '}' then literal (buffer.pushBack c) cs
    else literal (buffer.pushBack c) (d :: cs)

/-- The most characters of a placeholder that are kept. -/
def FORMAT_SIZE : ℕ := 32

def OUT_OF_RANGE : List Char := "{Argument position out of range}".toList

/-- The output for a format string that is not valid. -/
def invalid (buffer : StringBuffer) (argumentFormat : List Char) : StringBuffer :=
  ((buffer.append "\x7bInvalid format string: '".toList).append argumentFormat).append
    "'\x7d".toList

/-- The argument at a position. -/
def insertArgument (args : List FmtArg) (buffer : StringBuffer) (position : ℕ)
    (argumentFormat : List Char) : StringBuffer :=
  match args[position]? with
  | some arg => arg.append buffer argumentFormat
  | none => buffer.append OUT_OF_RANGE

/-- A turn of the loop of `BuildFormatOutput` from after the opening brace at `fmt[i - 1]`, if there
is one; `next` goes on with the loop.  The index of the next placeholder, a `size_t`, is cast to 32
bits where it is used. -/
def afterBrace (fmt : List Char) (args : List FmtArg)
    (next : ℕ → ℕ → StringBuffer → Option StringBuffer) (i index : ℕ) (buffer : StringBuffer) :
    Option StringBuffer :=
  if i < fmt.length ∧ fmt[i]? = some '{' then next (i + 1) index (buffer.pushBack '{')
  else if fmt.length ≤ i then some buffer
  else
    (strcspn fmt i '}').bind fun closingBrace =>
      if fmt.length ≤ i + closingBrace then some buffer
      else
        let argumentFormat := ((fmt.drop i).take closingBrace).take FORMAT_SIZE
        match parseArgId argumentFormat with
        | (false, _) => next (i + closingBrace + 1) index (invalid buffer argumentFormat)
        | (true, some position) =>
          next (i + closingBrace + 1) index (insertArgument args buffer position argumentFormat)
        | (true, none) =>
          next (i + closingBrace + 1) ((index + 1) % 2 ^ 64)
            (insertArgument args buffer (index % 2 ^ 32) argumentFormat)

/-- The loop of `BuildFormatOutput`, at `fmt[i]`. -/
def buildLoop (fmt : List Char) (args : List FmtArg) :
    ℕ → ℕ → ℕ → StringBuffer → Option StringBuffer
  | 0, _, _, _ => none
  | fuel + 1, i, index, buffer =>
    (charAt fmt i).bind fun c =>
      if c = '\x00' then some buffer
      else
        (strcspn fmt i '{').bind fun openingBrace =>
          afterBrace fmt args (buildLoop fmt args fuel) (i + openingBrace + 1) index
            (literal buffer ((fmt.drop i).take openingBrace))

/-- Each turn of the loop moves on, so there is one for each character and one for the
terminator. -/
def buildFormatOutput (buffer : StringBuffer) (fmt : List Char) (args : List FmtArg) :
    Option StringBuffer :=
  buildLoop fmt args (fmt.length + 1) 0 0 buffer

/-! ### What the output should be -/

inductive Segment
  | text (c : Char)
  | placeholder (body : List Char)
  deriving DecidableEq

/-- Characters, escaped braces and closed placeholders, up to an opening brace that is not
closed. -/
def segments : List Char → List Segment
  | [] => []
  | c :: cs =>
    if c = '{' then
      if cs.head? = some '{' then .text '{' :: segments cs.tail
      else if '}' ∈ cs then
        .placeholder (cs.takeWhile (· ≠ '}')) :: segments (cs.dropWhile (· ≠ '}')).tail
      else []
    else if c = '}' ∧ cs.head? = some '}' then .text '}' :: segments cs.tail
    else .text c :: segments cs
termination_by cs => cs.length
decreasing_by
  all_goals simp only [List.length_cons, List.length_tail]
  · omega
  · have := (List.dropWhile_suffix (l := cs) (p := fun c => decide (c ≠ '}'))).length_le
    omega
  · omega
  · omega

/-- How a placeholder names its argument. -/
inductive ArgId
  | automatic
  | explicit (position : ℕ)
  | invalid
  deriving DecidableEq

/-- The largest id that the check against overflow lets through. -/
def MAX_ID : ℕ := (UINT32_MAX - 9) / 10 * 10 + 9

/-- A placeholder's id is a number before the colon, if there is anything before it. -/
def argId (body : List Char) : ArgId :=
  let id := body.takeWhile (· ≠ ':')
  if id = [] then .automatic
  else if digitRun 10 id = id ∧ valueOf 10 id ≤ MAX_ID then .explicit (valueOf 10 id)
  else .invalid

/-- The text of the argument at a position. -/
def argText (args : List FmtArg) (position : ℕ) (body : List Char) : List Char :=
  match args[position]? with
  | some arg => arg.text body
  | none => OUT_OF_RANGE

/-- The text of the segments, the next placeholder without an id being number `index` of those, and
`place` the position such a number stands for. -/
def render (args : List FmtArg) (place : ℕ → ℕ) : ℕ → List Segment → List Char
  | _, [] => []
  | index, .text c :: segs => c :: render args place index segs
  | index, .placeholder body :: segs =>
    match argId body with
    | .automatic => argText args (place index) body ++ render args place (index + 1) segs
    | .explicit position => argText args position body ++ render args place index segs
    | .invalid =>
      "\x7bInvalid format string: '".toList ++ body ++ "'\x7d".toList
        ++ render args place index segs

/-- The output the format string and the arguments ask for. -/
def output (fmt : List Char) (args : List FmtArg) : List Char := render args id 0 (segments fmt)

/-- The number of placeholders without an id. -/
def automaticCount : List Segment → ℕ
  | [] => 0
  | .text _ :: segs => automaticCount segs
  | .placeholder body :: segs =>
    (if argId body = .automatic then 1 else 0) + automaticCount segs

/-- A text with every brace doubled. -/
def escape (s : List Char) : List Char :=
  s.flatMap fun c => if c = '{' ∨ c = '}' then [c, c] else [c]

/-- Placeholders that the driver's buffer holds. -/
def Short (segs : List Segment) : Prop :=
  ∀ body, .placeholder body ∈ segs → body.length ≤ FORMAT_SIZE

/-- Given room, the driver ends without reading past the terminator, and writes the output asked
for. -/
def Meets (fmt : List Char) : Prop :=
  ∀ (args : List FmtArg) (buffer : StringBuffer),
    buffer.chars.length + (output fmt args).length ≤ buffer.max_size →
    ∃ b, buildFormatOutput buffer fmt args = some b
      ∧ b.chars = buffer.chars ++ output fmt args

end MinStd.FormatOutput
