import Mathlib.Data.Nat.Digits.Defs

/-!
# Reading integers

`from_chars` reads the digits of a base one by one, comparing the value so far with a quotient and a
remainder of the type's limit before it takes up another.  A character range is a list, `ptr` a
position in it, and the value read into is returned beside the result.
-/

namespace MinStd.CharConv

inductive Width
  | bits8
  | bits16
  | bits32
  | bits64
  deriving DecidableEq

def Width.bits : Width → ℕ
  | .bits8 => 8
  | .bits16 => 16
  | .bits32 => 32
  | .bits64 => 64

/-- The types `from_chars` is overloaded for. -/
structure IntType where
  width : Width
  signed : Bool
  deriving DecidableEq

def IntType.min (T : IntType) : ℤ := if T.signed then -2 ^ (T.width.bits - 1) else 0

def IntType.max (T : IntType) : ℤ :=
  if T.signed then 2 ^ (T.width.bits - 1) - 1 else 2 ^ T.width.bits - 1

/-- `errc{}` is `success`. -/
inductive Errc
  | success
  | value_too_large
  | invalid_argument
  deriving DecidableEq

structure FromCharsResult where
  ptr : ℕ
  ec : Errc
  deriving DecidableEq

/-- `digit_value`, with `none` for -1. -/
def digitValue (c : Char) (base : ℕ) : Option ℕ :=
  (if '0' ≤ c ∧ c ≤ '9' then some (c.toNat - '0'.toNat)
  else if 'a' ≤ c ∧ c ≤ 'z' then some (c.toNat - 'a'.toNat + 10)
  else if 'A' ≤ c ∧ c ≤ 'Z' then some (c.toNat - 'A'.toNat + 10)
  else none).filter (· < base)

/-- How the loop over the digits ends. -/
inductive Read
  | overflow (p : ℕ)
  | done (p val : ℕ) (any : Bool)

def skipDigits (base : ℕ) : List Char → ℕ → ℕ
  | [], p => p
  | c :: cs, p => if (digitValue c base).isSome then skipDigits base cs (p + 1) else p

/-- The loop over the digits, in the unsigned type of the width. -/
def readDigits (w : Width) (base limit : ℕ) : List Char → ℕ → ℕ → Bool → Read
  | [], p, val, any => .done p val any
  | c :: cs, p, val, any =>
    match digitValue c base with
    | none => .done p val any
    | some ud =>
      if limit / base < val ∨ val = limit / base ∧ limit % base < ud then
        .overflow (skipDigits base (c :: cs) p)
      else readDigits w base limit cs (p + 1) ((val * base + ud) % 2 ^ w.bits) true

def fromCharsUnsigned (w : Width) (text : List Char) (out base : ℤ) : FromCharsResult × ℤ :=
  if base < 2 ∨ 36 < base then (⟨0, .invalid_argument⟩, out)
  else if text = [] then (⟨0, .invalid_argument⟩, out)
  else
    match readDigits w base.toNat (2 ^ w.bits - 1) text 0 0 false with
    | .overflow p => (⟨p, .value_too_large⟩, out)
    | .done p val any =>
      if any = false then (⟨0, .invalid_argument⟩, out) else (⟨p, .success⟩, val)

/-- A cast to the signed type of the width. -/
def toSigned (w : Width) (val : ℕ) : ℤ := Int.bmod val (2 ^ w.bits)

def fromCharsSigned (w : Width) (text : List Char) (out base : ℤ) : FromCharsResult × ℤ :=
  if base < 2 ∨ 36 < base then (⟨0, .invalid_argument⟩, out)
  else if text = [] then (⟨0, .invalid_argument⟩, out)
  else
    let negative := text.head? = some '-'
    let start := if negative then 1 else 0
    let posMax := 2 ^ (w.bits - 1) - 1
    let limit := if negative then posMax + 1 else posMax
    match readDigits w base.toNat limit (text.drop start) start 0 false with
    | .overflow p => (⟨p, .value_too_large⟩, out)
    | .done p val any =>
      if any = false ∨ negative ∧ p = 1 then (⟨0, .invalid_argument⟩, out)
      -- `~val` in the width's bits
      else (⟨p, .success⟩, if negative then toSigned w (2 ^ w.bits - 1 - val + 1)
        else toSigned w val)

def fromChars (T : IntType) (text : List Char) (value base : ℤ) : FromCharsResult × ℤ :=
  if T.signed then fromCharsSigned T.width text value base
  else fromCharsUnsigned T.width text value base

/-! ### What is read -/

/-- The digits the formatters write. -/
def LOWER_CASE_NUMERIC_CONVERSION_DIGITS : List Char :=
  "0123456789abcdefghijklmnopqrstuvwxyz".toList

def UPPER_CASE_NUMERIC_CONVERSION_DIGITS : List Char :=
  "0123456789ABCDEFGHIJKLMNOPQRSTUVWXYZ".toList

/-- The digit of the base a character is, in either case. -/
def digit? (base : ℕ) (c : Char) : Option ℕ :=
  (List.range base).find? fun d =>
    LOWER_CASE_NUMERIC_CONVERSION_DIGITS[d]? = some c
      ∨ UPPER_CASE_NUMERIC_CONVERSION_DIGITS[d]? = some c

/-- The longest run of digits. -/
def digitRun (base : ℕ) (text : List Char) : List Char :=
  text.takeWhile fun c => (digit? base c).isSome

/-- The number a run of digits stands for. -/
def valueOf (base : ℕ) (run : List Char) : ℕ :=
  Nat.ofDigits base (run.filterMap (digit? base)).reverse

/-- An optional `-`, for a signed type, and a run of digits: the exact value if it fits. -/
def Reference (T : IntType) (text : List Char) (value : ℤ) (base : ℕ) : FromCharsResult × ℤ :=
  let minus := T.signed ∧ text.head? = some '-'
  let run := digitRun base (if minus then text.tail else text)
  let exact : ℤ := if minus then -valueOf base run else valueOf base run
  let ptr := (if minus then 1 else 0) + run.length
  if run = [] then (⟨0, .invalid_argument⟩, value)
  else if T.min ≤ exact ∧ exact ≤ T.max then (⟨ptr, .success⟩, exact)
  else (⟨ptr, .value_too_large⟩, value)

end MinStd.CharConv
