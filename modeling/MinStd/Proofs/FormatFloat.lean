import MinStd.FormatFloat
import MinStd.Proofs.FormatPadding
import Mathlib.Algebra.Order.Field.Basic
import Mathlib.Tactic.FieldSimp
import Mathlib.Tactic.Linarith
import Mathlib.Tactic.Positivity

/-!
# Decimals are rounded half to even

The scaled fraction is a quotient and a remainder by 2ᵉ, in both branches: from `e` at 128 on the
quotient is zero and the remainder is below one half.  So the units and decimals together are the
exact value in steps of the last decimal, rounded to the nearest, and to the even one in a tie,
where the last digit of the decimals, or without decimals of the units, has the parity of the whole.
-/

namespace MinStd.FormatSpec

open CharConv FormatNumber

/-! ### The decomposition -/

/-- What the code takes a fraction apart into. -/
structure Fraction (m e : ℕ) : Prop where
  m_lt : m < 2 ^ 53
  le_e : 53 ≤ e
  e_le : e ≤ 1074
  lt_one : m < 2 ^ e

/-- The number of a 64-bit pattern without a sign: a biased exponent over 52 bits of mantissa. -/
def binary64 (bits : ℕ) : ℚ :=
  if bits / 2 ^ 52 = 0 then (bits % 2 ^ 52 : ℕ) / 2 ^ 1074
  else (2 ^ 52 + bits % 2 ^ 52 : ℕ) * 2 ^ (bits / 2 ^ 52) / 2 ^ 1075

theorem decompose_eq {bits : ℕ} (h : bits < 1023 <<< 52) : decompose bits =
    if bits / 2 ^ 52 = 0 then (bits % 2 ^ 52, 1074)
    else (2 ^ 52 + bits % 2 ^ 52, 1075 - bits / 2 ^ 52) := by
  have hexp : (bits >>> 52) &&& 0x7FF = bits / 2 ^ 52 := by
    rw [Nat.shiftRight_eq_div_pow, show 0x7FF = 2 ^ 11 - 1 by rfl, Nat.and_two_pow_sub_one_eq_mod]
    omega
  have hmask : bits &&& (1 <<< 52 - 1) = bits % 2 ^ 52 := by
    rw [Nat.shiftLeft_eq, Nat.one_mul, Nat.and_two_pow_sub_one_eq_mod]
  have hor : bits % 2 ^ 52 ||| 1 <<< 52 = 2 ^ 52 + bits % 2 ^ 52 := by
    rw [Nat.lor_comm, ← Nat.shiftLeft_add_eq_or_of_lt (Nat.mod_lt _ (by positivity)),
      Nat.shiftLeft_eq, Nat.one_mul]
  unfold decompose
  dsimp only
  rw [hexp, hmask, hor]

/-- The patterns of the fractions below one. -/
theorem fraction_decompose {bits : ℕ} (h : bits < 1023 <<< 52) :
    Fraction (decompose bits).1 (decompose bits).2 := by
  have hlow : bits % 2 ^ 52 < 2 ^ 52 := Nat.mod_lt _ (by positivity)
  rw [decompose_eq h]
  split_ifs with h0
  · exact ⟨by omega, by omega, by omega,
      hlow.trans_le (Nat.pow_le_pow_right (by omega) (by omega))⟩
  · have hm : 2 ^ 52 + bits % 2 ^ 52 < 2 ^ 53 := by omega
    exact ⟨hm, by omega, by omega,
      hm.trans_le (Nat.pow_le_pow_right (by omega) (by omega))⟩

/-- A fraction is taken apart into the number it is. -/
theorem decompose_value {bits : ℕ} (h : bits < 1023 <<< 52) :
    ((decompose bits).1 : ℚ) / 2 ^ (decompose bits).2 = binary64 bits := by
  rw [decompose_eq h, binary64]
  split_ifs with h0
  · rfl
  · have hpow : (2 : ℚ) ^ 1075 = 2 ^ (1075 - bits / 2 ^ 52) * 2 ^ (bits / 2 ^ 52) := by
      rw [← pow_add, Nat.sub_add_cancel (by omega)]
    rw [hpow, mul_div_mul_right _ _ (by positivity)]

/-! ### Rounding -/

/-- The nearest integer, and in a tie the even one. -/
def IsHalfEven (x : ℚ) (n : ℕ) : Prop := |x - n| ≤ 1 / 2 ∧ (|x - n| = 1 / 2 → Even n)

/-- A quotient is rounded up from a remainder of more than half the divisor, and from half of it
where the quotient is odd. -/
theorem isHalfEven_quotient {x : ℚ} {n r d : ℕ} (hx : x = n + r / d) (hr : r < d) {up : Prop}
    [Decidable up] (hup : up ↔ d < 2 * r ∨ 2 * r = d ∧ Odd n) :
    IsHalfEven x (n + if up then 1 else 0) := by
  have hd : (0 : ℚ) < d := by exact_mod_cast (Nat.zero_le r).trans_lt hr
  have hf0 : (0 : ℚ) ≤ r / d := by positivity
  have hf1 : (r : ℚ) / d < 1 := by
    rw [div_lt_one hd]
    exact_mod_cast hr
  have hhalf : (d < 2 * r ↔ (1 : ℚ) / 2 < r / d) ∧ (2 * r = d ↔ (r : ℚ) / d = 1 / 2) := by
    rw [lt_div_iff₀ hd, div_eq_iff hd.ne']
    constructor
    · rw [← Nat.cast_lt (α := ℚ)]
      push_cast
      constructor <;> intro h <;> linarith
    · rw [← Nat.cast_inj (R := ℚ)]
      push_cast
      constructor <;> intro h <;> linarith
  rw [hhalf.1, hhalf.2] at hup
  unfold IsHalfEven
  rw [hx]
  generalize (r : ℚ) / d = f at *
  split_ifs with h
  · have hge : 1 / 2 ≤ f := by
      rcases hup.1 h with h | h
      · exact h.le
      · exact h.1.ge
    have habs : |(n : ℚ) + f - (n + 1 : ℕ)| = 1 - f := by
      rw [abs_of_nonpos (by push_cast; linarith)]
      push_cast
      ring
    rw [habs]
    refine ⟨by linarith, fun htie => ?_⟩
    rcases hup.1 h with h | h
    · linarith
    · exact h.2.add_one
  · have hle : f ≤ 1 / 2 := le_of_not_gt fun hgt => h (hup.2 (.inl hgt))
    have habs : |(n : ℚ) + f - (n + 0 : ℕ)| = f := by
      rw [abs_of_nonneg (by push_cast; linarith)]
      push_cast
      ring
    rw [habs]
    refine ⟨hle, fun htie => ?_⟩
    rw [Nat.add_zero, ← Nat.not_odd_iff_even]
    exact fun hodd => h (hup.2 (.inr ⟨htie, hodd⟩))

variable {units m e k : ℕ}

theorem pow10_eq (hk : k ≤ 19) : pow10.getD k 0 = 10 ^ k := by
  interval_cases k <;> rfl

/-- The quotient of the fraction is rounded up. -/
def RoundUp (units m e k : ℕ) : Prop :=
  2 ^ e < 2 * (m * 10 ^ k % 2 ^ e) ∨
    2 * (m * 10 ^ k % 2 ^ e) = 2 ^ e ∧ Odd (if 0 < k then m * 10 ^ k / 2 ^ e else units)

instance : Decidable (RoundUp units m e k) := inferInstanceAs (Decidable (_ ∨ _))

theorem ne_zero_of_roundUp (h : RoundUp units m e k) : m ≠ 0 := by
  rintro rfl
  have : 0 < 2 ^ e := by positivity
  unfold RoundUp at h
  rw [Nat.zero_mul, Nat.zero_mod] at h
  omega

theorem product_lt (h : Fraction m e) (hk : k ≤ 19) : m * 10 ^ k < 2 ^ 117 := by
  have hpow : 10 ^ k ≤ 10 ^ 19 := Nat.pow_le_pow_right (by omega) hk
  calc m * 10 ^ k ≤ m * 10 ^ 19 := Nat.mul_le_mul_left _ hpow
    _ ≤ 2 ^ 53 * 10 ^ 19 := Nat.mul_le_mul_right _ h.m_lt.le
    _ < 2 ^ 117 := by norm_num

theorem quotient_lt (h : Fraction m e) : m * 10 ^ k / 2 ^ e < 10 ^ k := by
  rw [Nat.div_lt_iff_lt_mul (by positivity), Nat.mul_comm]
  exact Nat.mul_lt_mul_of_pos_left h.lt_one (by positivity)

theorem scaledFraction_eq (h : Fraction m e) (hk : k ≤ 19) :
    scaledFraction units m e k = (m * 10 ^ k / 2 ^ e, decide (RoundUp units m e k)) := by
  have hproduct := product_lt h hk
  have hzero (hsmall : 2 * (m * 10 ^ k) < 2 ^ e) :
      (0, false) = (m * 10 ^ k / 2 ^ e, decide (RoundUp units m e k)) := by
    have hdiv : m * 10 ^ k / 2 ^ e = 0 := Nat.div_eq_of_lt (by omega)
    have hmod : m * 10 ^ k % 2 ^ e = m * 10 ^ k := Nat.mod_eq_of_lt (by omega)
    have hdown : ¬ RoundUp units m e k := by
      unfold RoundUp
      rw [hmod]
      omega
    rw [hdiv, decide_eq_false hdown]
  unfold scaledFraction
  by_cases hm : m = 0
  · rw [if_pos hm]
    exact hzero (by rw [hm, Nat.zero_mul]; positivity)
  rw [if_neg hm]
  by_cases he : e < 128
  · rw [if_pos he, pow10_eq hk]
    have hpow : 2 ^ e < WORD128 := Nat.pow_lt_pow_right (by omega) he
    have hone : 1 <<< e % WORD128 = 2 ^ e := by
      rw [Nat.shiftLeft_eq, Nat.one_mul, Nat.mod_eq_of_lt hpow]
    have hmask : (2 ^ e + WORD128 - 1) % WORD128 = 2 ^ e - 1 := by
      have : 0 < 2 ^ e := by positivity
      rw [show 2 ^ e + WORD128 - 1 = 2 ^ e - 1 + WORD128 by omega, Nat.add_mod_right,
        Nat.mod_eq_of_lt (by omega)]
    have hword : m * 10 ^ k < WORD128 := hproduct.trans (by unfold WORD128; norm_num)
    have hquot : m * 10 ^ k / 2 ^ e < WORD64 := by
      have h10 : 10 ^ k ≤ 10 ^ 19 := Nat.pow_le_pow_right (by omega) hk
      have h64 : 10 ^ 19 < WORD64 := by unfold WORD64; norm_num
      exact (quotient_lt h).trans (h10.trans_lt h64)
    have hhalf : 2 ^ e >>> 1 * 2 = 2 ^ e := by
      rw [Nat.shiftRight_eq_div_pow, pow_one, Nat.div_mul_cancel]
      exact dvd_pow_self 2 (by have := h.le_e; omega)
    dsimp only
    rw [hone, hmask, Nat.mod_eq_of_lt hword, Nat.and_two_pow_sub_one_eq_mod,
      Nat.shiftRight_eq_div_pow (m * 10 ^ k) e, Nat.mod_eq_of_lt hquot]
    refine Prod.ext rfl (decide_eq_decide.2 ?_)
    unfold RoundUp
    rw [Nat.odd_iff, Nat.and_one_is_mod]
    omega
  · rw [if_neg he]
    refine hzero (lt_of_lt_of_le (b := 2 ^ 128) ?_ (Nat.pow_le_pow_right (by omega) (by omega)))
    calc 2 * (m * 10 ^ k) < 2 * 2 ^ 117 := by omega
      _ < 2 ^ 128 := by norm_num

/-- The exact value in steps of the last decimal, rounded. -/
def rounded (units m e k : ℕ) : ℕ :=
  units * 10 ^ k + m * 10 ^ k / 2 ^ e + if RoundUp units m e k then 1 else 0

/-- The last digit has the parity of the whole. -/
theorem odd_lastDigit (h : m < 2 ^ e) :
    Odd (if 0 < k then m * 10 ^ k / 2 ^ e else units) ↔
      Odd (units * 10 ^ k + m * 10 ^ k / 2 ^ e) := by
  rcases Nat.eq_zero_or_pos k with rfl | hk
  · rw [if_neg (lt_irrefl 0), pow_zero, Nat.mul_one, Nat.mul_one, Nat.div_eq_of_lt h,
      Nat.add_zero]
  · have heven : Even (units * 10 ^ k) :=
      (Nat.even_pow.2 ⟨by decide, hk.ne'⟩).mul_left units
    rw [if_pos hk, Nat.odd_add']
    exact (iff_true_right heven).symm

theorem isHalfEven_rounded (h : m < 2 ^ e) :
    IsHalfEven (((units : ℚ) + m / 2 ^ e) * 10 ^ k) (rounded units m e k) := by
  have hdiv := Nat.div_add_mod (m * 10 ^ k) (2 ^ e)
  have hlt := Nat.mod_lt (m * 10 ^ k) (show 0 < 2 ^ e by positivity)
  refine isHalfEven_quotient ?_ hlt (or_congr_right (and_congr_right fun _ => odd_lastDigit h))
  have hexact : (m : ℚ) * 10 ^ k = 2 ^ e * (m * 10 ^ k / 2 ^ e : ℕ) + (m * 10 ^ k % 2 ^ e : ℕ) := by
    exact_mod_cast hdiv.symm
  have hden : (2 : ℚ) ^ e ≠ 0 := by positivity
  generalize m * 10 ^ k / 2 ^ e = q at *
  generalize m * 10 ^ k % 2 ^ e = r at *
  push_cast
  field_simp
  rw [add_mul, hexact]
  ring

theorem roundedParts_eq (h : Fraction m e) (hk : k ≤ 19)
    (hfrac : m ≠ 0 → units < 2 ^ 53) :
    roundedParts units m e k = (rounded units m e k / 10 ^ k, rounded units m e k % 10 ^ k) := by
  have hquot := quotient_lt (k := k) h
  have h10 : 10 ^ k < WORD64 := by
    have : 10 ^ k ≤ 10 ^ 19 := Nat.pow_le_pow_right (by omega) hk
    unfold WORD64
    omega
  have hadd : add64 (m * 10 ^ k / 2 ^ e) 1 = m * 10 ^ k / 2 ^ e + 1 := add64_eq (by omega)
  unfold roundedParts
  rw [scaledFraction_eq h hk, pow10_eq hk]
  dsimp only
  rw [hadd]
  unfold rounded
  by_cases hup : RoundUp units m e k
  · have hm := ne_zero_of_roundUp hup
    have hadd' : add64 units 1 = units + 1 := add64_eq (by
      have := hfrac hm
      unfold WORD64
      omega)
    rw [if_pos hup, decide_eq_true hup, if_pos rfl, hadd']
    generalize m * 10 ^ k / 2 ^ e = q at *
    split_ifs with hcarry
    · rw [Nat.add_assoc, hcarry, ← Nat.succ_mul, Nat.mul_div_cancel _ (by positivity),
        Nat.mul_mod_left]
    · rw [Nat.add_assoc, Nat.mul_comm units, Nat.mul_add_div (by positivity), Nat.mul_add_mod,
        Nat.div_eq_of_lt (by omega), Nat.mod_eq_of_lt (by omega)]
      rfl
  · rw [if_neg hup, decide_eq_false hup, if_neg (by decide), Nat.add_zero, Nat.mul_comm units,
      Nat.mul_add_div (by positivity), Nat.mul_add_mod, Nat.div_eq_of_lt hquot,
      Nat.mod_eq_of_lt hquot, Nat.add_zero]

/-! ### The text -/

/-- The last digits of a number, so many of them. -/
def fractionText (decimals : ℕ) : ℕ → List Char
  | 0 => []
  | i + 1 => Char.ofNat ('0'.toNat + decimals / 10 ^ i % 10) :: fractionText decimals i

theorem digit?_ofNat {d : ℕ} (h : d < 10) : digit? 10 (Char.ofNat ('0'.toNat + d)) = some d := by
  interval_cases d <;> exact digit?_of_isDigit (by decide)

theorem fractionText_spec (decimals k : ℕ) : (fractionText decimals k).length = k ∧
    digitRun 10 (fractionText decimals k) = fractionText decimals k ∧
    valueOf 10 (fractionText decimals k) = decimals % 10 ^ k := by
  induction k with
  | zero => exact ⟨rfl, rfl, by simp [fractionText, valueOf, Nat.mod_one]⟩
  | succ k ih =>
    obtain ⟨hlen, hrun, hval⟩ := ih
    have hd := digit?_ofNat (Nat.mod_lt (decimals / 10 ^ k) (by omega : 10 > 0))
    have hcons : valueOf 10 (_ :: digitRun 10 (fractionText decimals k)) = _ := valueOf_cons hd
    rw [hrun, hlen, hval] at hcons
    rw [fractionText]
    refine ⟨by rw [List.length_cons, hlen], ?_, hcons.trans ?_⟩
    · rw [digitRun_cons_of_some hd, hrun]
    · rw [Nat.mod_pow_succ]
      ring

theorem pushBack_eq {number : NumericText} {c : Char} (h : number.digits.length < CAPACITY) :
    number.pushBack c = { number with digits := number.digits ++ [c] } := if_pos h

theorem pushDecimals_eq (decimals : ℕ) (hk : k ≤ 19) {number : NumericText}
    (h : number.digits.length + k ≤ CAPACITY) :
    pushDecimals number decimals k =
      { number with digits := number.digits ++ fractionText decimals k } := by
  induction k generalizing number with
  | zero => simp [pushDecimals, fractionText]
  | succ k ih =>
    rw [pushDecimals, pow10_eq (by omega), pushBack_eq (by omega), ih (by omega)]
    · simp [fractionText]
    · simp only [List.length_append, List.length_singleton]
      omega

/-- The units, the digits of the decimals that are computed, and zeros for the rest. -/
def expansion (n precision : ℕ) : List Char :=
  decimalText (n / 10 ^ min precision 19) ++
    if precision = 0 then []
    else '.' :: fractionText (n % 10 ^ min precision 19) (min precision 19) ++
      List.replicate (precision - min precision 19) '0'

theorem rounded_div_lt (h : Fraction m e) (hunits : units < WORD64)
    (hfrac : m ≠ 0 → units < 2 ^ 53) : rounded units m e k / 10 ^ k < WORD64 := by
  have hquot := quotient_lt (k := k) h
  have hpos : 0 < 10 ^ k := by positivity
  rw [Nat.div_lt_iff_lt_mul hpos]
  unfold rounded
  by_cases hm : m = 0
  · have hdown : ¬ RoundUp units m e k := fun hup => ne_zero_of_roundUp hup hm
    have := Nat.mul_le_mul_right (10 ^ k) (Nat.succ_le_of_lt hunits)
    rw [Nat.succ_mul] at this
    rw [if_neg hdown]
    omega
  · have hle : units + 2 ≤ WORD64 := by
      have := hfrac hm
      unfold WORD64
      omega
    have := Nat.mul_le_mul_right (10 ^ k) hle
    rw [Nat.add_mul] at this
    split_ifs <;> omega

theorem length_decimalText {n : ℕ} (h : n < WORD64) : (decimalText n).length ≤ 20 := by
  have hpow : n < 10 ^ 20 := h.trans (by unfold WORD64; norm_num)
  have := (reversedDigits_eq (by omega) LOWER_CASE_NUMERIC_CONVERSION_DIGITS hpow (by omega)).2
  simpa [decimalText, digitText] using this

theorem ne_null_of_digitRun {text : List Char} (h : digitRun 10 text = text) :
    ∀ c ∈ text, c ≠ '\x00' := by
  rintro _ hc rfl
  have hsome := List.takeWhile_eq_self_iff.1 h _ hc
  rw [digit?_of_not_isDigit (by decide)] at hsome
  exact nomatch hsome

/-- What `FloatToString` emits is the expansion of the rounded value. -/
theorem floatNumber_eq (isNegative : Bool) (format : FormatOptions) (h : Fraction m e)
    (hunits : units < WORD64) (hfrac : m ≠ 0 → units < 2 ^ 53) :
    ∃ number, floatNumber isNegative units m e format = some number ∧
      number.sign = determineSign isNegative format.toArgFormatOptions ∧ number.pre = [] ∧
      number.finite = true ∧ (∀ c ∈ number.digits, c ≠ '\x00') ∧
      body number = expansion (rounded units m e (min (format.precision.getD 0) 19))
        (format.precision.getD 0) := by
  unfold floatNumber
  dsimp only
  generalize format.precision.getD 0 = precision
  have hk : min precision 19 ≤ 19 := Nat.min_le_right _ _
  have hint := rounded_div_lt (k := min precision 19) h hunits hfrac
  have hlen := length_decimalText hint
  have hrun := digitRun_decimalText (rounded units m e (min precision 19) / 10 ^ min precision 19)
  have hne := decimalText_ne_nil (rounded units m e (min precision 19) / 10 ^ min precision 19)
  rw [roundedParts_eq h hk hfrac]
  dsimp only
  rw [appendDigits_eq (by omega) hint _ rfl, Option.map_some]
  refine ⟨_, rfl, ?_⟩
  unfold expansion
  generalize rounded units m e (min precision 19) % 10 ^ min precision 19 = decimals
  change (decimalText _).length ≤ 20 at hlen
  rw [show digitText LOWER_CASE_NUMERIC_CONVERSION_DIGITS 10 _ = decimalText _ from rfl]
  generalize decimalText (rounded units m e (min precision 19) / 10 ^ min precision 19) = text
    at hlen hrun hne ⊢
  by_cases hp : precision = 0
  · subst hp
    refine ⟨rfl, rfl, rfl, ne_null_of_digitRun hrun, ?_⟩
    simp [body]
  · obtain ⟨_, hfrun, _⟩ := fractionText_spec decimals (min precision 19)
    have hpos : 0 < text.length := List.length_pos_of_ne_nil hne
    have hdot : text.length < CAPACITY := by unfold CAPACITY; omega
    rw [if_pos (Nat.pos_of_ne_zero hp), pushBack_eq (by exact hdot), pushDecimals_eq decimals hk]
    · refine ⟨rfl, rfl, rfl, fun c hc => ?_, ?_⟩
      · rcases List.mem_append.1 hc with hc | hc
        · rcases List.mem_append.1 hc with hc | hc
          · exact ne_null_of_digitRun hrun c hc
          · rw [List.mem_singleton.1 hc]
            decide
        · exact ne_null_of_digitRun hfrun c hc
      · simp [body, hpos, hp]
    · simp only [List.length_append, List.length_singleton]
      unfold CAPACITY
      omega

/-- The text is that of `n` steps of the last decimal: the units without leading zeros, a digit for
each decimal that is computed, and zeros for the others. -/
def IsExpansion (n precision : ℕ) (text : List Char) : Prop :=
  ∃ fraction : List Char, fraction.length = min precision 19 ∧ digitRun 10 fraction = fraction ∧
    valueOf 10 fraction = n % 10 ^ min precision 19 ∧
    text = decimalText (n / 10 ^ min precision 19) ++
      if precision = 0 then []
      else '.' :: fraction ++ List.replicate (precision - min precision 19) '0'

theorem isExpansion_expansion (n precision : ℕ) :
    IsExpansion n precision (expansion n precision) := by
  obtain ⟨hlen, hrun, hval⟩ := fractionText_spec (n % 10 ^ min precision 19) (min precision 19)
  exact ⟨_, hlen, hrun, hval.trans (Nat.mod_mod _ _), rfl⟩

/-- No value the code computes is too large for its type. -/
structure NoOverflow (units m e k : ℕ) : Prop where
  product : m * 10 ^ k < WORD128
  one : e < 128 → 2 ^ e < WORD128
  decimals : m * 10 ^ k / 2 ^ e + 1 < WORD64
  units : RoundUp units m e k → units + 1 < WORD64

theorem noOverflow (h : Fraction m e) (hk : k ≤ 19) (hfrac : m ≠ 0 → units < 2 ^ 53) :
    NoOverflow units m e k := by
  have hquot := quotient_lt (k := k) h
  refine ⟨(product_lt h hk).trans (by unfold WORD128; norm_num),
    fun he => Nat.pow_lt_pow_right (by omega) he, ?_, fun hup => ?_⟩
  · have : 10 ^ k ≤ 10 ^ 19 := Nat.pow_le_pow_right (by omega) hk
    unfold WORD64
    omega
  · have := hfrac (ne_zero_of_roundUp hup)
    unfold WORD64
    omega

/-- What a buffer holds afterwards, whatever room it has. -/
theorem floatToString_chars (h : Fraction m e) (hunits : units < WORD64)
    (hfrac : m ≠ 0 → units < 2 ^ 53) (isNegative : Bool) {format : FormatOptions} {fill : Char}
    {alignment : Align} (hmerged : Merged format fill alignment) (buffer : StringBuffer) :
    ∃ b, floatToString buffer isNegative units m e format = some b ∧
      b.chars = buffer.chars ++ (padded fill format.isZeroFill alignment format.width
        (determineSign isNegative format.toArgFormatOptions)
        (expansion (rounded units m e (min (format.precision.getD 0) 19))
          (format.precision.getD 0))).take (buffer.max_size - buffer.chars.length) := by
  obtain ⟨number, hnumber, hsign, hpre, hfinite, hdigits, hbody⟩ :=
    floatNumber_eq isNegative format h hunits hfrac
  have hclips : buffer.Clips _ _ := clips_emitNumber hmerged hfinite hdigits
  rw [hsign, hpre, List.append_nil, hbody] at hclips
  exact ⟨_, by rw [floatToString, hnumber]; rfl, hclips.chars⟩

/-- A number below 2⁶⁴ is printed as the expansion of its exact value, rounded half to even at
19 decimals at most and continued with zeros. -/
theorem floatToString_rounds (h : Fraction m e) (hunits : units < WORD64)
    (hfrac : m ≠ 0 → units < 2 ^ 53) (isNegative : Bool) {format : FormatOptions} {fill : Char}
    {alignment : Align} (hmerged : Merged format fill alignment) {precision : ℕ}
    (hprecision : format.precision.getD 0 = precision) :
    NoOverflow units m e (min precision 19) ∧
    ∃ n text, IsHalfEven (((units : ℚ) + m / 2 ^ e) * 10 ^ min precision 19) n ∧
      IsExpansion n precision text ∧
      ∀ buffer : StringBuffer, ∃ b, floatToString buffer isNegative units m e format = some b ∧
        b.chars = buffer.chars ++ (padded fill format.isZeroFill alignment format.width
          (determineSign isNegative format.toArgFormatOptions) text).take
            (buffer.max_size - buffer.chars.length) := by
  subst hprecision
  exact ⟨noOverflow h (Nat.min_le_right _ _) hfrac, _, _, isHalfEven_rounded h.lt_one,
    isExpansion_expansion _ _, floatToString_chars h hunits hfrac isNegative hmerged⟩

def noDecimals : FormatOptions :=
  ⟨⟨none, some ' ', some .right, none, some .minus, none, none, some 10⟩, some 0⟩

/-- Nine and a half, a tie that is rounded up. -/
theorem floatToString_rounds_tie :
    NoOverflow 9 (2 ^ 52) 53 0 ∧
    ∃ n text, IsHalfEven (((9 : ℕ) + (2 ^ 52 : ℕ) / 2 ^ 53) * 10 ^ 0) n ∧ IsExpansion n 0 text ∧
      ∀ buffer : StringBuffer, ∃ b,
        floatToString buffer false 9 (2 ^ 52) 53 noDecimals = some b ∧
        b.chars = buffer.chars ++ (padded ' ' false .right none [] text).take
          (buffer.max_size - buffer.chars.length) :=
  floatToString_rounds ⟨by omega, by omega, by omega, by omega⟩ (by unfold WORD64; omega)
    (fun _ => by omega) false (⟨rfl, by decide, rfl⟩ : Merged noDecimals ' ' .right) rfl

/-- From the units and the bit pattern of the fraction, the number they stand for is printed. -/
theorem floatToString_of_bits {bits : ℕ} (h : bits < 1023 <<< 52) (hunits : units < WORD64)
    (hfrac : binary64 bits ≠ 0 → units < 2 ^ 53) (isNegative : Bool) {format : FormatOptions}
    {fill : Char} {alignment : Align} (hmerged : Merged format fill alignment) {precision : ℕ}
    (hprecision : format.precision.getD 0 = precision) (buffer : StringBuffer) :
    ∃ n text b, IsHalfEven ((units + binary64 bits) * 10 ^ min precision 19) n ∧
      IsExpansion n precision text ∧
      floatToString buffer isNegative units (decompose bits).1 (decompose bits).2 format = some b ∧
      b.chars = buffer.chars ++ (padded fill format.isZeroFill alignment format.width
        (determineSign isNegative format.toArgFormatOptions) text).take
          (buffer.max_size - buffer.chars.length) := by
  subst hprecision
  have hf := fraction_decompose h
  have hval := decompose_value h
  obtain ⟨b, hb, hchars⟩ := floatToString_chars hf hunits
    (fun hm => hfrac (by rw [← hval]; positivity)) isNegative hmerged buffer
  refine ⟨_, _, b, ?_, isExpansion_expansion _ _, hb, hchars⟩
  rw [← hval]
  exact isHalfEven_rounded hf.lt_one

end MinStd.FormatSpec
