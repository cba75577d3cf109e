import MinStd.CharConv
import Mathlib.Tactic.Ring

/-!
# `from_chars` reads the reference's number

The comparison with the quotient and the remainder of the limit says whether the next value is above
it (`above_limit_iff`), so the loop reads the run of digits and its value while that is in the limit
(`readDigits_eq`), and the limit for each sign is what fits the type.
-/

namespace MinStd.CharConv

variable {c : Char} {base d : ℕ} {w : Width}

/-! ### Digits -/

theorem digitValue_lower : ∀ p ∈ LOWER_CASE_NUMERIC_CONVERSION_DIGITS.zipIdx,
    digitValue p.1 36 = some p.2 := by
  decide

theorem digitValue_upper : ∀ p ∈ UPPER_CASE_NUMERIC_CONVERSION_DIGITS.zipIdx,
    digitValue p.1 36 = some p.2 := by
  decide

/-- What holds of each character code of a range holds of each character. -/
theorem of_char_range {P : Char → ℕ → Prop} {lo hi : Char}
    (h : ∀ n ≤ hi.toNat, lo.toNat ≤ n → P (Char.ofNat n) n) (hc : lo ≤ c ∧ c ≤ hi) :
    P c c.toNat := by
  obtain ⟨h1, h2⟩ := hc
  rw [Char.le_def, UInt32.le_iff_toNat_le] at h1 h2
  have := h c.toNat h2 h1
  rwa [Char.ofNat_toNat] at this

/-- A character with a value is the digit of that value, in one case or the other. -/
theorem digit_of_digitValue (h : digitValue c 36 = some d) :
    d < 36 ∧ (LOWER_CASE_NUMERIC_CONVERSION_DIGITS[d]? = some c
      ∨ UPPER_CASE_NUMERIC_CONVERSION_DIGITS[d]? = some c) := by
  unfold digitValue at h
  rw [Option.filter_eq_some_iff, decide_eq_true_eq] at h
  obtain ⟨h, hlt⟩ := h
  refine ⟨hlt, ?_⟩
  split_ifs at h with h1 h2 h3
  · obtain rfl := Option.some.inj h
    exact .inl (of_char_range (P := fun c n =>
      LOWER_CASE_NUMERIC_CONVERSION_DIGITS[n - '0'.toNat]? = some c) (by decide) h1)
  · obtain rfl := Option.some.inj h
    exact .inl (of_char_range (P := fun c n =>
      LOWER_CASE_NUMERIC_CONVERSION_DIGITS[n - 'a'.toNat + 10]? = some c) (by decide) h2)
  · obtain rfl := Option.some.inj h
    exact .inr (of_char_range (P := fun c n =>
      UPPER_CASE_NUMERIC_CONVERSION_DIGITS[n - 'A'.toNat + 10]? = some c) (by decide) h3)

theorem digitValue_eq_some_iff (hbase : base ≤ 36) : digitValue c base = some d ↔
    d < base ∧ (LOWER_CASE_NUMERIC_CONVERSION_DIGITS[d]? = some c
      ∨ UPPER_CASE_NUMERIC_CONVERSION_DIGITS[d]? = some c) := by
  have hfilter : digitValue c base = some d ↔ d < base ∧ digitValue c 36 = some d := by
    unfold digitValue
    rw [Option.filter_eq_some_iff, Option.filter_eq_some_iff]
    simp only [decide_eq_true_eq]
    constructor
    · rintro ⟨h, hd⟩
      exact ⟨hd, h, by omega⟩
    · rintro ⟨hd, h, -⟩
      exact ⟨h, hd⟩
  rw [hfilter]
  refine and_congr_right fun _ => ⟨fun h => (digit_of_digitValue h).2, ?_⟩
  rintro (h | h)
  · exact digitValue_lower (c, d) (List.mk_mem_zipIdx_iff_getElem?.2 h)
  · exact digitValue_upper (c, d) (List.mk_mem_zipIdx_iff_getElem?.2 h)

theorem digit?_eq_some_iff (hbase : base ≤ 36) : digit? base c = some d ↔
    d < base ∧ (LOWER_CASE_NUMERIC_CONVERSION_DIGITS[d]? = some c
      ∨ UPPER_CASE_NUMERIC_CONVERSION_DIGITS[d]? = some c) := by
  unfold digit?
  rw [← digitValue_eq_some_iff hbase]
  constructor
  · intro h
    have hd := List.mem_range.1 (List.mem_of_find?_eq_some h)
    exact (digitValue_eq_some_iff hbase).2 ⟨hd, by simpa using List.find?_some h⟩
  · intro h
    obtain ⟨hd, hc⟩ := (digitValue_eq_some_iff hbase).1 h
    have hfound : (digit? base c).isSome :=
      List.find?_isSome.2 ⟨d, List.mem_range.2 hd, decide_eq_true hc⟩
    obtain ⟨e, he⟩ := Option.isSome_iff_exists.1 hfound
    have hlt := List.mem_range.1 (List.mem_of_find?_eq_some he)
    have hvalue : digitValue c base = some e :=
      (digitValue_eq_some_iff hbase).2 ⟨hlt, by simpa using List.find?_some he⟩
    exact he.trans (hvalue.symm.trans h)

theorem digitValue_eq (hbase : base ≤ 36) : digitValue c base = digit? base c := by
  ext d
  rw [digitValue_eq_some_iff hbase, digit?_eq_some_iff hbase]

theorem digit?_lt (h : digit? base c = some d) : d < base :=
  List.mem_range.1 (List.mem_of_find?_eq_some h)

/-! ### Runs of digits -/

theorem digitRun_cons_of_none {cs : List Char} (h : digit? base c = none) :
    digitRun base (c :: cs) = [] := by
  simp [digitRun, h]

theorem digitRun_cons_of_some {cs : List Char} (h : digit? base c = some d) :
    digitRun base (c :: cs) = c :: digitRun base cs := by
  simp [digitRun, h]

theorem length_filterMap_digitRun (base : ℕ) (cs : List Char) :
    ((digitRun base cs).filterMap (digit? base)).length = (digitRun base cs).length := by
  induction cs with
  | nil => rfl
  | cons c cs ih =>
    rcases h : digit? base c with _ | d
    · rw [digitRun_cons_of_none h]
      rfl
    · rw [digitRun_cons_of_some h, List.filterMap_cons_some h, List.length_cons, List.length_cons,
        ih]

/-- The first digit counts for the most. -/
theorem valueOf_cons {cs : List Char} (h : digit? base c = some d) :
    valueOf base (c :: digitRun base cs)
      = d * base ^ (digitRun base cs).length + valueOf base (digitRun base cs) := by
  unfold valueOf
  rw [List.filterMap_cons_some h, List.reverse_cons, Nat.ofDigits_append, Nat.ofDigits_singleton,
    List.length_reverse, length_filterMap_digitRun, Nat.add_comm, Nat.mul_comm]

theorem skipDigits_eq (hbase : base ≤ 36) (cs : List Char) (p : ℕ) :
    skipDigits base cs p = p + (digitRun base cs).length := by
  induction cs generalizing p with
  | nil => rfl
  | cons c cs ih =>
    rw [skipDigits, digitValue_eq hbase]
    rcases h : digit? base c with _ | d
    · rw [digitRun_cons_of_none h]
      rfl
    · rw [digitRun_cons_of_some h, if_pos (Option.isSome_some), ih, List.length_cons]
      omega

/-! ### The loop -/

/-- The quotient and the remainder of the limit tell whether the next value is above it. -/
theorem above_limit_iff {limit val : ℕ} (hd : d < base) :
    (limit / base < val ∨ val = limit / base ∧ limit % base < d) ↔ limit < val * base + d := by
  have hdiv := Nat.div_add_mod limit base
  have hmod := Nat.mod_lt limit (by omega : base > 0)
  rw [Nat.mul_comm] at hdiv
  rcases lt_trichotomy val (limit / base) with h | h | h
  · have := Nat.mul_le_mul_right base (Nat.succ_le_of_lt h)
    rw [Nat.succ_mul] at this
    omega
  · subst h
    omega
  · have := Nat.mul_le_mul_right base (Nat.succ_le_of_lt h)
    rw [Nat.succ_mul] at this
    omega

/-- The loop reads the run of digits, and its value while that is in the limit. -/
theorem readDigits_eq {limit : ℕ} (hbase : base ≤ 36) (hlimit : limit < 2 ^ w.bits)
    (cs : List Char) (p val : ℕ) (any : Bool) (hval : val ≤ limit) :
    readDigits w base limit cs p val any =
      if val * base ^ (digitRun base cs).length + valueOf base (digitRun base cs) ≤ limit then
        .done (p + (digitRun base cs).length)
          (val * base ^ (digitRun base cs).length + valueOf base (digitRun base cs))
          (any || !(digitRun base cs).isEmpty)
      else .overflow (p + (digitRun base cs).length) := by
  induction cs generalizing p val any with
  | nil => simp [readDigits, digitRun, valueOf, hval]
  | cons c cs ih =>
    rw [readDigits, digitValue_eq hbase]
    rcases h : digit? base c with _ | d
    · rw [digitRun_cons_of_none h]
      simp [valueOf, hval]
    · dsimp only
      have hd := digit?_lt h
      have hpos : 1 ≤ base ^ (digitRun base cs).length := Nat.one_le_pow _ _ (by omega)
      have hsum : val * base ^ (c :: digitRun base cs).length
            + valueOf base (c :: digitRun base cs)
          = (val * base + d) * base ^ (digitRun base cs).length
            + valueOf base (digitRun base cs) := by
        rw [valueOf_cons h, List.length_cons, pow_succ]
        ring
      rw [digitRun_cons_of_some h, hsum]
      split_ifs with hover hle hle
      · rw [above_limit_iff hd] at hover
        have := Nat.mul_le_mul_left (val * base + d) hpos
        omega
      · rw [skipDigits_eq hbase, digitRun_cons_of_some h]
      · rw [above_limit_iff hd, Nat.not_lt] at hover
        rw [Nat.mod_eq_of_lt (by omega), ih _ _ _ hover, if_pos hle, List.length_cons]
        simp [Nat.add_assoc, Nat.add_comm 1]
      · rw [above_limit_iff hd, Nat.not_lt] at hover
        rw [Nat.mod_eq_of_lt (by omega), ih _ _ _ hover, if_neg hle, List.length_cons]
        simp [Nat.add_assoc, Nat.add_comm 1]

/-! ### The types -/

/-- The sum of the complement and one is the negative number. -/
theorem toSigned_neg (w : Width) {val : ℕ} (h : val ≤ 2 ^ (w.bits - 1)) :
    toSigned w (2 ^ w.bits - 1 - val + 1) = -val := by
  cases w <;> simp only [Width.bits, toSigned, Int.bmod] at h ⊢ <;> norm_num at h ⊢ <;> omega

theorem toSigned_pos (w : Width) {val : ℕ} (h : val ≤ 2 ^ (w.bits - 1) - 1) :
    toSigned w val = val := by
  cases w <;> simp only [Width.bits, toSigned, Int.bmod] at h ⊢ <;> norm_num at h ⊢ <;> omega

theorem natCast_le_pow_sub_one {n k : ℕ} : (n : ℤ) ≤ 2 ^ k - 1 ↔ n ≤ 2 ^ k - 1 := by
  have hpow : ((2 ^ k : ℕ) : ℤ) = 2 ^ k := by push_cast; rfl
  have := Nat.one_le_two_pow (n := k)
  omega

theorem fromCharsUnsigned_eq (w : Width) (text : List Char) (value : ℤ) {base : ℤ}
    (h2 : 2 ≤ base) (h36 : base ≤ 36) : fromCharsUnsigned w text value base
      = Reference ⟨w, false⟩ text value base.toNat := by
  have hlt : 2 ^ w.bits - 1 < 2 ^ w.bits := Nat.sub_lt (Nat.two_pow_pos _) Nat.one_pos
  unfold fromCharsUnsigned Reference
  rw [if_neg (by omega)]
  simp only [Bool.false_eq_true, false_and, if_false, IntType.min, IntType.max, Nat.zero_add]
  rw [readDigits_eq (by omega) hlt _ _ _ _ (Nat.zero_le _)]
  simp only [Nat.zero_mul, Nat.zero_add, Bool.false_or, natCast_le_pow_sub_one,
    Int.natCast_nonneg, true_and]
  rcases eq_or_ne text [] with rfl | hne
  · rfl
  rw [if_neg hne]
  rcases eq_or_ne (digitRun base.toNat text) [] with hrun | hrun
  · rw [hrun]
    simp [valueOf]
  · rw [if_neg hrun]
    split_ifs
    · simp [hrun]
    · rfl

/-- The limit for each sign is the magnitude that fits the type. -/
theorem fits_iff (w : Width) (minus : Prop) [Decidable minus] (val : ℕ) :
    ((⟨w, true⟩ : IntType).min ≤ (if minus then -(val : ℤ) else val)
        ∧ (if minus then -(val : ℤ) else val) ≤ (⟨w, true⟩ : IntType).max)
      ↔ val ≤ if minus then 2 ^ (w.bits - 1) - 1 + 1 else 2 ^ (w.bits - 1) - 1 := by
  have hpow : ((2 ^ (w.bits - 1) : ℕ) : ℤ) = 2 ^ (w.bits - 1) := by push_cast; rfl
  have := Nat.one_le_two_pow (n := w.bits - 1)
  simp only [IntType.min, IntType.max, if_true]
  split_ifs <;> omega

theorem fromCharsSigned_eq (w : Width) (text : List Char) (value : ℤ) {base : ℤ}
    (h2 : 2 ≤ base) (h36 : base ≤ 36) : fromCharsSigned w text value base
      = Reference ⟨w, true⟩ text value base.toNat := by
  unfold fromCharsSigned Reference
  rw [if_neg (by omega)]
  simp only [true_and, fits_iff]
  rcases eq_or_ne text [] with rfl | hne
  · rfl
  rw [if_neg hne]
  have hdrop : text.drop (if text.head? = some '-' then 1 else 0)
      = if text.head? = some '-' then text.tail else text := by
    split_ifs <;> simp
  have hlimit : (if text.head? = some '-' then 2 ^ (w.bits - 1) - 1 + 1
      else 2 ^ (w.bits - 1) - 1) < 2 ^ w.bits := by
    have := Nat.one_le_two_pow (n := w.bits - 1)
    have : 2 ^ (w.bits - 1) < 2 ^ w.bits := by cases w <;> decide
    split_ifs <;> omega
  rw [hdrop, readDigits_eq (by omega) hlimit _ _ _ _ (Nat.zero_le _)]
  simp only [Nat.zero_mul, Nat.zero_add, Bool.false_or]
  generalize digitRun base.toNat (if text.head? = some '-' then text.tail else text) = run
  rcases eq_or_ne run [] with rfl | hrun
  · simp [valueOf]
  · rw [if_neg hrun]
    have hlen : run.length ≠ 0 := fun h => hrun (List.length_eq_zero_iff.1 h)
    by_cases hminus : text.head? = some '-'
    · simp only [hminus, if_true]
      split_ifs with hle
      · have hval : valueOf base.toNat run ≤ 2 ^ (w.bits - 1) := by
          have := Nat.one_le_two_pow (n := w.bits - 1)
          omega
        simp only [toSigned_neg w hval]
        rw [if_neg]
        rintro (h | h)
        · simp [hrun] at h
        · omega
      · rfl
    · simp only [hminus, if_false]
      split_ifs with hle
      · simp only [toSigned_pos w hle]
        rw [if_neg]
        rintro (h | h)
        · simp [hrun] at h
        · exact h.1
      · rfl

/-- `from_chars` takes an optional `-`, where the type is signed, and the longest run of digits, and
stores the exact value if there is a digit and it fits. -/
theorem fromChars_eq (T : IntType) (text : List Char) (value : ℤ) {base : ℤ} (h2 : 2 ≤ base)
    (h36 : base ≤ 36) : fromChars T text value base = Reference T text value base.toNat := by
  obtain ⟨w, signed⟩ := T
  unfold fromChars
  cases signed
  · exact fromCharsUnsigned_eq w text value h2 h36
  · exact fromCharsSigned_eq w text value h2 h36

example : fromChars ⟨.bits8, true⟩ "-128x".toList 7 10 = (⟨4, .success⟩, -128) := by decide

/-- A byte too large and a digit after it. -/
theorem fromChars_eq_overflow : fromChars ⟨.bits8, false⟩ "1F0g".toList 7 16
    = Reference ⟨.bits8, false⟩ "1F0g".toList 7 16 ∧ fromChars ⟨.bits8, false⟩ "1F0g".toList 7 16
      = (⟨3, .value_too_large⟩, 7) :=
  ⟨fromChars_eq _ _ _ (by decide) (by decide), by decide⟩

end MinStd.CharConv
