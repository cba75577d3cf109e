import MinStd.FormatNumber
import MinStd.Proofs.CharConv
import Mathlib.Data.List.TakeWhile

/-!
# What the formatter writes `from_chars` reads back

The digits of a magnitude, taken least significant first and written in reverse, are a run of digits
that stands for it (`valueOf_digitText`).  A buffer with room takes the sign and the digits and no
more, where no width is given, so the reference reader finds the value.
-/

namespace MinStd.FormatNumber

open CharConv

variable {table : List Char} {base d value : ℕ} {buffer : StringBuffer}
  {number : NumericText} {format : ArgFormatOptions}

/-! ### Digits -/

/-- A table that has the digits in one case. -/
def IsTable (table : List Char) : Prop :=
  table = LOWER_CASE_NUMERIC_CONVERSION_DIGITS ∨ table = UPPER_CASE_NUMERIC_CONVERSION_DIGITS

theorem IsTable.getElem? (h : IsTable table) (hd : d < 36) :
    table[d]? = some (table.getD d '\x00') := by
  have hlen : table.length = 36 := by rcases h with rfl | rfl <;> rfl
  rw [List.getD_eq_getElem?_getD, List.getElem?_eq_getElem (by omega), Option.getD_some]

theorem IsTable.digit? (h : IsTable table) (hbase : base ≤ 36) (hd : d < base) :
    digit? base (table.getD d '\x00') = some d := by
  have hget := h.getElem? (d := d) (by omega)
  refine (digit?_eq_some_iff hbase).2 ⟨hd, ?_⟩
  rcases h with rfl | rfl
  · exact .inl hget
  · exact .inr hget

theorem IsTable.ne_null (h : IsTable table) (hd : d < 36) : table.getD d '\x00' ≠ '\x00' := by
  have hmem := List.mem_of_getElem? (h.getElem? hd)
  intro heq
  rw [heq] at hmem
  rcases h with rfl | rfl <;> revert hmem <;> decide

theorem digit?_minus (base : ℕ) (hbase : base ≤ 36) : digit? base '-' = none := by
  rw [← digitValue_eq hbase]
  rfl

/-- The digits of a value, the last first; zero has one. -/
def valueDigits (base value : ℕ) : List ℕ :=
  if value = 0 then [0] else Nat.digits base value

theorem valueDigits_lt (h : 2 ≤ base) (hd : d ∈ valueDigits base value) : d < base := by
  unfold valueDigits at hd
  split_ifs at hd
  · obtain rfl := List.mem_singleton.1 hd
    omega
  · exact Nat.digits_lt_base (by omega) hd

theorem ofDigits_valueDigits (base value : ℕ) :
    Nat.ofDigits base (valueDigits base value) = value := by
  unfold valueDigits
  split_ifs with h
  · simp [h]
  · exact Nat.ofDigits_digits base value

theorem valueDigits_ne_nil (base value : ℕ) : valueDigits base value ≠ [] := by
  unfold valueDigits
  split_ifs with h
  · simp
  · exact Nat.digits_ne_nil_iff_ne_zero.2 h

theorem valueDigits_of_ge (h : 2 ≤ base) (hv : value / base ≠ 0) :
    valueDigits base value = value % base :: valueDigits base (value / base) := by
  have hne : value ≠ 0 := by
    rintro rfl
    exact hv (Nat.zero_div base)
  unfold valueDigits
  rw [if_neg hne, if_neg hv, Nat.digits_def' (by omega) (by omega)]

theorem valueDigits_of_lt (h : value < base) : valueDigits base value = [value] := by
  unfold valueDigits
  split_ifs with h0
  · rw [h0]
  · exact Nat.digits_of_lt base value h0 h

/-- The array has a slot for each digit of a value it can hold. -/
theorem reversedDigits_eq (h : 2 ≤ base) (table : List Char) {slots : ℕ}
    (hv : value < base ^ slots) (hs : 0 < slots) :
    reversedDigits table base slots value
      = some ((valueDigits base value).map (table.getD · '\x00'))
      ∧ (valueDigits base value).length ≤ slots := by
  induction slots generalizing value with
  | zero => omega
  | succ slots ih =>
    rw [reversedDigits]
    split_ifs with hdiv
    · have hslots : 0 < slots := by
        by_contra h0
        obtain rfl : slots = 0 := by omega
        exact hdiv (Nat.div_eq_of_lt (by simpa using hv))
      have hlt : value / base < base ^ slots := by
        rw [Nat.div_lt_iff_lt_mul (by omega)]
        rwa [pow_succ] at hv
      obtain ⟨heq, hlen⟩ := ih hlt hslots
      rw [heq, valueDigits_of_ge h hdiv, List.length_cons]
      exact ⟨rfl, by omega⟩
    · have hlt : value < base := by
        by_contra hge
        exact hdiv (Nat.div_pos (by omega) (by omega)).ne'
      rw [valueDigits_of_lt hlt, Nat.mod_eq_of_lt hlt]
      exact ⟨rfl, by rw [List.length_singleton]; omega⟩

/-! ### The text -/

/-- The digits of a value, the first first. -/
def digitText (table : List Char) (base value : ℕ) : List Char :=
  ((valueDigits base value).map (table.getD · '\x00')).reverse

theorem digitText_ne_nil (table : List Char) (base value : ℕ) :
    digitText table base value ≠ [] := by
  simp [digitText, valueDigits_ne_nil]

theorem digit_of_mem_digitText (ht : IsTable table) (h2 : 2 ≤ base) (h36 : base ≤ 36) {c : Char}
    (hc : c ∈ digitText table base value) :
    ∃ d < base, c = table.getD d '\x00' ∧ digit? base c = some d := by
  obtain ⟨d, hd, rfl⟩ := List.mem_map.1 (List.mem_reverse.1 hc)
  have hlt := valueDigits_lt h2 hd
  exact ⟨d, hlt, rfl, ht.digit? h36 hlt⟩

theorem digitRun_digitText (ht : IsTable table) (h2 : 2 ≤ base) (h36 : base ≤ 36) :
    digitRun base (digitText table base value) = digitText table base value := by
  refine List.takeWhile_eq_self_iff.2 fun c hc => ?_
  obtain ⟨d, -, -, hd⟩ := digit_of_mem_digitText ht h2 h36 hc
  rw [hd]
  rfl

theorem valueOf_digitText (ht : IsTable table) (h2 : 2 ≤ base) (h36 : base ≤ 36) :
    valueOf base (digitText table base value) = value := by
  have hfilter : ∀ l : List ℕ, (∀ d ∈ l, d < base) →
      (l.map (table.getD · '\x00')).filterMap (digit? base) = l := by
    intro l hl
    induction l with
    | nil => rfl
    | cons d l ih =>
      rw [List.map_cons, List.filterMap_cons_some (ht.digit? h36 (hl d List.mem_cons_self)),
        ih fun e he => hl e (List.mem_cons_of_mem _ he)]
  unfold valueOf digitText
  rw [List.filterMap_reverse, List.reverse_reverse, hfilter _ fun d hd => valueDigits_lt h2 hd,
    ofDigits_valueDigits]

/-- A text without a sign, or with a minus, and the digits of a magnitude. -/
def numberText (table : List Char) (base magnitude : ℕ) (isNegative : Bool) : List Char :=
  (if isNegative then ['-'] else []) ++ digitText table base magnitude

theorem reference_numberText (T : IntType) (ht : IsTable table) (h2 : 2 ≤ base) (h36 : base ≤ 36)
    {v : ℤ} (hmin : T.min ≤ v) (hmax : v ≤ T.max) (out : ℤ) :
    Reference T (numberText table base v.natAbs (decide (v < 0))) out base
      = (⟨(numberText table base v.natAbs (decide (v < 0))).length, .success⟩, v) := by
  have hrun : digitRun base (digitText table base v.natAbs) = _ := digitRun_digitText ht h2 h36
  have hval : valueOf base (digitText table base v.natAbs) = _ := valueOf_digitText ht h2 h36
  have hne := digitText_ne_nil table base v.natAbs
  unfold Reference numberText
  by_cases hneg : v < 0
  · have hsigned : T.signed = true := by
      by_contra hs
      unfold IntType.min at hmin
      rw [if_neg hs] at hmin
      omega
    have habs : (-(v.natAbs : ℤ)) = v := by omega
    simp only [hneg, decide_true, if_true, List.singleton_append, List.head?_cons, hsigned,
      true_and, List.tail_cons, hrun, hval, hne, if_false, habs]
    rw [if_pos ⟨hmin, hmax⟩, List.length_cons, Nat.add_comm]
  · have hhead : ¬ (T.signed = true ∧ (digitText table base v.natAbs).head? = some '-') := by
      rintro ⟨-, hhead⟩
      obtain ⟨d, -, -, hd⟩ := digit_of_mem_digitText ht h2 h36 (List.mem_of_mem_head? hhead)
      rw [digit?_minus base h36] at hd
      cases hd
    have habs : (v.natAbs : ℤ) = v := by omega
    simp only [hneg, decide_false, Bool.false_eq_true, if_false, List.nil_append, hhead, hrun,
      hval, hne, habs, Nat.zero_add]
    rw [if_pos ⟨hmin, hmax⟩]

/-! ### The buffer -/

theorem foldl_pushBack (number : NumericText) (s : List Char)
    (h : number.digits.length + s.length ≤ CAPACITY) :
    s.foldl NumericText.pushBack number = { number with digits := number.digits ++ s } := by
  induction s generalizing number with
  | nil => simp
  | cons c s ih =>
    rw [List.length_cons] at h
    have hpush : number.pushBack c = { number with digits := number.digits ++ [c] } :=
      if_pos (by omega)
    rw [List.foldl_cons, hpush, ih]
    · simp
    · simp only [List.length_append, List.length_singleton]
      omega

/-- Without a width nothing is filled. -/
theorem appends_emitNumber {sign digits : List Char} (hwidth : format.width = none)
    (hdigits : ∀ c ∈ digits, c ≠ '\x00')
    (hroom : buffer.chars.length + (sign ++ digits).length ≤ buffer.max_size) :
    buffer.Appends (sign ++ digits)
      (emitNumber buffer ⟨sign, [], digits, 0, 0, 0, true⟩ format) := by
  have hzero : ∀ (b : StringBuffer) (c : Char), appendRepeated b c 0 = b := by
    intro b c
    unfold appendRepeated
    rw [Nat.zero_min]
    rfl
  rw [List.length_append] at hroom
  unfold emitNumber fills
  simp only [hwidth, hzero, lt_irrefl, if_false, List.take_length, List.drop_length]
  have hsign : buffer.Appends sign (buffer.append sign) :=
    StringBuffer.appends_append (by omega)
  have hpre : (buffer.append sign).Appends [] ((buffer.append sign).append []) :=
    StringBuffer.appends_append (by simpa using (buffer.append sign).fits)
  have hroom' := (hsign.trans hpre).room (n := digits.length)
    (by rw [List.append_nil]; omega)
  have htext := (hsign.trans hpre).trans (StringBuffer.appends_pushAll hdigits hroom')
  rw [List.append_nil] at htext
  exact htext

/-! ### The formatter -/

/-- No `#`, no width, and no sign but a minus. -/
structure Plain (format : ArgFormatOptions) : Prop where
  alt : format.alt ≠ some true
  width : format.width = none
  sign : format.sign = none ∨ format.sign = some .minus

theorem Plain.determineSign (h : Plain format) (isNegative : Bool) :
    determineSign isNegative format = if isNegative then ['-'] else [] := by
  unfold FormatNumber.determineSign
  rcases h.sign with hs | hs <;> rw [hs]

theorem Plain.integerPrefix (h : Plain format) (zero : Bool) : integerPrefix format zero = [] := by
  unfold FormatNumber.integerPrefix ArgFormatOptions.isAlt
  rw [if_neg]
  simpa using h.alt

/-- The table a type specifier selects. -/
def tableOf (format : ArgFormatOptions) : List Char :=
  if format.type_specifier = some 'X' ∨ format.type_specifier = some 'B' then
    UPPER_CASE_NUMERIC_CONVERSION_DIGITS
  else LOWER_CASE_NUMERIC_CONVERSION_DIGITS

theorem isTable_tableOf (format : ArgFormatOptions) : IsTable (tableOf format) := by
  unfold tableOf
  split_ifs
  · exact .inr rfl
  · exact .inl rfl

theorem digits_ne_null {c : Char} (ht : IsTable table) (h2 : 2 ≤ base) (h36 : base ≤ 36)
    (hc : c ∈ digitText table base value) : c ≠ '\x00' := by
  obtain ⟨d, hd, rfl, -⟩ := digit_of_mem_digitText ht h2 h36 hc
  exact ht.ne_null (by omega)

/-- The digits of a value that fits the array are added at the end. -/
theorem appendDigits_eq (h2 : 2 ≤ base) {value : ℕ} (hlt : value < 2 ^ 64) (table : List Char)
    {number : NumericText} (hnumber : number.digits = []) :
    appendDigits number value base table =
      some { number with digits := digitText table base value } := by
  have hpow : value < base ^ 64 := lt_of_lt_of_le hlt (Nat.pow_le_pow_left h2 64)
  obtain ⟨hdigits, hlen⟩ := reversedDigits_eq h2 table hpow (by decide)
  have htext : (digitText table base value).length ≤ 64 := by simpa [digitText] using hlen
  rw [appendDigits, hdigits, Option.map_some]
  show some ((digitText table base value).foldl NumericText.pushBack number) = _
  rw [foldl_pushBack number _ (by rw [hnumber]; simpa [CAPACITY] using htext.trans (by decide)),
    hnumber, List.nil_append]

theorem unsignedMagnitudeToString_eq (buffer : StringBuffer)
    (hbase : format.integer_base = some base) (h2 : 2 ≤ base) (h36 : base ≤ 36)
    {magnitude : ℕ} (hlt : magnitude < 2 ^ 64) (isNegative : Bool) :
    unsignedMagnitudeToString buffer magnitude isNegative format =
      some (emitNumber buffer ⟨FormatNumber.determineSign isNegative format,
        FormatNumber.integerPrefix format (magnitude == 0),
        digitText (tableOf format) base magnitude, 0, 0, 0, true⟩ format) := by
  unfold unsignedMagnitudeToString
  rw [hbase]
  dsimp only
  rw [if_neg (by omega), appendDigits_eq h2 hlt _ rfl]
  rfl

theorem appends_unsignedMagnitudeToString (h : Plain format)
    (hbase : format.integer_base = some base) (h2 : 2 ≤ base) (h36 : base ≤ 36) {magnitude : ℕ}
    (hlt : magnitude < 2 ^ 64) (isNegative : Bool)
    (hroom : buffer.chars.length
      + (numberText (tableOf format) base magnitude isNegative).length ≤ buffer.max_size) :
    ∃ b, unsignedMagnitudeToString buffer magnitude isNegative format = some b
      ∧ buffer.Appends (numberText (tableOf format) base magnitude isNegative) b := by
  refine ⟨_, unsignedMagnitudeToString_eq buffer hbase h2 h36 hlt isNegative, ?_⟩
  rw [h.determineSign, h.integerPrefix]
  exact appends_emitNumber h.width
    (fun c hc => digits_ne_null (isTable_tableOf format) h2 h36 hc) hroom

/-- The unsigned magnitude of a value of the type, the least value's included. -/
theorem magnitude_eq {T : IntType} {v : ℤ} (hmin : T.min ≤ v) (hneg : v < 0) :
    (2 ^ T.width.bits - (v % 2 ^ T.width.bits).toNat) % 2 ^ T.width.bits = v.natAbs
      ∧ v.natAbs < 2 ^ 64 := by
  obtain ⟨w, signed⟩ := T
  cases signed
  · simp only [IntType.min, Bool.false_eq_true, if_false] at hmin
    omega
  · cases w <;> simp only [IntType.min, Width.bits, if_true] at hmin ⊢ <;> norm_num at hmin ⊢ <;>
      omega

theorem lt_of_le_max {T : IntType} {v : ℤ} (hmax : v ≤ T.max) (hneg : ¬ v < 0) :
    v.toNat = v.natAbs ∧ v.natAbs < 2 ^ 64 := by
  obtain ⟨w, signed⟩ := T
  cases signed <;> cases w <;> simp [IntType.max, Width.bits] at hmax <;> omega

theorem natAbs_lt {T : IntType} {v : ℤ} (hmin : T.min ≤ v) (hmax : v ≤ T.max) :
    v.natAbs < 2 ^ 64 := by
  by_cases hneg : v < 0
  · exact (magnitude_eq hmin hneg).2
  · exact (lt_of_le_max hmax hneg).2

theorem appendInternal_eq (T : IntType) (buffer : StringBuffer) {v : ℤ} (hmin : T.min ≤ v)
    (hmax : v ≤ T.max) :
    appendInternal T buffer v format =
      unsignedMagnitudeToString buffer v.natAbs (decide (v < 0)) format := by
  unfold appendInternal signedIntToString unsignedIntToString
  by_cases hneg : v < 0
  · have hsigned : T.signed = true := by
      by_contra hs
      unfold IntType.min at hmin
      rw [if_neg hs] at hmin
      omega
    rw [if_pos hsigned, if_pos hneg, (magnitude_eq hmin hneg).1, decide_eq_true hneg]
  · rw [if_neg hneg, (lt_of_le_max hmax hneg).1, ite_self, decide_eq_false hneg]

theorem appends_appendInternal (T : IntType) {v : ℤ} (hmin : T.min ≤ v) (hmax : v ≤ T.max)
    (h : Plain format) (hbase : format.integer_base = some base) (h2 : 2 ≤ base)
    (h36 : base ≤ 36) (hroom : buffer.chars.length
      + (numberText (tableOf format) base v.natAbs (decide (v < 0))).length ≤ buffer.max_size) :
    ∃ b, appendInternal T buffer v format = some b
      ∧ buffer.Appends (numberText (tableOf format) base v.natAbs (decide (v < 0))) b := by
  rw [appendInternal_eq T buffer hmin hmax]
  exact appends_unsignedMagnitudeToString h hbase h2 h36 (natAbs_lt hmin hmax) _ hroom

/-- What the formatter writes for a value of an integer type, `from_chars` for that type consumes
whole, and reads that value. -/
theorem fromChars_appendInternal (T : IntType) {v : ℤ} (hmin : T.min ≤ v) (hmax : v ≤ T.max)
    (h : Plain format) (hbase : format.integer_base = some base) (h2 : 2 ≤ base)
    (h36 : base ≤ 36) :
    ∃ text : List Char,
      (∀ buffer : StringBuffer, buffer.chars.length + text.length ≤ buffer.max_size →
        ∃ b, appendInternal T buffer v format = some b ∧ b.chars = buffer.chars ++ text)
      ∧ ∀ out, fromChars T text out base = (⟨text.length, .success⟩, v) := by
  refine ⟨numberText (tableOf format) base v.natAbs (decide (v < 0)), fun buffer hroom => ?_,
    fun out => ?_⟩
  · obtain ⟨b, hb, happend⟩ := appends_appendInternal T hmin hmax h hbase h2 h36 hroom
    exact ⟨b, hb, happend.chars⟩
  · rw [fromChars_eq T _ out (by omega) (by omega)]
    exact reference_numberText T (isTable_tableOf format) h2 h36 hmin hmax out

/-- The least value, in upper case. -/
theorem fromChars_appendInternal_least : ∃ text : List Char,
    (∀ buffer : StringBuffer, buffer.chars.length + text.length ≤ buffer.max_size →
      ∃ b, appendInternal ⟨.bits64, true⟩ buffer (-2 ^ 63)
        ⟨none, some ' ', some .right, none, some .minus, none, some 'X', some 16⟩ = some b
        ∧ b.chars = buffer.chars ++ text)
    ∧ ∀ out, fromChars ⟨.bits64, true⟩ text out (16 : ℕ) = (⟨text.length, .success⟩, -2 ^ 63) :=
  fromChars_appendInternal ⟨.bits64, true⟩ (by decide) (by decide) ⟨by decide, rfl, .inr rfl⟩ rfl
    (by decide) (by decide)

example : (appendInternal ⟨.bits8, true⟩ ⟨[], 9, by decide⟩ (-128)
    ⟨none, none, none, none, none, none, some 'X', some 16⟩).map (·.chars)
    = some ['-', '8', '0'] := by decide

end MinStd.FormatNumber
