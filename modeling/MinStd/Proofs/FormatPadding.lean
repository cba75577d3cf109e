import MinStd.FormatPadding
import MinStd.Proofs.FormatSpec

/-!
# The padding law

Each piece a formatter appends is clipped where the buffer is full, and from then on nothing fits,
so what is appended in all is clipped as one text.  That text is the natural one, padded to the
width: with zeros between the sign or prefix and the digits, or with the fill around it.
-/

namespace MinStd.FormatSpec

open CharConv FormatNumber

variable {buffer : StringBuffer}

/-! ### Clipping -/

theorem clips_repeatLoop (buffer : StringBuffer) {c : Char} (hc : c ≠ '\x00') (k : ℕ) :
    buffer.Clips (List.replicate k c) (repeatLoop buffer c k) := by
  induction k generalizing buffer with
  | zero => exact .refl buffer
  | succ k ih =>
    have hpush := buffer.clips_pushBack hc
    rw [repeatLoop, List.replicate_succ]
    split_ifs with hsize
    · have hfull : buffer.max_size - buffer.chars.length = 0 := by
        unfold StringBuffer.size at hsize
        rw [hpush.chars, List.length_append, List.length_take, List.length_singleton] at hsize
        omega
      exact ⟨by rw [hpush.chars, hfull, List.take_zero, List.take_zero], hpush.max_size⟩
    · exact hpush.trans (ih (buffer.pushBack c))

theorem clips_appendRepeated (buffer : StringBuffer) {c : Char} (hc : c ≠ '\x00') (count : ℕ) :
    buffer.Clips (List.replicate count c) (appendRepeated buffer c count) := by
  have h := clips_repeatLoop buffer hc (min count (buffer.max_size - buffer.size))
  refine ⟨h.chars.trans ?_, h.max_size⟩
  rw [List.take_replicate, List.take_replicate]
  unfold StringBuffer.size
  congr 2
  omega

/-! ### Numbers -/

/-- The digits of a number with its runs of zeros. -/
def body (number : NumericText) : List Char :=
  let fractionStart :=
    if 0 < number.fraction_start then number.fraction_start else number.digits.length
  number.digits.take fractionStart ++ List.replicate number.integer_zeros '0' ++
    number.digits.drop fractionStart ++ List.replicate number.trailing_zeros '0'

/-- A head and a tail padded to a width: zeros go between them. -/
def padded (fill : Char) (zeroFill : Bool) (alignment : Align) (width : Option ℕ)
    (head tail : List Char) : List Char :=
  let count := width.getD 0 - (head ++ tail).length
  if zeroFill then head ++ List.replicate count '0' ++ tail
  else
    match alignment with
    | .left => head ++ tail ++ List.replicate count fill
    | .right => List.replicate count fill ++ (head ++ tail)
    | .center => List.replicate (count / 2) fill ++ (head ++ tail) ++
        List.replicate (count - count / 2) fill

theorem length_padded (fill : Char) (zeroFill : Bool) (alignment : Align) (width : Option ℕ)
    (head tail : List Char) :
    (padded fill zeroFill alignment width head tail).length =
      max (width.getD 0) (head ++ tail).length := by
  unfold padded
  split_ifs
  · simp only [List.length_append, List.length_replicate]
    omega
  · cases alignment <;> simp only [List.length_append, List.length_replicate] <;> omega

/-- Options completed from the defaults of a type: there is a fill and an alignment. -/
structure Merged (options : FormatOptions) (fill : Char) (alignment : Align) : Prop where
  fill_eq : options.fill = some fill
  fill_ne : fill ≠ '\x00'
  alignment_eq : options.alignment = some alignment

/-- The text `emitNumber` writes, for the fill it computes. -/
theorem clips_pieces (buffer : StringBuffer) (format : ArgFormatOptions) {number : NumericText}
    (hfill : format.isZeroFill = true ∨ format.fill.getD ' ' ≠ '\x00')
    (hdigits : ∀ c ∈ number.digits, c ≠ '\x00') {length before zeros after : ℕ}
    (hlength : length = (number.sign ++ number.pre ++ body number).length)
    (hfills : fills number format length = (before, zeros, after)) :
    buffer.Clips
      (List.replicate before (if format.isZeroFill then ' ' else format.fill.getD ' ') ++
        (number.sign ++ number.pre) ++ List.replicate zeros '0' ++ body number ++
        List.replicate after (if format.isZeroFill then ' ' else format.fill.getD ' '))
      (emitNumber buffer number format) := by
  have hfill' : (if format.isZeroFill then ' ' else format.fill.getD ' ') ≠ '\x00' := by
    split_ifs with hz
    · decide
    · exact hfill.resolve_left hz
  have hzero : '0' ≠ '\x00' := by decide
  have hlen : number.sign.length + number.pre.length + number.digits.length +
      number.integer_zeros + number.trailing_zeros = length := by
    rw [hlength]
    unfold body
    simp only [List.length_append, List.length_replicate, List.length_take, List.length_drop]
    omega
  unfold emitNumber
  dsimp only
  rw [hlen, hfills]
  dsimp only
  generalize (if format.isZeroFill then ' ' else format.fill.getD ' ') = fill at hfill' ⊢
  unfold body
  dsimp only
  generalize (if 0 < number.fraction_start then number.fraction_start
    else number.digits.length) = start
  have hbefore := clips_appendRepeated buffer hfill' before
  have hhead := (hbefore.trans (StringBuffer.clips_append _ number.sign)).trans
    (StringBuffer.clips_append _ number.pre)
  have htake : ∀ c ∈ number.digits.take start, c ≠ '\x00' := fun c hc =>
    hdigits c (List.mem_of_mem_take hc)
  have hdrop : ∀ c ∈ number.digits.drop start, c ≠ '\x00' := fun c hc =>
    hdigits c (List.mem_of_mem_drop hc)
  have hwhole := ((hhead.trans (clips_appendRepeated _ hzero zeros)).trans
    (StringBuffer.clips_pushAll _ htake)).trans
      (clips_appendRepeated _ hzero number.integer_zeros)
  have hall := ((hwhole.trans (StringBuffer.clips_pushAll _ hdrop)).trans
    (clips_appendRepeated _ hzero number.trailing_zeros)).trans
      (clips_appendRepeated _ hfill' after)
  simpa only [List.append_assoc] using hall

/-- The fill around a text of so many characters to pad. -/
def around (alignment : Align) (count : ℕ) : ℕ × ℕ :=
  match alignment with
  | .left => (0, count)
  | .right => (count, 0)
  | .center => (count / 2, count - count / 2)

theorem padded_eq (fill : Char) (alignment : Align) (width : Option ℕ) (head tail : List Char) :
    padded fill false alignment width head tail =
      List.replicate (around alignment (width.getD 0 - (head ++ tail).length)).1 fill ++
        (head ++ tail) ++
        List.replicate (around alignment (width.getD 0 - (head ++ tail).length)).2 fill := by
  cases alignment <;> simp [padded, around]

variable {options : FormatOptions} {fill : Char} {alignment : Align}

theorem fills_eq (h : Merged options fill alignment) {number : NumericText}
    (hfinite : number.finite = true) (length : ℕ) :
    fills number options.toArgFormatOptions length =
      if options.isZeroFill then (0, options.width.getD 0 - length, 0)
      else ((around alignment (options.width.getD 0 - length)).1, 0,
        (around alignment (options.width.getD 0 - length)).2) := by
  have hright : options.isRightAligned = (alignment == .right) := by
    simp [ArgFormatOptions.isRightAligned, h.alignment_eq]
  have hcenter : options.isCenterAligned = (alignment == .center) := by
    simp [ArgFormatOptions.isCenterAligned, h.alignment_eq]
  have hzero : around alignment 0 = (0, 0) := by cases alignment <;> rfl
  unfold fills
  rcases hw : options.width with _ | width
  · simp [hzero]
  · rw [Option.getD_some]
    by_cases hlt : length < width
    · by_cases hz : options.isZeroFill
      · simp [hlt, hz, hfinite]
      · cases alignment <;> simp [hlt, hz, hright, hcenter, around]
    · simp [hlt, Nat.sub_eq_zero_of_le (Nat.le_of_not_lt hlt), hzero]

theorem clips_emitNumber (h : Merged options fill alignment) {number : NumericText}
    (hfinite : number.finite = true) (hdigits : ∀ c ∈ number.digits, c ≠ '\x00') :
    buffer.Clips (padded fill options.isZeroFill alignment options.width
      (number.sign ++ number.pre) (body number))
      (emitNumber buffer number options.toArgFormatOptions) := by
  have hfill : options.fill.getD ' ' = fill := by rw [h.fill_eq, Option.getD_some]
  have hfills := fills_eq h hfinite (number.sign ++ number.pre ++ body number).length
  by_cases hz : options.isZeroFill
  · rw [if_pos hz] at hfills
    have hpieces := clips_pieces buffer options.toArgFormatOptions (.inl hz) hdigits rfl hfills
    simpa [padded, hz] using hpieces
  · rw [if_neg hz] at hfills
    have hpieces := clips_pieces buffer options.toArgFormatOptions (.inr (hfill ▸ h.fill_ne))
      hdigits rfl hfills
    rw [Bool.not_eq_true] at hz
    rw [hz, padded_eq]
    simpa [hz, hfill] using hpieces

/-! ### Integers -/

/-- The sign of an integer: of one that is not negative, what the option asks for. -/
def signText (sign : Option SignTreatment) (v : ℤ) : List Char :=
  if v < 0 then ['-']
  else if sign = some .always_plus then ['+']
  else if sign = some .space then [' ']
  else []

/-- The prefix of an integer in the alternate form, by its type; an octal zero has none. -/
def prefixText (alt : Option Bool) (type : Option Char) (v : ℤ) : List Char :=
  if alt ≠ some true then []
  else if type = some 'b' then ['0', 'b']
  else if type = some 'B' then ['0', 'B']
  else if type = some 'x' then ['0', 'x']
  else if type = some 'X' then ['0', 'X']
  else if type = some 'o' ∧ v ≠ 0 then ['0']
  else []

/-- A digit as a character. -/
def digitChar (upper : Bool) (d : ℕ) : Char :=
  if d < 10 then Char.ofNat ('0'.toNat + d)
  else Char.ofNat ((if upper then 'A' else 'a').toNat + (d - 10))

/-- What stands before the digits of an integer. -/
def integerHead (options : FormatOptions) (v : ℤ) : List Char :=
  signText options.sign v ++ prefixText options.alt options.type_specifier v

/-- The magnitude of an integer in the base, upper case for the types that ask for it. -/
def integerDigits (options : FormatOptions) (base : ℕ) (v : ℤ) : List Char :=
  ((valueDigits base v.natAbs).map (digitChar
    (options.type_specifier = some 'X' ∨ options.type_specifier = some 'B'))).reverse

/-- An integer's text, padded. -/
def integerText (options : FormatOptions) (fill : Char) (alignment : Align) (base : ℕ) (v : ℤ) :
    List Char :=
  padded fill (options.zero_fill = some true) alignment options.width (integerHead options v)
    (integerDigits options base v)

theorem determineSign_eq (format : ArgFormatOptions) (v : ℤ) :
    determineSign (decide (v < 0)) format = signText format.sign v := by
  unfold determineSign signText
  by_cases hv : v < 0
  · simp [hv]
  · rcases format.sign with _ | _ | _ | _ <;> simp [hv]

theorem integerPrefix_eq (format : ArgFormatOptions) (v : ℤ) :
    integerPrefix format (decide (v = 0)) = prefixText format.alt format.type_specifier v := by
  unfold integerPrefix prefixText ArgFormatOptions.isAlt
  by_cases halt : format.alt = some true
  · rw [if_pos (by simp [halt]), if_neg (not_not.2 halt)]
    split <;> simp_all
  · rw [if_neg (by simpa using halt), if_pos halt]

theorem getD_table {upper : Bool} {d : ℕ} (hd : d < 36) :
    (if upper then UPPER_CASE_NUMERIC_CONVERSION_DIGITS
      else LOWER_CASE_NUMERIC_CONVERSION_DIGITS).getD d '\x00' = digitChar upper d := by
  have hall : ∀ upper : Bool, ∀ d < 36, (if upper then UPPER_CASE_NUMERIC_CONVERSION_DIGITS
      else LOWER_CASE_NUMERIC_CONVERSION_DIGITS).getD d '\x00' = digitChar upper d := by decide
  exact hall upper d hd

theorem digitText_eq (options : FormatOptions) {base : ℕ} (h2 : 2 ≤ base) (h36 : base ≤ 36)
    (v : ℤ) :
    digitText (tableOf options.toArgFormatOptions) base v.natAbs
      = integerDigits options base v := by
  unfold digitText integerDigits
  congr 1
  refine List.map_congr_left fun d hd => ?_
  have hlt := valueDigits_lt h2 hd
  rw [← getD_table (by omega)]
  simp only [tableOf, decide_eq_true_eq]

theorem isZeroFill_eq (options : FormatOptions) :
    options.isZeroFill = decide (options.zero_fill = some true) := by
  unfold ArgFormatOptions.isZeroFill
  by_cases h : options.zero_fill = some true <;> simp [h]

theorem clips_appendInternal (T : IntType) (h : Merged options fill alignment) {base : ℕ}
    (hbase : options.integer_base = some base) (h2 : 2 ≤ base) (h36 : base ≤ 36) {v : ℤ}
    (hmin : T.min ≤ v) (hmax : v ≤ T.max) (buffer : StringBuffer) :
    ∃ b, appendInternal T buffer v options.toArgFormatOptions = some b ∧
      buffer.Clips (integerText options fill alignment base v) b := by
  rw [appendInternal_eq T buffer hmin hmax]
  refine ⟨_, unsignedMagnitudeToString_eq buffer hbase h2 h36 (natAbs_lt hmin hmax) _, ?_⟩
  have hzero : (v.natAbs == 0) = decide (v = 0) := by
    rcases eq_or_ne v 0 with rfl | hv
    · rfl
    · simp [hv]
  have hdigits : ∀ c ∈ integerDigits options base v, c ≠ '\x00' := by
    rw [← digitText_eq options h2 h36]
    exact fun c hc => digits_ne_null (isTable_tableOf _) h2 h36 hc
  have hclips : buffer.Clips _ (emitNumber buffer
      ⟨signText options.sign v, prefixText options.alt options.type_specifier v,
        integerDigits options base v, 0, 0, 0, true⟩
      options.toArgFormatOptions) := clips_emitNumber h rfl hdigits
  rw [hzero, determineSign_eq, integerPrefix_eq, digitText_eq options h2 h36]
  simpa [integerText, integerHead, body, isZeroFill_eq] using hclips

/-! ### Strings -/

/-- A string clipped to its precision. -/
def clipped (options : FormatOptions) (value : List Char) : List Char :=
  match options.precision with
  | some precision => value.take precision
  | none => value

/-- A string's text, padded; zeros are for numbers only. -/
def stringText (options : FormatOptions) (fill : Char) (alignment : Align) (value : List Char) :
    List Char :=
  padded fill false alignment options.width [] (clipped options value)

theorem stringFills_eq (h : Merged options fill alignment) (length : ℕ) :
    stringFills options length = around alignment (options.width.getD 0 - length) := by
  have hzero : around alignment 0 = (0, 0) := by cases alignment <;> rfl
  unfold stringFills
  rcases hw : options.width with _ | width
  · simp [hzero]
  · rw [Option.getD_some]
    by_cases hlt : length < width
    · rw [h.alignment_eq]
      cases alignment <;> simp [hlt, around]
    · simp [hlt, Nat.sub_eq_zero_of_le (Nat.le_of_not_lt hlt), hzero]

theorem clips_formattedStringAppend (h : Merged options fill alignment) {value : List Char}
    (hvalue : ∀ c ∈ value, c ≠ '\x00') (buffer : StringBuffer) :
    ∃ b, formattedStringAppend buffer value value.length options = some b ∧
      buffer.Clips (stringText options fill alignment value) b := by
  have hlength : printedLength options value.length = (clipped options value).length ∧
      value.take (clipped options value).length = clipped options value := by
    unfold clipped printedLength
    rcases options.precision with _ | precision
    · simp
    · dsimp only
      rw [List.length_take]
      refine ⟨by split_ifs <;> omega, ?_⟩
      rw [List.take_eq_take_iff]
      omega
  have htext : (clipped options value).takeWhile (fun c => c ≠ '\x00') = clipped options value := by
    refine List.takeWhile_eq_self_iff.2 fun c hc => ?_
    rw [← hlength.2] at hc
    exact decide_eq_true (hvalue c (List.mem_of_mem_take hc))
  unfold formattedStringAppend
  dsimp only
  rw [hlength.1, stringFills_eq h, h.fill_eq, Option.map_some, hlength.2, htext, stringText,
    padded_eq, List.nil_append]
  exact ⟨_, rfl, ((clips_appendRepeated buffer h.fill_ne _).trans
    (StringBuffer.clips_append _ _)).trans (clips_appendRepeated _ h.fill_ne _)⟩

/-! ### Merged options -/

/-- A fill that can be stored, and a base there are digits for. -/
def Sound (options : FormatOptions) : Prop :=
  (∀ c ∈ options.fill, c ≠ '\x00') ∧ ∀ base ∈ options.integer_base, 2 ≤ base ∧ base ≤ 36

section Sound

variable {s : List Char} {o o' : FormatOptions}

theorem sound_parseTypeSpecifier (c : Char) (h : Sound o) : Sound (parseTypeSpecifier c o) := by
  unfold parseTypeSpecifier
  split <;> refine ⟨h.1, ?_⟩ <;> first | exact h.2 | (rintro base ⟨⟩; omega)

theorem sound_parseType (h : Sound o) (hp : parseType s o = some o') : Sound o' := by
  rcases s with _ | ⟨c, s⟩
  · exact Option.some.inj hp ▸ h
  · exact Option.some.inj hp ▸ sound_parseTypeSpecifier c h

theorem sound_parsePrecision (h : Sound o) (hp : parsePrecision s o = some o') : Sound o' := by
  unfold parsePrecision at hp
  split at hp
  · exact Option.some.inj hp ▸ h
  · obtain ⟨⟨rest, precision⟩, _, hp⟩ := Option.bind_eq_some_iff.1 hp
    exact sound_parseType (o := { o with precision := precision }) ⟨h.1, h.2⟩ hp
  · exact sound_parseType h hp

theorem sound_parseWidth (h : Sound o) (hp : parseWidth s o = some o') : Sound o' := by
  unfold parseWidth at hp
  split at hp
  · exact Option.some.inj hp ▸ h
  · obtain ⟨⟨rest, width⟩, _, hp⟩ := Option.bind_eq_some_iff.1 hp
    exact sound_parsePrecision (o := { o with width := width }) ⟨h.1, h.2⟩ hp

theorem sound_parseZeroFill (h : Sound o) (hp : parseZeroFill s o = some o') : Sound o' := by
  unfold parseZeroFill at hp
  split at hp
  · exact Option.some.inj hp ▸ h
  · exact sound_parseWidth (o := { o with zero_fill := some o.alignment.isNone }) ⟨h.1, h.2⟩ hp
  · exact sound_parseWidth h hp

theorem sound_parseAlt (h : Sound o) (hp : parseAlt s o = some o') : Sound o' := by
  unfold parseAlt at hp
  split at hp
  · exact Option.some.inj hp ▸ h
  · exact sound_parseZeroFill (o := { o with alt := some true }) ⟨h.1, h.2⟩ hp
  · exact sound_parseZeroFill h hp

theorem sound_parseSign (h : Sound o) (hp : parseSign s o = some o') : Sound o' := by
  rw [parseSign_eq] at hp
  refine sound_parseAlt ?_ hp
  unfold parseSignSpecifier
  split <;> exact ⟨h.1, h.2⟩

theorem sound_setAlignment (c : Char) (h : Sound o) : Sound (setAlignment c o) := by
  unfold setAlignment
  split <;> exact ⟨h.1, h.2⟩

theorem sound_parseAlignmentAndFill {rest : List Char} (hs : ∀ c ∈ s, c ≠ '\x00') (h : Sound o)
    (hp : parseAlignmentAndFill s o = some (rest, o')) : Sound o' := by
  have hno {s : List Char} (hp : parseNoAlignment s o = some (rest, o')) : Sound o' := by
    unfold parseNoAlignment at hp
    split_ifs at hp
    obtain ⟨_, rfl⟩ := Prod.mk.inj (Option.some.inj hp)
    exact h
  unfold parseAlignmentAndFill at hp
  split at hp
  · split_ifs at hp
    · obtain ⟨_, rfl⟩ := Prod.mk.inj (Option.some.inj hp)
      refine ⟨?_, (sound_setAlignment _ h).2⟩
      rintro _ ⟨⟩
      exact hs _ List.mem_cons_self
    · obtain ⟨_, rfl⟩ := Prod.mk.inj (Option.some.inj hp)
      exact sound_setAlignment _ h
    · exact hno hp
  · split_ifs at hp
    · obtain ⟨_, rfl⟩ := Prod.mk.inj (Option.some.inj hp)
      exact sound_setAlignment _ h
    · exact hno hp
  · exact hno hp

theorem sound_parseArgFormatString (hs : ∀ c ∈ s, c ≠ '\x00')
    (hp : parseArgFormatString s = some o') : Sound o' := by
  have hclear : Sound clear := ⟨fun _ h => (nomatch h), fun _ h => (nomatch h)⟩
  have hspec : ∀ c ∈ specOf s, c ≠ '\x00' := fun c hc =>
    hs c ((List.dropWhile_suffix _).mem (List.mem_of_mem_tail hc))
  unfold parseArgFormatString at hp
  split at hp
  · exact Option.some.inj hp ▸ hclear
  · obtain ⟨⟨rest, o⟩, halign, hp⟩ := Option.bind_eq_some_iff.1 hp
    have h := sound_parseAlignmentAndFill hspec hclear halign
    refine sound_parseSign ?_ hp
    unfold overrideZeroFill
    split_ifs <;> exact ⟨h.1, h.2⟩

/-- What a format string gives, completed from a type's defaults, is as the law needs it. -/
theorem merged_mergeDefaults (hs : ∀ c ∈ s, c ≠ '\x00') (hp : parseArgFormatString s = some o)
    {defaults : FormatOptions} {a : Align} (hfill : defaults.fill = some ' ')
    (halignment : defaults.alignment = some a) :
    ∃ fill alignment, Merged (o.mergeDefaults defaults) fill alignment := by
  have hsound := sound_parseArgFormatString hs hp
  refine ⟨o.fill.getD ' ', o.alignment.getD a, ?_, ?_, ?_⟩
  · show o.fill.or defaults.fill = _
    rw [hfill]
    cases o.fill <;> rfl
  · rcases h : o.fill with _ | c
    · decide
    · exact hsound.1 c h
  · show o.alignment.or defaults.alignment = _
    rw [halignment]
    cases o.alignment <;> rfl

theorem base_mergeDefaults (hs : ∀ c ∈ s, c ≠ '\x00') (hp : parseArgFormatString s = some o)
    {defaults : FormatOptions} {base : ℕ} (hbase : defaults.integer_base = some base)
    (h2 : 2 ≤ base) (h36 : base ≤ 36) :
    ∃ base, (o.mergeDefaults defaults).integer_base = some base ∧ 2 ≤ base ∧ base ≤ 36 := by
  have hsound := sound_parseArgFormatString hs hp
  refine ⟨o.integer_base.getD base, ?_, ?_⟩
  · show o.integer_base.or defaults.integer_base = _
    rw [hbase]
    cases o.integer_base <;> rfl
  · rcases h : o.integer_base with _ | b
    · exact ⟨h2, h36⟩
    · exact hsound.2 b h

/-- What an integer's format string gives, completed from a type's defaults, has a base besides. -/
theorem merged_integer (hs : ∀ c ∈ s, c ≠ '\x00') (hp : parseArgFormatString s = some o)
    (defaults : FormatOptions) (hd : defaults = DEFAULT_INTEGER_FORMAT
      ∨ defaults = DEFAULT_POINTER_FORMAT) :
    ∃ fill alignment base, Merged (o.mergeDefaults defaults) fill alignment
      ∧ (o.mergeDefaults defaults).integer_base = some base ∧ 2 ≤ base ∧ base ≤ 36 := by
  have hmerged : ∃ fill alignment, Merged (o.mergeDefaults defaults) fill alignment := by
    rcases hd with rfl | rfl <;> exact merged_mergeDefaults hs hp rfl rfl
  have hbase : ∃ base, (o.mergeDefaults defaults).integer_base = some base
      ∧ 2 ≤ base ∧ base ≤ 36 := by
    rcases hd with rfl | rfl <;> exact base_mergeDefaults hs hp rfl (by omega) (by omega)
  obtain ⟨fill, alignment, h⟩ := hmerged
  obtain ⟨base, hbase⟩ := hbase
  exact ⟨fill, alignment, base, h, hbase⟩

end Sound

/-! ### The law -/

/-- The text is the head and the tail padded to the width: zeros between them when zero fill
applies, otherwise the fill around them, the smaller half first. -/
structure IsPadded (fill : Char) (zeroFill : Bool) (alignment : Align) (width : ℕ)
    (head tail text : List Char) : Prop where
  length_eq : text.length = max width (head ++ tail).length
  shape : ∃ before zeros after, text = List.replicate before fill ++ head ++
      List.replicate zeros '0' ++ tail ++ List.replicate after fill ∧
    if zeroFill then before = 0 ∧ after = 0
    else zeros = 0 ∧ (before, after) = around alignment (width - (head ++ tail).length)

theorem isPadded_padded (fill : Char) (zeroFill : Bool) (alignment : Align) (width : Option ℕ)
    (head tail : List Char) :
    IsPadded fill zeroFill alignment (width.getD 0) head tail
      (padded fill zeroFill alignment width head tail) := by
  refine ⟨length_padded .., ?_⟩
  cases zeroFill
  · obtain ⟨before, after, haround⟩ : ∃ before after,
        around alignment (width.getD 0 - (head ++ tail).length) = (before, after) := ⟨_, _, rfl⟩
    refine ⟨before, 0, after, ?_, rfl, haround.symm⟩
    rw [padded_eq, haround]
    simp
  · exact ⟨0, width.getD 0 - (head ++ tail).length, 0, by simp [padded], rfl, rfl⟩

/-- An integer or a null-free string is appended as one padded text, of which as much is written as
there is room for; and what a format string gives is merged once it is completed from the defaults
of a type. -/
theorem padding_law :
    (∀ (T : IntType) (options : FormatOptions) (fill : Char) (alignment : Align) (base : ℕ) (v : ℤ),
      Merged options fill alignment → options.integer_base = some base → 2 ≤ base → base ≤ 36 →
      T.min ≤ v → v ≤ T.max →
      ∃ text, IsPadded fill (options.zero_fill = some true) alignment (options.width.getD 0)
          (integerHead options v) (integerDigits options base v) text ∧
        ∀ buffer : StringBuffer, ∃ b,
          appendInternal T buffer v options.toArgFormatOptions = some b ∧
          b.chars = buffer.chars ++ text.take (buffer.max_size - buffer.chars.length)) ∧
    (∀ (options : FormatOptions) (fill : Char) (alignment : Align) (value : List Char),
      Merged options fill alignment → (∀ c ∈ value, c ≠ '\x00') →
      ∃ text, IsPadded fill false alignment (options.width.getD 0) [] (clipped options value)
          text ∧
        ∀ buffer : StringBuffer, ∃ b,
          formattedStringAppend buffer value value.length options = some b ∧
          b.chars = buffer.chars ++ text.take (buffer.max_size - buffer.chars.length)) ∧
    ∀ (s : List Char) (o : FormatOptions), (∀ c ∈ s, c ≠ '\x00') → parseArgFormatString s = some o →
      (∃ fill alignment, Merged (o.mergeDefaults DEFAULT_STRING_FORMAT) fill alignment) ∧
      ∀ defaults, defaults = DEFAULT_INTEGER_FORMAT ∨ defaults = DEFAULT_POINTER_FORMAT →
        ∃ fill alignment base, Merged (o.mergeDefaults defaults) fill alignment ∧
          (o.mergeDefaults defaults).integer_base = some base ∧ 2 ≤ base ∧ base ≤ 36 := by
  refine ⟨fun T options fill alignment base v h hbase h2 h36 hmin hmax => ?_,
    fun options fill alignment value h hvalue => ?_,
    fun s o hs hp => ⟨merged_mergeDefaults hs hp rfl rfl, merged_integer hs hp⟩⟩
  · refine ⟨_, isPadded_padded .., fun buffer => ?_⟩
    obtain ⟨b, hb, hclips⟩ := clips_appendInternal T h hbase h2 h36 hmin hmax buffer
    exact ⟨b, hb, hclips.chars⟩
  · refine ⟨_, isPadded_padded .., fun buffer => ?_⟩
    obtain ⟨b, hb, hclips⟩ := clips_formattedStringAppend h hvalue buffer
    exact ⟨b, hb, hclips.chars⟩

/-- Zero-filled hexadecimal with its prefix. -/
def zeroFilled : FormatOptions :=
  ⟨⟨some 8, some ' ', some .right, some true, none, some true, some 'x', some 16⟩, none⟩

/-- Centred, of two characters. -/
def centred : FormatOptions :=
  ⟨⟨some 5, some '*', some .center, none, none, none, none, none⟩, some 2⟩

theorem padding_law_applies :
    (∃ text, IsPadded ' ' true .right 8 "-0x".toList "2a".toList text ∧
      ∀ buffer : StringBuffer, ∃ b,
        appendInternal ⟨.bits32, true⟩ buffer (-42) zeroFilled.toArgFormatOptions = some b ∧
        b.chars = buffer.chars ++ text.take (buffer.max_size - buffer.chars.length)) ∧
    (∃ text, IsPadded '*' false .center 5 [] ['a', 'b'] text ∧
      ∀ buffer : StringBuffer, ∃ b,
        formattedStringAppend buffer ['a', 'b', 'c'] 3 centred = some b ∧
        b.chars = buffer.chars ++ text.take (buffer.max_size - buffer.chars.length)) ∧
    ∃ fill alignment, Merged (clear.mergeDefaults DEFAULT_STRING_FORMAT) fill alignment := by
  have hdigits : integerDigits zeroFilled 16 (-42) = "2a".toList := by
    simp [integerDigits, valueDigits, zeroFilled, digitChar]
  have hinteger := padding_law.1 ⟨.bits32, true⟩ zeroFilled ' ' .right 16 (-42)
    ⟨rfl, by decide, rfl⟩ rfl (by omega) (by omega) (by decide) (by decide)
  rw [hdigits] at hinteger
  exact ⟨hinteger,
    padding_law.2.1 centred '*' .center ['a', 'b', 'c'] ⟨rfl, by decide, rfl⟩ (by simp),
    (padding_law.2.2 [] clear (by simp) rfl).1⟩

end MinStd.FormatSpec
