import MinStd.FormatSpec
import MinStd.Proofs.FormatNumber
import Mathlib.Data.Nat.Digits.Lemmas

/-!
# Format specifications are read as they are written

The loop over digits rejects once the number so far is above a tenth of the limit, and numbers only
grow with the digits, so it rejects just the runs whose value is above the largest number it takes.
The other fields are told apart by their first character, so the text of a list of options is read
field by field.
-/

namespace MinStd.FormatSpec

open CharConv FormatNumber

/-! ### Digits -/

/-- The largest width or precision that is read. -/
def MAX_NUMBER : ℕ := 4294967289

theorem digit?_of_isDigit {c : Char} (h : c ≠ '\x00' ∧ c.isDigit) :
    digit? 10 c = some (c.toNat - '0'.toNat) := by
  have hdig : '0' ≤ c ∧ c ≤ '9' := by simpa [Char.isDigit, Char.le_def] using h.2
  have h9 : c.toNat ≤ 57 := hdig.2
  rw [← digitValue_eq (by omega), digitValue, if_pos hdig, Option.filter_some, if_pos]
  have : '0'.toNat = 48 := rfl
  exact decide_eq_true (by omega)

theorem digit?_of_not_isDigit {c : Char} (h : ¬ (c ≠ '\x00' ∧ c.isDigit)) : digit? 10 c = none := by
  have hdig : ¬ ('0' ≤ c ∧ c ≤ '9') := by
    refine fun hd => h ⟨?_, by simpa [Char.isDigit, Char.le_def] using hd⟩
    rintro rfl
    exact absurd hd (by decide)
  rw [← digitValue_eq (by omega), digitValue, if_neg hdig, Option.filter_eq_none_iff]
  intro d hd
  split_ifs at hd
  all_goals
    obtain rfl := Option.some.inj hd
    simp

theorem digitRun_append {run rest : List Char} (h : digitRun 10 run = run)
    (hrest : ∀ c ∈ rest.head?, digit? 10 c = none) : digitRun 10 (run ++ rest) = run := by
  have hrun := List.takeWhile_eq_self_iff.1 h
  unfold digitRun
  rw [List.takeWhile_append_of_pos hrun]
  rcases rest with _ | ⟨c, rest⟩
  · simp
  · simp [hrest c rfl]

/-- The number a run of digits gives, if there is one. -/
def writtenNumber (run : List Char) : Option ℕ :=
  if run = [] then none else some (valueOf 10 run)

theorem parseDigits_some (s : List Char) {v : ℕ} (hv : v ≤ MAX_NUMBER) :
    parseDigits s (some v) =
      if v * 10 ^ (digitRun 10 s).length + valueOf 10 (digitRun 10 s) ≤ MAX_NUMBER then
        some (s.drop (digitRun 10 s).length,
          some (v * 10 ^ (digitRun 10 s).length + valueOf 10 (digitRun 10 s)))
      else none := by
  induction s generalizing v with
  | nil => simp [parseDigits, digitRun, valueOf, hv]
  | cons c s ih =>
    rw [parseDigits]
    by_cases hc : c ≠ '\x00' ∧ c.isDigit
    · have hdigit := digit?_of_isDigit hc
      have hd := digit?_lt hdigit
      rw [if_pos hc, digitRun_cons_of_some hdigit, valueOf_cons hdigit, List.length_cons,
        List.drop_succ_cons]
      generalize c.toNat - '0'.toNat = d at hd ⊢
      have hexact : v * 10 ^ ((digitRun 10 s).length + 1) +
          (d * 10 ^ (digitRun 10 s).length + valueOf 10 (digitRun 10 s)) =
          (v * 10 + d) * 10 ^ (digitRun 10 s).length + valueOf 10 (digitRun 10 s) := by ring
      have hpos : 0 < 10 ^ (digitRun 10 s).length := by positivity
      rw [hexact]
      have hlimit : (UINT32_MAX - 9) / 10 = 429496728 := rfl
      have hnext (h : v ≤ 429496728) : v * 10 + d ≤ MAX_NUMBER := by
        unfold MAX_NUMBER
        omega
      have hword (h : v ≤ 429496728) : v * 10 + d < WORD32 := by
        unfold WORD32
        omega
      simp only [Option.any_some, decide_eq_true_eq, hlimit, Option.elim_some]
      split_ifs with hbig hle hle
      · have := Nat.le_mul_of_pos_right (v * 10 + d) hpos
        unfold MAX_NUMBER at hle
        omega
      · rfl
      · rw [Nat.mod_eq_of_lt (hword (by omega)), ih (hnext (by omega)), if_pos hle]
      · rw [Nat.mod_eq_of_lt (hword (by omega)), ih (hnext (by omega)), if_neg hle]
    · rw [if_neg hc, digitRun_cons_of_none (digit?_of_not_isDigit hc)]
      simp [valueOf, hv]

theorem parseDigits_none (s : List Char) :
    parseDigits s none =
      if valueOf 10 (digitRun 10 s) ≤ MAX_NUMBER then
        some (s.drop (digitRun 10 s).length, writtenNumber (digitRun 10 s))
      else none := by
  rcases s with _ | ⟨c, s⟩
  · simp [parseDigits, digitRun, valueOf, writtenNumber]
  · rw [parseDigits]
    by_cases hc : c ≠ '\x00' ∧ c.isDigit
    · have hdigit := digit?_of_isDigit hc
      have hd := digit?_lt hdigit
      have hmax : (10 : ℕ) ≤ MAX_NUMBER := by decide
      rw [if_pos hc, digitRun_cons_of_some hdigit, writtenNumber, if_neg (List.cons_ne_nil _ _),
        valueOf_cons hdigit, List.length_cons, List.drop_succ_cons]
      generalize c.toNat - '0'.toNat = d at hd ⊢
      simp only [Option.any_none, Bool.false_eq_true, if_false, Option.elim_none, Nat.zero_add]
      rw [Nat.mod_eq_of_lt (by unfold WORD32; omega), parseDigits_some s (by omega)]
    · rw [if_neg hc, digitRun_cons_of_none (digit?_of_not_isDigit hc)]
      simp [valueOf, writtenNumber]

/-! ### What is written

The number fields of a specification, as the grammar places them. -/

def skipAlignment : List Char → List Char
  | c :: c' :: rest =>
    if isAlignmentCharacter c' then rest
    else if isAlignmentCharacter c then c' :: rest else c :: c' :: rest
  | [c] => if isAlignmentCharacter c then [] else [c]
  | [] => []

def skipOne (p : Char → Bool) : List Char → List Char
  | c :: rest => if p c then rest else c :: rest
  | [] => []

def isSign (c : Char) : Bool := c = '+' ∨ c = '-' ∨ c = ' '

/-- A specification from its width on. -/
def fromWidth (spec : List Char) : List Char :=
  skipOne (· = '0') (skipOne (· = '#') (skipOne isSign (skipAlignment spec)))

/-- The run of a width, the first thing in a text. -/
def widthRun (text : List Char) : List Char := digitRun 10 text

def afterWidth (text : List Char) : List Char := text.drop (widthRun text).length

/-- The run of a precision, after the width and a period. -/
def precisionRun (text : List Char) : List Char :=
  match afterWidth text with
  | '.' :: rest => digitRun 10 rest
  | _ => []

def afterPrecision (text : List Char) : List Char :=
  match afterWidth text with
  | '.' :: rest => rest.drop (digitRun 10 rest).length
  | rest => rest

section Stages

variable {s rest : List Char} {o o' : FormatOptions}

/-- The runs are short enough to be read. -/
def Fits (text : List Char) : Prop :=
  valueOf 10 (widthRun text) ≤ MAX_NUMBER ∧ valueOf 10 (precisionRun text) ≤ MAX_NUMBER

instance (text : List Char) : Decidable (Fits text) := inferInstanceAs (Decidable (_ ∧ _))

theorem parsePrecision_eq (hp : o.precision = none) :
    parsePrecision (afterWidth s) o =
      if valueOf 10 (precisionRun s) ≤ MAX_NUMBER then
        parseType (afterPrecision s) { o with precision := writtenNumber (precisionRun s) }
      else none := by
  have hnone : { o with precision := writtenNumber [] } = o := by
    rw [writtenNumber, if_pos rfl, ← hp]
  unfold precisionRun afterPrecision
  split
  · rename_i rest heq
    rw [heq, parsePrecision, hp, parseDigits_none]
    split_ifs <;> rfl
  · rename_i hdot
    rw [hnone, if_pos (by simp [valueOf])]
    rcases h : afterWidth s with _ | ⟨c, rest⟩
    · rfl
    · unfold parsePrecision
      split
      · rename_i heq
        exact absurd heq (List.cons_ne_nil _ _)
      · rename_i rest' heq
        exact absurd (h.trans heq) (hdot rest')
      · rfl

theorem fits_nil : Fits [] := by
  unfold Fits precisionRun afterWidth widthRun digitRun valueOf MAX_NUMBER
  simp

/-- From the width on, the two runs and the type are read, unless a run is too large. -/
theorem parseWidth_eq (hw : o.width = none) (hp : o.precision = none) :
    parseWidth s o =
      if Fits s then
        parseType (afterPrecision s)
          { o with
            width := writtenNumber (widthRun s)
            precision := writtenNumber (precisionRun s) }
      else none := by
  rcases s with _ | ⟨c, s⟩
  · rw [if_pos fits_nil]
    obtain ⟨⟨width, _⟩, precision⟩ := o
    simp only at hw hp
    subst hw hp
    rfl
  · rw [parseWidth, hw, parseDigits_none]
    · by_cases hrun : valueOf 10 (widthRun (c :: s)) ≤ MAX_NUMBER
      · refine (congrArg (· >>= _) (if_pos hrun)).trans ((parsePrecision_eq (s := c :: s)
          (o := { o with width := writtenNumber (widthRun (c :: s)) }) hp).trans ?_)
        by_cases hprec : valueOf 10 (precisionRun (c :: s)) ≤ MAX_NUMBER
        · rw [if_pos hprec, if_pos ⟨hrun, hprec⟩]
        · rw [if_neg hprec, if_neg fun h => hprec h.2]
      · rw [if_neg (fun h => hrun h.1 : ¬ Fits (c :: s))]
        exact congrArg (· >>= _) (if_neg hrun)
    · exact fun h => List.cons_ne_nil _ _ h

/-- Neither number is touched. -/
def SameNumbers (o o' : FormatOptions) : Prop := o'.width = o.width ∧ o'.precision = o.precision

theorem SameNumbers.trans {o'' : FormatOptions} (h : SameNumbers o o') (h' : SameNumbers o' o'') :
    SameNumbers o o'' := ⟨h'.1.trans h.1, h'.2.trans h.2⟩

theorem sameNumbers_parseTypeSpecifier (c : Char) (o : FormatOptions) :
    SameNumbers o (parseTypeSpecifier c o) := by
  unfold parseTypeSpecifier
  split <;> exact ⟨rfl, rfl⟩

theorem sameNumbers_setAlignment (c : Char) (o : FormatOptions) :
    SameNumbers o (setAlignment c o) := by
  unfold setAlignment
  split <;> exact ⟨rfl, rfl⟩

theorem parseType_some (s : List Char) (o : FormatOptions) :
    ∃ o', SameNumbers o o' ∧ parseType s o = some o' := by
  rcases s with _ | ⟨c, s⟩
  · exact ⟨o, ⟨rfl, rfl⟩, rfl⟩
  · exact ⟨_, sameNumbers_parseTypeSpecifier c o, rfl⟩

theorem parseZeroFill_skip (s : List Char) (o : FormatOptions) :
    ∃ o', SameNumbers o o' ∧ parseZeroFill s o = parseWidth (skipOne (· = '0') s) o' := by
  unfold parseZeroFill
  split
  · exact ⟨o, ⟨rfl, rfl⟩, rfl⟩
  · exact ⟨{ o with zero_fill := some o.alignment.isNone }, ⟨rfl, rfl⟩, rfl⟩
  · rename_i hnil hzero
    refine ⟨o, ⟨rfl, rfl⟩, ?_⟩
    rcases s with _ | ⟨c, s⟩
    · rfl
    · have : c ≠ '0' := fun h => hzero s (h ▸ rfl)
      simp [skipOne, this]

theorem parseAlt_skip (s : List Char) (o : FormatOptions) :
    ∃ o', SameNumbers o o' ∧ parseAlt s o = parseZeroFill (skipOne (· = '#') s) o' := by
  unfold parseAlt
  split
  · exact ⟨o, ⟨rfl, rfl⟩, rfl⟩
  · exact ⟨{ o with alt := some true }, ⟨rfl, rfl⟩, rfl⟩
  · rename_i hnil halt
    refine ⟨o, ⟨rfl, rfl⟩, ?_⟩
    rcases s with _ | ⟨c, s⟩
    · rfl
    · have : c ≠ '#' := fun h => halt s (h ▸ rfl)
      simp [skipOne, this]

theorem parseSignSpecifier_skip (s : List Char) (o : FormatOptions) :
    ∃ o', SameNumbers o o' ∧ parseSignSpecifier s o = (skipOne isSign s, o') := by
  unfold parseSignSpecifier
  split
  · exact ⟨{ o with sign := some .always_plus }, ⟨rfl, rfl⟩, rfl⟩
  · exact ⟨{ o with sign := some .minus }, ⟨rfl, rfl⟩, rfl⟩
  · exact ⟨{ o with sign := some .space }, ⟨rfl, rfl⟩, rfl⟩
  · rename_i hplus hminus hspace
    refine ⟨o, ⟨rfl, rfl⟩, ?_⟩
    rcases s with _ | ⟨c, s⟩
    · rfl
    · have h1 : c ≠ '+' := fun h => hplus s (h ▸ rfl)
      have h2 : c ≠ '-' := fun h => hminus s (h ▸ rfl)
      have h3 : c ≠ ' ' := fun h => hspace s (h ▸ rfl)
      simp [skipOne, isSign, h1, h2, h3]

theorem parseSign_eq (s : List Char) (o : FormatOptions) :
    parseSign s o = parseAlt (parseSignSpecifier s o).1 (parseSignSpecifier s o).2 := by
  unfold parseSign
  split <;> rfl

/-- After the alignment, the text from the width on is reached with the numbers unset. -/
theorem parseSign_skip (s : List Char) (o : FormatOptions) :
    ∃ o', SameNumbers o o' ∧
      parseSign s o = parseWidth (skipOne (· = '0') (skipOne (· = '#') (skipOne isSign s))) o' := by
  obtain ⟨o1, h1, heq1⟩ := parseSignSpecifier_skip s o
  obtain ⟨o2, h2, heq2⟩ := parseAlt_skip (skipOne isSign s) o1
  obtain ⟨o3, h3, heq3⟩ := parseZeroFill_skip (skipOne (· = '#') (skipOne isSign s)) o2
  exact ⟨o3, (h1.trans h2).trans h3, by rw [parseSign_eq, heq1, heq2, heq3]⟩

theorem parseNoAlignment_skip (s : List Char) (o : FormatOptions) :
    parseNoAlignment s o = none ∨ parseNoAlignment s o = some (s, o) := by
  unfold parseNoAlignment
  split_ifs
  · exact .inr rfl
  · exact .inl rfl

theorem parseAlignmentAndFill_skip (s : List Char) (o : FormatOptions) :
    parseAlignmentAndFill s o = none ∨
      ∃ o', SameNumbers o o' ∧ parseAlignmentAndFill s o = some (skipAlignment s, o') := by
  have hnone (h : skipAlignment s = s) : parseNoAlignment s o = none ∨
      ∃ o', SameNumbers o o' ∧ parseNoAlignment s o = some (skipAlignment s, o') := by
    rw [h]
    exact (parseNoAlignment_skip s o).imp id fun hs => ⟨o, ⟨rfl, rfl⟩, hs⟩
  rcases s with _ | ⟨c, _ | ⟨c', s⟩⟩
  · exact hnone rfl
  · unfold parseAlignmentAndFill
    by_cases hc : isAlignmentCharacter c
    · simp only [skipAlignment, hc, if_true]
      exact .inr ⟨_, sameNumbers_setAlignment c o, rfl⟩
    · simp only [hc] at hnone ⊢
      exact hnone (by simp [skipAlignment, hc])
  · unfold parseAlignmentAndFill
    by_cases hc' : isAlignmentCharacter c'
    · simp only [skipAlignment, hc', if_true]
      split_ifs
      · exact .inl rfl
      · obtain ⟨h1, h2⟩ := sameNumbers_setAlignment c' o
        exact .inr ⟨{ setAlignment c' o with fill := some c }, ⟨h1, h2⟩, rfl⟩
    · by_cases hc : isAlignmentCharacter c
      · simp only [skipAlignment, hc', hc, if_true]
        exact .inr ⟨_, sameNumbers_setAlignment c o, rfl⟩
      · simp only [hc', hc]
        exact hnone (by simp [skipAlignment, hc', hc])

end Stages

/-- A string is rejected, or its numbers are short enough and are returned as written. -/
theorem parseArgFormatString_numbers (s : List Char) :
    parseArgFormatString s = none ∨ Fits (fromWidth (specOf s)) ∧
      ∃ o, parseArgFormatString s = some o ∧
        o.width = writtenNumber (widthRun (fromWidth (specOf s))) ∧
        o.precision = writtenNumber (precisionRun (fromWidth (specOf s))) := by
  unfold parseArgFormatString
  rcases specOf s with _ | ⟨c, spec⟩
  · exact .inr ⟨fits_nil, clear, rfl, rfl, rfl⟩
  · dsimp only
    rcases parseAlignmentAndFill_skip (c :: spec) clear with h | ⟨o, hsame, h⟩
    · exact .inl (by rw [h]; rfl)
    · have hover : SameNumbers o (overrideZeroFill o) := by
        unfold overrideZeroFill
        split_ifs <;> exact ⟨rfl, rfl⟩
      obtain ⟨o', hsame', heq⟩ := parseSign_skip (skipAlignment (c :: spec)) (overrideZeroFill o)
      obtain ⟨hw, hp⟩ := (hsame.trans hover).trans hsame'
      have hparse : parseSign (skipAlignment (c :: spec)) (overrideZeroFill o) = _ :=
        heq.trans (parseWidth_eq hw hp)
      rw [h]
      by_cases hfits : Fits (fromWidth (c :: spec))
      · obtain ⟨o'', ⟨hw'', hp''⟩, htype⟩ := parseType_some (afterPrecision (fromWidth (c :: spec)))
          { o' with
            width := writtenNumber (widthRun (fromWidth (c :: spec)))
            precision := writtenNumber (precisionRun (fromWidth (c :: spec))) }
        exact .inr ⟨hfits, o'', hparse.trans ((if_pos hfits).trans htype), hw'', hp''⟩
      · exact .inl (hparse.trans (if_neg hfits))

/-! ### What is rendered -/

/-- The types a specification may name. -/
inductive Presentation
  | d
  | x
  | X
  | b
  | B
  | o
  deriving DecidableEq

namespace Presentation

def char : Presentation → Char
  | d => 'd'
  | x => 'x'
  | X => 'X'
  | b => 'b'
  | B => 'B'
  | o => 'o'

def base : Presentation → ℕ
  | d => 10
  | x | X => 16
  | b | B => 2
  | o => 8

end Presentation

/-- The options a specification can give. -/
structure Spec where
  alignment : Option (Option Char × Align)
  sign : Option SignTreatment
  alt : Bool
  zero_fill : Bool
  width : Option ℕ
  precision : Option ℕ
  type : Option Presentation
  fill_ok : ∀ a ∈ alignment, ∀ c ∈ a.1, c ≠ '\x7b' ∧ c ≠ '\x7d' ∧ c ≠ '\x00'
  zero_fill_ok : zero_fill = true → alignment = none
  width_ok : ∀ n ∈ width, 1 ≤ n ∧ n ≤ MAX_NUMBER
  precision_ok : ∀ n ∈ precision, n ≤ MAX_NUMBER

def alignChar : Align → Char
  | .left => '<'
  | .right => '>'
  | .center => '^'

def signChar : SignTreatment → Char
  | .always_plus => '+'
  | .minus => '-'
  | .space => ' '

def decimalText (n : ℕ) : List Char := digitText LOWER_CASE_NUMERIC_CONVERSION_DIGITS 10 n

namespace Spec

variable (S : Spec)

def alignmentText : List Char :=
  match S.alignment with
  | none => []
  | some (none, a) => [alignChar a]
  | some (some fill, a) => [fill, alignChar a]

def typeText : List Char := (S.type.map Presentation.char).toList

def precisionText : List Char := (S.precision.map fun n => '.' :: decimalText n).getD []

def fromWidthText : List Char :=
  (S.width.map decimalText).getD [] ++ (S.precisionText ++ S.typeText)

def zeroFillText : List Char := (if S.zero_fill then ['0'] else []) ++ S.fromWidthText

def altText : List Char := (if S.alt then ['#'] else []) ++ S.zeroFillText

def signText : List Char := (S.sign.map signChar).toList ++ S.altText

/-- The options as text. -/
def render : List Char := S.alignmentText ++ S.signText

/-- The options themselves; zero fill is off with an alignment. -/
def options : FormatOptions :=
  { width := S.width
    fill := S.alignment.bind Prod.fst
    alignment := S.alignment.map Prod.snd
    alt := if S.alt then some true else none
    sign := S.sign
    zero_fill := if S.alignment.isSome then some false else if S.zero_fill then some true else none
    type_specifier := S.type.map Presentation.char
    integer_base := S.type.map Presentation.base
    precision := S.precision }

end Spec

/-! ### What is rendered is read -/

theorem isTable_lower : IsTable LOWER_CASE_NUMERIC_CONVERSION_DIGITS := .inl rfl

theorem digitRun_decimalText (n : ℕ) : digitRun 10 (decimalText n) = decimalText n :=
  digitRun_digitText isTable_lower (by omega) (by omega)

theorem decimalText_ne_nil (n : ℕ) : decimalText n ≠ [] := digitText_ne_nil _ _ _

theorem writtenNumber_decimalText (n : ℕ) : writtenNumber (decimalText n) = some n := by
  unfold writtenNumber
  rw [if_neg (decimalText_ne_nil n)]
  exact congrArg some (valueOf_digitText isTable_lower (by omega) (by omega))

/-- A number from one on has no leading zero. -/
theorem head?_decimalText {n : ℕ} (hn : 1 ≤ n) : ∀ c ∈ (decimalText n).head?, c ≠ '0' := by
  intro c hc h0
  unfold decimalText digitText valueDigits at hc
  rw [if_neg (by omega), List.head?_reverse, List.getLast?_map,
    List.getLast?_eq_some_getLast (Nat.digits_ne_nil_iff_ne_zero.2 (by omega))] at hc
  have hlt := Nat.digits_lt_base (b := 10) (by omega)
    (List.getLast_mem (Nat.digits_ne_nil_iff_ne_zero.2 (by omega : n ≠ 0)))
  have hdigit := isTable_lower.digit? (by omega : 10 ≤ 36) hlt
  simp only [Option.map_some, Option.mem_def, Option.some.injEq] at hc
  rw [hc, h0] at hdigit
  have h0' : digit? 10 '0' = some 0 := digit?_of_isDigit (by decide)
  exact Nat.getLast_digit_ne_zero 10 (by omega) (Option.some.inj (hdigit.symm.trans h0'))

/-- The characters of the numbers and the type. -/
def InNumbers (c : Char) : Prop := c.isDigit ∨ c ∈ ['.', 'd', 'x', 'X', 'b', 'B', 'o']

theorem InNumbers.ne {c c' : Char} (h : InNumbers c) (h' : ¬ InNumbers c') : c ≠ c' :=
  fun heq => h' (heq ▸ h)

instance (c : Char) : Decidable (InNumbers c) := inferInstanceAs (Decidable (_ ∨ _))

theorem inNumbers_decimalText (n : ℕ) : ∀ c ∈ decimalText n, InNumbers c := by
  intro c hc
  obtain ⟨d, _, _, hd⟩ := digit_of_mem_digitText isTable_lower (by omega) (by omega) hc
  refine .inl (by_contra fun h => ?_)
  rw [digit?_of_not_isDigit fun hc => h hc.2] at hd
  exact nomatch hd

theorem inNumbers_fromWidthText (S : Spec) : ∀ c ∈ S.fromWidthText, InNumbers c := by
  intro c hc
  unfold Spec.fromWidthText Spec.precisionText Spec.typeText at hc
  rw [List.mem_append, List.mem_append] at hc
  rcases hc with hc | hc | hc
  · rcases h : S.width with _ | n
    · simp [h] at hc
    · rw [h] at hc
      exact inNumbers_decimalText n c hc
  · rcases h : S.precision with _ | n
    · simp [h] at hc
    · rw [h] at hc
      rcases List.mem_cons.1 hc with rfl | hc
      · decide
      · exact inNumbers_decimalText n c hc
  · rcases h : S.type with _ | t
    · simp [h] at hc
    · rw [h] at hc
      obtain rfl := List.mem_singleton.1 hc
      cases t <;> decide

theorem inNumbers_zeroFillText (S : Spec) : ∀ c ∈ S.zeroFillText, InNumbers c := by
  intro c hc
  unfold Spec.zeroFillText at hc
  rcases List.mem_append.1 hc with hc | hc
  · split_ifs at hc
    · obtain rfl := List.mem_singleton.1 hc
      decide
    · exact absurd hc List.not_mem_nil
  · exact inNumbers_fromWidthText S c hc

theorem not_sign_altText (S : Spec) : ∀ c ∈ S.altText, isSign c = false ∧
    isAlignmentCharacter c = false ∧ c ≠ '\x00' := by
  intro c hc
  unfold Spec.altText at hc
  rcases List.mem_append.1 hc with hc | hc
  · split_ifs at hc
    · obtain rfl := List.mem_singleton.1 hc
      decide
    · exact absurd hc List.not_mem_nil
  · have h := inNumbers_zeroFillText S c hc
    have hne (c' : Char) (h' : ¬ InNumbers c') : c ≠ c' := h.ne h'
    simp [isSign, isAlignmentCharacter, hne '+' (by decide), hne '-' (by decide),
      hne ' ' (by decide), hne '<' (by decide), hne '>' (by decide), hne '^' (by decide),
      hne '\x00' (by decide)]

theorem not_alignment_signText (S : Spec) : ∀ c ∈ S.signText,
    isAlignmentCharacter c = false ∧ c ≠ '\x00' := by
  intro c hc
  unfold Spec.signText at hc
  rcases List.mem_append.1 hc with hc | hc
  · rcases h : S.sign with _ | a
    · simp [h] at hc
    · rw [h] at hc
      obtain rfl := List.mem_singleton.1 hc
      cases a <;> decide
  · exact (not_sign_altText S c hc).2

/-! ### The fields in turn -/

section Fields

variable {R : List Char} {o : FormatOptions}

theorem alignChar_spec (a : Align) : isAlignmentCharacter (alignChar a) = true ∧
    ∀ o, setAlignment (alignChar a) o = { o with alignment := some a } := by
  cases a <;> exact ⟨rfl, fun _ => rfl⟩

theorem parseAlignmentAndFill_none
    (hR : ∀ c ∈ R, isAlignmentCharacter c = false ∧ c ≠ '\x00') :
    parseAlignmentAndFill R o = some (R, o) := by
  have hspn : strcspn R ['<', '>', '^'] = R.length := by
    unfold strcspn
    rw [List.takeWhile_eq_self_iff.2]
    intro c hc
    obtain ⟨h1, h2⟩ := hR c hc
    simpa [isAlignmentCharacter, h2] using h1
  have hno : parseNoAlignment R o = some (R, o) := if_pos hspn.ge
  rcases R with _ | ⟨c, _ | ⟨c', R⟩⟩
  · exact hno
  · simpa [parseAlignmentAndFill, (hR c (by simp)).1] using hno
  · simpa [parseAlignmentAndFill, (hR c (by simp)).1, (hR c' (by simp)).1] using hno

theorem parseAlignmentAndFill_align (a : Align)
    (hR : ∀ c ∈ R, isAlignmentCharacter c = false ∧ c ≠ '\x00') :
    parseAlignmentAndFill (alignChar a :: R) o = some (R, { o with alignment := some a }) := by
  obtain ⟨ha, hset⟩ := alignChar_spec a
  rcases R with _ | ⟨c, R⟩
  · simp [parseAlignmentAndFill, ha, hset]
  · simp [parseAlignmentAndFill, ha, hset, (hR c (by simp)).1]

theorem parseAlignmentAndFill_fill (a : Align) {c : Char} (hc : c ≠ '\x7b') :
    parseAlignmentAndFill (c :: alignChar a :: R) o =
      some (R, { o with alignment := some a, fill := some c }) := by
  obtain ⟨ha, hset⟩ := alignChar_spec a
  simp [parseAlignmentAndFill, ha, hset, hc]

theorem parseSign_text (sign : Option SignTreatment) (ho : o.sign = none)
    (hR : ∀ c ∈ R, isSign c = false) :
    parseSign ((sign.map signChar).toList ++ R) o = parseAlt R { o with sign := sign } := by
  rw [parseSign_eq]
  rcases sign with _ | sign
  · have hsame : parseSignSpecifier R o = (R, o) := by
      unfold parseSignSpecifier
      split
      · simp [isSign] at hR
      · simp [isSign] at hR
      · simp [isSign] at hR
      · rfl
    have hset : { o with sign := none } = o := by rw [← ho]
    simp only [Option.map_none, Option.toList_none, List.nil_append, hsame, hset]
  · cases sign <;> rfl

theorem parseAlt_text (alt : Bool) (ho : o.alt = none) (hR : ∀ c ∈ R, c ≠ '#') :
    parseAlt ((if alt then ['#'] else []) ++ R) o =
      parseZeroFill R { o with alt := if alt then some true else none } := by
  cases alt
  · have hset : { o with alt := none } = o := by rw [← ho]
    simp only [Bool.false_eq_true, if_false, List.nil_append, hset]
    unfold parseAlt
    split
    · rfl
    · simp at hR
    · rfl
  · rfl

theorem parseZeroFill_text (zero : Bool) (hR : ∀ c ∈ R.head?, c ≠ '0') :
    parseZeroFill ((if zero then ['0'] else []) ++ R) o =
      parseWidth R { o with
        zero_fill := if zero then some o.alignment.isNone else o.zero_fill } := by
  cases zero
  · simp only [Bool.false_eq_true, if_false, List.nil_append]
    unfold parseZeroFill
    split
    · rfl
    · simp at hR
    · rfl
  · rfl

theorem parseType_text (type : Option Presentation) (ht : o.type_specifier = none)
    (hb : o.integer_base = none) :
    parseType (type.map Presentation.char).toList o = some
      { o with
        type_specifier := type.map Presentation.char
        integer_base := type.map Presentation.base } := by
  rcases type with _ | type
  · have hset : { o with type_specifier := none, integer_base := none } = o := by rw [← ht, ← hb]
    exact congrArg some hset.symm
  · cases type <;> rfl

end Fields

/-! ### The numbers of a rendered specification -/

theorem digit?_typeText (S : Spec) : ∀ c ∈ S.typeText.head?, digit? 10 c = none ∧ c ≠ '.' := by
  intro c hc
  unfold Spec.typeText at hc
  rcases h : S.type with _ | t
  · simp [h] at hc
  · rw [h] at hc
    obtain rfl : t.char = c := by simpa using hc
    exact ⟨digit?_of_not_isDigit (by cases t <;> decide), by cases t <;> decide⟩

theorem widthRun_fromWidthText (S : Spec) :
    widthRun S.fromWidthText = (S.width.map decimalText).getD [] := by
  refine digitRun_append ?_ ?_
  · rcases S.width with _ | n
    · rfl
    · exact digitRun_decimalText n
  · intro c hc
    unfold Spec.precisionText at hc
    rcases h : S.precision with _ | n
    · rw [h] at hc
      exact (digit?_typeText S c hc).1
    · rw [h] at hc
      obtain rfl : '.' = c := by simpa using hc
      exact digit?_of_not_isDigit (by decide)

theorem afterWidth_fromWidthText (S : Spec) :
    afterWidth S.fromWidthText = S.precisionText ++ S.typeText := by
  rw [afterWidth, widthRun_fromWidthText, Spec.fromWidthText, List.drop_left]

theorem precisionRun_fromWidthText (S : Spec) :
    precisionRun S.fromWidthText = (S.precision.map decimalText).getD [] ∧
      afterPrecision S.fromWidthText = S.typeText := by
  unfold precisionRun afterPrecision
  rw [afterWidth_fromWidthText, Spec.precisionText]
  rcases S.precision with _ | n
  · have htype := digit?_typeText S
    rcases h : S.typeText with _ | ⟨c, rest⟩
    · exact ⟨rfl, rfl⟩
    · have hdot : c ≠ '.' := (htype c (by rw [h]; rfl)).2
      simp [hdot]
  · have hrun : digitRun 10 (decimalText n ++ S.typeText) = decimalText n :=
      digitRun_append (digitRun_decimalText n) fun c hc => (digit?_typeText S c hc).1
    simp [hrun]

theorem writtenNumber_map (n : Option ℕ) : writtenNumber ((n.map decimalText).getD []) = n := by
  rcases n with _ | n
  · rfl
  · exact writtenNumber_decimalText n

theorem valueOf_map {n : Option ℕ} (h : ∀ m ∈ n, m ≤ MAX_NUMBER) :
    valueOf 10 ((n.map decimalText).getD []) ≤ MAX_NUMBER := by
  rcases n with _ | n
  · simp [valueOf]
  · rw [Option.map_some, Option.getD_some, decimalText,
      valueOf_digitText isTable_lower (by omega) (by omega)]
    exact h n rfl

theorem head?_fromWidthText (S : Spec) : ∀ c ∈ S.fromWidthText.head?, c ≠ '0' := by
  intro c hc
  unfold Spec.fromWidthText Spec.precisionText at hc
  rcases h : S.width with _ | n
  · rcases h' : S.precision with _ | n
    · rw [h, h'] at hc
      have htype := (digit?_typeText S c hc).1
      rintro rfl
      rw [digit?_of_isDigit (by decide)] at htype
      exact nomatch htype
    · rw [h, h'] at hc
      obtain rfl : '.' = c := by simpa using hc
      decide
  · rw [h, Option.map_some, Option.getD_some, List.head?_append_of_ne_nil _
      (decimalText_ne_nil n)] at hc
    exact head?_decimalText (S.width_ok n h).1 c hc

theorem parseWidth_text (S : Spec) {o : FormatOptions} (hw : o.width = none)
    (hp : o.precision = none) (ht : o.type_specifier = none) (hb : o.integer_base = none) :
    parseWidth S.fromWidthText o = some
      { o with
        width := S.width
        precision := S.precision
        type_specifier := S.type.map Presentation.char
        integer_base := S.type.map Presentation.base } := by
  obtain ⟨hprecision, htype⟩ := precisionRun_fromWidthText S
  have hfits : Fits S.fromWidthText := by
    unfold Fits
    rw [hprecision, widthRun_fromWidthText]
    exact ⟨valueOf_map fun n h => (S.width_ok n h).2, valueOf_map S.precision_ok⟩
  rw [parseWidth_eq hw hp, if_pos hfits, hprecision, htype, widthRun_fromWidthText,
    writtenNumber_map, writtenNumber_map, Spec.typeText, parseType_text]
  · exact ht
  · exact hb

/-- What stands after the alignment is read with the options the alignment left. -/
theorem parseSign_signText (S : Spec) {o : FormatOptions} (hw : o.width = none)
    (hp : o.precision = none) (ht : o.type_specifier = none) (hb : o.integer_base = none)
    (hs : o.sign = none) (ha : o.alt = none) :
    parseSign S.signText o = some
      { o with
        sign := S.sign
        alt := if S.alt then some true else none
        zero_fill := if S.zero_fill then some o.alignment.isNone else o.zero_fill
        width := S.width
        precision := S.precision
        type_specifier := S.type.map Presentation.char
        integer_base := S.type.map Presentation.base } := by
  have hhash (c : Char) (hc : c ∈ S.zeroFillText) : c ≠ '#' :=
    (inNumbers_zeroFillText S c hc).ne (by decide)
  refine (parseSign_text S.sign hs fun c hc => (not_sign_altText S c hc).1).trans ?_
  refine (parseAlt_text S.alt (o := { o with sign := S.sign }) ha hhash).trans ?_
  refine (parseZeroFill_text S.zero_fill (head?_fromWidthText S)).trans ?_
  exact parseWidth_text S hw hp ht hb

theorem specOf_cons (s : List Char) : specOf (':' :: s) = s := rfl

theorem parseArgFormatString_cons {s rest : List Char} {o : FormatOptions}
    (h : parseAlignmentAndFill s clear = some (rest, o)) :
    parseArgFormatString (':' :: s) = parseSign rest (overrideZeroFill o) := by
  unfold parseArgFormatString
  rw [specOf_cons]
  rcases s with _ | ⟨c, s⟩
  · obtain ⟨rfl, rfl⟩ : [] = rest ∧ clear = o := by
      simpa [parseAlignmentAndFill, parseNoAlignment, strcspn] using h
    rfl
  · exact congrArg (· >>= _) h

theorem zero_fill_of_alignment (S : Spec) {a : Option Char × Align} (h : S.alignment = some a) :
    S.zero_fill = false := by
  rcases hz : S.zero_fill with _ | _
  · rfl
  · rw [S.zero_fill_ok hz] at h
    exact nomatch h

theorem parseArgFormatString_render (S : Spec) :
    parseArgFormatString (':' :: S.render) = some S.options := by
  have hR := not_alignment_signText S
  unfold Spec.render Spec.alignmentText Spec.options
  rcases h : S.alignment with _ | ⟨_ | c, a⟩
  · refine (parseArgFormatString_cons (parseAlignmentAndFill_none hR)).trans ?_
    exact parseSign_signText S rfl rfl rfl rfl rfl rfl
  · refine (parseArgFormatString_cons (parseAlignmentAndFill_align a hR)).trans
      ((parseSign_signText S rfl rfl rfl rfl rfl rfl).trans ?_)
    rw [zero_fill_of_alignment S h]
    rfl
  · have hc := (S.fill_ok _ h c rfl).1
    refine (parseArgFormatString_cons (parseAlignmentAndFill_fill a hc)).trans
      ((parseSign_signText S rfl rfl rfl rfl rfl rfl).trans ?_)
    rw [zero_fill_of_alignment S h]
    rfl

/-- Parsing inverts rendering; and any string that is accepted gives the numbers written in it,
while one with a number that does not fit is rejected. -/
theorem parseArgFormatString_inverts_render :
    (∀ S : Spec, parseArgFormatString (':' :: S.render) = some S.options) ∧
    ∀ s, (∀ o, parseArgFormatString s = some o →
        o.width = writtenNumber (widthRun (fromWidth (specOf s))) ∧
        o.precision = writtenNumber (precisionRun (fromWidth (specOf s)))) ∧
      (MAX_NUMBER < valueOf 10 (widthRun (fromWidth (specOf s))) ∨
        MAX_NUMBER < valueOf 10 (precisionRun (fromWidth (specOf s))) →
        parseArgFormatString s = none) := by
  refine ⟨parseArgFormatString_render, fun s => ?_⟩
  rcases parseArgFormatString_numbers s with h | ⟨⟨hw, hp⟩, o, h, hnumbers⟩
  · exact ⟨fun o ho => (nomatch h.symm.trans ho), fun _ => h⟩
  · refine ⟨fun o' ho' => ?_, fun hbig => by omega⟩
    obtain rfl := Option.some.inj (h.symm.trans ho')
    exact hnumbers

end MinStd.FormatSpec
