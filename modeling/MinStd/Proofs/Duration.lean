import MinStd.CommonMeasure
import MinStd.Duration

/-!
# Mixed periods are exact

The ratios the compiler computes are reduced fractions, so what it selects is decided by the
rational quotient of the two periods.  The common period is the common measure of both: a count is
converted to it by a whole factor, and the operators are then those of the rationals.
-/

namespace MinStd.Chrono

open CharConv (IntType)

variable {R P Q : Ratio} {D D₁ D₂ C : Duration} {x y : ℤ}

/-! ### Ratios -/

theorem staticGcd_eq (R1 R2 : ℤ) (h1 : 0 ≤ R1) (h2 : 0 ≤ R2) (h : R1 ≠ 0 ∨ R2 ≠ 0) :
    staticGcd R1 R2 = Int.gcd R1 R2 := by
  induction R1, R2 using staticGcd.induct with
  | case1 => simp at h
  | case2 R1 hne =>
    rw [staticGcd, if_pos rfl, if_neg hne, Int.gcd_zero_right]
    omega
  | case3 R1 R2 hne ih =>
    rw [staticGcd, if_neg hne, ih h2 (Int.tmod_nonneg R2 h1) (.inl hne), Int.gcd, Int.natAbs_tmod,
      Nat.gcd_comm, ← Nat.gcd_rec, Nat.gcd_comm, Int.gcd]

theorem staticAbs_eq (x : ℤ) : staticAbs x = x.natAbs := by
  rw [staticAbs]
  split_ifs <;> omega

theorem staticSign_eq (x : ℤ) : staticSign x = x.sign := by
  rcases lt_trichotomy x 0 with h | rfl | h
  · rw [staticSign, if_neg h.ne, if_pos h, Int.sign_eq_neg_one_of_neg h]
  · rfl
  · rw [staticSign, if_neg h.ne', if_neg h.le.not_gt, Int.sign_eq_one_of_pos h]

namespace Ratio

/-- The fraction that the class is written as. -/
def fraction (R : Ratio) : ℚ := R.Num / R.Denom

theorem gcd_eq (h : R.Denom ≠ 0) : R.gcd = Int.gcd R.Denom R.Num := by
  rw [gcd, staticAbs_eq, staticAbs_eq, staticGcd_eq _ _ (by omega) (by omega) (.inr (by omega)),
    Int.gcd_comm]
  rfl

/-- The members are those of the reduced fraction. -/
theorem num_eq (h : R.Denom ≠ 0) : R.num = R.fraction.num := by
  have hnum : staticSign R.Num * staticSign R.Denom * staticAbs R.Num = R.Denom.sign * R.Num := by
    rw [staticSign_eq, staticSign_eq, staticAbs_eq, mul_right_comm, Int.sign_mul_natAbs, mul_comm]
  have hdvd : (Int.gcd R.Denom R.Num : ℤ) ∣ R.Denom.sign * R.Num :=
    (Int.gcd_dvd_right ..).mul_left _
  rw [num, hnum, gcd_eq h, fraction, ← Rat.divInt_eq_div, Rat.num_divInt,
    Int.tdiv_eq_ediv_of_dvd hdvd]

theorem den_eq (h : R.Denom ≠ 0) : R.den = R.fraction.den := by
  rw [den, staticAbs_eq, gcd_eq h, fraction, ← Rat.divInt_eq_div, Rat.den_divInt, if_neg h,
    Int.natCast_tdiv_eq_ediv, Int.natCast_ediv]

theorem value_eq (h : R.Denom ≠ 0) : R.value = R.fraction := by
  rw [value, num_eq h, den_eq h]
  exact_mod_cast Rat.num_div_den R.fraction

theorem IsPeriod.num_eq (h : R.IsPeriod) : R.num = R.value.num := by
  rw [value_eq h.compiles.ne_zero, Ratio.num_eq h.compiles.ne_zero]

theorem IsPeriod.den_eq (h : R.IsPeriod) : R.den = R.value.den := by
  rw [value_eq h.compiles.ne_zero, Ratio.den_eq h.compiles.ne_zero]

theorem IsPeriod.den_pos (h : R.IsPeriod) : 0 < R.den := by
  rw [h.den_eq]
  exact_mod_cast R.value.pos

theorem IsPeriod.value_pos (h : R.IsPeriod) : 0 < R.value :=
  Rat.num_pos.1 (h.num_eq ▸ h.pos)

theorem IsPeriod.num_fits (h : R.IsPeriod) : IntType.int64.Fits R.num := by
  have hdvd : R.num ∣ R.Num := by
    rw [Ratio.num_eq h.compiles.ne_zero, fraction, ← Rat.divInt_eq_div]
    exact Rat.num_dvd _ h.compiles.ne_zero
  have hne : R.Num ≠ 0 := by
    intro hzero
    have hpos := h.pos
    rw [num, hzero] at hpos
    simp [staticAbs] at hpos
  have hle : R.num ≤ staticAbs R.Num := by
    rw [staticAbs_eq]
    exact Int.le_of_dvd (by omega) (Int.dvd_natAbs.2 hdvd)
  exact h.compiles.num.2.of_le (.inl ⟨h.pos.le, hle⟩)

theorem IsPeriod.den_fits (h : R.IsPeriod) : IntType.int64.Fits R.den := by
  have hne := h.compiles.ne_zero
  have hdvd : R.den ∣ R.Denom := by
    rw [Ratio.den_eq hne, fraction, ← Rat.divInt_eq_div]
    exact Rat.den_dvd ..
  have hle : R.den ≤ staticAbs R.Denom := by
    rw [staticAbs_eq]
    exact Int.le_of_dvd (by omega) (Int.dvd_natAbs.2 hdvd)
  exact h.compiles.den.2.of_le (.inl ⟨h.den_pos.le, hle⟩)

theorem compiles_of_pos {N M : ℤ} (hN : 0 < N) (hM : 0 < M) (hN' : IntType.int64.Fits N)
    (hM' : IntType.int64.Fits M) : (Ratio.mk N M).Compiles := by
  refine ⟨⟨hN', ?_⟩, ⟨hM', ?_⟩, hM.ne'⟩
  · rwa [staticAbs, if_neg hN.le.not_gt]
  · rwa [staticAbs, if_neg hM.le.not_gt]

theorem isPeriod_of_pos {N M : ℤ} (hN : 0 < N) (hM : 0 < M) (hN' : IntType.int64.Fits N)
    (hM' : IntType.int64.Fits M) : (Ratio.mk N M).IsPeriod := by
  refine ⟨compiles_of_pos hN hM hN' hM', ?_⟩
  have hN'' : (0 : ℚ) < N := by exact_mod_cast hN
  have hM'' : (0 : ℚ) < M := by exact_mod_cast hM
  rw [Ratio.num_eq hM.ne']
  exact Rat.num_pos.2 (div_pos hN'' hM'')

end Ratio

/-- The class of a positive fraction compiles where its two sides fit, and is a period. -/
theorem ratioType_eq {N M : ℤ} (hN : 0 < N) (hM : 0 < M) (hN' : IntType.int64.Fits N)
    (hM' : IntType.int64.Fits M) :
    ∃ R, ratioType N M = some R ∧ R.IsPeriod ∧ R.value = N / M := by
  have hgiven := Ratio.isPeriod_of_pos hN hM hN' hM'
  have hreduced := Ratio.isPeriod_of_pos hgiven.pos hgiven.den_pos hgiven.num_fits hgiven.den_fits
  refine ⟨_, ?_, hreduced, ?_⟩
  · rw [ratioType, ratio, if_pos hgiven.compiles, Option.bind_some, ratio, if_pos hreduced.compiles]
  · rw [Ratio.value_eq hreduced.compiles.ne_zero]
    exact Ratio.value_eq hgiven.compiles.ne_zero

/-- The cross products of a period and another fit. -/
structure Cross (P : Ratio) (q : ℚ) : Prop where
  num : IntType.int64.Fits (P.num * q.den)
  den : IntType.int64.Fits (P.den * q.num)

theorem ratioDivide_eq (hP : P.IsPeriod) (hQ : Q.IsPeriod) (h : Cross P Q.value) :
    ∃ R, ratioDivide P Q = some R ∧ R.IsPeriod ∧ R.value = P.value / Q.value := by
  have hnum := h.num
  have hden := h.den
  rw [← hQ.den_eq] at hnum
  rw [← hQ.num_eq] at hden
  obtain ⟨R, hR, hperiod, hvalue⟩ :=
    ratioType_eq (mul_pos hP.pos hQ.den_pos) (mul_pos hP.den_pos hQ.pos) hnum hden
  refine ⟨R, ?_, hperiod, ?_⟩
  · rw [ratioDivide, constant, if_pos hnum, constant, if_pos hden]
    exact hR
  · rw [hvalue, Ratio.value, Ratio.value, div_div_div_eq]
    push_cast
    rfl

theorem cross_of_isSome (hQ : Q.IsPeriod) (h : (ratioDivide P Q).isSome) : Cross P Q.value := by
  have hnum : IntType.int64.Fits (P.num * Q.den) := by
    by_contra hnot
    rw [ratioDivide, constant, if_neg hnot] at h
    exact Bool.false_ne_true h
  have hden : IntType.int64.Fits (P.den * Q.num) := by
    by_contra hnot
    rw [ratioDivide, constant, if_pos hnum, constant, if_neg hnot] at h
    exact Bool.false_ne_true h
  rw [hQ.den_eq] at hnum
  rw [hQ.num_eq] at hden
  exact ⟨hnum, hden⟩

/-! ### Conversions -/

/-- Every specialisation computes the same. -/
theorem durationCastBy_eq {Ct : IntType} (hR : R.IsPeriod) (hnum : Ct.Fits R.num)
    (hden : Ct.Fits R.den) (hproduct : Ct.Fits (x * R.num)) :
    durationCastBy Ct R x = some ((x * R.num).tdiv R.den) := by
  have hx := hproduct.of_mul hR.pos
  have hquotient := (hproduct.tdiv hR.den_pos).mono IntType.le_promote
  have hdiv := IntType.div_eq hR.den_pos.ne' hquotient
  rw [durationCastBy, IntType.cast_eq hx, IntType.cast_eq hnum, IntType.cast_eq hden]
  by_cases h1 : R.num = 1
  · by_cases h2 : R.den = 1
    · simp [h1, h2]
    · rw [h1, mul_one] at hdiv
      simp [h1, h2, hdiv]
  · by_cases h2 : R.den = 1
    · simp [h1, h2, IntType.mul_eq hproduct]
    · simp [h1, h2, IntType.mul_eq hproduct, hdiv]

/-- The type in which `duration_cast` computes has every period. -/
theorem castType_fits {n : ℤ} (h : IntType.int64.Fits n) (hn : 0 ≤ n) :
    (castType D₁ D₂).Fits n := by
  have hmax : IntType.int64.max ≤ (castType D₁ D₂).max := by
    unfold castType
    rcases D₂.rep.common D₁.rep with ⟨_ | _ | _ | _, _ | _⟩ <;> decide
  have hmin := (IntType.fits_zero (T := castType D₁ D₂)).1
  exact ⟨hmin.trans hn, h.2.trans hmax⟩

/-- The exact quotient is truncated, where the product and the result fit. -/
theorem durationCast_eq (h₁ : D₁.period.IsPeriod) (h₂ : D₂.period.IsPeriod)
    (hcross : Cross D₁.period D₂.period.value)
    (hproduct : (castType D₁ D₂).Fits (x * (D₁.period.value / D₂.period.value).num))
    (hresult : D₂.rep.Fits (truncate (D₁.value x / D₂.period.value))) :
    durationCast D₁ D₂ x = some (truncate (D₁.value x / D₂.period.value)) := by
  obtain ⟨R, hR, hperiod, hvalue⟩ := ratioDivide_eq h₁ h₂ hcross
  have htruncate : truncate (D₁.value x / D₂.period.value) = (x * R.num).tdiv R.den := by
    rw [← truncate_div _ hperiod.den_pos.ne', Duration.value, mul_div_assoc, ← hvalue, Ratio.value]
    push_cast
    rw [mul_div_assoc]
  rw [← hvalue, ← hperiod.num_eq] at hproduct
  rw [htruncate] at hresult ⊢
  have hby := durationCastBy_eq hperiod (castType_fits hperiod.num_fits hperiod.pos.le)
    (castType_fits hperiod.den_fits hperiod.den_pos.le) hproduct
  rw [durationCast, hR]
  show (durationCastBy (castType D₁ D₂) R x).bind _ = _
  rw [hby, Option.bind_some, IntType.cast_eq hresult]
  rfl

/-- Between periods one of which is a whole number of times the other, counts are multiplied. -/
theorem convert_eq {n : ℤ} (h₁ : D₁.period.IsPeriod) (h₂ : D₂.period.IsPeriod)
    (hcross : Cross D₁.period D₂.period.value) (hn : D₁.period.value = n * D₂.period.value)
    (hle : D₂.rep.Le (castType D₁ D₂)) (hfits : D₂.rep.Fits (x * n)) :
    convert D₁ D₂ x = some (x * n) := by
  have hne := h₂.value_pos.ne'
  have hquotient : D₁.period.value / D₂.period.value = n := by
    rw [hn, mul_div_assoc, div_self hne, mul_one]
  have htruncate : truncate (D₁.value x / D₂.period.value) = x * n := by
    have h := truncate_div (x * n) one_ne_zero
    rw [Int.tdiv_one, Int.cast_one, div_one] at h
    rw [Duration.value, mul_div_assoc, hquotient, ← h]
    push_cast
    rfl
  by_cases hsame : D₁ = D₂
  · have hone : n = 1 := by
      rw [hsame, div_self hne] at hquotient
      exact_mod_cast hquotient.symm
    rw [convert, if_pos hsame, hone, mul_one]
  · obtain ⟨R, hR, hperiod, hvalue⟩ := ratioDivide_eq h₁ h₂ hcross
    have hden : R.den = 1 := by
      rw [hperiod.den_eq, hvalue, hquotient]
      rfl
    have hcast := durationCast_eq (x := x) h₁ h₂ hcross
      (by rw [hquotient, Rat.num_intCast]; exact hfits.mono hle) (by rwa [htruncate])
    rw [convert, if_neg hsame, hR, Option.bind_some, if_pos hden, hcast, htruncate]

/-! ### The common type -/

/-- The common measure of the periods. -/
def commonPeriod (D₁ D₂ : Duration) : ℚ := commonMeasure D₁.period.value D₂.period.value

section Common

theorem commonPeriod_pos (h₁ : D₁.period.IsPeriod) : 0 < commonPeriod D₁ D₂ :=
  commonMeasure_pos h₁.value_pos

variable (h₁ : D₁.period.IsPeriod) (h₂ : D₂.period.IsPeriod)
include h₁ h₂

theorem staticGcd_num :
    staticGcd D₁.period.num D₂.period.num = (commonPeriod D₁ D₂).num := by
  rw [commonPeriod, staticGcd_eq _ _ h₁.pos.le h₂.pos.le (.inl h₁.pos.ne'), num_commonMeasure,
    h₁.num_eq, h₂.num_eq]

theorem staticLcm_den :
    staticLcm D₁.period.den D₂.period.den = constant (commonPeriod D₁ D₂).den := by
  rw [staticLcm, staticGcd_eq _ _ h₁.den_pos.le h₂.den_pos.le (.inl h₁.den_pos.ne'), commonPeriod,
    den_commonMeasure, h₁.den_eq, h₂.den_eq, Int.gcd_natCast_natCast, Int.natCast_tdiv_eq_ediv,
    ← Int.natCast_ediv, ← Int.natCast_mul, Nat.div_mul_right_comm (Nat.gcd_dvd_left ..),
    ← Nat.lcm_eq_mul_div]

theorem commonPeriod_num_fits : IntType.int64.Fits (commonPeriod D₁ D₂).num := by
  refine h₁.num_fits.of_le (.inl ⟨(Rat.num_pos.2 (commonPeriod_pos h₁)).le, ?_⟩)
  rw [← staticGcd_num h₁ h₂, staticGcd_eq _ _ h₁.pos.le h₂.pos.le (.inl h₁.pos.ne')]
  exact Int.le_of_dvd h₁.pos (Int.gcd_dvd_left ..)

/-- The common type compiles where the common denominator fits, and has the common measure. -/
theorem commonType_eq (hden : IntType.int64.Fits (commonPeriod D₁ D₂).den) :
    ∃ C, commonType D₁ D₂ = some C ∧ C.rep = D₁.rep.common D₂.rep ∧ C.period.IsPeriod ∧
      C.period.value = commonPeriod D₁ D₂ := by
  have hdenpos : (0 : ℤ) < (commonPeriod D₁ D₂).den := by exact_mod_cast Rat.pos _
  obtain ⟨R, hR, hperiod, hvalue⟩ := ratioType_eq (Rat.num_pos.2 (commonPeriod_pos h₁)) hdenpos
    (commonPeriod_num_fits h₁ h₂) hden
  rw [Int.cast_natCast, Rat.num_div_den] at hvalue
  refine ⟨⟨D₁.rep.common D₂.rep, R⟩, ?_, rfl, hperiod, hvalue⟩
  rw [commonType, staticLcm_den h₁ h₂, constant, if_pos hden, staticGcd_num h₁ h₂]
  show (ratioType _ _).bind _ = _
  rw [hR]
  rfl

/-- What the conversions to the common type need of the two periods. -/
structure CommonCross (D₁ D₂ : Duration) : Prop where
  left : Cross D₁.period (commonPeriod D₁ D₂)
  right : Cross D₂.period (commonPeriod D₁ D₂)

omit h₂ in
theorem CommonCross.den_fits (h : CommonCross D₁ D₂) :
    IntType.int64.Fits (commonPeriod D₁ D₂).den := by
  refine IntType.Fits.of_mul ?_ h₁.pos
  rw [mul_comm]
  exact h.left.num

/-- It is what compiles. -/
theorem commonCross_iff :
    CommonCross D₁ D₂ ↔ ∃ C, commonType D₁ D₂ = some C ∧
      (ratioDivide D₁.period C.period).isSome ∧ (ratioDivide D₂.period C.period).isSome := by
  constructor
  · intro h
    obtain ⟨C, hC, -, hperiod, hvalue⟩ := commonType_eq h₁ h₂ (h.den_fits h₁)
    obtain ⟨R, hR, -⟩ := ratioDivide_eq h₁ hperiod (hvalue ▸ h.left)
    obtain ⟨R', hR', -⟩ := ratioDivide_eq h₂ hperiod (hvalue ▸ h.right)
    exact ⟨C, hC, by rw [hR]; rfl, by rw [hR']; rfl⟩
  · rintro ⟨C, hC, hleft, hright⟩
    have hden : IntType.int64.Fits (commonPeriod D₁ D₂).den := by
      by_contra hnot
      rw [commonType, staticLcm_den h₁ h₂, constant, if_neg hnot] at hC
      cases hC
    obtain ⟨C', hC', -, hperiod, hvalue⟩ := commonType_eq h₁ h₂ hden
    obtain rfl := Option.some.inj (hC.symm.trans hC')
    exact ⟨hvalue ▸ cross_of_isSome hperiod hleft, hvalue ▸ cross_of_isSome hperiod hright⟩

end Common

/-! ### The operators -/

/-- What the operators come to. -/
structure Exact (D₁ D₂ C : Duration) (x y : ℤ) : Prop where
  eq : Chrono.eq D₁ D₂ x y = some (decide (D₁.value x = D₂.value y))
  lt : Chrono.lt D₁ D₂ x y = some (decide (D₁.value x < D₂.value y))
  add : ∃ z, C.value z = D₁.value x + D₂.value y ∧ (C.rep.Fits z → Chrono.add D₁ D₂ x y = some z)
  sub : ∃ z, C.value z = D₁.value x - D₂.value y ∧ (C.rep.Fits z → Chrono.sub D₁ D₂ x y = some z)
  div : y ≠ 0 → C.rep.Fits (truncate (D₁.value x / D₂.value y)) →
    Chrono.div D₁ D₂ x y = some (truncate (D₁.value x / D₂.value y))
  mod : y ≠ 0 → C.rep.promote.Fits (truncate (D₁.value x / D₂.value y)) →
    ∃ z, C.value z = D₁.value x - truncate (D₁.value x / D₂.value y) * D₂.value y ∧
      Chrono.mod D₁ D₂ x y = some z

theorem value_inj (h : 0 < D.period.value) : D.value x = D.value y ↔ x = y := by
  rw [Duration.value, Duration.value, mul_left_inj' h.ne', Int.cast_inj]

theorem value_lt (h : 0 < D.period.value) : D.value x < D.value y ↔ x < y := by
  rw [Duration.value, Duration.value, mul_lt_mul_iff_left₀ h, Int.cast_lt]

/-- In the common type the counts are the exact times, so their arithmetic is that of the times. -/
theorem exact_of_toCommon {m n : ℤ} (h₁ : 0 < D₁.period.value) (hC : 0 < C.period.value)
    (h : toCommon D₁ D₂ x y = some (C, m, n)) (hm : D₁.value x = C.value m)
    (hn : D₂.value y = C.value n) (hmfits : C.rep.Fits m) (hnfits : C.rep.Fits n)
    (hzero : y ≠ 0 → n ≠ 0) : Exact D₁ D₂ C x y := by
  have hdiv : n ≠ 0 → truncate (D₁.value x / D₂.value y) = m.tdiv n := by
    intro hne
    rw [← truncate_div m hne, hm, hn, Duration.value, Duration.value,
      mul_div_mul_right _ _ hC.ne']
  constructor
  · by_cases hsame : D₁ = D₂
    · subst hsame
      rw [Chrono.eq, if_pos rfl, decide_eq_decide.2 (value_inj h₁)]
    · rw [Chrono.eq, if_neg hsame, h, hm, hn, decide_eq_decide.2 (value_inj hC)]
      rfl
  · by_cases hsame : D₁ = D₂
    · subst hsame
      rw [Chrono.lt, if_pos rfl, decide_eq_decide.2 (value_lt h₁)]
    · rw [Chrono.lt, if_neg hsame, h, hm, hn, decide_eq_decide.2 (value_lt hC)]
      rfl
  · refine ⟨m + n, ?_, fun hfits => ?_⟩
    · rw [hm, hn, Duration.value, Duration.value, Duration.value]
      push_cast
      ring
    · rw [add, h]
      show (C.rep.add m n).bind _ = _
      rw [IntType.add_eq hfits, Option.bind_some, IntType.cast_eq hfits]
      rfl
  · refine ⟨m - n, ?_, fun hfits => ?_⟩
    · rw [hm, hn, Duration.value, Duration.value, Duration.value]
      push_cast
      ring
    · rw [sub, h]
      show (C.rep.sub m n).bind _ = _
      rw [IntType.sub_eq hfits, Option.bind_some, IntType.cast_eq hfits]
      rfl
  · intro hy hfits
    rw [hdiv (hzero hy)] at hfits ⊢
    rw [div, h]
    show (C.rep.div m n).bind _ = _
    rw [IntType.div_eq (hzero hy) (hfits.mono IntType.le_promote), Option.bind_some,
      IntType.cast_eq hfits]
    rfl
  · intro hy hfits
    rw [hdiv (hzero hy)] at hfits ⊢
    refine ⟨m.tmod n, ?_, ?_⟩
    · have hmod : (m.tmod n : ℚ) = m - m.tdiv n * n := by
        have := Int.tmod_def m n
        rw [this]
        push_cast
        ring
      rw [hm, hn, Duration.value, Duration.value, Duration.value, hmod]
      ring
    · rw [mod, h]
      show (C.rep.mod (C.rep.cast m) (C.rep.cast n)).bind _ = _
      rw [IntType.cast_eq hmfits, IntType.cast_eq hnfits, IntType.mod_eq (hzero hy) hfits,
        Option.bind_some, IntType.cast_eq hmfits.tmod]
      rfl

/-- Every value of the common representation is one of the type conversions to it compute in. -/
theorem common_le (T U : IntType) :
    (T.common U).Le (((T.common U).common T).common .int64) ∧
      (T.common U).Le (((T.common U).common U).common .int64) := by
  rcases T with ⟨_ | _ | _ | _, _ | _⟩ <;> rcases U with ⟨_ | _ | _ | _, _ | _⟩ <;> decide

/-- The common type, and the factors of the conversions to it. -/
structure IsCommon (D₁ D₂ C : Duration) (a b : ℤ) : Prop where
  type : commonType D₁ D₂ = some C
  left : 0 < a ∧ D₁.period.value = a * C.period.value
  right : 0 < b ∧ D₂.period.value = b * C.period.value
  largest : ∀ r, 0 < r → Measures r D₁.period.value → Measures r D₂.period.value →
    r ≤ C.period.value
  convertLeft : ∀ x, C.rep.Fits (x * a) → convert D₁ C x = some (x * a)
  convertRight : ∀ y, C.rep.Fits (y * b) → convert D₂ C y = some (y * b)

/-- Any two durations: the common type is exact and the operators are those of the times, and
`duration_cast` truncates the exact quotient. -/
theorem mixed_periods (h₁ : D₁.period.IsPeriod) (h₂ : D₂.period.IsPeriod) :
    (CommonCross D₁ D₂ → ∃ C a b, IsCommon D₁ D₂ C a b ∧
      ∀ x y, C.rep.Fits (x * a) → C.rep.Fits (y * b) → Exact D₁ D₂ C x y) ∧
    (Cross D₁.period D₂.period.value → ∀ x,
      (castType D₁ D₂).Fits (x * (D₁.period.value / D₂.period.value).num) →
      D₂.rep.Fits (truncate (D₁.value x / D₂.period.value)) →
      durationCast D₁ D₂ x = some (truncate (D₁.value x / D₂.period.value))) := by
  refine ⟨fun hcross => ?_, fun hcross x hproduct hresult =>
    durationCast_eq h₁ h₂ hcross hproduct hresult⟩
  obtain ⟨C, hC, hrep, hperiod, hvalue⟩ := commonType_eq h₁ h₂ (hcross.den_fits h₁)
  obtain ⟨a, ha⟩ := measures_left D₁.period.value D₂.period.value
  obtain ⟨b, hb⟩ := measures_right D₁.period.value D₂.period.value
  change _ = _ * commonPeriod D₁ D₂ at ha hb
  rw [← hvalue] at ha hb
  have ha0 : 0 < a := by
    have hmul : 0 < (a : ℚ) * C.period.value := ha ▸ h₁.value_pos
    exact_mod_cast (mul_pos_iff_of_pos_right hperiod.value_pos).1 hmul
  have hb0 : 0 < b := by
    have hmul : 0 < (b : ℚ) * C.period.value := hb ▸ h₂.value_pos
    exact_mod_cast (mul_pos_iff_of_pos_right hperiod.value_pos).1 hmul
  have hle := common_le D₁.rep D₂.rep
  rw [← hrep] at hle
  have hleft : ∀ x, C.rep.Fits (x * a) → convert D₁ C x = some (x * a) := fun x hx =>
    convert_eq h₁ hperiod (hvalue ▸ hcross.left) ha hle.1 hx
  have hright : ∀ y, C.rep.Fits (y * b) → convert D₂ C y = some (y * b) := fun y hy =>
    convert_eq h₂ hperiod (hvalue ▸ hcross.right) hb hle.2 hy
  refine ⟨C, a, b, ⟨hC, ⟨ha0, ha⟩, ⟨hb0, hb⟩, ?_, hleft, hright⟩, ?_⟩
  · intro r hr hr₁ hr₂
    rw [hvalue]
    exact (hr₁.commonMeasure hr₂).le hr (commonPeriod_pos h₁)
  · intro x y hx hy
    refine exact_of_toCommon h₁.value_pos hperiod.value_pos (m := x * a) (n := y * b) ?_ ?_ ?_
      hx hy fun hne => mul_ne_zero hne hb0.ne'
    · rw [toCommon, hC]
      show (convert D₁ C x).bind _ = _
      rw [hleft x hx, Option.bind_some]
      show (convert D₂ C y).bind _ = _
      rw [hright y hy]
      rfl
    · rw [Duration.value, Duration.value, ha]
      push_cast
      ring
    · rw [Duration.value, Duration.value, hb]
      push_cast
      ring

/-- Thirds and halves of a second, neither of which is a whole number of the other. -/
def thirds : Duration := ⟨.int64, ⟨1, 3⟩⟩

def halves : Duration := ⟨.int64, ⟨1, 2⟩⟩

theorem mixed_periods_thirds :
    (∃ C a b, IsCommon thirds halves C a b ∧
      ∀ x y, C.rep.Fits (x * a) → C.rep.Fits (y * b) → Exact thirds halves C x y) ∧
    durationCast thirds halves 4 = some 2 := by
  have h₁ : thirds.period.IsPeriod := ⟨by decide +kernel, by decide +kernel⟩
  have h₂ : halves.period.IsPeriod := ⟨by decide +kernel, by decide +kernel⟩
  have hcross : CommonCross thirds halves :=
    ⟨⟨by decide +kernel, by decide +kernel⟩, ⟨by decide +kernel, by decide +kernel⟩⟩
  have hcast : truncate (thirds.value 4 / halves.period.value) = 2 := by decide +kernel
  obtain ⟨hcommon, hrest⟩ := mixed_periods h₁ h₂
  refine ⟨hcommon hcross, ?_⟩
  rw [← hcast]
  exact hrest ⟨by decide +kernel, by decide +kernel⟩ 4 (by decide +kernel) (by decide +kernel)

end MinStd.Chrono
