import Mathlib.Data.Rat.Floor

/-!
# The common measure of two rationals

A rational measures another if that is a whole number of times it.  The largest that measures two
positive rationals is the greatest common divisor of their numerators over the least common multiple
of their denominators.
-/

namespace MinStd

/-- `p` is a whole number of times `r`. -/
def Measures (r p : ℚ) : Prop := ∃ n : ℤ, p = n * r

def commonMeasure (p q : ℚ) : ℚ := (Int.gcd p.num q.num : ℚ) / Nat.lcm p.den q.den

variable {p q r : ℚ}

theorem commonMeasure_comm (p q : ℚ) : commonMeasure p q = commonMeasure q p := by
  rw [commonMeasure, Int.gcd_comm, Nat.lcm_comm, commonMeasure]

theorem commonMeasure_pos (hp : 0 < p) : 0 < commonMeasure p q := by
  have hnum : 0 < Int.gcd p.num q.num := Int.gcd_pos_of_ne_zero_left _ (Rat.num_pos.2 hp).ne'
  have hden : 0 < Nat.lcm p.den q.den := Nat.lcm_pos p.pos q.pos
  unfold commonMeasure
  positivity

theorem coprime_commonMeasure (p q : ℚ) :
    (Int.gcd p.num q.num).Coprime (Nat.lcm p.den q.den) := by
  have hp : (Int.gcd p.num q.num).Coprime p.den :=
    p.reduced.coprime_dvd_left (Nat.gcd_dvd_left ..)
  have hq : (Int.gcd p.num q.num).Coprime q.den :=
    q.reduced.coprime_dvd_left (Nat.gcd_dvd_right ..)
  exact (hp.mul_right hq).coprime_dvd_right (Nat.lcm_dvd_mul ..)

theorem num_commonMeasure (p q : ℚ) : (commonMeasure p q).num = Int.gcd p.num q.num := by
  have hlcm : (0 : ℤ) < Nat.lcm p.den q.den := by exact_mod_cast Nat.lcm_pos p.pos q.pos
  have h := Rat.num_div_eq_of_coprime (a := Int.gcd p.num q.num) hlcm
    (by simpa using coprime_commonMeasure p q)
  rwa [Int.cast_natCast, Int.cast_natCast] at h

theorem den_commonMeasure (p q : ℚ) : (commonMeasure p q).den = Nat.lcm p.den q.den := by
  have hlcm : (0 : ℤ) < Nat.lcm p.den q.den := by exact_mod_cast Nat.lcm_pos p.pos q.pos
  have h := Rat.den_div_eq_of_coprime (a := Int.gcd p.num q.num) hlcm
    (by simpa using coprime_commonMeasure p q)
  rw [Int.cast_natCast, Int.cast_natCast] at h
  exact Int.natCast_inj.1 h

theorem measures_left (p q : ℚ) : Measures (commonMeasure p q) p := by
  obtain ⟨m, hm⟩ : (Int.gcd p.num q.num : ℤ) ∣ p.num := Int.gcd_dvd_left ..
  obtain ⟨k, hk⟩ : p.den ∣ Nat.lcm p.den q.den := Nat.dvd_lcm_left ..
  have hk0 : k ≠ 0 := by
    rintro rfl
    exact (Nat.lcm_pos p.pos q.pos).ne' hk
  refine ⟨m * k, ?_⟩
  have hnum : (p.num : ℚ) = Int.gcd p.num q.num * m := by exact_mod_cast hm
  have hden : (p.den : ℚ) ≠ 0 := by exact_mod_cast p.pos.ne'
  have hk' : (k : ℚ) ≠ 0 := by exact_mod_cast hk0
  rw [commonMeasure, hk]
  conv_lhs => rw [← Rat.num_div_den p, hnum]
  push_cast
  field_simp

/-- What measures a rational divides its numerator, and the other way round for the denominators. -/
theorem Measures.num_dvd (h : Measures r p) : r.num ∣ p.num ∧ p.den ∣ r.den := by
  obtain ⟨n, rfl⟩ := h
  have hden : ((n : ℚ) * r).den ∣ r.den := by
    simpa using Rat.mul_den_dvd n r
  refine ⟨?_, hden⟩
  have hcross : ((n : ℚ) * r).num * r.den = n * r.num * ((n : ℚ) * r).den := by
    have hmul := Rat.mul_den_eq_num ((n : ℚ) * r)
    have hr := Rat.mul_den_eq_num r
    have : ((((n : ℚ) * r).num * r.den : ℤ) : ℚ) =
        ((n * r.num * ((n : ℚ) * r).den : ℤ) : ℚ) := by
      push_cast
      rw [← hmul, ← hr]
      ring
    exact_mod_cast this
  have hdvd : r.num ∣ ((n : ℚ) * r).num * r.den := by
    rw [hcross]
    exact ⟨n * ((n : ℚ) * r).den, by ring⟩
  exact Int.dvd_of_dvd_mul_left_of_gcd_one hdvd r.reduced

theorem measures_right (p q : ℚ) : Measures (commonMeasure p q) q := by
  rw [commonMeasure_comm]
  exact measures_left q p

/-- What measures both measures the common measure. -/
theorem Measures.commonMeasure (hp : Measures r p) (hq : Measures r q) :
    Measures r (commonMeasure p q) := by
  obtain ⟨hpnum, hpden⟩ := hp.num_dvd
  obtain ⟨hqnum, hqden⟩ := hq.num_dvd
  obtain ⟨m, hm⟩ : r.num ∣ (Int.gcd p.num q.num : ℤ) := Int.dvd_coe_gcd hpnum hqnum
  obtain ⟨k, hk⟩ : Nat.lcm p.den q.den ∣ r.den := Nat.lcm_dvd hpden hqden
  refine ⟨m * k, ?_⟩
  have hnum : (Int.gcd p.num q.num : ℚ) = r.num * m := by exact_mod_cast hm
  have hden : (r.den : ℚ) = Nat.lcm p.den q.den * k := by exact_mod_cast hk
  have hr : (r.den : ℚ) ≠ 0 := by exact_mod_cast r.pos.ne'
  have hlcm : (Nat.lcm p.den q.den : ℚ) ≠ 0 := by
    exact_mod_cast (Nat.lcm_pos p.pos q.pos).ne'
  have hk' : (k : ℚ) ≠ 0 := by
    rintro hk0
    rw [hk0, mul_zero] at hden
    exact hr hden
  rw [MinStd.commonMeasure, hnum]
  conv_rhs => rw [← Rat.num_div_den r, hden]
  push_cast
  field_simp

/-- A positive rational is at least what measures it. -/
theorem Measures.le (h : Measures r p) (hr : 0 < r) (hp : 0 < p) : r ≤ p := by
  obtain ⟨n, rfl⟩ := h
  have hn : 0 < n := by
    have hcast : (0 : ℚ) < n := (mul_pos_iff_of_pos_right hr).1 hp
    exact_mod_cast hcast
  exact le_mul_of_one_le_left hr.le (by exact_mod_cast hn)

/-! ### Truncation -/

/-- Rounded toward zero. -/
def truncate (q : ℚ) : ℤ := if 0 ≤ q then ⌊q⌋ else ⌈q⌉

theorem truncate_div_pos (a : ℤ) {b : ℤ} (hb : 0 < b) : truncate ((a : ℚ) / b) = a.tdiv b := by
  obtain ⟨n, rfl⟩ := Int.eq_ofNat_of_zero_le hb.le
  have hb' : (0 : ℚ) < ((n : ℤ) : ℚ) := by exact_mod_cast hb
  rw [truncate, Int.cast_natCast] at *
  rcases le_or_gt 0 a with ha | ha
  · have ha' : (0 : ℚ) ≤ a := by exact_mod_cast ha
    rw [if_pos (div_nonneg ha' hb'.le), Rat.floor_intCast_div_natCast,
      Int.tdiv_eq_ediv_of_nonneg ha]
  · have ha' : (a : ℚ) < 0 := by exact_mod_cast ha
    rw [if_neg (not_le.2 (div_neg_of_neg_of_pos ha' hb')), Rat.ceil_intCast_div_natCast,
      ← Int.tdiv_eq_ediv_of_nonneg (by omega), Int.neg_tdiv, neg_neg]

theorem truncate_div (a : ℤ) {b : ℤ} (hb : b ≠ 0) : truncate ((a : ℚ) / b) = a.tdiv b := by
  rcases lt_or_gt_of_ne hb with hneg | hpos
  · have h := truncate_div_pos (-a) (neg_pos.2 hneg)
    rwa [Int.cast_neg, Int.cast_neg, neg_div_neg_eq, Int.neg_tdiv, Int.tdiv_neg, neg_neg] at h
  · exact truncate_div_pos a hpos

end MinStd
