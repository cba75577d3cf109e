import Mathlib.Data.Nat.Bitwise

/-!
# Two fields in a word

A 64-bit word with a field in its low bits and another above it.
-/

namespace MinStd

/-- The mask of the low bits. -/
def lowMask (n : ℕ) : BitVec 64 := 1#64 <<< n - 1#64

variable {n i : ℕ} {x hi lo : BitVec 64}

theorem toNat_lowMask (hn : n ≤ 64) : (lowMask n).toNat = 2 ^ n - 1 := by
  rcases hn.lt_or_eq with h | rfl
  · have hlt : 2 ^ n < 2 ^ 64 := Nat.pow_lt_pow_right (by omega) h
    have hpos : 0 < 2 ^ n := Nat.two_pow_pos n
    rw [lowMask, BitVec.toNat_sub, BitVec.toNat_shiftLeft, Nat.shiftLeft_eq]
    simp only [BitVec.toNat_ofNat]
    omega
  · rfl

theorem getLsbD_lowMask (hn : n ≤ 64) : (lowMask n).getLsbD i = decide (i < n) := by
  rw [BitVec.getLsbD, toNat_lowMask hn, Nat.testBit_two_pow_sub_one]

theorem toNat_and_lowMask (hn : n ≤ 64) : (x &&& lowMask n).toNat = x.toNat % 2 ^ n := by
  rw [BitVec.toNat_and, toNat_lowMask hn, Nat.and_two_pow_sub_one_eq_mod]

/-- The other mask of low bits. -/
theorem allOnes_ushiftRight (hn : n ≤ 64) : BitVec.allOnes 64 >>> n = lowMask (64 - n) := by
  refine BitVec.eq_of_getLsbD_eq fun i hi => ?_
  rw [getLsbD_lowMask (by omega), BitVec.getLsbD_ushiftRight, BitVec.getLsbD_allOnes]
  exact decide_eq_decide.2 (by omega)

theorem getLsbD_of_lt (hlo : lo.toNat < 2 ^ n) (hi : n ≤ i) : lo.getLsbD i = false :=
  Nat.testBit_lt_two_pow (hlo.trans_le (Nat.pow_le_pow_right (by omega) hi))

theorem and_bit_ne_zero (x : BitVec 64) (hi : i < 64) :
    x &&& (1#64 <<< i) ≠ 0#64 ↔ x.getLsbD i = true := by
  rw [← BitVec.twoPow_eq, BitVec.and_twoPow]
  cases x.getLsbD i
  · simp
  · have hne : BitVec.twoPow 64 i ≠ 0#64 := by
      intro hzero
      have hbit := congrArg (BitVec.getLsbD · i) hzero
      simp [hi] at hbit
    simpa using hne

/-- The low field of a word. -/
theorem or_and_lowMask (hn : n ≤ 64) (hlo : lo.toNat < 2 ^ n) :
    (hi <<< n ||| lo) &&& lowMask n = lo := by
  refine BitVec.eq_of_getLsbD_eq fun i hi64 => ?_
  rw [BitVec.getLsbD_and, BitVec.getLsbD_or, BitVec.getLsbD_shiftLeft, getLsbD_lowMask hn]
  by_cases hin : i < n
  · simp [hin]
  · simp [hin, getLsbD_of_lt hlo (not_lt.1 hin)]

/-- The high field of a word, which loses what does not fit. -/
theorem or_ushiftRight (hn : n ≤ 64) (hlo : lo.toNat < 2 ^ n) :
    (hi <<< n ||| lo) >>> n = hi &&& lowMask (64 - n) := by
  refine BitVec.eq_of_getLsbD_eq fun i hi64 => ?_
  rw [BitVec.getLsbD_ushiftRight, BitVec.getLsbD_or, BitVec.getLsbD_shiftLeft, BitVec.getLsbD_and,
    getLsbD_lowMask (by omega), getLsbD_of_lt hlo (by omega)]
  by_cases hin : n + i < 64
  · simp [hin, show i < 64 - n by omega]
  · simp [hin, show ¬ i < 64 - n by omega]

end MinStd
