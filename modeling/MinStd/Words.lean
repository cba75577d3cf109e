import Mathlib.Data.Nat.Bitwise

/-!
# Machine words

A machine word is a natural number.  `pack` puts a number above a 32-bit one; `hi32` and `lo32`
take a 64-bit word apart as the casts to a 32-bit type do.  `add64`, `sub64` and `mul64` are the
operations of the 64-bit unsigned types.
-/

namespace MinStd

/-- The number of values of a 32-bit word. -/
def WORD32 : ℕ := 2 ^ 32

def pack (hi lo : ℕ) : ℕ := hi <<< 32 ||| lo

def lo32 (v : ℕ) : ℕ := v % WORD32

def hi32 (v : ℕ) : ℕ := (v >>> 32) % WORD32

theorem lo32_lt (v : ℕ) : lo32 v < WORD32 := Nat.mod_lt _ (by decide)

theorem hi32_lt (v : ℕ) : hi32 v < WORD32 := Nat.mod_lt _ (by decide)

theorem pack_eq {hi lo : ℕ} (h : lo < WORD32) : pack hi lo = hi * WORD32 + lo := by
  unfold pack WORD32 at *
  rw [← Nat.shiftLeft_add_eq_or_of_lt h, Nat.shiftLeft_eq]

theorem lo32_pack {hi lo : ℕ} (h : lo < WORD32) : lo32 (pack hi lo) = lo := by
  rw [pack_eq h]
  unfold lo32 WORD32 at *
  omega

theorem hi32_pack {hi lo : ℕ} (hhi : hi < WORD32) (hlo : lo < WORD32) :
    hi32 (pack hi lo) = hi := by
  rw [pack_eq hlo]
  unfold hi32 WORD32 at *
  rw [Nat.shiftRight_eq_div_pow]
  omega

/-! ### 64-bit arithmetic -/

/-- The number of values of a 64-bit word. -/
def WORD64 : ℕ := 2 ^ 64

def add64 (a b : ℕ) : ℕ := (a + b) % WORD64

def sub64 (a b : ℕ) : ℕ := (a + WORD64 - b) % WORD64

def mul64 (a b : ℕ) : ℕ := a * b % WORD64

theorem add64_eq {a b : ℕ} (h : a + b < WORD64) : add64 a b = a + b := Nat.mod_eq_of_lt h

theorem mul64_eq {a b : ℕ} (h : a * b < WORD64) : mul64 a b = a * b := Nat.mod_eq_of_lt h

theorem sub64_eq {a b : ℕ} (h : b ≤ a) (ha : a < WORD64) : sub64 a b = a - b := by
  unfold sub64 WORD64 at *
  omega

theorem sub64_add {a b : ℕ} (h : a + b < WORD64) : sub64 (a + b) b = a := by
  rw [sub64_eq (by omega) h, Nat.add_sub_cancel]

theorem sub64_add_cancel {a b : ℕ} (ha : a < WORD64) (h : sub64 a b + b < WORD64) :
    sub64 a b + b = a := by
  unfold sub64 WORD64 at *
  omega

theorem add64_lt (a b : ℕ) : add64 a b < WORD64 := Nat.mod_lt _ (by decide)

theorem sub64_lt (a b : ℕ) : sub64 a b < WORD64 := Nat.mod_lt _ (by decide)

/-- The mask that clears the low bits of a word. -/
theorem and_not_mask {x k : ℕ} (hx : x < WORD64) (hk : k ≤ 64) :
    x &&& (WORD64 - 2 ^ k) = x / 2 ^ k * 2 ^ k := by
  refine Nat.eq_of_testBit_eq fun i => ?_
  have hsub : WORD64 - 2 ^ k = (2 ^ (64 - k) - 1) * 2 ^ k := by
    unfold WORD64
    rw [Nat.sub_mul, one_mul, ← Nat.pow_add, Nat.sub_add_cancel hk]
  rw [hsub, Nat.testBit_and, Nat.testBit_mul_two_pow, Nat.testBit_mul_two_pow,
    Nat.testBit_two_pow_sub_one, Nat.testBit_div_two_pow]
  by_cases hik : k ≤ i
  · have hi : i < 64 ∨ x.testBit i = false := by
      rcases lt_or_ge i 64 with h | h
      · exact .inl h
      · exact .inr (Nat.testBit_lt_two_pow (hx.trans_le (Nat.pow_le_pow_right (by decide) h)))
    rcases hi with hi | hi
    · simp [hik, show i - k < 64 - k by omega]
    · simp [hi, hik]
  · simp [hik]

end MinStd
