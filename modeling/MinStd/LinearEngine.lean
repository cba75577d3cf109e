import Mathlib.Algebra.Group.Hom.Defs
import Mathlib.Data.Nat.Bitwise
import Mathlib.Logic.Function.Iterate

/-!
# Jumping ahead in a linear engine

The step of a generator whose states form a group of exponent two is an additive map `T`, and a
polynomial over the two-element field acts on the states through the powers of `T` (`jump`).  If a
polynomial of degree `n` acts as zero, then every power of `T` acts as its remainder does, and the
remainder of `X ^ 2 ^ k` is found by `k` squarings (`jump_power`).
-/

namespace MinStd.LinearEngine

/-! ### Polynomials -/

/-- The coefficients of a polynomial below degree `n`, its constant term first. -/
def bits : ℕ → ℕ → List Bool
  | 0, _ => []
  | n + 1, r => r.testBit 0 :: bits n (r / 2)

/-- The remainder of `X * r` by the polynomial `P` of degree `n`. -/
def mulX (P n r : ℕ) : ℕ := if 2 ^ n ≤ 2 * r then (2 * r) ^^^ P else 2 * r

/-- The remainder of the square of a polynomial. -/
def square (P n : ℕ) : List Bool → ℕ
  | [] => 0
  | b :: p => mulX P n (mulX P n (square P n p)) ^^^ b.toNat

/-- The remainder of `X ^ 2 ^ k`.  Matching on the previous one has it evaluated first. -/
def power (P n : ℕ) : ℕ → ℕ
  | 0 => 2
  | k + 1 =>
    match power P n k with
    | 0 => 0
    | r + 1 => square P n (bits n (r + 1))

theorem square_zero (P n m : ℕ) : square P n (bits m 0) = 0 := by
  induction m with
  | zero => rfl
  | succ m ih => simp [bits, square, ih, mulX]

theorem power_succ (P n k : ℕ) : power P n (k + 1) = square P n (bits n (power P n k)) := by
  rw [power]
  rcases power P n k with _ | r
  · exact (square_zero P n n).symm
  · rfl

theorem xor_lt {a b n : ℕ} (ha : 2 ^ n ≤ a) (ha' : a < 2 ^ (n + 1)) (hb : 2 ^ n ≤ b)
    (hb' : b < 2 ^ (n + 1)) : a ^^^ b < 2 ^ n := by
  refine Nat.lt_pow_two_of_testBit _ fun i hi => ?_
  rw [Nat.testBit_xor]
  rcases hi.eq_or_lt with rfl | hi
  · rw [Nat.testBit_of_two_pow_le_and_two_pow_add_one_gt ha ha',
      Nat.testBit_of_two_pow_le_and_two_pow_add_one_gt hb hb']
    rfl
  · have hpow : 2 ^ (n + 1) ≤ 2 ^ i := Nat.pow_le_pow_right (by decide) hi
    rw [Nat.testBit_eq_false_of_lt (ha'.trans_le hpow),
      Nat.testBit_eq_false_of_lt (hb'.trans_le hpow)]
    rfl

variable {P n : ℕ}

theorem mulX_lt {r : ℕ} (hP : 2 ^ n ≤ P) (hP' : P < 2 ^ (n + 1)) (hr : r < 2 ^ n) :
    mulX P n r < 2 ^ n := by
  have hpow : 2 ^ (n + 1) = 2 * 2 ^ n := Nat.pow_succ'
  unfold mulX
  split_ifs with h
  · exact xor_lt h (by omega) hP hP'
  · omega

theorem square_lt (hn : 0 < n) (hP : 2 ^ n ≤ P) (hP' : P < 2 ^ (n + 1)) (p : List Bool) :
    square P n p < 2 ^ n := by
  induction p with
  | nil => exact Nat.two_pow_pos n
  | cons b p ih =>
    have hb : b.toNat < 2 ^ n := (Bool.toNat_lt b).trans_le (Nat.le_self_pow hn.ne' 2)
    exact Nat.xor_lt_two_pow (mulX_lt hP hP' (mulX_lt hP hP' ih)) hb

/-! ### The action on the states -/

variable {S : Type*} [AddCommGroup S]

/-- The sum of the powers of `T` that are terms of the polynomial. -/
def jump (T : S → S) : List Bool → S → S
  | [], _ => 0
  | b :: p, s => (if b then s else 0) + jump T p (T s)

section Jump

variable (T : S →+ S)

theorem jump_add (p : List Bool) (s t : S) : jump T p (s + t) = jump T p s + jump T p t := by
  induction p generalizing s t with
  | nil => exact (add_zero 0).symm
  | cons b p ih =>
    simp only [jump, map_add, ih]
    split_ifs
    · exact add_add_add_comm ..
    · rw [zero_add, zero_add, zero_add]

theorem jump_step (p : List Bool) (s : S) : jump T p (T s) = T (jump T p s) := by
  induction p generalizing s with
  | nil => exact (map_zero T).symm
  | cons b p ih =>
    simp only [jump, map_add, ih]
    split_ifs
    · rfl
    · rw [map_zero]

/-- A polynomial's action, as an additive map. -/
def jumpHom (p : List Bool) : S →+ S := AddMonoidHom.mk' (jump T p) (jump_add T p)

variable {T}

theorem jump_two_mul (m r : ℕ) (s : S) :
    jump T (bits (m + 1) (2 * r)) s = jump T (bits m r) (T s) := by
  have hbit : (2 * r).testBit 0 = false := by simp
  have hdiv : 2 * r / 2 = r := by omega
  simp only [bits, jump, hbit, hdiv, Bool.false_eq_true, if_false, zero_add]

/-- A coefficient beyond the degree changes nothing. -/
theorem jump_bits_succ {m r : ℕ} (hr : r < 2 ^ m) (s : S) :
    jump T (bits (m + 1) r) s = jump T (bits m r) s := by
  induction m generalizing r s with
  | zero =>
    obtain rfl : r = 0 := by omega
    simp [bits, jump]
  | succ m ih =>
    have hhalf : r / 2 < 2 ^ m := Nat.div_lt_of_lt_mul (by rwa [← Nat.pow_succ'])
    show _ + jump T (bits (m + 1) (r / 2)) (T s) = _ + jump T (bits m (r / 2)) (T s)
    rw [ih hhalf]

theorem jump_zero (m : ℕ) (s : S) : jump T (bits m 0) s = 0 := by
  induction m generalizing s with
  | zero => rfl
  | succ m ih => simp [bits, jump, ih]

theorem jump_one {m : ℕ} (hm : 0 < m) (s : S) : jump T (bits m 1) s = s := by
  obtain ⟨m, rfl⟩ := Nat.exists_eq_succ_of_ne_zero hm.ne'
  simp [bits, jump, jump_zero]

variable (htwo : ∀ s : S, s + s = 0)
include htwo

theorem jump_xor (m a b : ℕ) (s : S) :
    jump T (bits m (a ^^^ b)) s = jump T (bits m a) s + jump T (bits m b) s := by
  induction m generalizing a b s with
  | zero => exact (add_zero 0).symm
  | succ m ih =>
    simp only [bits, jump, Nat.testBit_xor, Nat.xor_div_two, ih]
    rcases a.testBit 0 <;> rcases b.testBit 0
    · simp
    · simp [add_left_comm]
    · simp [add_assoc]
    · simp [add_add_add_comm s, htwo]

theorem jump_mulX {r : ℕ} (hP : 2 ^ n ≤ P) (hP' : P < 2 ^ (n + 1))
    (hroot : ∀ s, jump T (bits (n + 1) P) s = 0) (hr : r < 2 ^ n) (s : S) :
    jump T (bits n (mulX P n r)) s = jump T (bits n r) (T s) := by
  rw [← jump_bits_succ (mulX_lt hP hP' hr), ← jump_two_mul]
  unfold mulX
  split_ifs
  · rw [jump_xor htwo, hroot, add_zero]
  · rfl

/-- Squaring a polynomial is acting with it twice: the mixed terms cancel. -/
theorem jump_square (hn : 0 < n) (hP : 2 ^ n ≤ P) (hP' : P < 2 ^ (n + 1))
    (hroot : ∀ s, jump T (bits (n + 1) P) s = 0) (p : List Bool) (s : S) :
    jump T (bits n (square P n p)) s = jump T p (jump T p s) := by
  induction p generalizing s with
  | nil => exact jump_zero n s
  | cons b p ih =>
    have hlt := square_lt hn hP hP' p
    have htwice : jump T (bits n (mulX P n (mulX P n (square P n p)))) s
        = jump T p (jump T p (T (T s))) := by
      rw [jump_mulX htwo hP hP' hroot (mulX_lt hP hP' hlt), jump_mulX htwo hP hP' hroot hlt, ih]
    rw [square, jump_xor htwo, htwice]
    cases b with
    | false =>
      simp only [Bool.toNat_false, jump_zero, jump, Bool.false_eq_true, if_false, zero_add, add_zero,
        jump_step]
    | true =>
      simp only [Bool.toNat_true, jump_one hn, jump, if_true, map_add, jump_add, jump_step]
      rw [add_assoc s, ← add_assoc (T _), htwo, zero_add, add_comm]

theorem jump_power (hn : 1 < n) (hP : 2 ^ n ≤ P) (hP' : P < 2 ^ (n + 1))
    (hroot : ∀ s, jump T (bits (n + 1) P) s = 0) (k : ℕ) (s : S) :
    jump T (bits n (power P n k)) s = T^[2 ^ k] s := by
  induction k generalizing s with
  | zero =>
    obtain ⟨m, rfl⟩ := Nat.exists_eq_add_of_lt hn
    show jump T (bits (1 + m + 1) (2 * 1)) s = T s
    rw [jump_two_mul, jump_one (by omega)]
  | succ k ih =>
    rw [power_succ, jump_square htwo (by omega) hP hP' hroot, ih, ih, ← Function.iterate_add_apply,
      ← Nat.two_mul, ← Nat.pow_succ']

end Jump

end MinStd.LinearEngine
