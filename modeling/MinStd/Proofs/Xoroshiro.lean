import MinStd.Xoroshiro

/-!
# A fork jumps `2 ^ 64` steps

States are added word by word, and the step is additive.  Its characteristic polynomial is checked
on the 128 states with one bit set, and the remainder of `X ^ 2 ^ 64` by it is the source's
constant.
-/

namespace MinStd.Xoroshiro

open LinearEngine

/-! ### The group of states -/

namespace SeedType

instance : Zero SeedType := ⟨⟨0, 0⟩⟩

instance : Add SeedType := ⟨fun s t => ⟨s.low ^^^ t.low, s.high ^^^ t.high⟩⟩

instance : Neg SeedType := ⟨id⟩

theorem add_def (s t : SeedType) : s + t = ⟨s.low ^^^ t.low, s.high ^^^ t.high⟩ := rfl

theorem zero_def : (0 : SeedType) = ⟨0, 0⟩ := rfl

theorem add_self (s : SeedType) : s + s = 0 := by
  rw [add_def, BitVec.xor_self, BitVec.xor_self]
  rfl

instance : AddCommGroup SeedType where
  add_assoc s t u := by simp only [add_def, BitVec.xor_assoc]
  zero_add s := by simp only [add_def, zero_def, BitVec.ofNat_eq_ofNat, BitVec.zero_xor]
  add_zero s := by simp only [add_def, zero_def, BitVec.ofNat_eq_ofNat, BitVec.xor_zero]
  neg_add_cancel := add_self
  add_comm s t := by simp only [add_def, BitVec.xor_comm]
  nsmul := nsmulRec
  zsmul := zsmulRec

/-- Every word is a sum of words with one bit set. -/
theorem hom_word {f : SeedType →+ SeedType} {g : BitVec 64 → SeedType}
    (hg : ∀ x y, g (x ^^^ y) = g x + g y) (hbit : ∀ i < 64, f (g (BitVec.twoPow 64 i)) = 0)
    (x : BitVec 64) : f (g x) = 0 := by
  suffices h : ∀ n ≤ 64, ∀ x : BitVec 64, x.toNat < 2 ^ n → f (g x) = 0 from h 64 le_rfl x x.isLt
  intro n
  induction n with
  | zero =>
    intro _ x hx
    obtain rfl : x = 0 := BitVec.eq_of_toNat_eq (by simpa using hx)
    have h := hg 0 0
    rw [BitVec.xor_self] at h
    rw [show g 0 = 0 from left_eq_add.1 h, map_zero]
  | succ n ih =>
    intro hn x hx
    rcases lt_or_ge x.toNat (2 ^ n) with hlt | hle
    · exact ih (by omega) x hlt
    · -- without its highest bit the word is smaller
      have hpow : (BitVec.twoPow 64 n).toNat = 2 ^ n := by
        rw [BitVec.toNat_twoPow, Nat.mod_eq_of_lt (Nat.pow_lt_pow_right (by decide) hn)]
      have hrest : (x ^^^ BitVec.twoPow 64 n).toNat < 2 ^ n := by
        rw [BitVec.toNat_xor, hpow]
        exact xor_lt hle hx le_rfl (Nat.pow_lt_pow_right (by decide) n.lt_succ_self)
      have hx' : x = (x ^^^ BitVec.twoPow 64 n) ^^^ BitVec.twoPow 64 n := by
        rw [BitVec.xor_assoc, BitVec.xor_self, BitVec.xor_zero]
      rw [hx', hg, map_add, ih (by omega) _ hrest, hbit n hn, add_zero]

end SeedType

/-! ### The step -/

theorem getLsbD_rotl (x : BitVec 64) (shift : ℕ) {i : ℕ} (hi : i < 64) :
    (rotl x shift).getLsbD i = x.getLsbD ((i + (64 - shift % 64)) % 64) := by
  have hk : shift % 64 < 64 := Nat.mod_lt _ (by decide)
  unfold rotl
  simp only
  generalize shift % 64 = k at hk
  split_ifs with h
  · rw [h, Nat.sub_zero, Nat.add_mod_right, Nat.mod_eq_of_lt hi]
  · simp only [BitVec.getLsbD_or, BitVec.getLsbD_shiftLeft, BitVec.getLsbD_ushiftRight]
    rcases lt_or_ge i k with hlt | hge
    · rw [Nat.mod_eq_of_lt (by omega), Nat.add_comm i]
      simp [hlt]
    · have hout : x.getLsbD (64 - k + i) = false := BitVec.getLsbD_of_ge _ _ (by omega)
      rw [hout, show i + (64 - k) = i - k + 64 by omega, Nat.add_mod_right,
        Nat.mod_eq_of_lt (by omega)]
      simp [hi, hge.not_gt]

theorem rotl_xor (x y : BitVec 64) (shift : ℕ) :
    rotl (x ^^^ y) shift = rotl x shift ^^^ rotl y shift := by
  refine BitVec.eq_of_getLsbD_eq fun i hi => ?_
  simp only [BitVec.getLsbD_xor, getLsbD_rotl _ _ hi]

theorem rotl_rotl (x : BitVec 64) : rotl (rotl x 36) 28 = x := by
  refine BitVec.eq_of_getLsbD_eq fun i hi => ?_
  rw [getLsbD_rotl _ _ hi, getLsbD_rotl _ _ (Nat.mod_lt _ (by decide))]
  congr 1
  omega

theorem next_add (s t : SeedType) : next (s + t) = next s + next t := by
  have hxor : ∀ a b c d : BitVec 64, (a ^^^ b) ^^^ (c ^^^ d) = (a ^^^ c) ^^^ (b ^^^ d) := by
    intro a b c d
    rw [BitVec.xor_assoc, BitVec.xor_assoc, ← BitVec.xor_assoc b, BitVec.xor_comm b,
      BitVec.xor_assoc]
  simp only [next, nextValueInternal, SeedType.add_def, hxor, rotl_xor,
    BitVec.shiftLeft_xor_distrib]

def stepHom : SeedType →+ SeedType := AddMonoidHom.mk' next next_add

/-! ### The characteristic polynomial -/

def CHARACTERISTIC : ℕ := 0x10031bcf2f855d6e58dae70779760b081

def rotlNat (x shift : ℕ) : ℕ := x <<< shift % 2 ^ 64 ||| x >>> (64 - shift)

/-- A polynomial's action on a state's two numbers, which is quick to evaluate. -/
def jumpNat : List Bool → ℕ → ℕ → ℕ × ℕ
  | [], _, _ => (0, 0)
  | b :: p, low, high =>
    let s1 := high ^^^ low
    let rest := jumpNat p (rotlNat low 49 ^^^ s1 ^^^ s1 <<< 21 % 2 ^ 64) (rotlNat s1 28)
    bif b then (low ^^^ rest.1, high ^^^ rest.2) else rest

theorem toNat_rotl (x : BitVec 64) {shift : ℕ} (h0 : 0 < shift) (h64 : shift < 64) :
    (rotl x shift).toNat = rotlNat x.toNat shift := by
  unfold rotl rotlNat
  simp [Nat.mod_eq_of_lt h64, h0.ne']

theorem jumpNat_eq (p : List Bool) (s : SeedType) :
    jumpNat p s.low.toNat s.high.toNat
      = ((jump stepHom p s).low.toNat, (jump stepHom p s).high.toNat) := by
  induction p generalizing s with
  | nil => rfl
  | cons b p ih =>
    have hnext := ih (next s)
    have hlow : (next s).low.toNat = rotlNat s.low.toNat 49 ^^^ (s.high.toNat ^^^ s.low.toNat)
        ^^^ (s.high.toNat ^^^ s.low.toNat) <<< 21 % 2 ^ 64 := by
      simp [next, nextValueInternal, toNat_rotl]
    have hhigh : (next s).high.toNat = rotlNat (s.high.toNat ^^^ s.low.toNat) 28 := by
      simp [next, nextValueInternal, toNat_rotl]
    rw [hlow, hhigh] at hnext
    simp only [jumpNat, jump, hnext]
    cases b
    · show _ = ((0 + jump stepHom p (next s)).low.toNat, (0 + jump stepHom p (next s)).high.toNat)
      rw [zero_add]
      rfl
    · rfl

/-- The states with an empty high word are checked bit by bit, and a step from those reaches all
others. -/
theorem jump_characteristic (s : SeedType) : jump stepHom (bits 129 CHARACTERISTIC) s = 0 := by
  have hcheck : ∀ i < 64, jumpNat (bits 129 CHARACTERISTIC) (2 ^ i) 0 = (0, 0) := by
    decide +kernel
  have hlow : ∀ x, jumpHom stepHom (bits 129 CHARACTERISTIC) ⟨x, 0⟩ = 0 := by
    refine SeedType.hom_word (fun x y => by simp [SeedType.add_def]) fun i hi => ?_
    have heq := jumpNat_eq (bits 129 CHARACTERISTIC) ⟨BitVec.twoPow 64 i, 0⟩
    rw [BitVec.toNat_twoPow, Nat.mod_eq_of_lt (Nat.pow_lt_pow_right (by decide) hi)] at heq
    obtain ⟨h1, h2⟩ := Prod.ext_iff.1 ((hcheck i hi).symm.trans heq)
    exact SeedType.ext (BitVec.eq_of_toNat_eq h1.symm) (BitVec.eq_of_toNat_eq h2.symm)
  have hhigh : ∀ x, jumpHom stepHom (bits 129 CHARACTERISTIC) ⟨0, x⟩ = 0 := by
    intro x
    have hstep := jump_step stepHom (bits 129 CHARACTERISTIC) ⟨rotl x 36, 0⟩
    have hsplit : stepHom ⟨rotl x 36, 0⟩ = ⟨(next ⟨rotl x 36, 0⟩).low, 0⟩ + ⟨0, x⟩ := by
      refine SeedType.ext (BitVec.xor_zero).symm ?_
      show rotl (0 ^^^ rotl x 36) 28 = 0 ^^^ x
      rw [show (0 : BitVec 64) = 0#64 from rfl, BitVec.zero_xor, BitVec.zero_xor, rotl_rotl]
    have hzero := hlow (rotl x 36)
    have hother := hlow (next ⟨rotl x 36, 0⟩).low
    change jump stepHom (bits 129 CHARACTERISTIC) _ = 0 at hzero hother
    show jump stepHom (bits 129 CHARACTERISTIC) _ = 0
    rw [hzero, map_zero, hsplit, jump_add, hother, zero_add] at hstep
    exact hstep
  have hs : s = ⟨s.low, 0⟩ + ⟨0, s.high⟩ := by simp [SeedType.add_def]
  rw [hs, jump_add]
  exact (congrArg₂ _ (hlow s.low) (hhigh s.high)).trans (add_zero 0)

/-! ### The jump -/

theorem power_characteristic :
    power CHARACTERISTIC 128 64 = 0x0992ccaf6a6fca052bd7a6a6e99c2ddc := by
  decide +kernel

/-- The tests of the inner loop, in order. -/
def tests (word : BitVec 64) : List Bool :=
  (List.range 64).map fun b => decide (word &&& 1#64 <<< b ≠ 0)

theorem tests_JUMP : JUMP.flatMap tests = bits 128 0x0992ccaf6a6fca052bd7a6a6e99c2ddc := by
  decide +kernel

theorem jump_append (p q : List Bool) (s : SeedType) :
    jump next (p ++ q) s = jump next p s + jump next q (next^[p.length] s) := by
  induction p generalizing s with
  | nil => exact (zero_add _).symm
  | cons b p ih =>
    rw [List.cons_append, jump, jump, ih, add_assoc]
    rfl

/-- The inner loop adds what the polynomial of its tests gives, and steps once a test. -/
theorem foldl_jumpBit (word : BitVec 64) (bs : List ℕ) (acc state : SeedType) :
    bs.foldl (jumpBit word) (acc, state)
      = (acc + jump next (bs.map fun b => decide (word &&& 1#64 <<< b ≠ 0)) state,
        next^[bs.length] state) := by
  induction bs generalizing acc state with
  | nil => simp [jump]
  | cons b bs ih =>
    rw [List.foldl_cons, jumpBit, ih, List.map_cons, jump, List.length_cons, ← add_assoc]
    simp only [decide_eq_true_eq]
    split_ifs
    · rfl
    · rw [add_zero]
      rfl

theorem foldl_jumpWord (words : List (BitVec 64)) (acc state : SeedType) :
    (words.foldl jumpWord (acc, state)).1 = acc + jump next (words.flatMap tests) state := by
  induction words generalizing acc state with
  | nil => simp [jump]
  | cons word words ih =>
    rw [List.foldl_cons, jumpWord, foldl_jumpBit, ih, List.flatMap_cons, jump_append, add_assoc]
    simp [tests]

theorem output_iterate (s : SeedType) (n i : ℕ) : output (next^[n] s) i = output s (n + i) := by
  unfold output
  rw [← Function.iterate_add_apply, Nat.add_comm]

/-- For every state, the child of a fork has the old state, the engine itself goes on `2 ^ 64` steps
further, and so its outputs are the child's from the `2 ^ 64`-th on. -/
theorem fork_jumps (s : SeedType) :
    (fork s).1 = s ∧ (fork s).2 = next^[2 ^ 64] s
      ∧ ∀ i, output (fork s).2 i = output (fork s).1 (2 ^ 64 + i) := by
  have hjump : (fork s).2 = next^[2 ^ 64] s := by
    have hpower := jump_power (T := stepHom) SeedType.add_self (by decide) (P := CHARACTERISTIC)
      (n := 128) (by decide) (by decide) jump_characteristic 64 s
    rw [power_characteristic] at hpower
    unfold fork
    rw [← SeedType.zero_def, foldl_jumpWord, tests_JUMP, zero_add]
    exact hpower
  exact ⟨rfl, hjump, fun i => (congrArg (output · i) hjump).trans (output_iterate s _ i)⟩

end MinStd.Xoroshiro
