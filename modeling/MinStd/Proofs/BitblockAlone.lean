import Mathlib.Logic.Relation
import MinStd.Proofs.BitblockScan

/-!
# A call on the bitblock set while every other thread stands still

Alone, a call sees its own accesses only.  The bits it has set so far, or cleared so far, are known
from where it is (`Pc.gained`, `Pc.lost`); at a failure there are none of them left, so the words
are as the call found them.  The set may hold any bits when the call begins.
-/

namespace MinStd.BitblockSet

open Function

variable {τ : Type*} [DecidableEq τ] {Z : Size} {s₀ s s' : State τ} {t : τ} {start n : ℕ}

/-! ### Calls -/

/-- A call is at its return. -/
def Pc.done : Pc → Bool
  | .idle => true
  | .ret _ => true
  | .found _ => true
  | _ => false

/-- A step of the call of `t`, in which a weak exchange may fail without cause. -/
def CallStep (Z : Size) (t : τ) (s s' : State τ) : Prop :=
  ¬ (s.pc t).done ∧ ∃ spurious, stepRun Z s t spurious = some s'

/-- The call of `t` goes from one state to another, and nobody else does anything. -/
def Call (Z : Size) (t : τ) : State τ → State τ → Prop := Relation.ReflTransGen (CallStep Z t)

/-- A step of the call of `t`, in which a weak exchange fails only on another value. -/
def SmoothStep (Z : Size) (t : τ) (s s' : State τ) : Prop :=
  ¬ (s.pc t).done ∧ stepRun Z s t false = some s'

/-- The call returns once the weak exchanges fail no more without cause, and `Q` holds then. -/
def Returns (Z : Size) (t : τ) (Q : State τ → Prop) (s : State τ) : Prop :=
  ∃ s', Relation.ReflTransGen (SmoothStep Z t) s s' ∧ (s'.pc t).done ∧ Q s'

/-- A thread that is in a call can go on. -/
theorem exists_stepRun (Z : Size) (spurious : Bool) (h : s.pc t ≠ .idle) :
    ∃ s', stepRun Z s t spurious = some s' := by
  cases hp : s.pc t <;>
    simp only [stepRun, hp, stepAcquire, stepRelease, stepScan, Option.none_or, Option.some_or,
      Option.some.injEq, exists_eq']
  case idle => exact absurd hp h
  all_goals split_ifs <;> exact ⟨_, rfl⟩

/-- A call returns if each of its steps takes it nearer to the return. -/
theorem returns_of_rank {I Q : State τ → Prop} (rank : Pc → ℕ)
    (hstep : ∀ s s', I s → SmoothStep Z t s s' → I s' ∧ rank (s'.pc t) < rank (s.pc t))
    (hend : ∀ s, I s → (s.pc t).done → Q s) (h : I s) : Returns Z t Q s := by
  obtain ⟨k, hk⟩ : ∃ k, rank (s.pc t) = k := ⟨_, rfl⟩
  induction k using Nat.strong_induction_on generalizing s with
  | _ k ih =>
    by_cases hdone : (s.pc t).done
    · exact ⟨s, .refl, hdone, hend s h hdone⟩
    · obtain ⟨s', hs⟩ := exists_stepRun (s := s) (t := t) Z false fun hidle =>
        hdone (by rw [hidle]; rfl)
      obtain ⟨hI, hlt⟩ := hstep s s' h ⟨hdone, hs⟩
      obtain ⟨s'', hrun, hspec⟩ := ih _ (hk ▸ hlt) hI rfl
      exact ⟨s'', .head ⟨hdone, hs⟩ hrun, hspec⟩

/-- The state after some accesses of the call of `t`, no weak exchange failing without cause. -/
def runFor (Z : Size) (t : τ) : ℕ → State τ → State τ
  | 0, s => s
  | k + 1, s =>
    if (s.pc t).done then s else ((stepRun Z s t false).map (runFor Z t k)).getD s

theorem call_runFor (Z : Size) (t : τ) (k : ℕ) (s : State τ) : Call Z t s (runFor Z t k s) := by
  induction k generalizing s with
  | zero => exact .refl
  | succ k ih =>
    unfold runFor
    split_ifs with hdone
    · exact .refl
    · cases hs : stepRun Z s t false with
      | none => exact .refl
      | some s' => exact .head ⟨hdone, false, hs⟩ (ih s')

omit [DecidableEq τ] in
/-- The bits make up the words. -/
theorem words_eq_of_bit (h : ∀ b, s'.Bit b ↔ s.Bit b) : s'.bits.words = s.bits.words := by
  funext w
  refine BitVec.eq_of_getMsbD_eq fun i hi => ?_
  have hbit := h (w * BITS_PER_WORD + i)
  have hplace : (w * BITS_PER_WORD + i) / BITS_PER_WORD = w
      ∧ (w * BITS_PER_WORD + i) % BITS_PER_WORD = i := by
    unfold BITS_PER_WORD
    omega
  unfold State.Bit at hbit
  rw [hplace.1, hplace.2] at hbit
  exact Bool.eq_iff_iff.2 hbit

theorem validateRequest_eq_success_iff :
    validateRequest Z start n = .success ↔ Valid Z start n := by
  refine ⟨validateRequest_eq_success, fun h => ?_⟩
  obtain ⟨hpos, hle, hfits⟩ := h
  unfold validateRequest
  rw [if_neg (by omega), if_neg (by omega), if_neg (by omega)]

/-- The call is of a valid request over one word. -/
structure OneWord (Z : Size) (start n a m : ℕ) : Prop where
  eqStart : a = start
  eqNum : m = n
  valid : Valid Z start n
  single : startWord start = endWord start n

/-- The call is of a valid request over two words. -/
structure TwoWords (Z : Size) (start n a m : ℕ) : Prop where
  eqStart : a = start
  eqNum : m = n
  valid : Valid Z start n
  two : startWord start ≠ endWord start n

/-! ### Bits set and cleared again -/

/-- What was not there is added and taken away. -/
theorem undo_iff {a b c : Prop} (h : a ↔ b ∨ c) (hnew : c → ¬ b) : a ∧ ¬ c ↔ b := by
  rw [h]
  by_cases hc : c
  · simp [hc, hnew hc]
  · simp [hc]

/-- What was there is taken away and added. -/
theorem redo_iff {a b c : Prop} (h : a ↔ b ∧ ¬ c) (hold : c → b) : a ∨ c ↔ b := by
  rw [h]
  by_cases hc : c
  · simp [hc, hold hc]
  · simp [hc]

theorem or_iff_or_new (a b : Prop) : a ∨ b ↔ a ∨ b ∧ ¬ a := by
  by_cases ha : a <;> simp [ha]

theorem and_not_iff_and_not_held (a b : Prop) : a ∧ ¬ b ↔ a ∧ ¬ (b ∧ a) := by
  by_cases ha : a <;> simp [ha]

/-! ### `acquire` -/

/-- Some bit of the range is set. -/
def Busy (s : State τ) (start n : ℕ) : Prop := ∃ b, InRange start n b ∧ s.Bit b

/-- The bits a call of `acquire` has set. -/
def Pc.gained (start n : ℕ) : Pc → ℕ → Prop
  | .ret .success, b => InRange start n b
  | p, b => p.Holds b

/-- Where a call of `acquire` that began in `s₀` is. -/
def AcquireAt (Z : Size) (s₀ s : State τ) (start n : ℕ) : Pc → Prop
  | .acquireOne a => OneWord Z start n a 1
  | .acquireLoad a m => OneWord Z start n a m
  | .acquireSwap a m expected => OneWord Z start n a m
      ∧ expected = s.bits.words (startWord start) ∧ ¬ Busy s₀ start n
  | .acquireFirst a m => TwoWords Z start n a m
  | .undoFirst a _ => a = start ∧ Busy s₀ start n
  | .acquireLast a m => TwoWords Z start n a m
  | .undoLast a m _ => TwoWords Z start n a m ∧ Busy s₀ start n
  | .giveBackFirst a => a = start ∧ Busy s₀ start n
  | .ret r => r = .success ↔ Valid Z start n ∧ ¬ Busy s₀ start n
  | _ => False

/-- What a call of `acquire` that began in `s₀` has done. -/
structure Acquiring (Z : Size) (s₀ s : State τ) (t : τ) (start n : ℕ) : Prop where
  bit : ∀ b, s.Bit b ↔ s₀.Bit b ∨ (s.pc t).gained start n b
  fresh : ∀ b, (s.pc t).gained start n b → ¬ s₀.Bit b
  place : AcquireAt Z s₀ s start n (s.pc t)

/-- The number of accesses to the return, if no weak exchange fails. -/
def Pc.acquireRank : Pc → ℕ
  | .acquireOne _ => 1
  | .acquireLoad _ _ => 2
  | .acquireSwap _ _ _ => 1
  | .acquireFirst _ _ => 4
  | .undoFirst _ _ => 1
  | .acquireLast _ _ => 3
  | .undoLast _ _ _ => 2
  | .giveBackFirst _ => 1
  | _ => 0

omit [DecidableEq τ] in
/-- A mask meets a bit that is set. -/
theorem and_ne_zero_iff (s : State τ) (w : ℕ) (mask : BitVec 64) :
    s.bits.words w &&& mask ≠ 0#64 ↔ ∃ b, Covers w mask b ∧ s.Bit b := by
  rw [ne_eq, and_eq_zero_iff]
  push Not
  exact Iff.rfl

omit [DecidableEq τ] in
theorem busy_iff_single (hw : startWord start = endWord start n) :
    Busy s start n ↔ s.bits.words (startWord start) &&& wordMask start n ≠ 0#64 := by
  rw [and_ne_zero_iff]
  simp only [covers_wordMask hw]
  exact Iff.rfl

omit [DecidableEq τ] in
theorem busy_congr (hbit : ∀ b, s'.Bit b ↔ s.Bit b) : Busy s' start n ↔ Busy s start n :=
  exists_congr fun b => and_congr_right fun _ => hbit b

omit [DecidableEq τ] in
theorem acquireAt_failed {r : Result} (hr : r ≠ .success) (h : Busy s₀ start n) :
    AcquireAt Z s₀ s start n (.ret r) :=
  iff_of_false hr fun hfree => hfree.2 h

omit [DecidableEq τ] in
theorem not_gained_failed {r : Result} (hr : r ≠ .success) (b : ℕ) :
    ¬ (Pc.ret r).gained start n b := by
  cases r <;> first | exact id | exact absurd rfl hr

omit [DecidableEq τ] in
theorem acquiring_goTo {p : Pc} {k : ℕ} {spurious : Bool} (hpc : s'.pc t = p)
    (hbit : ∀ b, s'.Bit b ↔ s₀.Bit b ∨ p.gained start n b)
    (hfresh : ∀ b, p.gained start n b → ¬ s₀.Bit b) (hplace : AcquireAt Z s₀ s' start n p)
    (hrank : spurious = false → p.acquireRank < k) :
    Acquiring Z s₀ s' t start n ∧ (spurious = false → (s'.pc t).acquireRank < k) := by
  subst hpc
  exact ⟨⟨hbit, hfresh, hplace⟩, hrank⟩

omit [DecidableEq τ] in
/-- The loop of `acquire_single_word` on the word as the call found it. -/
theorem acquireAt_acquireLoop {a m : ℕ} (h : OneWord Z start n a m)
    (hbit : ∀ b, s.Bit b ↔ s₀.Bit b) :
    AcquireAt Z s₀ s start n (acquireLoop a m (s.bits.words (startWord a)))
      ∧ (∀ b, ¬ (acquireLoop a m (s.bits.words (startWord a))).gained start n b)
      ∧ (acquireLoop a m (s.bits.words (startWord a))).acquireRank ≤ 1 := by
  obtain ⟨rfl, rfl, hvalid, hw⟩ := h
  have hbusy := (busy_congr hbit).symm.trans (busy_iff_single (s := s) hw)
  unfold acquireLoop
  split_ifs with hmask
  · exact ⟨acquireAt_failed (by decide) (hbusy.2 hmask), fun _ => id, Nat.zero_le _⟩
  · exact ⟨⟨⟨rfl, rfl, hvalid, hw⟩, rfl, fun h => hmask (hbusy.1 h)⟩, fun _ => id, le_rfl⟩

/-- Each access of a lone `acquire` leaves the bits it has set known. -/
theorem Acquiring.step {spurious : Bool} (h : Acquiring Z s₀ s t start n)
    (hnot : ¬ (s.pc t).done) (hs : stepRun Z s t spurious = some s') :
    Acquiring Z s₀ s' t start n
      ∧ (spurious = false → (s'.pc t).acquireRank < (s.pc t).acquireRank) := by
  obtain ⟨hbit, hfresh, hplace⟩ := h
  cases hpc : s.pc t <;> rw [hpc] at hplace hbit hfresh hnot <;> try exact hplace.elim
  case ret => exact absurd rfl hnot
  case acquireOne a =>
    obtain ⟨rfl, rfl, hvalid, hw⟩ := hplace
    have hsame : ∀ b, s.Bit b ↔ s₀.Bit b := fun b => (hbit b).trans (or_iff_left id)
    have hbusy := (busy_congr hsame).symm.trans (busy_iff_single (s := s) hw)
    have hor : ∀ b, (s.fetchOr (startWord a) (wordMask a 1)).Bit b ↔ s₀.Bit b ∨ InRange a 1 b := by
      intro b
      rw [bit_fetchOr, covers_wordMask hw, hsame]
    simp only [stepRun, hpc, stepAcquire] at hs
    split_ifs at hs with hmask <;> simp only [Option.some_or, Option.some.injEq] at hs <;> subst hs
    · refine acquiring_goTo (pc_setPc _) (fun b => (hor b).trans ?_) (fun _ => False.elim)
        (acquireAt_failed (by decide) (hbusy.2 hmask)) fun _ => Nat.one_pos
      -- the range's only bit was set
      obtain ⟨c, hc, hset⟩ := hbusy.2 hmask
      refine (or_iff_left_of_imp fun hb => ?_).trans (or_iff_left id).symm
      unfold InRange at hb hc
      rwa [show b = c by omega]
    · have hclear := fun h => hmask (hbusy.1 h)
      exact acquiring_goTo (pc_setPc _) hor (fun b hb hset => hclear ⟨b, hb, hset⟩)
        (iff_of_true rfl ⟨hvalid, hclear⟩) fun _ => Nat.one_pos
  case acquireLoad a m =>
    have hsame : ∀ b, s.Bit b ↔ s₀.Bit b := fun b => (hbit b).trans (or_iff_left id)
    simp only [stepRun, hpc, stepAcquire, Option.some_or, Option.some.injEq] at hs
    subst hs
    obtain ⟨hat, hnone, hrank⟩ := acquireAt_acquireLoop hplace hsame
    exact acquiring_goTo (pc_setPc _) (fun b => (hsame b).trans (or_iff_left (hnone b)).symm)
      (fun b hb => absurd hb (hnone b)) hat fun _ => Nat.lt_succ_of_le hrank
  case acquireSwap a m expected =>
    obtain ⟨hone, rfl, hclear⟩ := hplace
    have hsame : ∀ b, s.Bit b ↔ s₀.Bit b := fun b => (hbit b).trans (or_iff_left id)
    obtain ⟨hat, hnone, -⟩ := acquireAt_acquireLoop hone hsame
    obtain ⟨rfl, rfl, hvalid, hw⟩ := hone
    simp only [stepRun, hpc, stepAcquire] at hs
    split_ifs at hs with hmatch <;> simp only [Option.some_or, Option.some.injEq] at hs <;> subst hs
    · refine acquiring_goTo (pc_setPc _) (fun b => (bit_fetchOr s _ _ b).trans ?_)
        (fun b hb hset => hclear ⟨b, hb, hset⟩) (iff_of_true rfl ⟨hvalid, hclear⟩)
        fun _ => Nat.one_pos
      rw [covers_wordMask hw, hsame]
      exact Iff.rfl
    · exact acquiring_goTo (pc_setPc _) (fun b => (hsame b).trans (or_iff_left (hnone b)).symm)
        (fun b hb => absurd hb (hnone b)) hat fun hfalse => absurd ⟨trivial, hfalse⟩ hmatch
  case acquireFirst a m =>
    obtain ⟨rfl, rfl, hvalid, hw⟩ := hplace
    have hsame : ∀ b, s.Bit b ↔ s₀.Bit b := fun b => (hbit b).trans (or_iff_left id)
    have hbusy : s.bits.words (startWord a) &&& firstMask a ≠ 0#64 → Busy s₀ a m := by
      intro hmask
      obtain ⟨b, hb, hset⟩ := (and_ne_zero_iff s _ _).1 hmask
      exact ⟨b, (inRange_split hvalid.pos hvalid.le hw).2 (.inl hb), (hsame b).1 hset⟩
    simp only [stepRun, hpc, stepAcquire] at hs
    split_ifs at hs with hmask hnew <;> simp only [Option.some_or, Option.some.injEq] at hs <;>
      subst hs
    · refine acquiring_goTo (pc_setPc _) (fun b => (bit_fetchOr s _ _ b).trans ?_) (fun b hb => ?_)
        ⟨rfl, hbusy hmask⟩ fun _ => by simp [Pc.acquireRank]
      · show _ ↔ s₀.Bit b ∨ Covers (startWord a) _ b
        rw [covers_and_not, hsame]
        exact or_iff_or_new _ _
      · rw [← hsame]
        exact ((covers_and_not s _ _ b).1 hb).2
    · refine acquiring_goTo (pc_setPc _) (fun b => (bit_fetchOr s _ _ b).trans ?_)
        (fun _ => False.elim) (acquireAt_failed (by decide) (hbusy hmask))
        fun _ => by simp [Pc.acquireRank]
      -- all of the first word's part was set
      refine (or_iff_left_of_imp fun hb => ?_).trans ((hsame b).trans (or_iff_left id).symm)
      by_contra hclear
      have hcov := (covers_and_not s _ _ b).2 ⟨hb, hclear⟩
      rw [not_not.1 hnew] at hcov
      exact not_covers_zero _ _ hcov
    · refine acquiring_goTo (pc_setPc _) (fun b => (bit_fetchOr s _ _ b).trans ?_) (fun b hb => ?_)
        ⟨rfl, rfl, hvalid, hw⟩ fun _ => by simp [Pc.acquireRank]
      · rw [hsame]
        exact Iff.rfl
      · rw [← hsame]
        exact (and_eq_zero_iff s _ _).1 (not_not.1 hmask) b hb
  case undoFirst a newlySet =>
    obtain ⟨rfl, hbusy⟩ := hplace
    simp only [stepRun, hpc, stepAcquire, Option.some_or, Option.some.injEq] at hs
    subst hs
    refine acquiring_goTo (pc_setPc _) (fun b => (bit_fetchAnd s _ _ b).trans ?_)
      (fun _ => False.elim) (acquireAt_failed (by decide) hbusy) fun _ => by simp [Pc.acquireRank]
    exact (undo_iff (hbit b) (hfresh b)).trans (or_iff_left id).symm
  case acquireLast a m =>
    obtain ⟨rfl, rfl, hvalid, hw⟩ := hplace
    have hapart : ∀ b, Covers (endWord a m) (lastMask a m) b →
        ¬ Covers (startWord a) (firstMask a) b := fun b h1 h2 => hw (h2.1.symm.trans h1.1)
    have hbusy : s.bits.words (endWord a m) &&& lastMask a m ≠ 0#64 → Busy s₀ a m := by
      intro hmask
      obtain ⟨b, hb, hset⟩ := (and_ne_zero_iff s _ _).1 hmask
      exact ⟨b, (inRange_split hvalid.pos hvalid.le hw).2 (.inr hb),
        ((hbit b).1 hset).resolve_right (hapart b hb)⟩
    simp only [stepRun, hpc, stepAcquire] at hs
    split_ifs at hs with hmask hnew <;> simp only [Option.some_or, Option.some.injEq] at hs <;>
      subst hs
    · refine acquiring_goTo (pc_setPc _) (fun b => (bit_fetchOr s _ _ b).trans ?_) (fun b hb => ?_)
        ⟨⟨rfl, rfl, hvalid, hw⟩, hbusy hmask⟩ fun _ => by simp [Pc.acquireRank]
      · show _ ↔ s₀.Bit b ∨ Covers _ _ b ∨ Covers _ _ b
        rw [covers_and_not, ← or_assoc]
        exact (or_iff_or_new _ _).trans (or_congr_left (hbit b))
      · rcases hb with hb | hb
        · exact hfresh b hb
        · exact fun hset => ((covers_and_not s _ _ b).1 hb).2 ((hbit b).2 (.inl hset))
    · refine acquiring_goTo (pc_setPc _) (fun b => (bit_fetchOr s _ _ b).trans ?_)
        hfresh ⟨rfl, hbusy hmask⟩ fun _ => by simp [Pc.acquireRank]
      -- all of the last word's part was set
      refine (or_iff_left_of_imp fun hb => ?_).trans (hbit b)
      by_contra hclear
      have hcov := (covers_and_not s _ _ b).2 ⟨hb, hclear⟩
      rw [not_not.1 hnew] at hcov
      exact not_covers_zero _ _ hcov
    · have hclear := (and_eq_zero_iff s _ _).1 (not_not.1 hmask)
      have hfree : ∀ b, InRange a m b → ¬ s₀.Bit b := by
        intro b hb hset
        rcases (inRange_split hvalid.pos hvalid.le hw).1 hb with hb | hb
        · exact hfresh b hb hset
        · exact hclear b hb ((hbit b).2 (.inl hset))
      have hnone : ¬ Busy s₀ a m := by
        rintro ⟨b, hb, hset⟩
        exact hfree b hb hset
      refine acquiring_goTo (pc_setPc _) (fun b => (bit_fetchOr s _ _ b).trans ?_) hfree
        (iff_of_true rfl ⟨hvalid, hnone⟩) fun _ => by simp [Pc.acquireRank]
      rw [hbit, or_assoc]
      exact or_congr_right (inRange_split hvalid.pos hvalid.le hw).symm
  case undoLast a m newlySet =>
    obtain ⟨⟨rfl, rfl, -, hw⟩, hbusy⟩ := hplace
    simp only [stepRun, hpc, stepAcquire, Option.some_or, Option.some.injEq] at hs
    subst hs
    refine acquiring_goTo (pc_setPc _) (fun b => (bit_fetchAnd s _ _ b).trans ?_)
      (fun b hb => hfresh b (.inl hb)) ⟨rfl, hbusy⟩ fun _ => by simp [Pc.acquireRank]
    refine undo_iff ((hbit b).trans or_assoc.symm) fun h1 h2 => ?_
    rcases h2 with h2 | h2
    · exact hfresh b (.inr h1) h2
    · exact hw (h2.1.symm.trans h1.1)
  case giveBackFirst a =>
    obtain ⟨rfl, hbusy⟩ := hplace
    simp only [stepRun, hpc, stepAcquire, Option.some_or, Option.some.injEq] at hs
    subst hs
    refine acquiring_goTo (pc_setPc _) (fun b => (bit_fetchAnd s _ _ b).trans ?_)
      (fun _ => False.elim) (acquireAt_failed (by decide) hbusy) fun _ => by simp [Pc.acquireRank]
    exact (undo_iff (hbit b) (hfresh b)).trans (or_iff_left id).symm

/-! ### `release` -/

/-- `release`, which any thread may call on any range. -/
def release (Z : Size) (startBit numBits : ℕ) : Pc :=
  if validateRequest Z startBit numBits = .success then .releaseHint startBit numBits
  else .ret (validateRequest Z startBit numBits)

/-- Some bit of the range is clear. -/
def Holed (s : State τ) (start n : ℕ) : Prop := ∃ b, InRange start n b ∧ ¬ s.Bit b

/-- The bits a call of `release` has cleared. -/
def Pc.lost (start n : ℕ) : Pc → ℕ → Prop
  | .releaseLast a _, b => Covers (startWord a) (firstMask a) b
  | .restoreLast a m cleared, b => Covers (startWord a) (firstMask a) b
      ∨ Covers (endWord a m) cleared b
  | .restoreFirst a, b => Covers (startWord a) (firstMask a) b
  | .ret .success, b => InRange start n b
  | _, _ => False

/-- Where a call of `release` that began in `s₀` is. -/
def ReleaseAt (Z : Size) (s₀ s : State τ) (start n : ℕ) : Pc → Prop
  | .releaseHint a m => a = start ∧ m = n ∧ Valid Z start n
  | .releaseOne a => OneWord Z start n a 1
  | .releaseLoad a m => OneWord Z start n a m
  | .releaseSwap a m expected => OneWord Z start n a m
      ∧ expected = s.bits.words (startWord start) ∧ ¬ Holed s₀ start n
  | .releaseFirstLoad a m => TwoWords Z start n a m
  | .releaseFirstSwap a m expected => TwoWords Z start n a m
      ∧ expected = s.bits.words (startWord start)
      ∧ ∀ b, Covers (startWord start) (firstMask start) b → s₀.Bit b
  | .releaseLast a m => TwoWords Z start n a m
  | .restoreLast a m _ => TwoWords Z start n a m ∧ Holed s₀ start n
  | .restoreFirst a => a = start ∧ Holed s₀ start n
  | .ret r => r = .success ↔ Valid Z start n ∧ ¬ Holed s₀ start n
  | _ => False

/-- What a call of `release` that began in `s₀` has done. -/
structure Freeing (Z : Size) (s₀ s : State τ) (t : τ) (start n : ℕ) : Prop where
  bit : ∀ b, s.Bit b ↔ s₀.Bit b ∧ ¬ (s.pc t).lost start n b
  held : ∀ b, (s.pc t).lost start n b → s₀.Bit b
  place : ReleaseAt Z s₀ s start n (s.pc t)

/-- The number of accesses to the return, if no weak exchange fails. -/
def Pc.releaseRank : Pc → ℕ
  | .releaseHint _ _ => 6
  | .releaseOne _ => 1
  | .releaseLoad _ _ => 2
  | .releaseSwap _ _ _ => 1
  | .releaseFirstLoad _ _ => 5
  | .releaseFirstSwap _ _ _ => 4
  | .releaseLast _ _ => 3
  | .restoreLast _ _ _ => 2
  | .restoreFirst _ => 1
  | _ => 0

omit [DecidableEq τ] in
/-- A mask meets a bit that is clear. -/
theorem and_ne_mask_iff (s : State τ) (w : ℕ) (mask : BitVec 64) :
    s.bits.words w &&& mask ≠ mask ↔ ∃ b, Covers w mask b ∧ ¬ s.Bit b := by
  rw [ne_eq, and_eq_mask_iff]
  push Not
  exact Iff.rfl

omit [DecidableEq τ] in
/-- The part of a mask that is set. -/
theorem covers_and (s : State τ) (w : ℕ) (mask : BitVec 64) (b : ℕ) :
    Covers w (s.bits.words w &&& mask) b ↔ Covers w mask b ∧ s.Bit b := by
  unfold Covers
  rw [BitVec.getMsbD_and]
  by_cases hw : b / BITS_PER_WORD = w
  · subst hw
    simp [State.Bit, and_comm]
  · simp [hw]

omit [DecidableEq τ] in
theorem holed_iff_single (hw : startWord start = endWord start n) :
    Holed s start n ↔ s.bits.words (startWord start) &&& wordMask start n ≠ wordMask start n := by
  rw [and_ne_mask_iff]
  simp only [covers_wordMask hw]
  exact Iff.rfl

omit [DecidableEq τ] in
theorem holed_congr (hbit : ∀ b, s'.Bit b ↔ s.Bit b) : Holed s' start n ↔ Holed s start n :=
  exists_congr fun b => and_congr_right fun _ => (hbit b).not

omit [DecidableEq τ] in
theorem releaseAt_failed {r : Result} (hr : r ≠ .success) (h : Holed s₀ start n) :
    ReleaseAt Z s₀ s start n (.ret r) :=
  iff_of_false hr fun hfree => hfree.2 h

omit [DecidableEq τ] in
theorem freeing_goTo {p : Pc} {k : ℕ} {spurious : Bool} (hpc : s'.pc t = p)
    (hbit : ∀ b, s'.Bit b ↔ s₀.Bit b ∧ ¬ p.lost start n b)
    (hheld : ∀ b, p.lost start n b → s₀.Bit b) (hplace : ReleaseAt Z s₀ s' start n p)
    (hrank : spurious = false → p.releaseRank < k) :
    Freeing Z s₀ s' t start n ∧ (spurious = false → (s'.pc t).releaseRank < k) := by
  subst hpc
  exact ⟨⟨hbit, hheld, hplace⟩, hrank⟩

omit [DecidableEq τ] in
/-- A step to a place where nothing is cleared. -/
theorem freeing_goOn {p : Pc} {k : ℕ} {spurious : Bool} (hpc : s'.pc t = p)
    (hsame : ∀ b, s'.Bit b ↔ s₀.Bit b) (hnone : ∀ b, ¬ p.lost start n b)
    (hplace : ReleaseAt Z s₀ s' start n p) (hrank : spurious = false → p.releaseRank < k) :
    Freeing Z s₀ s' t start n ∧ (spurious = false → (s'.pc t).releaseRank < k) :=
  freeing_goTo hpc (fun b => (hsame b).trans (and_iff_left (hnone b)).symm)
    (fun b hb => absurd hb (hnone b)) hplace hrank

omit [DecidableEq τ] in
/-- The loop of `release_single_word` on the word as the call found it. -/
theorem releaseAt_releaseLoop {a m : ℕ} (h : OneWord Z start n a m)
    (hbit : ∀ b, s.Bit b ↔ s₀.Bit b) :
    ReleaseAt Z s₀ s start n (releaseLoop a m (s.bits.words (startWord a)))
      ∧ (∀ b, ¬ (releaseLoop a m (s.bits.words (startWord a))).lost start n b)
      ∧ (releaseLoop a m (s.bits.words (startWord a))).releaseRank ≤ 1 := by
  obtain ⟨rfl, rfl, hvalid, hw⟩ := h
  have hholed := (holed_congr hbit).symm.trans (holed_iff_single (s := s) hw)
  unfold releaseLoop
  split_ifs with hmask
  · exact ⟨releaseAt_failed (by decide) (hholed.2 hmask), fun _ => id, Nat.zero_le _⟩
  · exact ⟨⟨⟨rfl, rfl, hvalid, hw⟩, rfl, fun h => hmask (hholed.1 h)⟩, fun _ => id, le_rfl⟩

omit [DecidableEq τ] in
/-- The loop of `release_multi_word` on the first word as the call found it. -/
theorem releaseAt_releaseFirstLoop {a m : ℕ} (h : TwoWords Z start n a m)
    (hbit : ∀ b, s.Bit b ↔ s₀.Bit b) :
    ReleaseAt Z s₀ s start n (releaseFirstLoop a m (s.bits.words (startWord a)))
      ∧ (∀ b, ¬ (releaseFirstLoop a m (s.bits.words (startWord a))).lost start n b)
      ∧ (releaseFirstLoop a m (s.bits.words (startWord a))).releaseRank ≤ 4 := by
  obtain ⟨rfl, rfl, hvalid, hw⟩ := h
  unfold releaseFirstLoop
  split_ifs with hmask
  · obtain ⟨b, hb, hclear⟩ := (and_ne_mask_iff s _ _).1 hmask
    refine ⟨releaseAt_failed (by decide) ⟨b, ?_, fun hset => hclear ((hbit b).2 hset)⟩,
      fun _ => id, Nat.zero_le _⟩
    exact (inRange_split hvalid.pos hvalid.le hw).2 (.inl hb)
  · refine ⟨⟨⟨rfl, rfl, hvalid, hw⟩, rfl, fun b hb => (hbit b).1 ?_⟩, fun _ => id, le_rfl⟩
    exact (and_eq_mask_iff s _ _).1 (not_not.1 hmask) b hb

omit [DecidableEq τ] in
theorem releaseAt_releaseFrom (h : Valid Z start n) :
    ReleaseAt Z s₀ s start n (releaseFrom start n)
      ∧ (∀ b, ¬ (releaseFrom start n).lost start n b)
      ∧ (releaseFrom start n).releaseRank ≤ 5 := by
  unfold releaseFrom
  split_ifs with hw hone
  · subst hone
    exact ⟨⟨rfl, rfl, h, hw⟩, fun _ => id, by simp [Pc.releaseRank]⟩
  · exact ⟨⟨rfl, rfl, h, hw⟩, fun _ => id, by simp [Pc.releaseRank]⟩
  · exact ⟨⟨rfl, rfl, h, hw⟩, fun _ => id, by simp [Pc.releaseRank]⟩

/-- Each access of a lone `release` leaves the bits it has cleared known. -/
theorem Freeing.step {spurious : Bool} (h : Freeing Z s₀ s t start n)
    (hnot : ¬ (s.pc t).done) (hs : stepRun Z s t spurious = some s') :
    Freeing Z s₀ s' t start n
      ∧ (spurious = false → (s'.pc t).releaseRank < (s.pc t).releaseRank) := by
  obtain ⟨hbit, hheld, hplace⟩ := h
  cases hpc : s.pc t <;> rw [hpc] at hplace hbit hheld hnot <;> try exact hplace.elim
  case ret => exact absurd rfl hnot
  case releaseHint a m =>
    obtain ⟨rfl, rfl, hvalid⟩ := hplace
    simp only [stepRun, hpc, stepAcquire, stepRelease, Option.none_or, Option.some_or,
      Option.some.injEq] at hs
    subst hs
    obtain ⟨hat, hnone, hrank⟩ := releaseAt_releaseFrom hvalid
    exact freeing_goOn (pc_setPc _) (fun b => (hbit b).trans (and_iff_left id)) hnone hat
      fun _ => Nat.lt_succ_of_le hrank
  case releaseOne a =>
    obtain ⟨rfl, rfl, hvalid, hw⟩ := hplace
    have hsame : ∀ b, s.Bit b ↔ s₀.Bit b := fun b => (hbit b).trans (and_iff_left id)
    have hholed := (holed_congr hsame).symm.trans (holed_iff_single (s := s) hw)
    have hand : ∀ b, (s.fetchAnd (startWord a) (~~~wordMask a 1)).Bit b
        ↔ s₀.Bit b ∧ ¬ InRange a 1 b := by
      intro b
      rw [bit_fetchAnd, covers_wordMask hw, hsame]
    simp only [stepRun, hpc, stepAcquire, stepRelease, Option.none_or, Option.some_or,
      Option.some.injEq] at hs
    subst hs
    split_ifs with hmask
    · have hset : ¬ Holed s₀ a 1 := fun h => hholed.1 h hmask
      refine freeing_goTo (pc_setPc _) hand (fun b hb => ?_) (iff_of_true rfl ⟨hvalid, hset⟩)
        fun _ => Nat.one_pos
      by_contra hclear
      exact hset ⟨b, hb, hclear⟩
    · refine freeing_goOn (pc_setPc _)
        (fun b => (hand b).trans (and_iff_left_of_imp fun hb hr => ?_)) (fun _ => id)
        (releaseAt_failed (by decide) (hholed.2 hmask)) fun _ => Nat.one_pos
      -- the range's only bit was clear
      obtain ⟨c, hc, hclear⟩ := hholed.2 hmask
      unfold InRange at hr hc
      exact hclear (by rwa [show c = b by omega])
  case releaseLoad a m =>
    have hsame : ∀ b, s.Bit b ↔ s₀.Bit b := fun b => (hbit b).trans (and_iff_left id)
    simp only [stepRun, hpc, stepAcquire, stepRelease, Option.none_or, Option.some_or,
      Option.some.injEq] at hs
    subst hs
    obtain ⟨hat, hnone, hrank⟩ := releaseAt_releaseLoop hplace hsame
    exact freeing_goOn (pc_setPc _) hsame hnone hat fun _ => Nat.lt_succ_of_le hrank
  case releaseSwap a m expected =>
    obtain ⟨hone, rfl, hset⟩ := hplace
    have hsame : ∀ b, s.Bit b ↔ s₀.Bit b := fun b => (hbit b).trans (and_iff_left id)
    obtain ⟨hat, hnone, -⟩ := releaseAt_releaseLoop hone hsame
    obtain ⟨rfl, rfl, hvalid, hw⟩ := hone
    simp only [stepRun, hpc, stepAcquire, stepRelease, Option.none_or] at hs
    split_ifs at hs with hmatch <;> simp only [Option.some_or, Option.some.injEq] at hs <;> subst hs
    · refine freeing_goTo (pc_setPc _) (fun b => (bit_fetchAnd s _ _ b).trans ?_) (fun b hb => ?_)
        (iff_of_true rfl ⟨hvalid, hset⟩) fun _ => Nat.one_pos
      · rw [covers_wordMask hw, hsame]
        exact Iff.rfl
      · by_contra hclear
        exact hset ⟨b, hb, hclear⟩
    · exact freeing_goOn (pc_setPc _) hsame hnone hat fun hfalse => absurd ⟨trivial, hfalse⟩ hmatch
  case releaseFirstLoad a m =>
    have hsame : ∀ b, s.Bit b ↔ s₀.Bit b := fun b => (hbit b).trans (and_iff_left id)
    simp only [stepRun, hpc, stepAcquire, stepRelease, Option.none_or, Option.some_or,
      Option.some.injEq] at hs
    subst hs
    obtain ⟨hat, hnone, hrank⟩ := releaseAt_releaseFirstLoop hplace hsame
    exact freeing_goOn (pc_setPc _) hsame hnone hat fun _ => Nat.lt_succ_of_le hrank
  case releaseFirstSwap a m expected =>
    obtain ⟨htwo, rfl, hset⟩ := hplace
    have hsame : ∀ b, s.Bit b ↔ s₀.Bit b := fun b => (hbit b).trans (and_iff_left id)
    obtain ⟨hat, hnone, -⟩ := releaseAt_releaseFirstLoop htwo hsame
    obtain ⟨rfl, rfl, hvalid, hw⟩ := htwo
    simp only [stepRun, hpc, stepAcquire, stepRelease, Option.none_or] at hs
    split_ifs at hs with hmatch <;> simp only [Option.some_or, Option.some.injEq] at hs <;> subst hs
    · refine freeing_goTo (pc_setPc _) (fun b => (bit_fetchAnd s _ _ b).trans ?_) hset
        ⟨rfl, rfl, hvalid, hw⟩ fun _ => by simp [Pc.releaseRank]
      rw [hsame]
      exact Iff.rfl
    · exact freeing_goOn (pc_setPc _) hsame hnone hat fun hfalse => absurd ⟨trivial, hfalse⟩ hmatch
  case releaseLast a m =>
    obtain ⟨rfl, rfl, hvalid, hw⟩ := hplace
    have hapart : ∀ b, Covers (endWord a m) (lastMask a m) b →
        ¬ Covers (startWord a) (firstMask a) b := fun b h1 h2 => hw (h2.1.symm.trans h1.1)
    simp only [stepRun, hpc, stepAcquire, stepRelease, Option.none_or, Option.some_or,
      Option.some.injEq] at hs
    subst hs
    split_ifs with hmask
    · obtain ⟨c, hc, hclear⟩ := (and_ne_mask_iff s _ _).1 hmask
      refine freeing_goTo (pc_setPc _) (fun b => (bit_fetchAnd s _ _ b).trans ?_) (fun b hb => ?_)
        ⟨⟨rfl, rfl, hvalid, hw⟩, c, (inRange_split hvalid.pos hvalid.le hw).2 (.inr hc),
          fun hset => hclear ((hbit c).2 ⟨hset, hapart c hc⟩)⟩ fun _ => by simp [Pc.releaseRank]
      · show _ ↔ s₀.Bit b ∧ ¬ (Covers _ _ b ∨ Covers _ _ b)
        rw [covers_and, not_or, ← and_assoc]
        exact (and_not_iff_and_not_held _ _).trans (and_congr_left' (hbit b))
      · rcases hb with hb | hb
        · exact hheld b hb
        · exact ((hbit b).1 ((covers_and s _ _ b).1 hb).2).1
    · have hlast := (and_eq_mask_iff s _ _).1 (not_not.1 hmask)
      have hset : ∀ b, InRange a m b → s₀.Bit b := by
        intro b hb
        rcases (inRange_split hvalid.pos hvalid.le hw).1 hb with hb | hb
        · exact hheld b hb
        · exact ((hbit b).1 (hlast b hb)).1
      have hnone : ¬ Holed s₀ a m := by
        rintro ⟨b, hb, hclear⟩
        exact hclear (hset b hb)
      refine freeing_goTo (pc_setPc _) (fun b => (bit_fetchAnd s _ _ b).trans ?_) hset
        (iff_of_true rfl ⟨hvalid, hnone⟩) fun _ => by simp [Pc.releaseRank]
      rw [hbit, and_assoc, ← not_or]
      exact and_congr_right fun _ => (inRange_split hvalid.pos hvalid.le hw).symm.not
  case restoreLast a m cleared =>
    obtain ⟨⟨rfl, rfl, -, hw⟩, hholed⟩ := hplace
    simp only [stepRun, hpc, stepAcquire, stepRelease, Option.none_or, Option.some_or,
      Option.some.injEq] at hs
    subst hs
    refine freeing_goTo (pc_setPc _) (fun b => (bit_fetchOr s _ _ b).trans ?_)
      (fun b hb => hheld b (.inl hb)) ⟨rfl, hholed⟩ fun _ => by simp [Pc.releaseRank]
    refine redo_iff ((hbit b).trans ((and_congr_right fun _ => not_or).trans and_assoc.symm))
      fun h1 => ⟨hheld b (.inr h1), fun h2 => hw (h2.1.symm.trans h1.1)⟩
  case restoreFirst a =>
    obtain ⟨rfl, hholed⟩ := hplace
    simp only [stepRun, hpc, stepAcquire, stepRelease, Option.none_or, Option.some_or,
      Option.some.injEq] at hs
    subst hs
    refine freeing_goOn (pc_setPc _) (fun b => (bit_fetchOr s _ _ b).trans ?_) (fun _ => id)
      (releaseAt_failed (by decide) hholed) fun _ => by simp [Pc.releaseRank]
    exact redo_iff (hbit b) (hheld b)

/-! ### The result -/

/-- Every step of a call of `t` keeps it. -/
theorem call_induction {I : State τ → Prop}
    (hstep : ∀ s s' spurious, I s → ¬ (s.pc t).done → stepRun Z s t spurious = some s' → I s')
    (h : I s) (hcall : Call Z t s s') : I s' := by
  induction hcall with
  | refl => exact h
  | tail _ hlast ih =>
    obtain ⟨hnot, spurious, hs⟩ := hlast
    exact hstep _ _ spurious ih hnot hs

omit [DecidableEq τ] in
theorem acquiring_acquire (hpc : s.pc t = acquire Z start n) : Acquiring Z s s t start n := by
  have hnone : ∀ b, ¬ (acquire Z start n).gained start n b := by
    intro b
    unfold acquire acquireFrom
    split_ifs with hvalid
    · exact id
    · exact id
    · exact id
    · exact not_gained_failed hvalid b
  refine ⟨fun b => ?_, fun b hb => absurd hb ?_, ?_⟩
  · rw [hpc]
    exact (or_iff_left (hnone b)).symm
  · rw [hpc]
    exact hnone b
  · rw [hpc]
    unfold acquire acquireFrom
    split_ifs with hvalid hw hone
    · subst hone
      exact ⟨rfl, rfl, validateRequest_eq_success hvalid, hw⟩
    · exact ⟨rfl, rfl, validateRequest_eq_success hvalid, hw⟩
    · exact ⟨rfl, rfl, validateRequest_eq_success hvalid, hw⟩
    · exact iff_of_false hvalid fun h => hvalid (validateRequest_eq_success_iff.2 h.1)

omit [DecidableEq τ] in
theorem freeing_release (hpc : s.pc t = release Z start n) : Freeing Z s s t start n := by
  have hnone : ∀ b, ¬ (release Z start n).lost start n b := by
    intro b
    unfold release
    split_ifs with hvalid
    · exact id
    · cases hr : validateRequest Z start n <;> first | exact id | exact absurd hr hvalid
  refine ⟨fun b => ?_, fun b hb => absurd hb ?_, ?_⟩
  · rw [hpc]
    exact (and_iff_left (hnone b)).symm
  · rw [hpc]
    exact hnone b
  · rw [hpc]
    unfold release
    split_ifs with hvalid
    · exact ⟨rfl, rfl, validateRequest_eq_success hvalid⟩
    · exact iff_of_false hvalid fun h => hvalid (validateRequest_eq_success_iff.2 h.1)

/-- What `acquire` of a range returns, and what it leaves behind. -/
structure Acquired (Z : Size) (s s' : State τ) (start n : ℕ) (r : Result) : Prop where
  success_iff : r = .success ↔ Valid Z start n ∧ ∀ b, InRange start n b → ¬ s.Bit b
  changed : r = .success → ∀ b, s'.Bit b ↔ s.Bit b ∨ InRange start n b
  unchanged : r ≠ .success → s'.bits.words = s.bits.words

/-- What `release` of a range returns, and what it leaves behind. -/
structure Released (Z : Size) (s s' : State τ) (start n : ℕ) (r : Result) : Prop where
  success_iff : r = .success ↔ Valid Z start n ∧ ∀ b, InRange start n b → s.Bit b
  changed : r = .success → ∀ b, s'.Bit b ↔ s.Bit b ∧ ¬ InRange start n b
  unchanged : r ≠ .success → s'.bits.words = s.bits.words

/-- The call of `t` has returned what `acquire` should. -/
def Acquires (Z : Size) (s : State τ) (t : τ) (start n : ℕ) (s' : State τ) : Prop :=
  ∃ r, s'.pc t = .ret r ∧ Acquired Z s s' start n r

/-- The call of `t` has returned what `release` should. -/
def Releases (Z : Size) (s : State τ) (t : τ) (start n : ℕ) (s' : State τ) : Prop :=
  ∃ r, s'.pc t = .ret r ∧ Released Z s s' start n r

omit [DecidableEq τ] in
theorem Acquiring.acquired {r : Result} (h : Acquiring Z s s' t start n) (hr : s'.pc t = .ret r) :
    Acquired Z s s' start n r := by
  obtain ⟨hbit, -, hplace⟩ := h
  rw [hr] at hbit hplace
  refine ⟨hplace.trans (and_congr_right fun _ => ?_), ?_, fun hne => words_eq_of_bit fun b => ?_⟩
  · exact ⟨fun h b hb hset => h ⟨b, hb, hset⟩, fun h ⟨b, hb, hset⟩ => h b hb hset⟩
  · rintro rfl
    exact hbit
  · exact (hbit b).trans (or_iff_left (not_gained_failed hne b))

omit [DecidableEq τ] in
theorem Freeing.released {r : Result} (h : Freeing Z s s' t start n) (hr : s'.pc t = .ret r) :
    Released Z s s' start n r := by
  obtain ⟨hbit, -, hplace⟩ := h
  rw [hr] at hbit hplace
  refine ⟨hplace.trans (and_congr_right fun _ => ?_), ?_, fun hne => words_eq_of_bit fun b => ?_⟩
  · exact ⟨fun h b hb => by_contra fun hclear => h ⟨b, hb, hclear⟩,
      fun h ⟨b, hb, hclear⟩ => hclear (h b hb)⟩
  · rintro rfl
    exact hbit
  · refine (hbit b).trans (and_iff_left ?_)
    cases r <;> first | exact id | exact absurd rfl hne

omit [DecidableEq τ] in
theorem Acquiring.acquires (h : Acquiring Z s s' t start n) (hdone : (s'.pc t).done) :
    Acquires Z s t start n s' := by
  have hplace := h.place
  cases hr : s'.pc t <;> rw [hr] at hplace hdone <;> try exact hplace.elim
  case ret r => exact ⟨r, hr, h.acquired hr⟩
  all_goals cases hdone

omit [DecidableEq τ] in
theorem Freeing.releases (h : Freeing Z s s' t start n) (hdone : (s'.pc t).done) :
    Releases Z s t start n s' := by
  have hplace := h.place
  cases hr : s'.pc t <;> rw [hr] at hplace hdone <;> try exact hplace.elim
  case ret r => exact ⟨r, hr, h.released hr⟩
  all_goals cases hdone

/-- Alone, `acquire` takes a valid range that is clear and `release` gives a valid range back that
is set; they change nothing else, and nothing at all when they fail.  Wherever the call has come to,
it goes on to return so. -/
theorem acquire_release_alone (Z : Size) (t : τ) (s s' : State τ) (start n : ℕ) :
    (s.pc t = acquire Z start n → Call Z t s s' →
      Returns Z t (Acquires Z s t start n) s' ∧ ((s'.pc t).done → Acquires Z s t start n s'))
    ∧ (s.pc t = release Z start n → Call Z t s s' →
      Returns Z t (Releases Z s t start n) s' ∧ ((s'.pc t).done → Releases Z s t start n s')) := by
  refine ⟨fun hpc hcall => ?_, fun hpc hcall => ?_⟩
  · have h : Acquiring Z s s' t start n :=
      call_induction (I := fun s' => Acquiring Z s s' t start n)
        (fun _ _ _ h hnot hs => (h.step hnot hs).1) (acquiring_acquire hpc) hcall
    refine ⟨returns_of_rank (I := fun s' => Acquiring Z s s' t start n) Pc.acquireRank
      (fun _ _ h hs => ?_) (fun _ h => h.acquires) h, h.acquires⟩
    exact ⟨(h.step hs.1 hs.2).1, (h.step hs.1 hs.2).2 rfl⟩
  · have h : Freeing Z s s' t start n :=
      call_induction (I := fun s' => Freeing Z s s' t start n)
        (fun _ _ _ h hnot hs => (h.step hnot hs).1) (freeing_release hpc) hcall
    refine ⟨returns_of_rank (I := fun s' => Freeing Z s s' t start n) Pc.releaseRank
      (fun _ _ h hs => ?_) (fun _ h => h.releases) h, h.releases⟩
    exact ⟨(h.step hs.1 hs.2).1, (h.step hs.1 hs.2).2 rfl⟩

/-- A range over two words is taken; of one that is clear at the end of its second word the first
word is given back its bits. -/
theorem acquire_release_alone_two_words : ∃ s s' u u' : State (Fin 1),
    s'.bits.words 1 = 0xFFF0000000000000#64
      ∧ Acquires ⟨128, le_rfl⟩ s 0 60 16 s'
      ∧ u.bits.words 1 = 0xFF00000000000000#64 ∧ u'.pc 0 = .ret .failedBitAlreadyReleasedLastWord
      ∧ Releases ⟨128, le_rfl⟩ u 0 60 16 u' := by
  let s : State (Fin 1) := ⟨⟨fun _ => 0#64, 0⟩, fun _ => acquire ⟨128, le_rfl⟩ 60 16, fun _ => []⟩
  let u : State (Fin 1) := ⟨⟨fun w => if w = 0 then 0xF#64 else 0xFF00000000000000#64, 0⟩,
    fun _ => release ⟨128, le_rfl⟩ 60 16, fun _ => []⟩
  exact ⟨s, runFor ⟨128, le_rfl⟩ 0 2 s, u, runFor ⟨128, le_rfl⟩ 0 6 u, by decide +kernel,
    ((acquire_release_alone _ 0 s _ 60 16).1 rfl (call_runFor _ 0 2 s)).2 (by decide +kernel),
    by decide +kernel, by decide +kernel,
    ((acquire_release_alone _ 0 u _ 60 16).2 rfl (call_runFor _ 0 6 u)).2 (by decide +kernel)⟩

end MinStd.BitblockSet
