import MinStd.Proofs.GrowableRingAlone
import MinStd.Proofs.GrowableRingQueue

/-!
# The word of a segment of the growable ring queue

A segment's word is written by a claim, which counts it up, by a clamp, by an early close and by the
store that opens the segment again.  Each failing producer adds at most one to the position before
it pulls it back, so the position stays within the clamp's distance and the number of producers of
the capacity; and no write but the last makes a full segment look open.
-/

namespace MinStd.GrowableRingQueue

open Function

variable {P : Params} {τ ε : Type*} {s s' : State P τ ε} {t : τ} {k : P.Index}

/-- What a producer's access may do to the word of segment `k`. -/
inductive Written (s s' : State P τ ε) (t : τ) (k : P.Index) : Prop
  | keeps (h : (s'.segments k).enqueue_pos = (s.segments k).enqueue_pos)
  | counts (A : Attempt P ε) (hp : s.producers t = .claim A) (hk : A.target = k)
    (h : (s'.segments k).enqueue_pos = ((s.segments k).enqueue_pos + 1) % SIZES)
  | clamps (A : Attempt P ε) (c : ℕ)
    (hp : s.producers t = .clampSwap A c (s.segments k).enqueue_pos) (hk : A.target = k)
    (h : (s'.segments k).enqueue_pos = packState c c)

/-- What the consumer's access may do to the word of segment `k`. -/
inductive Rewritten (s s' : State P τ ε) (k : P.Index) : Prop
  | keeps (h : (s'.segments k).enqueue_pos = (s.segments k).enqueue_pos)
    (hlife : (s'.segments k).life = (s.segments k).life)
  | closes (h : s.consumer = .capState k (s.segments k).enqueue_pos)
    (hlife : (s'.segments k).life = (s.segments k).life)
  | opens (hlife : (s'.segments k).life = (s.segments k).life + 1)

theorem segments_setSegment {j : P.Index} {seg : Segment}
    (hs : s'.segments = (s.setSegment j seg).segments) (k : P.Index) :
    k = j ∧ s'.segments k = seg ∨ s'.segments k = s.segments k := by
  rw [hs]
  by_cases hkj : k = j
  · subst hkj
    exact .inl ⟨rfl, update_self ..⟩
  · exact .inr (update_of_ne hkj ..)

theorem segments_finishRetire (s : State P τ ε) (k : P.Index) (after : Option ℕ) :
    (finishRetire s k after).segments = s.segments := by
  cases after <;> rfl

/-- A segment is given another cursor, count or buffer. -/
theorem rewritten_setSegment {j : P.Index} {seg : Segment}
    (hs : s'.segments = (s.setSegment j seg).segments)
    (hword : seg.enqueue_pos = (s.segments j).enqueue_pos) (hlife : seg.life = (s.segments j).life)
    (k : P.Index) : Rewritten s s' k := by
  rcases segments_setSegment hs k with ⟨rfl, hk⟩ | hk
  · exact .keeps (by rw [hk, hword]) (by rw [hk, hlife])
  · exact .keeps (by rw [hk]) (by rw [hk])

theorem rewritten_of_eq (hs : s'.segments = s.segments) (k : P.Index) : Rewritten s s' k :=
  .keeps (by rw [hs]) (by rw [hs])

theorem rewritten_of_stepPop (hs : stepPop s = some s') (k : P.Index) : Rewritten s s' k := by
  unfold stepPop at hs
  split at hs
  · obtain rfl := Option.some.inj hs
    exact rewritten_of_eq (by rfl) k
  · obtain rfl := Option.some.inj hs
    exact rewritten_of_eq (by rfl) k
  · obtain rfl := Option.some.inj hs
    exact rewritten_setSegment (by rfl) (by rfl) (by rfl) k
  · split_ifs at hs <;> obtain rfl := Option.some.inj hs
    · exact rewritten_setSegment (by rfl) (by rfl) (by rfl) k
    · exact rewritten_setSegment (by rfl) (by rfl) (by rfl) k
  · cases hs

theorem rewritten_of_stepRetire {space : Option ℕ} (hs : stepRetire s space = some s')
    (k : P.Index) : Rewritten s s' k := by
  unfold stepRetire at hs
  split at hs
  · split at hs
    · obtain rfl := Option.some.inj hs
      exact rewritten_of_eq (by rfl) k
    · split_ifs at hs
      obtain rfl := Option.some.inj hs
      exact rewritten_of_eq (by rfl) k
  · obtain rfl := Option.some.inj hs
    exact rewritten_of_eq (by rfl) k
  · obtain rfl := Option.some.inj hs
    exact rewritten_setSegment (by rfl) (by rfl) (by rfl) k
  · -- opening
    rename_i j capacity after _
    have hs' : s'.segments = (s.setSegment j { s.segments j with
        enqueue_pos := packState capacity 0
        life := (s.segments j).life + 1
        taken := 0 }).segments := by
      rw [← Option.some.inj hs]
      exact segments_finishRetire _ j after
    rcases segments_setSegment hs' k with ⟨rfl, hk⟩ | hk
    · exact .opens (by rw [hk])
    · exact .keeps (by rw [hk]) (by rw [hk])
  · cases hs

theorem rewritten_of_stepShrink (hs : stepShrink s = some s') (k : P.Index) :
    Rewritten s s' k := by
  unfold stepShrink at hs
  split at hs
  · obtain rfl := Option.some.inj hs
    exact rewritten_of_eq (by rfl) k
  · obtain rfl := Option.some.inj hs
    exact rewritten_of_eq (by rfl) k
  · -- capState
    rename_i j state hq
    split_ifs at hs with hsame
    · have hs' : s'.segments = (s.setSegment j { s.segments j with
          enqueue_pos := packState (unpackPos state) (unpackPos state) }).segments := by
        rw [← Option.some.inj hs]
        rfl
      rcases segments_setSegment hs' k with ⟨rfl, hk⟩ | hk
      · exact .closes (hsame ▸ hq) (by rw [hk])
      · exact .keeps (by rw [hk]) (by rw [hk])
    · obtain rfl := Option.some.inj hs
      exact rewritten_of_eq (by rfl) k
  · obtain rfl := Option.some.inj hs
    exact rewritten_setSegment (by rfl) (by rfl) (by rfl) k
  · cases hs

theorem rewritten_of_stepConsumer {space : Option ℕ} (hs : stepConsumer s space = some s')
    (k : P.Index) : Rewritten s s' k := by
  unfold stepConsumer at hs
  split at hs
  · cases hs
  · obtain rfl := Option.some.inj hs
    exact rewritten_of_eq (by rfl) k
  · rcases Option.or_eq_some_iff.1 hs with hs | ⟨-, hs⟩
    · rcases Option.or_eq_some_iff.1 hs with hs | ⟨-, hs⟩
      · exact rewritten_of_stepPop hs k
      · exact rewritten_of_stepRetire hs k
    · exact rewritten_of_stepShrink hs k

/-- A producer writes the word of a segment. -/
theorem written_setEnqueuePos {j : P.Index} {w : ℕ}
    (hs : s'.segments = (s.setEnqueuePos j w).segments)
    (hw : k = j → (s'.segments k).enqueue_pos = w → Written s s' t k) :
    Written s s' t k ∧ (s'.segments k).life = (s.segments k).life := by
  rcases segments_setSegment hs k with ⟨rfl, hk⟩ | hk
  · exact ⟨hw rfl (by rw [hk]), by rw [hk]⟩
  · exact ⟨.keeps (by rw [hk]), by rw [hk]⟩

variable [DecidableEq τ]

theorem written_of_stepProducer {spurious : Bool} (hs : stepProducer s t spurious = some s')
    (k : P.Index) : Written s s' t k ∧ (s'.segments k).life = (s.segments k).life := by
  unfold stepProducer at hs
  split at hs <;> rename_i hp
  · cases hs
  · obtain rfl := Option.some.inj hs
    exact ⟨.keeps rfl, rfl⟩
  · -- claim
    rename_i A
    obtain rfl := Option.some.inj hs
    exact written_setEnqueuePos rfl fun hk hw => .counts A hp hk.symm (hk ▸ hw)
  · obtain rfl := Option.some.inj hs
    exact ⟨.keeps rfl, rfl⟩
  · -- clampSwap
    rename_i A c current
    split_ifs at hs with hsame <;> obtain rfl := Option.some.inj hs
    · refine written_setEnqueuePos rfl fun hk hw => .clamps A c ?_ hk.symm hw
      rw [hp, hk, hsame.1]
    · exact ⟨.keeps rfl, rfl⟩
  all_goals
    obtain rfl := Option.some.inj hs
    exact ⟨.keeps rfl, rfl⟩

variable [Fintype τ]

omit [DecidableEq τ] in
/-- A producer's access leaves the capacity half, and a full segment full. -/
theorem Written.sound (h : Written s s' t k) (hshape : Shape s) :
    s'.cap k = s.cap k ∧ (Filled s k → Filled s' k) := by
  unfold Filled
  cases h with
  | keeps h =>
    unfold State.cap State.pos
    rw [h]
    exact ⟨rfl, id⟩
  | counts A hp hk h =>
    subst hk
    obtain ⟨-, hcap, hpos⟩ := unpack_succ (hshape.word_lt A.target) (hshape.pos_lt hp)
    have hcap' : s'.cap A.target = s.cap A.target := by
      unfold State.cap
      rw [h, hcap]
    refine ⟨hcap', fun hfull => ?_⟩
    have hpos' : s'.pos A.target = s.pos A.target + 1 := by
      unfold State.pos
      rw [h, hpos]
    omega
  | clamps A c hp hk h =>
    subst hk
    have hholds := hshape.holds t
    rw [hp] at hholds
    have hc : s.cap A.target = c := hholds.1
    have hroom := (hshape.cap A.target).roomy
    unfold Roomy at hroom
    obtain ⟨-, hcap, hpos⟩ := unpack_packState (show c < 2 ^ 32 by omega) (show c < 2 ^ 32 by omega)
    have hcap' : s'.cap A.target = c := by
      unfold State.cap
      rw [h, hcap]
    have hpos' : s'.pos A.target = c := by
      unfold State.pos
      rw [h, hpos]
    exact ⟨hcap'.trans hc.symm, fun _ => (hcap'.trans hpos'.symm).le⟩

omit [DecidableEq τ] in
/-- The consumer's access leaves a full segment full, or it opens it again. -/
theorem Rewritten.sound (h : Rewritten s s' k) (hshape : Shape s) :
    (s.segments k).life ≤ (s'.segments k).life
      ∧ ((s'.segments k).life = (s.segments k).life → Filled s k → Filled s' k) := by
  cases h with
  | keeps h hlife =>
    refine ⟨hlife.ge, fun _ hfull => ?_⟩
    unfold Filled State.cap State.pos at *
    rwa [h]
  | closes h hlife =>
    refine ⟨hlife.ge, fun _ hfull => ?_⟩
    -- a full segment is left alone
    have hphase := hshape.phase
    rw [h] at hphase
    exact absurd (.inr (.inl hfull)) hphase.2
  | opens hlife => exact ⟨by omega, fun heq => by omega⟩

/-- A full segment stays full until it is opened again. -/
theorem filled_of_step {act : Action τ ε} (hshape : Shape s) (hs : step s act = some s')
    (k : P.Index) : (s.segments k).life ≤ (s'.segments k).life
      ∧ ((s'.segments k).life = (s.segments k).life → Filled s k → Filled s' k) := by
  cases act with
  | push t value =>
    simp only [step] at hs
    split at hs
    · obtain rfl := Option.some.inj hs
      exact ⟨le_rfl, fun _ => id⟩
    · cases hs
  | pop =>
    simp only [step] at hs
    split at hs
    · obtain rfl := Option.some.inj hs
      exact ⟨le_rfl, fun _ => id⟩
    · cases hs
  | produce t spurious =>
    obtain ⟨hwritten, hlife⟩ := written_of_stepProducer hs k
    exact ⟨hlife.ge, fun _ => (hwritten.sound hshape).2⟩
  | consume space => exact (rewritten_of_stepConsumer hs k).sound hshape

/-- The position of segment `k` is near its capacity, which no producer's access changes, and once
the segment is full every claim in it is refused until it is opened again. -/
structure Bounded (s : State P τ ε) (k : P.Index) : Prop where
  position : s.pos k ≤ s.cap k + (2 ^ 30 + Fintype.card τ)
  capacity : ∀ t spurious s', step s (.produce t spurious) = some s' → s'.cap k = s.cap k
  full : s.cap k ≤ s.pos k → ∀ s', Alone (fun _ => True) s s' →
    (s'.segments k).life = (s.segments k).life → s'.cap k ≤ s'.pos k
      ∧ ∀ t A, (claimed t (s'.segments k).life A (s'.segments k).enqueue_pos :
        Producer P τ ε).claim? = none

theorem position_bounded_of_run (hroomy : Roomy τ P.initial_capacity)
    (h : (machine (τ := τ) (ε := ε) P).Run Headroom s) (k : P.Index) : Bounded s k := by
  classical
  obtain ⟨hshape, hL⟩ := sound_of_run hroomy h
  refine ⟨?_, fun t spurious s' hs => ?_, fun hfull s' hs' hlife => ?_⟩
  · have hclamp := hshape.clamp k
    have hcard := Finset.card_le_univ
      (Finset.univ.filter fun t => (s.producers t).Clamps k (s.cap k))
    unfold POSITION_CLAMP_DISTANCE at hclamp
    omega
  · exact ((written_of_stepProducer hs k).1.sound hshape).1
  · have hkeeps : (s.segments k).life ≤ (s'.segments k).life
        ∧ ((s'.segments k).life = (s.segments k).life → Filled s' k) := by
      refine Machine.run_induction (I := fun s' => (s.segments k).life ≤ (s'.segments k).life
        ∧ ((s'.segments k).life = (s.segments k).life → Filled s' k)) (fun s₁ h₁ => ?_)
        (fun s₁ s₂ act hr ih hg hs => ?_) hs'
      · obtain rfl : s₁ = s := h₁
        exact ⟨le_rfl, fun _ => hfull⟩
      · obtain ⟨hle, hstays⟩ := filled_of_step (Alone.sound hr ⟨hshape, hL⟩).1 hs k
        exact ⟨ih.1.trans hle, fun heq => hstays (by omega) (ih.2 (by omega))⟩
    have hfilled := hkeeps.2 hlife
    refine ⟨hfilled, fun t A => ?_⟩
    rcases claimed_cases t (s'.segments k).life A (s'.segments k).enqueue_pos with
      ⟨hlt, -⟩ | ⟨-, hc | ⟨hc, -⟩⟩
    · exact absurd hlt (not_lt.2 hfilled)
    · rw [hc]
      rfl
    · rw [hc]
      exact claim_missed A

/-- Two producers have claimed the slots of the first segment. -/
theorem position_bounded_of_run_full : ∃ s : State small Bool Unit,
    (machine small).Run Headroom s ∧ s.cap small.firstSegment = 2
      ∧ s.pos small.firstSegment = 2 ∧ Bounded s small.firstSegment := by
  have h0 : (machine (τ := Bool) (ε := Unit) small).Run Headroom (newQueue small Bool Unit) :=
    .init (start_newQueue small)
  have h1 := h0.step (a := .push false ()) (by trivial) rfl
  have h2 := h1.step (a := .push true ()) (by trivial) rfl
  have h3 := h2.step (a := .produce false false) (by trivial) rfl
  have h4 := h3.step (a := .produce true false) (by trivial) rfl
  have h5 := h4.step (a := .produce true false) (by trivial) rfl
  have h6 := h5.step (a := .produce false false) (by trivial) rfl
  exact ⟨_, h6, by decide, by decide, position_bounded_of_run (by unfold Roomy; decide) h6 _⟩

end MinStd.GrowableRingQueue
