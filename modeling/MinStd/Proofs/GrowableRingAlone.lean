import MinStd.Proofs.GrowableRingSteps

/-!
# The growable ring queue used by one party alone

When no producer is in a call, the consumer is refused only by segments that have nothing left, and
it comes to every element left (`Alone.drained`).  When the consumer is not in a call either, a
producer is refused only by segments that are claimed to their capacity, which hold an element each.
-/

namespace MinStd.GrowableRingQueue

open Function

variable {P : Params} {τ ε : Type*}

/-- How many segments after `k` comes `j`. -/
def Params.Index.ahead (k j : P.Index) : ℕ :=
  if (k : ℕ) ≤ j then j - k else j + P.SegmentCount - k

section Ahead

variable (k j : P.Index)

theorem ahead_lt : k.ahead j < P.SegmentCount := by
  have hj := j.isLt
  have hk := k.isLt
  unfold Params.Index.ahead
  split_ifs <;> omega

variable {k j}

/-- The segment after `k` is nearer to every other by one. -/
theorem ahead_next (hne : j ≠ k) : k.next.ahead j + 1 = k.ahead j := by
  have hj := j.isLt
  have hk := k.isLt
  have hval : (j : ℕ) ≠ k := fun h => hne (Fin.ext h)
  have hnext : k.next.val = if k.val + 1 = P.SegmentCount then 0 else k.val + 1 := by
    show ((k : ℕ) + 1) % P.SegmentCount = _
    split_ifs with hlast
    · rw [hlast, Nat.mod_self]
    · exact Nat.mod_eq_of_lt (by omega)
  unfold Params.Index.ahead
  rw [hnext]
  split_ifs <;> omega

end Ahead

def Action.OfConsumer : Action τ ε → Prop
  | .pop => True
  | .consume _ => True
  | _ => False

def Action.OfProducer (t : τ) : Action τ ε → Prop
  | .push u _ => u = t
  | .produce u _ => u = t
  | _ => False

/-- The states that actions of one kind alone lead to. -/
def Alone [Fintype τ] [DecidableEq τ] (mine : Action τ ε → Prop) (s₀ : State P τ ε) :
    State P τ ε → Prop :=
  Machine.Run { machine P with init := (· = s₀) } fun s act => Headroom s act ∧ mine act

/-- No call is under way. -/
structure Quiet (s : State P τ ε) : Prop where
  producers : ∀ t, s.producers t = .idle
  consumer : s.consumer = .idle

/-- All that is claimed in a segment has been popped. -/
def Exhausted (s : State P τ ε) (k : P.Index) : Prop := (view s).taken k = (view s).used k

/-- What the consumer has found where it stands. -/
def Sought (s : State P τ ε) : Consumer P → Prop
  | .tryPop k a => ∀ j, Exhausted s j ∨ k.ahead j + a < P.SegmentCount
  | .loadReady k a => ∀ j, Exhausted s j ∨ k.ahead j + a < P.SegmentCount
  | .ret false => ∀ j, Exhausted s j
  | _ => True

/-- A segment is claimed to its capacity. -/
def Filled (s : State P τ ε) (k : P.Index) : Prop := s.cap k ≤ s.pos k

/-- What a producer has found where it stands. -/
def Tried (s : State P τ ε) : Producer P τ ε → Prop
  | .claim A => ∀ j, Filled s j ∨ A.target.ahead j + A.attempt < P.SegmentCount
  | .clampLoad A _ => Filled s A.target
      ∧ ∀ j, Filled s j ∨ A.target.ahead j + A.attempt < P.SegmentCount
  | .clampSwap A _ _ => Filled s A.target
      ∧ ∀ j, Filled s j ∨ A.target.ahead j + A.attempt < P.SegmentCount
  | .storeTarget A => ∀ j, Filled s j ∨ A.target.ahead j + A.attempt < P.SegmentCount
  | .ret false => ∀ j, Filled s j
  | _ => True

variable [Fintype τ] [DecidableEq τ] {s s' s₀ : State P τ ε} {t : τ}

theorem Alone.sound {mine : Action τ ε → Prop} (h : Alone mine s₀ s)
    (h₀ : Shape s₀ ∧ Ledger.Balanced (view s₀)) : Shape s ∧ Ledger.Balanced (view s) := by
  refine Machine.run_induction (I := fun s => Shape s ∧ Ledger.Balanced (view s))
    (fun s hs => ?_) (fun s s' act _ ih hg hs => ?_) h
  · obtain rfl : s = s₀ := hs
    exact h₀
  · exact ⟨ih.1.step ih.2 hg.1 hs, (moves_of_step ih.1 ih.2 hs).balanced ih.2⟩

section Consumer

variable {space : Option ℕ}

omit [Fintype τ] [DecidableEq τ] in
/-- What a step of the consumer leaves alone. -/
theorem stepConsumer_frame (hs : stepConsumer s space = some s') :
    s'.producers = s.producers ∧ s'.pushed = s.pushed ∧ s'.claims = s.claims
      ∧ s'.asked = s.asked ∧ s'.before = s.before := by
  cases hq : s.consumer <;>
    simp only [stepConsumer, stepPop, stepRetire, stepShrink, hq, Option.or_none, Option.none_or,
      reduceCtorEq, Option.or_some] at hs
  case clearReady k a =>
    split_ifs at hs <;> obtain rfl := Option.some.inj hs <;> exact ⟨rfl, rfl, rfl, rfl, rfl⟩
  case retire k after =>
    cases space with
    | none =>
      obtain rfl := Option.some.inj hs
      exact ⟨rfl, rfl, rfl, rfl, rfl⟩
    | some b =>
      dsimp only at hs
      split_ifs at hs with hb
      obtain rfl := Option.some.inj hs
      exact ⟨rfl, rfl, rfl, rfl, rfl⟩
  case opening k n after =>
    obtain rfl := Option.some.inj hs
    cases after <;> exact ⟨rfl, rfl, rfl, rfl, rfl⟩
  case capState k w =>
    split_ifs at hs <;> obtain rfl := Option.some.inj hs <;> exact ⟨rfl, rfl, rfl, rfl, rfl⟩
  all_goals
    obtain rfl := Option.some.inj hs
    exact ⟨rfl, rfl, rfl, rfl, rfl⟩

omit [Fintype τ] [DecidableEq τ] in
/-- Where no producer has a slot in hand, a front slot that is not ready is of a segment exhausted. -/
theorem exhausted_of_not_ready (hL : Ledger.Balanced (view s)) (hidle : ∀ t, s.producers t = .idle)
    {k : P.Index} (hdequeue : (s.segments k).dequeue_state = (s.segments k).taken)
    (hready : (s.front k).ready ≠ true) : Exhausted s k := by
  refine le_antisymm (hL.taken_le k) (not_lt.1 fun hlt => ?_)
  obtain ⟨c, -, -, -, -, hflight | hpublished⟩ := hL.slot le_rfl hlt
  · replace hflight : (s.producers c.owner).claim? = some c := hflight
    rw [hidle] at hflight
    cases hflight
  · have hnone : (view s).published k ((view s).taken k) = none := by
      refine published_of_not_ready ?_
      unfold State.front at hready
      rw [hdequeue] at hready
      exact Bool.eq_false_iff.2 hready
    rw [hnone] at hpublished
    cases hpublished

omit [Fintype τ] [DecidableEq τ] in
/-- The next segment is tried. -/
theorem sought_next {k : P.Index} {a : ℕ}
    (hall : ∀ j, Exhausted s j ∨ k.ahead j + a < P.SegmentCount) (hk : Exhausted s k) (j : P.Index) :
    Exhausted s j ∨ k.next.ahead j + (a + 1) < P.SegmentCount := by
  rcases eq_or_ne j k with rfl | hne
  · exact .inl hk
  · have hnext := ahead_next hne
    exact (hall j).imp_right fun hlt => by omega

omit [DecidableEq τ] in
/-- The consumer goes past segments that are exhausted. -/
theorem Sought.step (h : Shape s) (hL : Ledger.Balanced (view s)) (hidle : ∀ t, s.producers t = .idle)
    (hsought : Sought s s.consumer) (hs : stepConsumer s space = some s') : Sought s' s'.consumer := by
  have hphase := h.phase
  cases hq : s.consumer <;>
    simp only [stepConsumer, stepPop, stepRetire, stepShrink, hq, Option.or_none, Option.none_or,
      reduceCtorEq, Option.or_some] at hs <;> rw [hq] at hsought hphase
  case tryPop k a =>
    obtain rfl := Option.some.inj hs
    show Sought s (if _ then _ else _)
    split_ifs with hlt hcap
    · have hdequeue := (hphase k).dequeue
      have hcapacity := (hphase k).capacity
      have hltcap := (hphase k).lt
      omega
    · exact hsought
    · exact fun j => (hsought j).resolve_right fun hj => by omega
  case loadReady k a =>
    obtain rfl := Option.some.inj hs
    show Sought s (if _ then _ else _)
    split_ifs with hready
    · trivial
    · exact sought_next hsought (exhausted_of_not_ready hL hidle (hphase k).dequeue hready)
  case clearReady k a =>
    split_ifs at hs <;> obtain rfl := Option.some.inj hs
    · trivial
    · show Sought _ (if _ then _ else _)
      split_ifs <;> trivial
  case retire k after =>
    cases space with
    | none =>
      obtain rfl := Option.some.inj hs
      trivial
    | some b =>
      dsimp only at hs
      split_ifs at hs with hb
      obtain rfl := Option.some.inj hs
      trivial
  case opening k n after =>
    obtain rfl := Option.some.inj hs
    cases after with
    | none => trivial
    | some a =>
      show Sought _ (if _ then _ else _)
      split_ifs <;> trivial
  case loadState k =>
    obtain rfl := Option.some.inj hs
    show Sought _ (if _ then _ else _)
    split_ifs <;> trivial
  case capState k w =>
    split_ifs at hs <;> obtain rfl := Option.some.inj hs <;> trivial
  case setCapacity k n =>
    obtain rfl := Option.some.inj hs
    show Sought _ (if _ then _ else _)
    split_ifs <;> trivial
  all_goals
    obtain rfl := Option.some.inj hs
    trivial

/-- While the consumer is alone, no producer is in a call and the segments it has passed are
exhausted. -/
theorem Alone.sought (h : Alone Action.OfConsumer s₀ s) (hquiet : Quiet s₀)
    (h₀ : Shape s₀ ∧ Ledger.Balanced (view s₀)) :
    (∀ t, s.producers t = .idle) ∧ s.pushed = s₀.pushed ∧ Sought s s.consumer := by
  refine Machine.run_induction (I := fun s => (∀ t, s.producers t = .idle) ∧ s.pushed = s₀.pushed
    ∧ Sought s s.consumer) (fun s hs => ?_) (fun s s' act hr ih hg hs => ?_) h
  · obtain rfl : s = s₀ := hs
    refine ⟨hquiet.producers, rfl, ?_⟩
    rw [hquiet.consumer]
    trivial
  · obtain ⟨hidle, hpushed, hsought⟩ := ih
    obtain ⟨hshape, hL⟩ := Alone.sound hr h₀
    cases act with
    | push t value => exact hg.2.elim
    | produce t spurious => exact hg.2.elim
    | pop =>
      simp only [machine, GrowableRingQueue.step] at hs
      split at hs
      · obtain rfl := Option.some.inj hs
        refine ⟨hidle, hpushed, fun j => .inr ?_⟩
        exact ahead_lt _ j
      · cases hs
    | consume space =>
      obtain ⟨hproducers, hpushed', -⟩ := stepConsumer_frame hs
      refine ⟨fun t => ?_, hpushed'.trans hpushed, hsought.step hshape hL hidle hs⟩
      rw [hproducers]
      exact hidle t

omit [Fintype τ] [DecidableEq τ] in
/-- What is pushed and not popped is in a segment that is not exhausted. -/
theorem not_exhausted (hL : Ledger.Balanced (view s)) {c : Push P τ ε} (hpushed : c ∈ s.pushed)
    (hnot : c ∉ s.popped) : ¬ Exhausted s c.segment := by
  obtain ⟨-, hle, hlt⟩ := hL.present ((hL.pushed_iff c).1 hpushed).1 hnot
  unfold Exhausted
  omega

/-- The consumer alone is refused only where everything pushed has been popped. -/
theorem Alone.refused (h : Alone Action.OfConsumer s₀ s) (hquiet : Quiet s₀)
    (h₀ : Shape s₀ ∧ Ledger.Balanced (view s₀)) (hret : s.consumer = .ret false) :
    ∀ c ∈ s.pushed, c ∈ s.popped := by
  intro c hc
  obtain ⟨-, -, hsought⟩ := h.sought hquiet h₀
  rw [hret] at hsought
  by_contra hnot
  exact not_exhausted (h.sound h₀).2 hc hnot (hsought c.segment)

/-- How far the consumer is from an element, where there is one. -/
def Consumer.toGo : Consumer P → ℕ
  | .take _ _ => 0
  | .loadReady _ a => 2 * (P.SegmentCount - a) + 1
  | .tryPop _ a => 2 * (P.SegmentCount - a) + 2
  | .idle => 2 * P.SegmentCount + 3
  | .ret _ => 2 * P.SegmentCount + 4
  | .opening _ _ none => 2 * P.SegmentCount + 5
  | .install _ _ _ none => 2 * P.SegmentCount + 6
  | .free _ _ _ none => 2 * P.SegmentCount + 7
  | .retire _ none => 2 * P.SegmentCount + 8
  | .setCapacity _ _ => 2 * P.SegmentCount + 9
  | .capState _ _ => 2 * P.SegmentCount + 10
  | .loadState _ => 2 * P.SegmentCount + 11
  | .loadTarget => 2 * P.SegmentCount + 12
  | .opening _ _ (some _) => 2 * P.SegmentCount + 13
  | .install _ _ _ (some _) => 2 * P.SegmentCount + 14
  | .free _ _ _ (some _) => 2 * P.SegmentCount + 15
  | .retire _ (some _) => 2 * P.SegmentCount + 16
  | .clearReady _ _ => 2 * P.SegmentCount + 17

omit [DecidableEq τ] in
/-- Where there is an element left, the consumer takes one with its next step or comes nearer. -/
theorem toGo_step (h : Shape s) (hL : Ledger.Balanced (view s)) (hsought : Sought s s.consumer)
    (hleft : ∃ c ∈ s.pushed, c ∉ s.popped) (hnot : s.consumer ≠ .idle) :
    ∃ s', stepConsumer s none = some s' ∧ (s.popped.length < s'.popped.length
      ∨ s'.popped = s.popped ∧ s'.consumer.toGo < s.consumer.toGo) := by
  obtain ⟨c, hc, hcnot⟩ := hleft
  have hex := not_exhausted hL hc hcnot
  have hone := P.segments_ge
  cases hq : s.consumer <;>
    simp only [stepConsumer, stepPop, stepRetire, stepShrink, Option.or_none, Option.none_or,
      hq, Option.or_some] <;> rw [hq] at hsought
  case idle => exact absurd hq hnot
  case tryPop k a =>
    have hlt := (hsought c.segment).resolve_left hex
    refine ⟨_, rfl, .inr ⟨rfl, ?_⟩⟩
    show Consumer.toGo (if _ then _ else _) < _
    rw [if_pos (by omega)]
    split_ifs <;> simp only [Consumer.toGo] <;> omega
  case loadReady k a =>
    have hlt := (hsought c.segment).resolve_left hex
    refine ⟨_, rfl, .inr ⟨rfl, ?_⟩⟩
    show Consumer.toGo (if _ then _ else _) < 2 * (P.SegmentCount - a) + 1
    split_ifs
    · exact Nat.succ_pos _
    · show 2 * (P.SegmentCount - (a + 1)) + 2 < _
      omega
  case take k a =>
    obtain ⟨-, e, he⟩ := h.front_some hq
    refine ⟨_, rfl, .inl ?_⟩
    show s.popped.length < (s.popped ++ (s.front k).element.toList).length
    rw [he, List.length_append]
    exact Nat.lt_succ_self _
  case clearReady k a =>
    split_ifs
    · exact ⟨_, rfl, .inr ⟨rfl, Nat.lt_succ_self _⟩⟩
    · refine ⟨_, rfl, .inr ⟨rfl, ?_⟩⟩
      show Consumer.toGo (if _ then _ else _) < 2 * P.SegmentCount + 17
      split_ifs <;> simp only [Consumer.toGo] <;> omega
  case loadState k =>
    refine ⟨_, rfl, .inr ⟨rfl, ?_⟩⟩
    show Consumer.toGo (if _ then _ else _) < 2 * P.SegmentCount + 11
    split_ifs <;> simp only [Consumer.toGo] <;> omega
  case capState k w =>
    split_ifs <;> refine ⟨_, rfl, .inr ⟨rfl, ?_⟩⟩
    · exact Nat.lt_succ_self _
    · show 2 * P.SegmentCount + 4 < 2 * P.SegmentCount + 10
      omega
  case setCapacity k n =>
    refine ⟨_, rfl, .inr ⟨rfl, ?_⟩⟩
    show Consumer.toGo (if _ then _ else _) < 2 * P.SegmentCount + 9
    split_ifs <;> simp only [Consumer.toGo] <;> omega
  case opening k n after =>
    cases after with
    | none => exact ⟨_, rfl, .inr ⟨rfl, Nat.lt_succ_self _⟩⟩
    | some a =>
      refine ⟨_, rfl, .inr ⟨rfl, ?_⟩⟩
      show Consumer.toGo (if _ then _ else _) < 2 * P.SegmentCount + 13
      split_ifs <;> simp only [Consumer.toGo] <;> omega
  case retire k after =>
    refine ⟨_, rfl, .inr ⟨rfl, ?_⟩⟩
    cases after with
    | none =>
      show 2 * P.SegmentCount + 6 < 2 * P.SegmentCount + 8
      omega
    | some a =>
      show 2 * P.SegmentCount + 14 < 2 * P.SegmentCount + 16
      omega
  case free k b n after =>
    refine ⟨_, rfl, .inr ⟨rfl, ?_⟩⟩
    cases after <;> exact Nat.lt_succ_self _
  case install k b n after =>
    refine ⟨_, rfl, .inr ⟨rfl, ?_⟩⟩
    cases after <;> exact Nat.lt_succ_self _
  all_goals exact ⟨_, rfl, .inr ⟨rfl, Nat.lt_succ_self _⟩⟩

/-- The consumer alone comes to an element that is left. -/
theorem Alone.takes (h : Alone Action.OfConsumer s₀ s) (hquiet : Quiet s₀)
    (h₀ : Shape s₀ ∧ Ledger.Balanced (view s₀)) (hleft : ∃ c ∈ s.pushed, c ∉ s.popped) :
    ∃ s', Alone Action.OfConsumer s₀ s' ∧ s.popped.length < s'.popped.length := by
  generalize hn : s.consumer.toGo = n
  induction n using Nat.strong_induction_on generalizing s with
  | _ n ih =>
    obtain ⟨hidle, hpushed, hsought⟩ := h.sought hquiet h₀
    obtain ⟨hshape, hL⟩ := h.sound h₀
    by_cases hq : s.consumer = .idle
    · have hs : step s .pop =
          some ({ s with before := s.popped.length }.goTo (.tryPop s.consumer_target 0)) := by
        simp only [step, hq]
      have hnext : Alone Action.OfConsumer s₀
          ({ s with before := s.popped.length }.goTo (.tryPop s.consumer_target 0)) :=
        h.step (a := .pop) ⟨trivial, trivial⟩ hs
      refine ih _ ?_ (s := { s with before := s.popped.length }.goTo (.tryPop s.consumer_target 0))
        hnext hleft rfl
      rw [← hn, hq]
      exact Nat.lt_succ_self _
    · obtain ⟨s', hs, hor⟩ := toGo_step hshape hL hsought hleft hq
      have hnext : Alone Action.OfConsumer s₀ s' := h.step (a := .consume none) ⟨trivial, trivial⟩ hs
      rcases hor with hlt | ⟨heq, hlt⟩
      · exact ⟨s', hnext, hlt⟩
      · obtain ⟨c, hc, hcnot⟩ := hleft
        obtain ⟨s'', hs'', hlt'⟩ := ih _ (hn ▸ hlt) hnext ⟨c, by
          rwa [(stepConsumer_frame hs).2.1], by rwa [heq]⟩ rfl
        exact ⟨s'', hs'', by rwa [heq] at hlt'⟩

/-- The consumer alone comes to all that is left. -/
theorem Alone.drained (hquiet : Quiet s₀) (h₀ : Shape s₀ ∧ Ledger.Balanced (view s₀)) :
    ∃ s, Alone Action.OfConsumer s₀ s ∧ ∀ c, c ∈ s.popped ↔ c ∈ s₀.pushed := by
  have hmore : ∀ n, ∀ s, Alone Action.OfConsumer s₀ s → s.pushed.length - s.popped.length ≤ n →
      ∃ s', Alone Action.OfConsumer s₀ s' ∧ ∀ c ∈ s'.pushed, c ∈ s'.popped := by
    intro n
    induction n with
    | zero =>
      intro s hs hle
      obtain ⟨-, hL⟩ := hs.sound h₀
      refine ⟨s, hs, fun c hc => ?_⟩
      have hperm : s.popped.Perm s.pushed := by
        refine (hL.popped_nodup.subperm fun c hc => hL.popped_pushed hc).perm_of_length_le ?_
        exact Nat.sub_eq_zero_iff_le.1 (Nat.le_zero.1 hle)
      exact hperm.mem_iff.2 hc
    | succ n ih =>
      intro s hs hle
      by_cases hleft : ∃ c ∈ s.pushed, c ∉ s.popped
      · obtain ⟨s', hs', hlt⟩ := hs.takes hquiet h₀ hleft
        refine ih s' hs' ?_
        rw [(hs'.sought hquiet h₀).2.1, ← (hs.sought hquiet h₀).2.1]
        omega
      · push Not at hleft
        exact ⟨s, hs, hleft⟩
  obtain ⟨s, hs, hall⟩ := hmore _ s₀ (.init rfl) le_rfl
  refine ⟨s, hs, fun c => ?_⟩
  rw [← (hs.sought hquiet h₀).2.1]
  exact ⟨fun hc => (hs.sound h₀).2.popped_pushed hc, hall c⟩

end Consumer

section Producer

omit [Fintype τ] [DecidableEq τ] in
/-- A segment claimed to its capacity has an element in it, where no producer has a slot in hand. -/
theorem holds_of_filled (hL : Ledger.Balanced (view s)) (hidle : ∀ u, u ≠ t → s.producers u = .idle)
    (ht : (s.producers t).claim? = none) {k : P.Index} (hsteady : Steady s k) (hfilled : Filled s k) :
    ∃ c ∈ s.pushed, c ∉ s.popped ∧ c.segment = k := by
  have hlt : (view s).taken k < (view s).used k := by
    show (s.segments k).taken < min (s.pos k) (s.cap k)
    rw [Nat.min_eq_right hfilled]
    exact hsteady.lt
  obtain ⟨c, -, hseg, -, hnot, hflight | hpublished⟩ := hL.slot le_rfl hlt
  · replace hflight : (s.producers c.owner).claim? = some c := hflight
    rcases eq_or_ne c.owner t with howner | howner
    · rw [howner, ht] at hflight
      cases hflight
    · rw [hidle _ howner] at hflight
      cases hflight
  · exact ⟨c, ((hL.published_iff _ _ c).1 hpublished).1, hnot, hseg⟩

omit [Fintype τ] [DecidableEq τ] in
/-- An attempt that has failed leaves the segments after the target to try. -/
theorem tried_missed {A : Attempt P ε} (hfilled : Filled s A.target)
    (hall : ∀ j, Filled s j ∨ A.target.ahead j + A.attempt < P.SegmentCount) :
    Tried s (missed A : Producer P τ ε) := by
  have hnext : ∀ j, Filled s j ∨ A.target.next.ahead j + (A.attempt + 1) < P.SegmentCount := by
    intro j
    rcases eq_or_ne j A.target with rfl | hne
    · exact .inl hfilled
    · have hahead := ahead_next hne
      exact (hall j).imp_right fun hlt => by omega
  unfold missed
  split_ifs with hlt
  · exact hnext
  · exact fun j => (hnext j).resolve_right fun hj => by omega

omit [Fintype τ] [DecidableEq τ] in
theorem tried_enterClamp {A : Attempt P ε} (c current : ℕ) (hfilled : Filled s A.target)
    (hall : ∀ j, Filled s j ∨ A.target.ahead j + A.attempt < P.SegmentCount) :
    Tried s (enterClamp A c current : Producer P τ ε) := by
  rcases enterClamp_cases (τ := τ) A c current with ⟨he, -⟩ | ⟨he, -⟩ <;> rw [he]
  · exact ⟨hfilled, hall⟩
  · exact tried_missed hfilled hall

omit [Fintype τ] [DecidableEq τ] in
theorem Tried.mono {p : Producer P τ ε} (h : Tried s p) (hfilled : ∀ j, Filled s j → Filled s' j) :
    Tried s' p := by
  cases p with
  | claim A => exact fun j => (h j).imp_left (hfilled j)
  | clampLoad A c => exact ⟨hfilled _ h.1, fun j => (h.2 j).imp_left (hfilled j)⟩
  | clampSwap A c w => exact ⟨hfilled _ h.1, fun j => (h.2 j).imp_left (hfilled j)⟩
  | storeTarget A => exact fun j => (h j).imp_left (hfilled j)
  | ret b => cases b with
    | false => exact fun j => hfilled j (h j)
    | true => trivial
  | _ => trivial

omit [Fintype τ] [DecidableEq τ] in
/-- A word that is written goes on being filled. -/
theorem filled_setEnqueuePos {k : P.Index} {w : ℕ} {l : List (Push P τ ε)}
    (hw : Filled s k → unpackCapacity w ≤ unpackPos w) (j : P.Index) (h : Filled s j) :
    Filled ({ s with claims := l }.setEnqueuePos k w) j := by
  unfold Filled State.cap State.pos at *
  rcases eq_or_ne j k with rfl | hj
  · rw [show (({ s with claims := l } : State P τ ε).setEnqueuePos j w).segments j
      = { s.segments j with enqueue_pos := w } from setSegment_self _ j _]
    exact hw h
  · rw [show (({ s with claims := l } : State P τ ε).setEnqueuePos k w).segments j = s.segments j from
      setSegment_of_ne _ _ hj]
    exact h

omit [Fintype τ] in
/-- A producer's step is its own. -/
theorem stepProducer_frame {spurious : Bool} (hs : stepProducer s t spurious = some s') :
    (∀ u, u ≠ t → s'.producers u = s.producers u) ∧ s'.consumer = s.consumer
      ∧ s'.popped = s.popped ∧ s'.asked = s.asked ∧ s'.before = s.before ∧ s'.given = s.given := by
  have hset : ∀ (s₁ : State P τ ε) p u, u ≠ t → (s₁.setProducer t p).producers u = s₁.producers u :=
    fun s₁ p u hu => update_of_ne hu _ s₁.producers
  unfold stepProducer at hs
  split at hs
  · cases hs
  case h_5 =>
    split_ifs at hs <;> obtain rfl := Option.some.inj hs <;> exact ⟨hset _ _, rfl, rfl, rfl, rfl, rfl⟩
  all_goals
    obtain rfl := Option.some.inj hs
    exact ⟨hset _ _, rfl, rfl, rfl, rfl, rfl⟩

/-- A producer's step goes past segments that are filled. -/
theorem Tried.step {spurious : Bool} (h : Shape s) (htried : Tried s (s.producers t))
    (hs : stepProducer s t spurious = some s') : Tried s' (s'.producers t) := by
  have hholds := h.holds t
  have hset : ∀ (s₁ : State P τ ε) p, (s₁.setProducer t p).producers t = p := fun s₁ p =>
    update_self t _ s₁.producers
  unfold stepProducer at hs
  split at hs <;> rename_i hp <;> rw [hp] at htried hholds
  · cases hs
  · obtain rfl := Option.some.inj hs
    rw [hset]
    exact fun j => .inr (ahead_lt _ j)
  · -- claim
    rename_i A
    obtain rfl := Option.some.inj hs
    rw [hset]
    obtain ⟨-, hcap, hpos⟩ := unpack_succ (h.word_lt A.target) (h.pos_lt hp)
    have hkeep : ∀ (l : List (Push P τ ε)) j, Filled s j → Filled ({ s with
        claims := l }.setEnqueuePos A.target (((s.segments A.target).enqueue_pos + 1) % SIZES)) j := by
      refine fun l j hj => filled_setEnqueuePos (fun hfilled => ?_) j hj
      rw [hcap, hpos]
      exact Nat.le_succ_of_le hfilled
    refine Tried.mono (s := s) ?_ (hkeep _)
    rcases claimed_cases t (s.segments A.target).life A (s.segments A.target).enqueue_pos with
      ⟨-, hc⟩ | ⟨hle, hc | ⟨hc, -⟩⟩ <;> rw [hc]
    · trivial
    · exact ⟨hle, htried⟩
    · exact tried_missed hle htried
  · obtain rfl := Option.some.inj hs
    rw [hset]
    exact tried_enterClamp _ _ htried.1 htried.2
  · -- clampSwap
    rename_i A c current
    split_ifs at hs with hsame <;> obtain rfl := Option.some.inj hs <;> rw [hset]
    · obtain ⟨rfl, -⟩ := hsame
      obtain ⟨rfl, -⟩ := hholds
      have hroom := (h.cap A.target).roomy
      have hlt : s.cap A.target < 2 ^ 32 := by
        unfold Roomy at hroom
        omega
      obtain ⟨-, hcap, hpos⟩ := unpack_packState hlt hlt
      refine Tried.mono (tried_missed htried.1 htried.2) (filled_setEnqueuePos (l := s.claims) ?_)
      intro _
      exact (hcap.trans hpos.symm).le
    · exact tried_enterClamp _ _ htried.1 htried.2
  · obtain rfl := Option.some.inj hs
    rw [hset]
    exact htried
  all_goals
    obtain rfl := Option.some.inj hs
    rw [hset]
    trivial

/-- While a producer is alone, no one else is in a call and the segments it has passed are filled. -/
theorem Alone.tried (h : Alone (Action.OfProducer t) s₀ s) (hquiet : Quiet s₀)
    (h₀ : Shape s₀ ∧ Ledger.Balanced (view s₀)) :
    (∀ u, u ≠ t → s.producers u = .idle) ∧ s.consumer = .idle ∧ Tried s (s.producers t) := by
  refine Machine.run_induction (I := fun s => (∀ u, u ≠ t → s.producers u = .idle)
    ∧ s.consumer = .idle ∧ Tried s (s.producers t)) (fun s hs => ?_) (fun s s' act hr ih hg hs => ?_) h
  · obtain rfl : s = s₀ := hs
    refine ⟨fun u _ => hquiet.producers u, hquiet.consumer, ?_⟩
    rw [hquiet.producers]
    trivial
  · obtain ⟨hothers, hcon, htried⟩ := ih
    obtain ⟨hshape, hL⟩ := Alone.sound hr h₀
    cases act with
    | pop => exact hg.2.elim
    | consume space => exact hg.2.elim
    | push u value =>
      obtain rfl : u = t := hg.2
      simp only [machine, GrowableRingQueue.step] at hs
      split at hs
      · obtain rfl := Option.some.inj hs
        refine ⟨fun v hv => (update_of_ne hv _ s.producers).trans (hothers v hv), hcon, ?_⟩
        show Tried _ (update s.producers u _ u)
        rw [update_self]
        trivial
      · cases hs
    | produce u spurious =>
      obtain rfl : u = t := hg.2
      obtain ⟨hframe, hcon', -⟩ := stepProducer_frame hs
      exact ⟨fun v hv => (hframe v hv).trans (hothers v hv), hcon'.trans hcon, htried.step hshape hs⟩

/-- A producer alone is refused only where every segment has an element in it. -/
theorem Alone.full (h : Alone (Action.OfProducer t) s₀ s) (hquiet : Quiet s₀)
    (h₀ : Shape s₀ ∧ Ledger.Balanced (view s₀)) (hret : s.producers t = .ret false) (k : P.Index) :
    ∃ c ∈ s.pushed, c ∉ s.popped ∧ c.segment = k := by
  obtain ⟨hothers, hcon, htried⟩ := h.tried hquiet h₀
  obtain ⟨hshape, hL⟩ := h.sound h₀
  rw [hret] at htried
  have hphase := hshape.phase
  rw [hcon] at hphase
  exact holds_of_filled hL hothers (congrArg Producer.claim? hret) (hphase k) (htried k)

end Producer

end MinStd.GrowableRingQueue
