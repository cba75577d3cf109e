import MinStd.Proofs.GrowableRingShape

/-!
# What the consumer keeps

Where the consumer regrows a segment, everything claimed in it has been emptied, so no producer is at
it, and the buffer freed or filled anew is no one's (`Shape.stepConsumer`).
-/

namespace MinStd.GrowableRingQueue

open Function

variable {P : Params} {τ ε : Type*}

/-- What the consumer has half done is to the given segment. -/
def Consumer.At (k : P.Index) (q : Consumer P) : Prop :=
  ∀ j, j ≠ k → ¬ q.Installs j ∧ ¬ q.Opens j ∧ ¬ q.Clears j

/-- The consumer is between two attempts. -/
def Consumer.Clear (q : Consumer P) : Prop := ∀ j, ¬ q.Installs j ∧ ¬ q.Opens j ∧ ¬ q.Clears j

section Frames

variable {s s' : State P τ ε} {k : P.Index} {q : Consumer P}

theorem setSegment_self (s : State P τ ε) (k : P.Index) (seg : Segment) :
    (s.setSegment k seg).segments k = seg := by
  show update s.segments k seg k = seg
  rw [update_self]

theorem setSegment_of_ne (s : State P τ ε) {j k : P.Index} (seg : Segment) (hj : j ≠ k) :
    (s.setSegment k seg).segments j = s.segments j := by
  show update s.segments k seg j = s.segments j
  rw [update_of_ne hj]

theorem cap_of_eq {j : P.Index} (h : s'.segments j = s.segments j) : s'.cap j = s.cap j := by
  unfold State.cap
  rw [h]

theorem Steady.of_eq {j : P.Index} (h : Steady s j) (heq : s'.segments j = s.segments j) :
    Steady s' j :=
  h.congr (by rw [heq]) (cap_of_eq heq) (by rw [heq]) (by rw [heq])

variable [Fintype τ]

/-- The consumer goes on, having read. -/
theorem Shape.goTo (h : Shape s) (hinstalls : ∀ j, s.consumer.Installs j → q.Installs j)
    (hopens : ∀ j, s.consumer.Opens j → q.Opens j)
    (hclears : ∀ j, s.consumer.Clears j → q.Clears j) (hphase : Phase s q) : Shape (s.goTo q) := by
  refine ⟨h.word_lt, h.cap, h.original, h.clamp, h.buffers, fun j hj => ?_, fun j hj => ?_,
    fun j i hi hr => ?_, fun t => (h.holds t).congr (fun _ _ => rfl) fun _ _ => rfl, ?_⟩
  · exact h.allocated j (mt (hinstalls j) hj)
  · exact h.fits j (mt (hopens j) hj)
  · exact (h.filled j i hi hr).imp_right fun hc => ⟨hclears j hc.1, hc.2⟩
  · exact hphase.keep (fun _ => rfl) (fun _ => rfl) (fun _ => rfl) (fun _ => rfl) (fun _ => rfl)
      (fun _ => rfl) rfl (fun _ => id) (fun _ _ _ => rfl) fun _ _ _ _ _ _ => rfl

theorem Shape.goTo_clear (h : Shape s) (hclear : s.consumer.Clear) (hphase : Phase s q) :
    Shape (s.goTo q) :=
  h.goTo (fun j hj => absurd hj (hclear j).1) (fun j hj => absurd hj (hclear j).2.1)
    (fun j hj => absurd hj (hclear j).2.2) hphase

open Classical in
/-- The consumer changes one segment. -/
theorem Shape.consume (h : Shape s) (hat : s.consumer.At k) (hproducers : s'.producers = s.producers)
    (hother : ∀ j, j ≠ k → s'.segments j = s.segments j)
    (hslot : ∀ j, j ≠ k → ∀ i, s'.slot j i = s.slot j i)
    (hword : (s'.segments k).enqueue_pos < SIZES) (hcap : Fits τ (s'.cap k))
    (horiginal : Fits τ (s'.segments k).original_capacity)
    (hclamp : s'.pos k ≤ s'.cap k + POSITION_CLAMP_DISTANCE ∨ s'.pos k = s.pos k ∧ s'.cap k = s.cap k)
    (hbuffer : ∀ j, j ≠ k → (s.segments j).buffer ≠ (s'.segments k).buffer)
    (hallocated : ∀ j, j ≠ k → (s.segments j).buffer ∈ s'.allocated)
    (hown : ¬ s'.consumer.Installs k → (s'.segments k).buffer ∈ s'.allocated)
    (hfits : ¬ s'.consumer.Opens k → s'.cap k ≤ (s'.segments k).original_capacity)
    (hfilled : ∀ i < (s'.segments k).original_capacity, (s'.slot k i).ready = true →
      (s'.slot k i).element ≠ none ∨ s'.consumer.Clears k ∧ i = (s'.segments k).dequeue_state)
    (hclaims : ∀ t, ∀ c ∈ (s.producers t).claim?, c.segment = k →
      (s'.segments k).buffer = (s.segments k).buffer
        ∧ (s'.slot k c.index).element = (s.slot k c.index).element)
    (hphase : Phase s' s'.consumer) : Shape s' := by
  refine ⟨fun j => ?_, fun j => ?_, fun j => ?_, fun j => ?_, fun i j hij => ?_, fun j hj => ?_,
    fun j hj => ?_, fun j => ?_, fun t => ?_, hphase⟩
  · rcases eq_or_ne j k with rfl | hne
    · exact hword
    · rw [hother j hne]
      exact h.word_lt j
  · rcases eq_or_ne j k with rfl | hne
    · exact hcap
    · rw [cap_of_eq (hother j hne)]
      exact h.cap j
  · rcases eq_or_ne j k with rfl | hne
    · exact horiginal
    · rw [hother j hne]
      exact h.original j
  · have hold := h.clamp j
    rw [hproducers]
    rcases eq_or_ne j k with rfl | hne
    · rcases hclamp with hclamp | ⟨hpos, hcap⟩
      · exact hclamp.trans (Nat.le_add_right _ _)
      · rw [hpos, hcap]
        exact hold
    · unfold State.pos at *
      rw [cap_of_eq (hother j hne), hother j hne]
      exact hold
  · replace hij : (s'.segments i).buffer = (s'.segments j).buffer := hij
    rcases eq_or_ne i k with rfl | hi <;> rcases eq_or_ne j i with rfl | hj
    · rfl
    · rw [hother j hj] at hij
      exact absurd hij.symm (hbuffer j hj)
    · rfl
    · rcases eq_or_ne j k with rfl | hjk
      · rw [hother i hi] at hij
        exact absurd hij (hbuffer i hi)
      · rw [hother i hi, hother j hjk] at hij
        exact h.buffers hij
  · rcases eq_or_ne j k with rfl | hne
    · exact hown hj
    · rw [hother j hne]
      exact hallocated j hne
  · rcases eq_or_ne j k with rfl | hne
    · exact hfits hj
    · rw [cap_of_eq (hother j hne), hother j hne]
      exact h.fits j (hat j hne).2.1
  · rcases eq_or_ne j k with rfl | hne
    · exact hfilled
    · intro i hi hr
      rw [hother j hne] at hi
      rw [hslot j hne] at hr ⊢
      exact .inl ((h.filled j i hi hr).resolve_right fun hc => (hat j hne).2.2 hc.1)
  · rw [hproducers]
    refine (h.holds t).congr (fun c hc => ?_) fun c hc => ?_
    · by_cases hk : c.segment = k
      · rw [hk]
        exact (hclaims t c hc hk).1
      · rw [hother _ hk]
    · by_cases hk : c.segment = k
      · rw [hk]
        exact (hclaims t c hc hk).2
      · rw [hslot _ hk]

/-- The consumer goes on in a segment whose word and buffer it leaves. -/
theorem Shape.advance (h : Shape s) (hat : s.consumer.At k)
    (hopens : s.consumer.Opens k → s'.consumer.Opens k) (hproducers : s'.producers = s.producers)
    (hother : ∀ j, j ≠ k → s'.segments j = s.segments j)
    (hslot : ∀ j, j ≠ k → ∀ i, s'.slot j i = s.slot j i)
    (hword : (s'.segments k).enqueue_pos = (s.segments k).enqueue_pos)
    (horiginal : (s'.segments k).original_capacity = (s.segments k).original_capacity)
    (hbuffer : (s'.segments k).buffer = (s.segments k).buffer)
    (hallocated : ∀ j, j ≠ k → (s.segments j).buffer ∈ s'.allocated)
    (hown : ¬ s'.consumer.Installs k → (s.segments k).buffer ∈ s'.allocated)
    (hfilled : ∀ i < (s.segments k).original_capacity, (s'.slot k i).ready = true →
      (s'.slot k i).element ≠ none ∨ s'.consumer.Clears k ∧ i = (s'.segments k).dequeue_state)
    (hclaims : ∀ t, ∀ c ∈ (s.producers t).claim?, c.segment = k →
      (s'.slot k c.index).element = (s.slot k c.index).element)
    (hphase : Phase s' s'.consumer) : Shape s' := by
  have hcap : s'.cap k = s.cap k := by
    unfold State.cap
    rw [hword]
  have hpos : s'.pos k = s.pos k := by
    unfold State.pos
    rw [hword]
  refine h.consume hat hproducers hother hslot ?_ ?_ ?_ (.inr ⟨hpos, hcap⟩) ?_ hallocated ?_ ?_ ?_
    (fun t c hc hk => ⟨hbuffer, hclaims t c hc hk⟩) hphase
  · rw [hword]
    exact h.word_lt k
  · rw [hcap]
    exact h.cap k
  · rw [horiginal]
    exact h.original k
  · rw [hbuffer]
    exact fun j hj hb => hj (h.buffers hb)
  · rw [hbuffer]
    exact hown
  · rw [hcap, horiginal]
    exact fun hopen => h.fits k (mt hopens hopen)
  · rw [horiginal]
    exact hfilled

/-- A producer has claimed no slot of a segment that is emptied to its capacity. -/
theorem Shape.no_claim (h : Shape s) (hL : Ledger.Balanced (view s))
    (htaken : (s.segments k).taken = s.cap k) {t : τ} {c : Push P τ ε}
    (hc : (s.producers t).claim? = some c) : c.segment ≠ k := by
  rintro rfl
  obtain ⟨hle, hlt, -⟩ := claim_lt h hL hc
  omega

omit [Fintype τ] in
theorem newCapacity_pos (s : State P τ ε) (k : P.Index) : 1 ≤ newCapacity s k := by
  have hmax := P.max_ge
  unfold newCapacity Params.computeShrunkCapacity Params.computeNewCapacity
  split_ifs <;> omega

end Frames

section Steps

variable [Fintype τ] {s s' : State P τ ε} {k : P.Index} {a : ℕ} {after : Option ℕ}

/-- A slot of the segment the consumer is at is written. -/
theorem Shape.setFront (h : Shape s) {x : Slot P τ ε} (hslots : s'.slots = (s.setFront k x).slots)
    (hbuffer : ∀ j, (s'.segments j).buffer = (s.segments j).buffer) (j : P.Index) (i : ℕ) :
    s'.slot j i = if j = k ∧ i = (s.segments k).dequeue_state then x else s.slot j i := by
  rw [← h.setSlot]
  unfold State.slot
  rw [hbuffer, hslots]
  rfl

/-- The consumer takes the element it has found. -/
theorem Shape.take (h : Shape s) (hL : Ledger.Balanced (view s)) (hq : s.consumer = .take k a)
    (hs : stepPop s = some s') : Shape s' := by
  simp only [stepPop, hq] at hs
  replace hs := Option.some.inj hs
  have hphase := h.phase
  rw [hq] at hphase
  obtain ⟨hall, hready⟩ := hphase
  have hk : s'.segments k = { s.segments k with taken := (s.segments k).taken + 1 } := by
    rw [← hs]
    exact setSegment_self _ k _
  have hother : ∀ j, j ≠ k → s'.segments j = s.segments j := fun j hj => by
    rw [← hs]
    exact setSegment_of_ne _ _ hj
  have hbuffer : ∀ j, (s'.segments j).buffer = (s.segments j).buffer := fun j => by
    rcases eq_or_ne j k with rfl | hj
    · rw [hk]
    · rw [hother j hj]
  have hslot := h.setFront (x := { s.front k with element := none }) (by rw [← hs]; rfl) hbuffer
  have hcon : s'.consumer = .clearReady k a := by
    rw [← hs]
    rfl
  have hallocated : s'.allocated = s.allocated := by
    rw [← hs]
    rfl
  have hcap : s'.cap k = s.cap k := by
    unfold State.cap
    rw [hk]
  have hin : ∀ j, (s.segments j).buffer ∈ s.allocated := fun j => h.allocated j (by rw [hq]; exact id)
  refine h.advance (k := k) (by rw [hq]; exact fun _ _ => ⟨id, id, id⟩) (by rw [hq]; exact False.elim)
    (by rw [← hs]; rfl) hother (fun j hj i => by rw [hslot, if_neg fun hand => hj hand.1])
    (by rw [hk]) (by rw [hk]) (hbuffer k) (fun j _ => by rw [hallocated]; exact hin j)
    (fun _ => by rw [hallocated]; exact hin k) (fun i hi hr => ?_) ?_ ?_
  · rw [hk]
    rw [hslot] at hr ⊢
    split_ifs at hr ⊢ with hplace
    · rw [hcon]
      exact .inr ⟨rfl, hplace.2⟩
    · refine .inl ((h.filled k i hi hr).resolve_right ?_)
      rw [hq]
      exact fun hc => hc.1
  · rintro t c hc rfl
    rw [hslot, if_neg]
    rintro ⟨-, hi⟩
    have hnot := (claim_lt h hL hc).2.2.2
    rw [hi] at hnot
    exact Bool.false_ne_true (hnot.symm.trans hready)
  · rw [hcon]
    refine ⟨fun j hj => (hall j).of_eq (hother j hj), ?_, ?_, ?_, ?_⟩
    · rw [hcap, hk]
      exact (hall k).capacity
    · rw [hk]
      show _ + 1 = _ + 1
      rw [(hall k).dequeue]
    · rw [hcap, hk]
      exact (hall k).lt
    · show (s'.slot k (s'.segments k).dequeue_state).element = none
      rw [hslot, hk, if_pos ⟨rfl, rfl⟩]

/-- The slot emptied is not ready any more, and the consumer goes on to the next. -/
theorem Shape.clearFront (h : Shape s) (hL : Ledger.Balanced (view s))
    (hq : s.consumer = .clearReady k a)
    (hslots : s'.slots = (clearFront s k).slots) (hsegments : s'.segments = (clearFront s k).segments)
    (hproducers : s'.producers = s.producers) (hallocated : s'.allocated = s.allocated)
    (hphase : (∀ j, j ≠ k → Steady s' j) → (s'.segments k).capacity = s'.cap k →
      (s'.segments k).dequeue_state = (s'.segments k).taken → (s'.segments k).taken ≤ s'.cap k →
      Phase s' s'.consumer) : Shape s' := by
  have hold := h.phase
  rw [hq] at hold
  obtain ⟨hall, hcapacity, htaken, hle, hnone⟩ := hold
  have hk : s'.segments k
      = { s.segments k with dequeue_state := (s.segments k).dequeue_state + 1 } := by
    rw [hsegments]
    exact setSegment_self _ k _
  have hother : ∀ j, j ≠ k → s'.segments j = s.segments j := fun j hj => by
    rw [hsegments]
    exact setSegment_of_ne _ _ hj
  have hbuffer : ∀ j, (s'.segments j).buffer = (s.segments j).buffer := fun j => by
    rcases eq_or_ne j k with rfl | hj
    · rw [hk]
    · rw [hother j hj]
  have hslot := h.setFront hslots hbuffer
  have hcap : s'.cap k = s.cap k := by
    unfold State.cap
    rw [hk]
  have hin : ∀ j, (s.segments j).buffer ∈ s.allocated := fun j => h.allocated j (by rw [hq]; exact id)
  refine h.advance (k := k) (by rw [hq]; exact fun j hj => ⟨id, id, fun hc => hj hc.symm⟩)
    (by rw [hq]; exact False.elim) hproducers hother
    (fun j hj i => by rw [hslot, if_neg fun hand => hj hand.1]) (by rw [hk]) (by rw [hk]) (hbuffer k)
    (fun j _ => by rw [hallocated]; exact hin j) (fun _ => by rw [hallocated]; exact hin k)
    (fun i hi hr => ?_) ?_ (hphase (fun j hj => (hall j hj).of_eq (hother j hj)) ?_ ?_ ?_)
  · rw [hslot] at hr ⊢
    split_ifs at hr ⊢ with hplace
    refine .inl ((h.filled k i hi hr).resolve_right ?_)
    exact fun hc => hplace ⟨rfl, hc.2⟩
  · rintro t c hc rfl
    rw [hslot, if_neg]
    rintro ⟨-, hi⟩
    have hnext := (claim_lt h hL hc).1
    omega
  · rw [hcap, hk]
    exact hcapacity
  · rw [hk]
    exact htaken.symm
  · rw [hcap, hk]
    exact hle

/-- The consumer's step in `try_pop_from`. -/
theorem Shape.stepPop (h : Shape s) (hL : Ledger.Balanced (view s)) (hs : stepPop s = some s') :
    Shape s' := by
  have hphase := h.phase
  have hclear : ∀ q : Consumer P, s.consumer = q → q.Clear → s.consumer.Clear := by
    rintro _ rfl
    exact id
  cases hq : s.consumer <;> simp only [GrowableRingQueue.stepPop, hq, reduceCtorEq] at hs <;>
    rw [hq] at hphase
  case tryPop k a =>
    obtain rfl := Option.some.inj hs
    refine h.goTo_clear (hclear _ hq fun _ => ⟨id, id, id⟩) ?_
    split_ifs <;> exact hphase
  case loadReady k a =>
    obtain rfl := Option.some.inj hs
    refine h.goTo_clear (hclear _ hq fun _ => ⟨id, id, id⟩) ?_
    split_ifs with hready
    · exact ⟨hphase, hready⟩
    · exact hphase
  case take k a => exact h.take hL hq (by simp only [GrowableRingQueue.stepPop, hq, hs])
  case clearReady k a =>
    split_ifs at hs with hlast <;> obtain rfl := Option.some.inj hs
    · refine h.clearFront hL hq rfl rfl rfl rfl fun hall hcapacity hdequeue _ => ?_
      refine ⟨hall, hcapacity, hdequeue, ?_⟩
      rw [← hdequeue, ← hcapacity]
      show ((GrowableRingQueue.clearFront s k).segments k).dequeue_state
        = ((GrowableRingQueue.clearFront s k).segments k).capacity
      unfold GrowableRingQueue.clearFront
      rw [setSegment_self]
      exact hlast
    · refine h.clearFront hL hq rfl rfl rfl rfl fun hall hcapacity hdequeue hle => ?_
      have hsteady : ∀ j, Steady (finishPop (GrowableRingQueue.clearFront s k) k a) j := fun j => by
        by_cases hj : j = k
        · subst hj
          refine ⟨hcapacity, hdequeue, lt_of_le_of_ne hle fun heq => hlast ?_⟩
          rw [← hdequeue, ← hcapacity] at heq
          replace heq : ((GrowableRingQueue.clearFront s j).segments j).dequeue_state
            = ((GrowableRingQueue.clearFront s j).segments j).capacity := heq
          unfold GrowableRingQueue.clearFront at heq
          rw [setSegment_self] at heq
          exact heq
        · exact hall j hj
      show Phase _ (if _ then _ else _)
      split_ifs <;> exact hsteady

/-- Whether the consumer goes on with the pop or returns, it is between two attempts. -/
theorem finishRetire_eq (s : State P τ ε) (k : P.Index) (after : Option ℕ) :
    (finishRetire s k after).segments = s.segments ∧ (finishRetire s k after).slots = s.slots
      ∧ (finishRetire s k after).producers = s.producers
      ∧ (finishRetire s k after).allocated = s.allocated
      ∧ (finishRetire s k after).consumer.Clear
      ∧ ((∀ j, Steady (finishRetire s k after) j) →
        Phase (finishRetire s k after) (finishRetire s k after).consumer) := by
  cases after with
  | none => exact ⟨rfl, rfl, rfl, rfl, fun _ => ⟨id, id, id⟩, id⟩
  | some a =>
    refine ⟨rfl, rfl, rfl, rfl, ?_, ?_⟩
    · show Consumer.Clear (if _ then _ else _)
      split_ifs <;> exact fun _ => ⟨id, id, id⟩
    · show _ → Phase _ (if _ then _ else _)
      split_ifs <;> exact id

/-- The consumer allocates a buffer or frees one. -/
theorem Shape.allocate (h : Shape s) {l : List ℕ} {q : Consumer P} (hat : s.consumer.At k)
    (hnone : ¬ s.consumer.Opens k ∧ ¬ s.consumer.Clears k)
    (hall : ∀ j, j ≠ k → (s.segments j).buffer ∈ l)
    (hown : ¬ q.Installs k → (s.segments k).buffer ∈ l)
    (hphase : Phase ({ s with allocated := l }.goTo q) q) :
    Shape ({ s with allocated := l }.goTo q) :=
  h.advance (k := k) hat (fun ho => absurd ho hnone.1) rfl (fun _ _ => rfl) (fun _ _ _ => rfl) rfl rfl
    rfl hall hown (fun i hi hr => .inl ((h.filled k i hi hr).resolve_right fun hc => hnone.2 hc.1))
    (fun _ _ _ _ => rfl) hphase

/-- A segment is given a buffer. -/
theorem Shape.install (h : Shape s) (hL : Ledger.Balanced (view s)) {b n : ℕ}
    (hq : s.consumer = .install k b n after) :
    Shape (({ s with slots := constructSlots s.slots b n }.setSegment k
      { s.segments k with
        buffer := b, original_capacity := n, capacity := n, dequeue_state := 0 }).goTo
      (.opening k n after)) := by
  have hphase := h.phase
  rw [hq] at hphase
  obtain ⟨hall, hdrained, hb, hapart, hfits⟩ := hphase
  generalize hs : (({ s with slots := constructSlots s.slots b n }.setSegment k
    { s.segments k with
      buffer := b, original_capacity := n, capacity := n, dequeue_state := 0 }).goTo
    (.opening k n after)) = s'
  have hk : s'.segments k = { s.segments k with
      buffer := b, original_capacity := n, capacity := n, dequeue_state := 0 } := by
    rw [← hs]
    exact setSegment_self _ k _
  have hother : ∀ j, j ≠ k → s'.segments j = s.segments j := fun j hj => by
    rw [← hs]
    exact setSegment_of_ne _ _ hj
  have hcap : s'.cap k = s.cap k := by
    unfold State.cap
    rw [hk]
  have hcon : s'.consumer = .opening k n after := by
    rw [← hs]
    rfl
  have hallocated : s'.allocated = s.allocated := by
    rw [← hs]
    rfl
  have hslots : s'.slots = constructSlots s.slots b n := by
    rw [← hs]
    rfl
  have hfresh : ∀ i < n, s'.slot k i = ⟨false, none⟩ := fun i hi => by
    unfold State.slot
    rw [hk, hslots]
    show update s.slots b _ b i = _
    rw [update_self, if_pos hi]
  refine h.consume (k := k) ?_ (by rw [← hs]; rfl) hother (fun j hj i => ?_) ?_ ?_ ?_ ?_ ?_ ?_ ?_ ?_ ?_
    ?_ ?_
  · rw [hq]
    exact fun j hj => ⟨fun hi => hj hi.symm, id, id⟩
  · unfold State.slot
    rw [hother j hj, hslots]
    show update s.slots b _ _ i = _
    rw [update_of_ne (hapart j hj)]
  · rw [hk]
    exact h.word_lt k
  · rw [hcap]
    exact h.cap k
  · rw [hk]
    exact hfits
  · unfold State.pos
    rw [hcap, hk]
    exact .inr ⟨rfl, rfl⟩
  · rw [hk]
    exact hapart
  · rw [hallocated]
    exact fun j hj => h.allocated j (by rw [hq]; exact fun hi => hj hi.symm)
  · intro _
    rw [hk, hallocated]
    exact hb
  · rw [hcon]
    exact fun hopen => absurd rfl hopen
  · intro i hi hr
    rw [hk] at hi
    rw [hfresh i hi] at hr
    cases hr
  · exact fun t c hc hseg => absurd hseg (h.no_claim hL hdrained.eq hc)
  · rw [hcon]
    refine ⟨fun j hj => (hall j hj).of_eq (hother j hj), ?_, ?_, ?_, ?_, hfits, fun i hi => ?_⟩
    · rw [hk]
    · rw [hk]
    · rw [hk]
    · rw [hcap, hk]
      exact hdrained.eq
    · rw [hfresh i hi]

/-- A segment is opened with the buffer it has been given. -/
theorem Shape.opening (h : Shape s) (hL : Ledger.Balanced (view s)) {n : ℕ}
    (hq : s.consumer = .opening k n after) :
    Shape (finishRetire (s.setSegment k
      { s.segments k with
        enqueue_pos := packState n 0, life := (s.segments k).life + 1, taken := 0 }) k after) := by
  have hphase := h.phase
  rw [hq] at hphase
  obtain ⟨hall, hcapacity, horiginal, hdequeue, htaken, hfits, hempty⟩ := hphase
  obtain ⟨hsegments, hslots, hproducers, hallocated, hclear, hkeep⟩ := finishRetire_eq
    (s.setSegment k { s.segments k with
      enqueue_pos := packState n 0, life := (s.segments k).life + 1, taken := 0 }) k after
  generalize hs : finishRetire (s.setSegment k { s.segments k with
    enqueue_pos := packState n 0, life := (s.segments k).life + 1, taken := 0 }) k after = s' at *
  have hlt : n < 2 ^ 32 := by
    have hroom := hfits.roomy
    unfold Roomy at hroom
    omega
  obtain ⟨hw, hcap, hpos⟩ := unpack_packState hlt (show 0 < 2 ^ 32 by decide)
  have hk : s'.segments k = { s.segments k with
      enqueue_pos := packState n 0, life := (s.segments k).life + 1, taken := 0 } := by
    rw [hsegments]
    exact setSegment_self _ k _
  have hother : ∀ j, j ≠ k → s'.segments j = s.segments j := fun j hj => by
    rw [hsegments]
    exact setSegment_of_ne _ _ hj
  have hslot : ∀ j i, s'.slot j i = s.slot j i := fun j i => by
    unfold State.slot
    rw [hslots]
    rcases eq_or_ne j k with rfl | hj
    · rw [hk]
      rfl
    · rw [hother j hj]
      rfl
  have hcap' : s'.cap k = n := by
    unfold State.cap
    rw [hk]
    exact hcap
  have hin : ∀ j, (s.segments j).buffer ∈ s.allocated := fun j => h.allocated j (by rw [hq]; exact id)
  refine h.consume (k := k) ?_ hproducers hother (fun j _ => hslot j) ?_ ?_ ?_ ?_ ?_ ?_ ?_ ?_ ?_ ?_ ?_
  · rw [hq]
    exact fun j hj => ⟨id, fun ho => hj ho.symm, id⟩
  · rw [hk]
    exact hw
  · rw [hcap']
    exact hfits
  · rw [hk]
    exact h.original k
  · refine .inl ?_
    unfold State.pos
    rw [hk]
    exact hpos.trans_le (Nat.zero_le _)
  · rw [hk]
    exact fun j hj hb => hj (h.buffers hb)
  · rw [hallocated]
    exact fun j _ => hin j
  · intro _
    rw [hk, hallocated]
    exact hin k
  · intro _
    rw [hcap', hk]
    exact horiginal.ge
  · intro i hi hr
    rw [hk] at hi
    rw [hslot, hempty i (horiginal ▸ hi)] at hr
    cases hr
  · exact fun t c hc hseg => absurd hseg (h.no_claim hL htaken hc)
  · refine hkeep fun j => ?_
    rcases eq_or_ne j k with rfl | hj
    · refine ⟨?_, ?_, ?_⟩
      · rw [hcap', hk]
        exact hcapacity
      · rw [hk]
        exact hdequeue
      · rw [hcap', hk]
        exact hfits.pos
    · exact (hall j hj).of_eq (hother j hj)

/-- The consumer's step in `retire_and_grow`. -/
theorem Shape.stepRetire {space : Option ℕ} (h : Shape s) (hL : Ledger.Balanced (view s))
    (hroom : ∀ k after, s.consumer = .retire k after → space ≠ none → Roomy τ (newCapacity s k))
    (hs : stepRetire s space = some s') : Shape s' := by
  have hphase := h.phase
  cases hq : s.consumer <;> simp only [GrowableRingQueue.stepRetire, hq, reduceCtorEq] at hs <;>
    rw [hq] at hphase
  case retire k after =>
    obtain ⟨hall, hdrained⟩ := hphase
    have hin : ∀ j, (s.segments j).buffer ∈ s.allocated := fun j =>
      h.allocated j (by rw [hq]; exact id)
    have hat : s.consumer.At k := by
      rw [hq]
      exact fun _ _ => ⟨id, id, id⟩
    have hnone : ¬ s.consumer.Opens k ∧ ¬ s.consumer.Clears k := by
      rw [hq]
      exact ⟨id, id⟩
    have hsteady : ∀ {l q}, ∀ j, j ≠ k → Steady ({ s with allocated := l }.goTo q) j :=
      fun j hj => (hall j hj).of_eq rfl
    have hdrained' : ∀ {l q}, Drained ({ s with allocated := l }.goTo q) k :=
      hdrained.congr rfl rfl rfl rfl
    cases space with
    | none =>
      obtain rfl := Option.some.inj hs
      refine h.allocate (k := k) (l := s.allocated) hat hnone (fun j _ => hin j) (fun _ => hin k) ?_
      exact ⟨hsteady, hdrained', hin k, fun j hj hb => hj (h.buffers hb), h.original k⟩
    | some b =>
      dsimp only at hs
      split_ifs at hs with hb
      obtain rfl := Option.some.inj hs
      refine h.allocate (k := k) hat hnone (fun j _ => .tail b (hin j)) (fun _ => .tail b (hin k)) ?_
      refine ⟨hsteady, hdrained', .head _, fun j heq => hb (heq ▸ hin j), newCapacity_pos s k, ?_⟩
      exact hroom k after hq (Option.some_ne_none b)
  case free k b n after =>
    obtain ⟨hall, hdrained, hb, hapart, hfits⟩ := hphase
    obtain rfl := Option.some.inj hs
    have hin : ∀ j, (s.segments j).buffer ∈ s.allocated := fun j =>
      h.allocated j (by rw [hq]; exact id)
    refine h.allocate (k := k) (by rw [hq]; exact fun _ _ => ⟨id, id, id⟩)
      (by rw [hq]; exact ⟨id, id⟩) (fun j hj => ?_) (fun hown => absurd rfl hown) ?_
    · exact (List.mem_erase_of_ne fun hbuf => hj (h.buffers hbuf)).2 (hin j)
    · refine ⟨fun j hj => (hall j hj).of_eq rfl, hdrained.congr rfl rfl rfl rfl, ?_,
        fun j _ => hapart j, hfits⟩
      exact (List.mem_erase_of_ne (hapart k).symm).2 hb
  case install k b n after =>
    obtain rfl := Option.some.inj hs
    exact h.install hL hq
  case opening k n after =>
    obtain rfl := Option.some.inj hs
    exact h.opening hL hq

/-- A segment is closed at the position it has come to. -/
theorem Shape.close (h : Shape s) (hL : Ledger.Balanced (view s))
    (hq : s.consumer = .capState k (s.segments k).enqueue_pos) :
    Shape ((s.setEnqueuePos k (packState (s.pos k) (s.pos k))).goTo (.setCapacity k (s.pos k))) := by
  have hphase := h.phase
  rw [hq] at hphase
  obtain ⟨hall, hopen⟩ := hphase
  replace hopen : ¬ (s.pos k = 0 ∨ s.cap k ≤ s.pos k ∨ s.cap k ≤ s.pos k * 2) := hopen
  have hlt : s.pos k < s.cap k := by omega
  have hroom := (h.cap k).roomy
  have hfits : Fits τ (s.pos k) := by
    refine ⟨by omega, ?_⟩
    unfold Roomy at *
    omega
  have hsmall : s.pos k < 2 ^ 32 := by
    unfold Roomy at hroom
    omega
  obtain ⟨hw, hcap, hpos⟩ := unpack_packState hsmall hsmall
  generalize hs : (s.setEnqueuePos k (packState (s.pos k) (s.pos k))).goTo (.setCapacity k (s.pos k))
    = s'
  have hk : s'.segments k
      = { s.segments k with enqueue_pos := packState (s.pos k) (s.pos k) } := by
    rw [← hs]
    exact setSegment_self s k _
  have hother : ∀ j, j ≠ k → s'.segments j = s.segments j := fun j hj => by
    rw [← hs]
    exact setSegment_of_ne s _ hj
  have hslot : ∀ j i, s'.slot j i = s.slot j i := fun j i => by
    unfold State.slot
    rcases eq_or_ne j k with rfl | hj
    · rw [hk, ← hs]
      rfl
    · rw [hother j hj, ← hs]
      rfl
  have hcap' : s'.cap k = s.pos k := by
    unfold State.cap
    rw [hk]
    exact hcap
  have hallocated : s'.allocated = s.allocated := by
    rw [← hs]
    rfl
  have hcon : s'.consumer = .setCapacity k (s.pos k) := by
    rw [← hs]
    rfl
  have hin : ∀ j, (s.segments j).buffer ∈ s.allocated := fun j => h.allocated j (by rw [hq]; exact id)
  refine h.consume (k := k) ?_ (by rw [← hs]; rfl) hother (fun j _ => hslot j) ?_ ?_ ?_ ?_ ?_ ?_ ?_ ?_ ?_
    ?_ ?_
  · rw [hq]
    exact fun _ _ => ⟨id, id, id⟩
  · rw [hk]
    exact hw
  · rw [hcap']
    exact hfits
  · rw [hk]
    exact h.original k
  · refine .inl ?_
    rw [hcap']
    unfold State.pos at *
    rw [hk]
    exact hpos.trans_le (Nat.le_add_right _ _)
  · rw [hk]
    exact fun j hj hb => hj (h.buffers hb)
  · rw [hallocated]
    exact fun j _ => hin j
  · intro _
    rw [hk, hallocated]
    exact hin k
  · intro _
    rw [hcap', hk]
    exact hlt.le.trans (h.fits k (by rw [hq]; exact id))
  · intro i hi hr
    rw [hk] at hi
    rw [hslot] at hr ⊢
    refine .inl ((h.filled k i hi hr).resolve_right ?_)
    rw [hq]
    exact fun hc => hc.1
  · rintro t c - rfl
    rw [hk, hslot]
    exact ⟨rfl, rfl⟩
  · rw [hcon]
    refine ⟨fun j hj => (hall j).of_eq (hother j hj), hcap', ?_, ?_⟩
    · rw [hk]
      exact (hall k).dequeue
    · rw [hk]
      exact (hL.taken_le k).trans (Nat.min_le_left _ _)

/-- The segment closed has its new capacity. -/
theorem Shape.setCapacity (h : Shape s) {n : ℕ} (hq : s.consumer = .setCapacity k n) :
    Shape ((s.setSegment k { s.segments k with capacity := n }).goTo
      (if n ≤ (s.segments k).dequeue_state then .retire k none else .ret true)) := by
  have hphase := h.phase
  rw [hq] at hphase
  obtain ⟨hall, hcap, hdequeue, hle⟩ := hphase
  generalize hs : (s.setSegment k { s.segments k with capacity := n }).goTo
    (if n ≤ (s.segments k).dequeue_state then .retire k none else .ret true) = s'
  have hk : s'.segments k = { s.segments k with capacity := n } := by
    rw [← hs]
    exact setSegment_self s k _
  have hother : ∀ j, j ≠ k → s'.segments j = s.segments j := fun j hj => by
    rw [← hs]
    exact setSegment_of_ne s _ hj
  have hslot : ∀ j i, s'.slot j i = s.slot j i := fun j i => by
    unfold State.slot
    rcases eq_or_ne j k with rfl | hj
    · rw [hk, ← hs]
      rfl
    · rw [hother j hj, ← hs]
      rfl
  have hcap' : s'.cap k = n := by
    unfold State.cap
    rw [hk]
    exact hcap
  have hallocated : s'.allocated = s.allocated := by
    rw [← hs]
    rfl
  have hcon : s'.consumer
      = if n ≤ (s.segments k).dequeue_state then .retire k none else .ret true := by
    rw [← hs]
    rfl
  have hin : ∀ j, (s.segments j).buffer ∈ s.allocated := fun j => h.allocated j (by rw [hq]; exact id)
  refine h.advance (k := k) (by rw [hq]; exact fun _ _ => ⟨id, id, id⟩) (by rw [hq]; exact False.elim)
    (by rw [← hs]; rfl) hother (fun j _ => hslot j) (by rw [hk]) (by rw [hk]) (by rw [hk])
    (fun j _ => by rw [hallocated]; exact hin j) (fun _ => by rw [hallocated]; exact hin k)
    (fun i hi hr => ?_) (fun t c _ _ => by rw [hslot]) ?_
  · rw [hslot] at hr ⊢
    refine .inl ((h.filled k i hi hr).resolve_right ?_)
    rw [hq]
    exact fun hc => hc.1
  · have hothers : ∀ j, j ≠ k → Steady s' j := fun j hj => (hall j hj).of_eq (hother j hj)
    rw [hcon]
    split_ifs with hdone
    · refine ⟨hothers, ?_, ?_, ?_⟩
      · rw [hcap', hk]
      · rw [hk]
        exact hdequeue
      · rw [hcap', hk]
        show (s.segments k).taken = n
        omega
    · intro j
      rcases eq_or_ne j k with rfl | hj
      · refine ⟨?_, ?_, ?_⟩
        · rw [hcap', hk]
        · rw [hk]
          exact hdequeue
        · rw [hcap', hk]
          show (s.segments j).taken < n
          omega
      · exact hothers j hj

/-- The consumer's step in `maybe_shrink_active_segment`. -/
theorem Shape.stepShrink (h : Shape s) (hL : Ledger.Balanced (view s)) (hs : stepShrink s = some s') :
    Shape s' := by
  have hphase := h.phase
  have hclear : ∀ q : Consumer P, s.consumer = q → q.Clear → s.consumer.Clear := by
    rintro _ rfl
    exact id
  cases hq : s.consumer <;> simp only [GrowableRingQueue.stepShrink, hq, reduceCtorEq] at hs <;>
    rw [hq] at hphase
  case loadTarget =>
    obtain rfl := Option.some.inj hs
    exact h.goTo_clear (hclear _ hq fun _ => ⟨id, id, id⟩) hphase
  case loadState k =>
    obtain rfl := Option.some.inj hs
    refine h.goTo_clear (hclear _ hq fun _ => ⟨id, id, id⟩) ?_
    split_ifs with hkeep
    · exact hphase
    · exact ⟨hphase, hkeep⟩
  case capState k w =>
    split_ifs at hs with hsame <;> obtain rfl := Option.some.inj hs
    · subst hsame
      exact h.close hL hq
    · exact h.goTo_clear (hclear _ hq fun _ => ⟨id, id, id⟩) hphase.1
  case setCapacity k n =>
    obtain rfl := Option.some.inj hs
    exact h.setCapacity hq

/-- The consumer's step keeps the segments in order. -/
theorem Shape.stepConsumer {space : Option ℕ} (h : Shape s) (hL : Ledger.Balanced (view s))
    (hroom : ∀ k after, s.consumer = .retire k after → space ≠ none → Roomy τ (newCapacity s k))
    (hs : stepConsumer s space = some s') : Shape s' := by
  unfold GrowableRingQueue.stepConsumer at hs
  split at hs
  · cases hs
  · rename_i hq
    obtain rfl := Option.some.inj hs
    have hphase := h.phase
    rw [hq] at hphase
    exact h.goTo_clear (by rw [hq]; exact fun _ => ⟨id, id, id⟩) hphase
  · rcases Option.or_eq_some_iff.1 hs with hs | ⟨-, hs⟩
    · rcases Option.or_eq_some_iff.1 hs with hs | ⟨-, hs⟩
      · exact h.stepPop hL hs
      · exact h.stepRetire hL hroom hs
    · exact h.stepShrink hL hs

end Steps

end MinStd.GrowableRingQueue
