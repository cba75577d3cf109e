import MinStd.Proofs.GrowableRingConsumer

/-!
# The growable ring queue keeps an account of its slots

Each step is one event of the account or leaves it as it is (`moves_of_step`), so with the shape of
the segments the account stays balanced in every run (`sound_of_run`).
-/

namespace MinStd.GrowableRingQueue

open Function

variable {P : Params} {τ ε : Type*}

section Views

variable (s : State P τ ε)

theorem view_setProducer [DecidableEq τ] (t : τ) (p : Producer P τ ε) :
    view (s.setProducer t p) = { view s with
      flight := update (view s).flight t p.claim?, call := update (view s).call t p.call? } := by
  refine Ledger.ext rfl rfl rfl rfl (funext fun u => ?_) (funext fun u => ?_) rfl rfl rfl rfl
  · show (update s.producers t p u).claim? = update (view s).flight t p.claim? u
    rcases eq_or_ne u t with rfl | hu
    · rw [update_self, update_self]
    · rw [update_of_ne hu, update_of_ne hu]
      rfl
  · show (update s.producers t p u).call? = update (view s).call t p.call? u
    rcases eq_or_ne u t with rfl | hu
    · rw [update_self, update_self]
    · rw [update_of_ne hu, update_of_ne hu]
      rfl

variable {s}

theorem view_setEnqueuePos (k : P.Index) (w : ℕ) (l : List (Push P τ ε)) :
    view ({ s with claims := l }.setEnqueuePos k w) = { view s with
      used := update (view s).used k (min (unpackPos w) (unpackCapacity w)), claims := l } := by
  have hk : ({ s with claims := l }.setEnqueuePos k w).segments k
      = { s.segments k with enqueue_pos := w } := setSegment_self _ k _
  have hother : ∀ j, j ≠ k → ({ s with claims := l }.setEnqueuePos k w).segments j = s.segments j :=
    fun j hj => setSegment_of_ne _ _ hj
  refine Ledger.ext (funext fun j => ?_) (funext fun j => ?_) (funext fun j => ?_)
    (funext fun j => funext fun i => ?_) rfl rfl rfl rfl rfl rfl
  · show min (unpackPos _) (unpackCapacity _) = update (view s).used k _ j
    rcases eq_or_ne j k with rfl | hj
    · rw [hk, update_self]
    · rw [hother j hj, update_of_ne hj]
      rfl
  · show (({ s with claims := l }.setEnqueuePos k w).segments j).taken = (s.segments j).taken
    rcases eq_or_ne j k with rfl | hj
    · rw [hk]
    · rw [hother j hj]
  · show (({ s with claims := l }.setEnqueuePos k w).segments j).life = (s.segments j).life
    rcases eq_or_ne j k with rfl | hj
    · rw [hk]
    · rw [hother j hj]
  · unfold view State.slot
    dsimp only
    rcases eq_or_ne j k with rfl | hj
    · rw [hk]
      rfl
    · rw [hother j hj]
      rfl

theorem published_of_ready {k : P.Index} {i : ℕ} (hi : i < (s.segments k).original_capacity)
    (hready : (s.slot k i).ready = true) : (view s).published k i = (s.slot k i).element :=
  if_pos ⟨hi, hready⟩

theorem published_of_not_ready {k : P.Index} {i : ℕ} (hready : (s.slot k i).ready = false) :
    (view s).published k i = none :=
  if_neg fun hand => Bool.false_ne_true (hready.symm.trans hand.2)

/-- A segment goes on in its buffer and in its life. -/
theorem view_setSegment {k : P.Index} (seg : Segment)
    (hword : seg.enqueue_pos = (s.segments k).enqueue_pos)
    (hbuffer : seg.buffer = (s.segments k).buffer)
    (horiginal : seg.original_capacity = (s.segments k).original_capacity)
    (hlife : seg.life = (s.segments k).life) :
    view (s.setSegment k seg) = { view s with taken := update (view s).taken k seg.taken } := by
  have hother : ∀ j, j ≠ k → (s.setSegment k seg).segments j = s.segments j :=
    fun j hj => setSegment_of_ne _ _ hj
  refine Ledger.ext (funext fun j => ?_) (funext fun j => ?_) (funext fun j => ?_)
    (funext fun j => funext fun i => ?_) rfl rfl rfl rfl rfl rfl
  · unfold view State.cap State.pos
    dsimp only
    rcases eq_or_ne j k with rfl | hj
    · rw [setSegment_self, hword]
    · rw [hother j hj]
  · show ((s.setSegment k seg).segments j).taken = update (view s).taken k seg.taken j
    rcases eq_or_ne j k with rfl | hj
    · rw [setSegment_self, update_self]
    · rw [hother j hj, update_of_ne hj]
      rfl
  · show ((s.setSegment k seg).segments j).life = (s.segments j).life
    rcases eq_or_ne j k with rfl | hj
    · rw [setSegment_self, hlife]
    · rw [hother j hj]
  · unfold view State.slot
    dsimp only
    rcases eq_or_ne j k with rfl | hj
    · rw [setSegment_self, horiginal, hbuffer]
      rfl
    · rw [hother j hj]
      rfl

/-- A slot of a segment is written. -/
theorem view_setSlot [Fintype τ] (h : Shape s) {k : P.Index} {i : ℕ} (x : Slot P τ ε)
    (hi : i < (s.segments k).original_capacity) :
    view (s.setSlot (s.segments k).buffer i x) = { view s with
      published := update (view s).published k (update ((view s).published k) i
        (if x.ready = true then x.element else none)) } := by
  refine Ledger.ext rfl rfl rfl (funext fun j => funext fun n => ?_) rfl rfl rfl rfl rfl rfl
  show (if n < (s.segments j).original_capacity
    ∧ ((s.setSlot (s.segments k).buffer i x).slot j n).ready = true then
      ((s.setSlot (s.segments k).buffer i x).slot j n).element else none)
    = update (view s).published k (update ((view s).published k) i _) j n
  have hslot := h.setSlot k i x j n
  rcases eq_or_ne j k with rfl | hj
  · rw [update_self]
    rcases eq_or_ne n i with rfl | hn
    · rw [if_pos ⟨rfl, rfl⟩] at hslot
      rw [update_self, hslot]
      simp only [hi, true_and]
    · rw [if_neg fun hand => hn hand.2] at hslot
      rw [update_of_ne hn, hslot]
      rfl
  · rw [if_neg fun hand => hj hand.1] at hslot
    rw [update_of_ne hj, hslot]
    rfl

end Views

/-- The account stays as it is, or one event is entered. -/
def Moves [DecidableEq τ] (s s' : State P τ ε) : Prop :=
  view s' = view s ∨ ∃ e, (view s).step e = some (view s')

section Moves

variable [DecidableEq τ] {s s' s₁ : State P τ ε} {t : τ} {p : Producer P τ ε} {A : Attempt P ε}

theorem Moves.balanced (h : Moves s s') (hL : Ledger.Balanced (view s)) : Ledger.Balanced (view s') := by
  rcases h with heq | ⟨e, he⟩
  · rwa [heq]
  · exact hL.step he

theorem Moves.of_eq (heq : view s₁ = view s) (h : Moves s₁ s') : Moves s s' := by
  unfold Moves at *
  rwa [heq] at h

/-- A producer goes on with the same call or the same claim. -/
theorem view_goOn (hclaim : p.claim? = (s.producers t).claim?) (hcall : p.call? = (s.producers t).call?) :
    view (s.setProducer t p) = view s := by
  rw [view_setProducer, hclaim, hcall]
  exact Ledger.ext rfl rfl rfl rfl (update_eq_self t _) (update_eq_self t _) rfl rfl rfl rfl

theorem moves_missed (hclaim : (s.producers t).claim? = none)
    (hcall : (s.producers t).call? = some A.call) : Moves s (s.setProducer t (missed A)) := by
  rcases missed_cases (τ := τ) A with ⟨A', hA, hm⟩ | hm <;> rw [hm]
  · refine .inl (view_goOn hclaim.symm ?_)
    rw [hcall, ← hA]
    rfl
  · refine .inr ⟨.giveUp t, ?_⟩
    rw [view_setProducer]
    show ((s.producers t).call?).map _ = _
    rw [hcall]
    refine congrArg some (Ledger.ext rfl rfl rfl rfl ?_ rfl rfl rfl rfl rfl)
    exact (update_eq_self_iff.2 hclaim.symm).symm

theorem moves_enterClamp {c current : ℕ} (hclaim : (s.producers t).claim? = none)
    (hcall : (s.producers t).call? = some A.call) :
    Moves s (s.setProducer t (enterClamp A c current)) := by
  rcases enterClamp_cases (τ := τ) A c current with ⟨he, -⟩ | ⟨he, -⟩ <;> rw [he]
  · exact .inl (view_goOn hclaim.symm hcall.symm)
  · exact moves_missed hclaim hcall

variable [Fintype τ]

/-- A producer counts up a word. -/
theorem moves_claim (h : Shape s) (hp : s.producers t = .claim A) :
    Moves s (({ s with
      claims := s.claims ++ (claimed t (s.segments A.target).life A
        (s.segments A.target).enqueue_pos).claim?.toList }.setEnqueuePos A.target
      (((s.segments A.target).enqueue_pos + 1) % SIZES)).setProducer t
      (claimed t (s.segments A.target).life A (s.segments A.target).enqueue_pos)) := by
  have hclaim : (s.producers t).claim? = none := by
    rw [hp]
    rfl
  have hcall : (s.producers t).call? = some A.call := by
    rw [hp]
    rfl
  obtain ⟨hw, hcap, hpos⟩ := unpack_succ (h.word_lt A.target) (h.pos_lt hp)
  have hview := view_setEnqueuePos (s := s) A.target
    (((s.segments A.target).enqueue_pos + 1) % SIZES)
  rw [hpos, hcap] at hview
  rcases claimed_cases t (s.segments A.target).life A (s.segments A.target).enqueue_pos with
    ⟨hlt, hc⟩ | ⟨hle, hor⟩
  · refine .inr ⟨.claim t A.target A.value, ?_⟩
    rw [view_setProducer, hview, hc, Nat.min_eq_left (Nat.succ_le_of_lt hlt)]
    show ((s.producers t).call?).map _ = _
    rw [hcall]
    have hused : (view s).used A.target = s.pos A.target := Nat.min_eq_left hlt.le
    have hnext : (view s).next t A.call A.target A.value = ⟨t, A.value, A.call, A.target,
        (s.segments A.target).life, s.pos A.target⟩ := by
      unfold Ledger.next
      rw [hused]
      rfl
    refine congrArg some (Ledger.ext ?_ rfl rfl rfl ?_ rfl rfl ?_ rfl rfl)
    · show update (view s).used A.target ((view s).used A.target + 1) = _
      rw [hused]
      rfl
    · show update (view s).flight t (some ((view s).next t A.call A.target A.value)) = _
      rw [hnext]
      rfl
    · show s.claims ++ [(view s).next t A.call A.target A.value] = _
      rw [hnext]
      rfl
  · have hnone : (claimed t (s.segments A.target).life A (s.segments A.target).enqueue_pos).claim?
        = none := by
      rcases hor with hc | ⟨hc, -⟩ <;> rw [hc]
      · rfl
      · exact claim_missed A
    rw [hnone, Option.toList_none, List.append_nil]
    have heq : view ({ s with claims := s.claims }.setEnqueuePos A.target
        (((s.segments A.target).enqueue_pos + 1) % SIZES)) = view s := by
      rw [hview]
      refine Ledger.ext (update_eq_self_iff.2 ?_) rfl rfl rfl rfl rfl rfl rfl rfl rfl
      show _ = min (unpackPos _) (unpackCapacity _)
      rw [Nat.min_eq_right hle]
      exact Nat.min_eq_right (Nat.le_succ_of_le hle)
    refine Moves.of_eq heq ?_
    rcases hor with hc | ⟨hc, -⟩ <;> rw [hc]
    · exact .inl (view_goOn hclaim.symm hcall.symm)
    · exact moves_missed hclaim hcall

/-- A producer's step is one event of the account or none. -/
theorem moves_stepProducer {spurious : Bool} (h : Shape s) (hL : Ledger.Balanced (view s))
    (hs : stepProducer s t spurious = some s') : Moves s s' := by
  have hholds := h.holds t
  unfold stepProducer at hs
  split at hs <;> rename_i hp
  · cases hs
  · obtain rfl := Option.some.inj hs
    exact .inl (view_goOn (congrArg Producer.claim? hp).symm (congrArg Producer.call? hp).symm)
  · obtain rfl := Option.some.inj hs
    exact moves_claim h hp
  · obtain rfl := Option.some.inj hs
    exact moves_enterClamp (congrArg Producer.claim? hp) (congrArg Producer.call? hp)
  · -- clampSwap
    rename_i A c current
    rw [hp] at hholds
    split_ifs at hs with hsame <;> obtain rfl := Option.some.inj hs
    · obtain ⟨rfl, -⟩ := hsame
      obtain ⟨rfl, hle⟩ := hholds
      have hroom := (h.cap A.target).roomy
      have hlt : s.cap A.target < 2 ^ 32 := by
        unfold Roomy at hroom
        omega
      obtain ⟨-, hcap, hpos⟩ := unpack_packState hlt hlt
      have hview : view (s.setEnqueuePos A.target (packState (s.cap A.target) (s.cap A.target)))
          = view s := by
        refine (view_setEnqueuePos _ _ s.claims).trans ?_
        refine Ledger.ext (update_eq_self_iff.2 ?_) rfl rfl rfl rfl rfl rfl rfl rfl rfl
        rw [hpos, hcap, Nat.min_self]
        exact (Nat.min_eq_right hle).symm
      exact Moves.of_eq hview (moves_missed (congrArg Producer.claim? hp) (congrArg Producer.call? hp))
    · exact moves_enterClamp (congrArg Producer.claim? hp) (congrArg Producer.call? hp)
  · obtain rfl := Option.some.inj hs
    exact .inl (view_goOn (s := { s with producer_target := _ }) (congrArg Producer.claim? hp).symm
      (congrArg Producer.call? hp).symm)
  · obtain rfl := Option.some.inj hs
    exact .inl (view_goOn (congrArg Producer.claim? hp).symm (congrArg Producer.call? hp).symm)
  · -- construct
    rename_i c b
    have hc : (s.producers t).claim? = some c := by
      rw [hp]
      rfl
    rw [hp] at hholds
    obtain rfl : b = (s.segments c.segment).buffer := hholds
    obtain rfl := Option.some.inj hs
    obtain ⟨-, -, hlt, hready⟩ := claim_lt h hL hc
    have hkeep : ∀ x, view ((s.setSlot (s.segments c.segment).buffer c.index x).setProducer t
        (.readAgain c)) = view (s.setSlot (s.segments c.segment).buffer c.index x) := fun x =>
      view_goOn (congrArg Producer.claim? hp).symm (congrArg Producer.call? hp).symm
    refine .inl ((hkeep _).trans ?_)
    rw [view_setSlot h _ hlt]
    refine Ledger.ext rfl rfl rfl (update_eq_self_iff.2 (update_eq_self_iff.2 ?_)) rfl rfl rfl rfl rfl rfl
    rw [published_of_not_ready hready]
    exact if_neg fun htrue => Bool.false_ne_true (hready.symm.trans htrue)
  · obtain rfl := Option.some.inj hs
    exact .inl (view_goOn (congrArg Producer.claim? hp).symm (congrArg Producer.call? hp).symm)
  · -- publish
    rename_i c b
    have hc : (s.producers t).claim? = some c := by
      rw [hp]
      rfl
    rw [hp] at hholds
    obtain ⟨rfl, helement⟩ := hholds
    obtain rfl := Option.some.inj hs
    obtain ⟨-, -, hlt, -⟩ := claim_lt h hL hc
    refine .inr ⟨.publish t, ?_⟩
    rw [view_setProducer]
    show ((s.producers t).claim?).map _ = _
    rw [hc]
    have hview := view_setSlot h (i := c.index)
      { s.slots (s.segments c.segment).buffer c.index with ready := true } hlt
    have hpublished := congrArg Ledger.published hview
    dsimp only at hpublished
    rw [if_pos rfl] at hpublished
    refine congrArg some (Ledger.ext rfl rfl rfl ?_ rfl ?_ rfl rfl rfl rfl)
    · show update (view s).published c.segment
        (update ((view s).published c.segment) c.index (some c)) = _
      rw [← helement]
      exact hpublished.symm
    · refine (update_eq_self_iff.2 ?_).symm
      show none = (s.producers t).call?
      rw [hp]
      rfl
  · obtain rfl := Option.some.inj hs
    exact .inl (view_goOn (congrArg Producer.claim? hp).symm (congrArg Producer.call? hp).symm)

variable {k : P.Index} {a n : ℕ} {after : Option ℕ}

omit [DecidableEq τ] in
/-- A front slot found ready holds an element. -/
theorem Shape.front_some (h : Shape s) (hq : s.consumer = .take k a) :
    (s.segments k).dequeue_state < (s.segments k).original_capacity
      ∧ ∃ c, (s.front k).element = some c := by
  have hphase := h.phase
  rw [hq] at hphase
  obtain ⟨hall, hready⟩ := hphase
  have hlt : (s.segments k).dequeue_state < (s.segments k).original_capacity := by
    rw [(hall k).dequeue]
    exact (hall k).lt.trans_le (h.fits k (by rw [hq]; exact id))
  exact ⟨hlt, Option.ne_none_iff_exists'.1
    ((h.filled k _ hlt hready).resolve_right (by rw [hq]; exact fun hand => hand.1))⟩

/-- The front element of a segment, found ready, is taken. -/
theorem moves_take (h : Shape s) (hq : s.consumer = .take k a) :
    Moves s (({ s.setFront k { s.front k with element := none } with
      popped := s.popped ++ (s.front k).element.toList
      given := (s.front k).element.map Claim.value }.setSegment k
      { s.segments k with taken := (s.segments k).taken + 1 }).goTo (.clearReady k a)) := by
  have hphase := h.phase
  rw [hq] at hphase
  obtain ⟨hall, hready⟩ := hphase
  obtain ⟨hlt, c, hc⟩ := h.front_some hq
  replace hc : (s.slot k (s.segments k).dequeue_state).element = some c := hc
  have hdequeue : (view s).taken k = (s.segments k).dequeue_state := (hall k).dequeue.symm
  have hslot := view_setSlot h { s.front k with element := none } hlt
  dsimp only at hslot
  rw [ite_self] at hslot
  have hview := congrArg (fun L : Ledger P.Index τ ε => { L with
    taken := update L.taken k ((s.segments k).taken + 1)
    popped := L.popped ++ (s.front k).element.toList }) hslot
  refine .inr ⟨.pop k, ?_⟩
  show ((view s).published k ((view s).taken k)).map _ = _
  rw [hdequeue, published_of_ready hlt hready, hc]
  refine congrArg some ?_
  have htake := (view_setSegment (s := { s.setFront k { s.front k with element := none } with
    popped := s.popped ++ (s.front k).element.toList
    given := (s.front k).element.map Claim.value }) (k := k)
    { s.segments k with taken := (s.segments k).taken + 1 } rfl rfl rfl rfl).trans hview
  refine Eq.trans ?_ htake.symm
  refine Ledger.ext rfl ?_ rfl rfl rfl rfl rfl rfl rfl ?_
  · dsimp only
    rw [(hall k).dequeue]
  · show s.popped ++ [c] = s.popped ++ (s.slot k (s.segments k).dequeue_state).element.toList
    rw [hc]
    rfl

omit [DecidableEq τ] in
/-- The front slot of a segment, emptied, is not ready any more. -/
theorem view_clearFront (h : Shape s) (hq : s.consumer = .clearReady k a) :
    view (clearFront s k) = view s := by
  have hphase := h.phase
  rw [hq] at hphase
  obtain ⟨-, -, htaken, hle, hnone⟩ := hphase
  have hlt : (s.segments k).dequeue_state < (s.segments k).original_capacity := by
    have hfits := h.fits k (by rw [hq]; exact id)
    omega
  refine (view_setSegment (s := s.setFront k { s.front k with ready := false }) (k := k)
    { s.segments k with dequeue_state := (s.segments k).dequeue_state + 1 }
    rfl rfl rfl rfl).trans ?_
  have hslot := view_setSlot h { s.front k with ready := false } hlt
  dsimp only at hslot
  rw [if_neg Bool.false_ne_true] at hslot
  refine (congrArg (fun L : Ledger P.Index τ ε => { L with
    taken := update L.taken k (s.segments k).taken }) hslot).trans ?_
  refine Ledger.ext rfl (update_eq_self_iff.2 rfl) rfl
    (update_eq_self_iff.2 (update_eq_self_iff.2 ?_)) rfl rfl rfl rfl rfl rfl
  show none = if _ then (s.slot k (s.segments k).dequeue_state).element else none
  rw [show (s.slot k (s.segments k).dequeue_state).element = none from hnone, ite_self]

omit [DecidableEq τ] [Fintype τ] in
theorem view_finishRetire (s : State P τ ε) (k : P.Index) (after : Option ℕ) :
    view (finishRetire s k after) = view s := by
  cases after <;> rfl

omit [DecidableEq τ] [Fintype τ] in
/-- In a segment emptied to its capacity nothing is published. -/
theorem published_of_taken (hL : Ledger.Balanced (view s)) (htaken : (s.segments k).taken = s.cap k)
    (i : ℕ) : (view s).published k i = none := by
  by_contra hsome
  obtain ⟨c, hc⟩ := Option.ne_none_iff_exists'.1 hsome
  obtain ⟨hpushed, hnot, rfl, -⟩ := (hL.published_iff _ _ c).1 hc
  obtain ⟨-, hle, hlt⟩ := hL.present ((hL.pushed_iff c).1 hpushed).1 hnot
  replace hle : (s.segments c.segment).taken ≤ c.index := hle
  replace hlt : c.index < min (s.pos c.segment) (s.cap c.segment) := hlt
  omega

omit [DecidableEq τ] in
/-- A segment is given a buffer, in which nothing is published. -/
theorem view_install (h : Shape s) (hL : Ledger.Balanced (view s)) {b : ℕ}
    (hq : s.consumer = .install k b n after) :
    view ({ s with slots := constructSlots s.slots b n }.setSegment k
      { s.segments k with
        buffer := b, original_capacity := n, capacity := n, dequeue_state := 0 }) = view s := by
  have hphase := h.phase
  rw [hq] at hphase
  obtain ⟨-, hdrained, -, hapart, -⟩ := hphase
  generalize hs : { s with slots := constructSlots s.slots b n }.setSegment k
    { s.segments k with
      buffer := b, original_capacity := n, capacity := n, dequeue_state := 0 } = s'
  have hk : s'.segments k = { s.segments k with
      buffer := b, original_capacity := n, capacity := n, dequeue_state := 0 } := by
    rw [← hs]
    exact setSegment_self _ k _
  have hother : ∀ j, j ≠ k → s'.segments j = s.segments j := fun j hj => by
    rw [← hs]
    exact setSegment_of_ne _ _ hj
  have hslots : s'.slots = constructSlots s.slots b n := by
    rw [← hs]
    rfl
  refine Ledger.ext (funext fun j => ?_) (funext fun j => ?_) (funext fun j => ?_)
    (funext fun j => funext fun i => ?_) ?_ ?_ ?_ ?_ ?_ ?_
  · unfold view State.cap State.pos
    dsimp only
    rcases eq_or_ne j k with rfl | hj
    · rw [hk]
    · rw [hother j hj]
  · unfold view
    dsimp only
    rcases eq_or_ne j k with rfl | hj
    · rw [hk]
    · rw [hother j hj]
  · unfold view
    dsimp only
    rcases eq_or_ne j k with rfl | hj
    · rw [hk]
    · rw [hother j hj]
  · rcases eq_or_ne j k with rfl | hj
    · rw [published_of_taken hL hdrained.eq]
      refine if_neg fun ⟨hi, hready⟩ => ?_
      rw [hk] at hi
      unfold State.slot at hready
      rw [hk, hslots] at hready
      unfold constructSlots at hready
      rw [update_self, if_pos hi] at hready
      cases hready
    · unfold view State.slot
      dsimp only
      rw [hother j hj, hslots]
      unfold constructSlots
      rw [update_of_ne (hapart j hj)]
  all_goals rw [← hs]; rfl

/-- A segment all of which is emptied is opened. -/
theorem moves_opening (h : Shape s) (hL : Ledger.Balanced (view s))
    (hq : s.consumer = .opening k n after) :
    Moves s (finishRetire (s.setSegment k
      { s.segments k with
        enqueue_pos := packState n 0, life := (s.segments k).life + 1, taken := 0 }) k after) := by
  have hphase := h.phase
  rw [hq] at hphase
  obtain ⟨-, -, -, -, htaken, hfits, -⟩ := hphase
  have hroom := hfits.roomy
  obtain ⟨-, -, hpos⟩ := unpack_packState (show n < 2 ^ 32 by unfold Roomy at hroom; omega)
    (show 0 < 2 ^ 32 by decide)
  have hused : (view s).taken k = (view s).used k := by
    have hle : (s.segments k).taken ≤ min (s.pos k) (s.cap k) := hL.taken_le k
    show (s.segments k).taken = min (s.pos k) (s.cap k)
    omega
  refine .inr ⟨.reopen k, ?_⟩
  rw [view_finishRetire]
  show (if _ then _ else _) = _
  rw [if_pos hused]
  generalize hs : s.setSegment k { s.segments k with
    enqueue_pos := packState n 0, life := (s.segments k).life + 1, taken := 0 } = s'
  have hk : s'.segments k = { s.segments k with
      enqueue_pos := packState n 0, life := (s.segments k).life + 1, taken := 0 } := by
    rw [← hs]
    exact setSegment_self s k _
  have hother : ∀ j, j ≠ k → s'.segments j = s.segments j := fun j hj => by
    rw [← hs]
    exact setSegment_of_ne s _ hj
  have hslots : s'.slots = s.slots := by
    rw [← hs]
    rfl
  refine congrArg some (Ledger.ext (funext fun j => ?_) (funext fun j => ?_) (funext fun j => ?_)
    (funext fun j => funext fun i => ?_) ?_ ?_ ?_ ?_ ?_ ?_)
  · show update (view s).used k 0 j = min (unpackPos _) (unpackCapacity _)
    rcases eq_or_ne j k with rfl | hj
    · rw [update_self, hk]
      dsimp only
      rw [hpos, Nat.zero_min]
    · rw [update_of_ne hj, hother j hj]
      rfl
  · show update (view s).taken k 0 j = (s'.segments j).taken
    rcases eq_or_ne j k with rfl | hj
    · rw [update_self, hk]
    · rw [update_of_ne hj, hother j hj]
      rfl
  · show update (view s).life k ((view s).life k + 1) j = (s'.segments j).life
    rcases eq_or_ne j k with rfl | hj
    · rw [update_self, hk]
      rfl
    · rw [update_of_ne hj, hother j hj]
      rfl
  · unfold view State.slot
    dsimp only
    rcases eq_or_ne j k with rfl | hj
    · rw [hk, hslots]
    · rw [hother j hj, hslots]
  all_goals rw [← hs]; rfl

omit [DecidableEq τ] in
/-- A segment closed at the position it has come to has as many slots claimed. -/
theorem view_close (h : Shape s) (hq : s.consumer = .capState k (s.segments k).enqueue_pos) :
    view (s.setEnqueuePos k (packState (s.pos k) (s.pos k))) = view s := by
  have hphase := h.phase
  rw [hq] at hphase
  obtain ⟨-, hopen⟩ := hphase
  replace hopen : ¬ (s.pos k = 0 ∨ s.cap k ≤ s.pos k ∨ s.cap k ≤ s.pos k * 2) := hopen
  have hroom := (h.cap k).roomy
  have hsmall : s.pos k < 2 ^ 32 := by
    unfold Roomy at hroom
    omega
  obtain ⟨-, hcap, hpos⟩ := unpack_packState hsmall hsmall
  refine (view_setEnqueuePos k _ s.claims).trans ?_
  refine Ledger.ext (update_eq_self_iff.2 ?_) rfl rfl rfl rfl rfl rfl rfl rfl rfl
  show _ = min (s.pos k) (s.cap k)
  rw [hcap, hpos]
  omega

/-- A step of the consumer is one event of the account or none. -/
theorem moves_stepConsumer {space : Option ℕ} (h : Shape s) (hL : Ledger.Balanced (view s))
    (hs : stepConsumer s space = some s') : Moves s s' := by
  cases hq : s.consumer <;>
    simp only [stepConsumer, stepPop, stepRetire, stepShrink, hq, Option.or_none, Option.none_or,
      reduceCtorEq, Option.or_some] at hs
  case take k a =>
    obtain rfl := Option.some.inj hs
    exact moves_take h hq
  case clearReady k a =>
    refine .inl ?_
    split_ifs at hs with hlast
    · obtain rfl := Option.some.inj hs
      exact view_clearFront h hq
    · obtain rfl := Option.some.inj hs
      exact view_clearFront h hq
  case retire k after =>
    refine .inl ?_
    cases space with
    | none =>
      obtain rfl := Option.some.inj hs
      rfl
    | some b =>
      dsimp only at hs
      split_ifs at hs with hb
      obtain rfl := Option.some.inj hs
      rfl
  case install k b n after =>
    obtain rfl := Option.some.inj hs
    exact .inl (view_install h hL hq)
  case opening k n after =>
    obtain rfl := Option.some.inj hs
    exact moves_opening h hL hq
  case capState k w =>
    refine .inl ?_
    split_ifs at hs with hsame
    · obtain rfl := Option.some.inj hs
      subst hsame
      exact view_close h hq
    · obtain rfl := Option.some.inj hs
      rfl
  case setCapacity k n =>
    obtain rfl := Option.some.inj hs
    refine .inl ((view_setSegment (s := s) (k := k) { s.segments k with capacity := n }
      rfl rfl rfl rfl).trans ?_)
    exact Ledger.ext rfl (update_eq_self_iff.2 rfl) rfl rfl rfl rfl rfl rfl rfl rfl
  all_goals
    obtain rfl := Option.some.inj hs
    exact .inl rfl

/-- Each step is one event of the account or none. -/
theorem moves_of_step {act : Action τ ε} (h : Shape s) (hL : Ledger.Balanced (view s))
    (hs : step s act = some s') : Moves s s' := by
  cases act with
  | push t value =>
    simp only [step] at hs
    split at hs
    · rename_i hp
      obtain rfl := Option.some.inj hs
      refine .inr ⟨.start t, ?_⟩
      have hclaim : (view s).flight t = none := congrArg Producer.claim? hp
      have hcall : (view s).call t = none := congrArg Producer.call? hp
      simp only [Ledger.step, hclaim, hcall]
      refine congrArg some ?_
      rw [view_setProducer]
      exact Ledger.ext rfl rfl rfl rfl (update_eq_self_iff.2 hclaim.symm).symm rfl rfl rfl rfl rfl
    · cases hs
  | pop =>
    simp only [step] at hs
    split at hs
    · obtain rfl := Option.some.inj hs
      exact .inl rfl
    · cases hs
  | produce t spurious => exact moves_stepProducer h hL hs
  | consume space => exact moves_stepConsumer h hL hs

/-- Each step that has headroom keeps the segments in order. -/
theorem Shape.step {act : Action τ ε} (h : Shape s) (hL : Ledger.Balanced (view s))
    (hroom : Headroom s act) (hs : step s act = some s') : Shape s' := by
  cases act with
  | push t value =>
    simp only [GrowableRingQueue.step] at hs
    split at hs
    · rename_i hp
      obtain rfl := Option.some.inj hs
      exact h.goOn rfl rfl rfl rfl rfl (fun j hj => by rw [hp] at hj; exact hj.elim) trivial
    · cases hs
  | pop =>
    simp only [GrowableRingQueue.step] at hs
    split at hs
    · rename_i hq
      obtain rfl := Option.some.inj hs
      have hphase := h.phase
      rw [hq] at hphase
      have hnoted : Shape { s with before := s.popped.length } := by
        refine ⟨h.word_lt, h.cap, h.original, h.clamp, h.buffers, h.allocated, h.fits, h.filled,
          h.holds, ?_⟩
        rw [show ({ s with before := s.popped.length } : State P τ ε).consumer = .idle from hq]
        exact fun j => (hphase j).of_eq rfl
      exact hnoted.goTo_clear (by rw [hq]; exact fun _ => ⟨id, id, id⟩)
        fun j => (hphase j).of_eq rfl
    · cases hs
  | produce t spurious => exact h.stepProducer hL hs
  | consume space =>
    refine h.stepConsumer hL (fun k after hq hspace => ?_) hs
    cases space with
    | none => exact absurd rfl hspace
    | some b => exact hroom k after hq

omit [DecidableEq τ] in
/-- A new queue's segments are in order, and nothing is entered. -/
theorem start_shape (h : Start s) (hroomy : Roomy τ P.initial_capacity) :
    Shape s ∧ Ledger.Empty (view s) := by
  have hlt : P.initial_capacity < 2 ^ 32 := by
    unfold Roomy at hroomy
    omega
  obtain ⟨hw, hcap, hpos⟩ := unpack_packState hlt (show 0 < 2 ^ 32 by decide)
  have hfits : Fits τ P.initial_capacity := ⟨P.initial_ge, hroomy⟩
  have hseg : ∀ k, (s.segments k).enqueue_pos = packState P.initial_capacity 0
      ∧ (s.segments k).original_capacity = P.initial_capacity
      ∧ (s.segments k).capacity = P.initial_capacity ∧ (s.segments k).dequeue_state = 0
      ∧ (s.segments k).taken = 0 := fun k => by
    have hk := h.segments k
    rw [hk]
    exact ⟨rfl, rfl, rfl, rfl, rfl⟩
  have hcap' : ∀ k, s.cap k = P.initial_capacity := fun k => by
    unfold State.cap
    rw [(hseg k).1, hcap]
  have hpos' : ∀ k, s.pos k = 0 := fun k => by
    unfold State.pos
    rw [(hseg k).1, hpos]
  have hslot : ∀ k, ∀ i < (s.segments k).original_capacity, (s.slot k i).ready = false := by
    intro k i hi
    unfold State.slot
    rw [h.slots k i ((hseg k).2.1 ▸ hi)]
  constructor
  · refine ⟨fun k => ?_, fun k => ?_, fun k => ?_, fun k => ?_, h.buffers, fun k _ => ?_, fun k _ => ?_,
      fun k i hi hr => ?_, fun t => ?_, ?_⟩
    · rw [(hseg k).1]
      exact hw
    · rw [hcap']
      exact hfits
    · rw [(hseg k).2.1]
      exact hfits
    · rw [hpos']
      exact Nat.zero_le _
    · exact (h.allocated _).2 ⟨k, rfl⟩
    · rw [hcap', (hseg k).2.1]
    · exact absurd ((hslot k i hi).symm.trans hr) Bool.false_ne_true
    · rw [h.producers]
      trivial
    · rw [h.consumer]
      refine fun k => ⟨?_, ?_, ?_⟩
      · rw [hcap', (hseg k).2.2.1]
      · rw [(hseg k).2.2.2.1, (hseg k).2.2.2.2]
      · rw [hcap', (hseg k).2.2.2.2]
        exact P.initial_ge
  · refine ⟨fun k => ?_, fun k => (hseg k).2.2.2.2, fun k i => ?_, fun t => ?_, fun t => ?_, h.claims,
      h.pushed, h.popped⟩
    · show min (s.pos k) (s.cap k) = 0
      rw [hpos', Nat.zero_min]
    · exact if_neg fun ⟨hi, hr⟩ => Bool.false_ne_true ((hslot k i hi).symm.trans hr)
    · show (s.producers t).claim? = none
      rw [h.producers]
      rfl
    · show (s.producers t).call? = none
      rw [h.producers]
      rfl

/-- In every run with headroom the segments are in order and the account is balanced. -/
theorem sound_of_run (hroomy : Roomy τ P.initial_capacity)
    (h : (machine (τ := τ) (ε := ε) P).Run Headroom s) : Shape s ∧ Ledger.Balanced (view s) := by
  refine Machine.run_induction (I := fun s => Shape s ∧ Ledger.Balanced (view s))
    (fun s h0 => ?_) (fun s s' act _ ih hroom hs => ?_) h
  · obtain ⟨hshape, hempty⟩ := start_shape h0 hroomy
    exact ⟨hshape, Ledger.balanced_empty hempty⟩
  · exact ⟨ih.1.step ih.2 hroom hs, (moves_of_step ih.1 ih.2 hs).balanced ih.2⟩

end Moves

end MinStd.GrowableRingQueue
