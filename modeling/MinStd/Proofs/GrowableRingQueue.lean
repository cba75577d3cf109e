import MinStd.Proofs.GrowableRingAnswers

/-!
# The growable ring queue

In every run of any number of producers and the one consumer in which the capacities have room in
the word, a push that returns true has its element in the queue or popped and a pop that returns true
has popped one, no element is lost or popped twice, one producer's elements in a life of a segment
are popped in the order of the calls, and a producer writes to its own slot of a live buffer
(`conserves_of_run`).
-/

namespace MinStd.GrowableRingQueue

open Function

variable {P : Params} {τ ε : Type*}

/-- What holds of the elements. -/
structure Conserves (s : State P τ ε) : Prop where
  once : s.popped.Nodup
  pushed : ∀ c ∈ s.popped, c ∈ s.pushed
  calls : ∀ c ∈ s.pushed, ∀ c' ∈ s.pushed, c.owner = c'.owner → c.call = c'.call → c = c'
  held : ∀ c ∈ s.pushed, c ∉ s.popped → c.index < (s.segments c.segment).original_capacity
    ∧ s.slot c.segment c.index = ⟨true, some c⟩
  found : ∀ k attempt, s.consumer = .take k attempt →
    ∃ c ∈ s.pushed, c ∉ s.popped ∧ (s.front k).element = some c
  order : s.popped.Pairwise fun c c' =>
    c.owner = c'.owner → c.segment = c'.segment → c.life = c'.life → c.call < c'.call
  earlier : ∀ c ∈ s.pushed, ∀ c' ∈ s.popped,
    c.owner = c'.owner → c.segment = c'.segment → c.life = c'.life → c.call < c'.call → c ∈ s.popped

/-- The push a producer is about to write a slot for, and the buffer it has read. -/
def Producer.writes? : Producer P τ ε → Option (Push P τ ε × ℕ)
  | .construct c buffer => some (c, buffer)
  | .publish c buffer => some (c, buffer)
  | _ => none

/-- The slot `t` is about to write is its own, in the buffer of the life it has claimed it in. -/
structure Owns (s : State P τ ε) (t : τ) (c : Push P τ ε) (buffer : ℕ) : Prop where
  owner : c.owner = t
  live : buffer ∈ s.allocated
  mine : ∀ k, (s.segments k).buffer = buffer ↔ k = c.segment
  life : c.life = (s.segments c.segment).life ∧ ¬ s.consumer.Opens c.segment
  inside : c.index < (s.segments c.segment).original_capacity
  unclaimed : ∀ u, u ≠ t → ∀ c' ∈ (s.producers u).claim?, c'.segment = c.segment → c'.index ≠ c.index
  unpublished : ∀ c' ∈ s.pushed, c' ∉ s.popped → c'.segment = c.segment → c'.index ≠ c.index

/-- What one party alone does where no call is under way. -/
structure Settles [Fintype τ] [DecidableEq τ] (s : State P τ ε) : Prop where
  drained : ∃ s', Alone Action.OfConsumer s s' ∧ ∀ c, c ∈ s'.popped ↔ c ∈ s.pushed
  only : ∀ s', Alone Action.OfConsumer s s' → ∀ c ∈ s'.popped, c ∈ s.pushed
  empty : ∀ s', Alone Action.OfConsumer s s' → s'.consumer = .ret false →
    ∀ c ∈ s'.pushed, c ∈ s'.popped
  full : ∀ t s', Alone (Action.OfProducer t) s s' → s'.producers t = .ret false →
    ∀ k, ∃ c ∈ s'.pushed, c ∉ s'.popped ∧ c.segment = k

section Results

variable [Fintype τ] {s : State P τ ε} {t : τ}

omit [Fintype τ] in
/-- A slot with something published in it. -/
theorem published_slot {k : P.Index} {i : ℕ} {c : Push P τ ε} (h : (view s).published k i = some c) :
    i < (s.segments k).original_capacity ∧ s.slot k i = ⟨true, some c⟩ := by
  replace h : (if i < (s.segments k).original_capacity ∧ (s.slot k i).ready = true then
    (s.slot k i).element else none) = some c := h
  split_ifs at h with hready
  refine ⟨hready.1, ?_⟩
  rw [← h, ← hready.2]

theorem conserves (h : Shape s) (hL : Ledger.Balanced (view s)) : Conserves s := by
  have hclaim : ∀ c ∈ s.pushed, c ∈ s.claims := fun c hc => ((hL.pushed_iff c).1 hc).1
  have hpushed : ∀ c ∈ s.popped, c ∈ s.pushed := fun c hc => hL.popped_pushed hc
  refine ⟨hL.popped_nodup, hpushed, fun c hc c' hc' howner hcall => ?_, fun c hc hnot => ?_,
    fun k a hq => ?_, ?_, fun c hc c' hc' howner hseg hlife hcall => ?_⟩
  · by_contra hne
    have hsymm : Std.Symm fun c c' : Push P τ ε => c.owner = c'.owner → c.call ≠ c'.call :=
      ⟨fun _ _ h h1 h2 => h h1.symm h2.symm⟩
    have hpair : s.claims.Pairwise fun c c' => c.owner = c'.owner → c.call ≠ c'.call :=
      hL.order.imp fun hb h1 => (hb.call h1).ne
    exact hpair.forall (hclaim c hc) (hclaim c' hc') hne howner hcall
  · exact published_slot ((hL.published_iff _ _ c).2 ⟨hc, hnot, rfl, rfl⟩)
  · have hphase := h.phase
    rw [hq] at hphase
    obtain ⟨hlt, c, hc⟩ := h.front_some hq
    have hpublished := (published_of_ready hlt hphase.2).trans hc
    obtain ⟨hin, hnot, -⟩ := (hL.published_iff _ _ c).1 hpublished
    exact ⟨c, hin, hnot, hc⟩
  · refine (List.Pairwise.and_mem.1 hL.popped_order).imp ?_
    rintro c c' ⟨hc, hc', hindex⟩ howner hseg hlife
    exact hL.call_lt (hclaim c (hpushed c hc)) (hclaim c' (hpushed c' hc')) hseg hlife
      (hindex hseg hlife) howner
  · obtain ⟨hin', hor⟩ := (hL.popped_iff c').1 hc'
    have hlt : c.index < c'.index := by
      rcases lt_trichotomy c.index c'.index with hlt | heq | hgt
      · exact hlt
      · rw [hL.unique (hclaim c hc) hin' hseg hlife heq] at hcall
        exact absurd hcall (lt_irrefl _)
      · have hback := hL.call_lt hin' (hclaim c hc) hseg.symm hlife.symm hgt howner.symm
        omega
    refine (hL.popped_iff c).2 ⟨hclaim c hc, ?_⟩
    rw [hseg, hlife]
    exact hor.imp_right hlt.trans

theorem owns (h : Shape s) (hL : Ledger.Balanced (view s)) {c : Push P τ ε} {b : ℕ}
    (hw : (s.producers t).writes? = some (c, b)) : Owns s t c b := by
  have hclaim : (s.producers t).claim? = some c ∧ b = (s.segments c.segment).buffer := by
    have hholds := h.holds t
    cases hp : s.producers t <;> rw [hp] at hw hholds <;>
      simp only [Producer.writes?, reduceCtorEq, Option.some.injEq, Prod.mk.injEq] at hw
    · obtain ⟨rfl, rfl⟩ := hw
      exact ⟨rfl, hholds⟩
    · obtain ⟨rfl, rfl⟩ := hw
      exact ⟨rfl, hholds.1⟩
  obtain ⟨hc, rfl⟩ := hclaim
  obtain ⟨htaken, hcap, horiginal, hready⟩ := claim_lt h hL hc
  obtain ⟨hin, howner, hnot⟩ := hL.flight t c hc
  refine ⟨howner, h.allocated c.segment fun hi => ?_, fun k => ⟨fun hb => h.buffers hb, ?_⟩,
    ⟨(hL.present hin hnot).1, fun ho => ?_⟩, horiginal, fun u hu c' hc' hseg hindex => ?_,
    fun c' hc' hnot' hseg hindex => ?_⟩
  · have hphase := h.phase
    cases hq : s.consumer <;> rw [hq] at hi hphase <;> try exact hi
    obtain rfl := hi
    have heq := hphase.2.1.eq
    omega
  · rintro rfl
    rfl
  · have hphase := h.phase
    cases hq : s.consumer <;> rw [hq] at ho hphase <;> try exact ho
    obtain rfl := ho
    have heq := hphase.2.2.2.2.1
    omega
  · exact hL.flight_apart hc' hc hu ⟨hseg, hindex⟩
  · have hsome := (hL.published_iff _ _ c').2 ⟨hc', hnot', hseg, hindex⟩
    rw [hL.published_flight hc] at hsome
    cases hsome

variable [DecidableEq τ]

theorem settles (hquiet : Quiet s) (h : Shape s ∧ Ledger.Balanced (view s)) : Settles s := by
  refine ⟨Alone.drained hquiet h, fun s' hs' c hc => ?_, fun s' hs' => hs'.refused hquiet h,
    fun t s' hs' => hs'.full hquiet h⟩
  rw [← (hs'.sought hquiet h).2.1]
  exact (hs'.sound h).2.popped_pushed hc

/-- In every run with room in the word the elements are conserved and the calls' answers are true of
them, no producer writes but to its own slot, and where no call is under way a party alone is refused
only for good reason. -/
theorem conserves_of_run (hroomy : Roomy τ P.initial_capacity)
    (h : (machine (τ := τ) (ε := ε) P).Run Headroom s) :
    Conserves s ∧ Answered s ∧ (∀ t c b, (s.producers t).writes? = some (c, b) → Owns s t c b)
      ∧ (Quiet s → Settles s) := by
  obtain ⟨hshape, hL⟩ := sound_of_run hroomy h
  exact ⟨conserves hshape hL, answered_of_run hroomy h, fun t c b hw => owns hshape hL hw,
    fun hquiet => settles hquiet ⟨hshape, hL⟩⟩

end Results

/-- A new queue, whose buffers are numbered as its segments are. -/
def newQueue (P : Params) (τ ε : Type*) : State P τ ε where
  segments k := ⟨P.initial_capacity, P.initial_capacity, k, packState P.initial_capacity 0, 0, 0, 0⟩
  slots _ _ := ⟨false, none⟩
  producer_target := P.firstSegment
  consumer_target := P.firstSegment
  pop_count := 0
  producers _ := .idle
  consumer := .idle
  allocated := List.range P.SegmentCount
  calls := 0
  claims := []
  pushed := []
  popped := []
  asked _ := none
  before := 0
  given := none

theorem start_newQueue (P : Params) : Start (newQueue P τ ε) := by
  refine ⟨fun i j hij => Fin.ext hij, fun b => ?_, fun k => rfl, fun k i _ => rfl, rfl, rfl, rfl, rfl, rfl,
    rfl, rfl, rfl⟩
  show b ∈ List.range P.SegmentCount ↔ ∃ k : P.Index, (k : ℕ) = b
  rw [List.mem_range]
  exact ⟨fun hb => ⟨⟨b, hb⟩, rfl⟩, fun ⟨k, hk⟩ => hk ▸ k.isLt⟩

theorem quiet_newQueue (P : Params) : Quiet (newQueue P τ ε) := ⟨fun _ => rfl, rfl⟩

/-- Two segments of two slots. -/
def small : Params := ⟨2, 2, 5, 4, 0, SIZES - 1, by decide, by decide, by decide⟩

/-- Two segments of `2^32` slots. -/
def wide : Params := ⟨2, 2 ^ 32, 5, 4, 0, SIZES - 1, by decide, by decide, by decide⟩

theorem conserves_of_run_popped : ∃ s : State small Unit Unit, (machine small).Run Headroom s
    ∧ s.producers () = .ret true ∧ s.consumer = .ret true ∧ Conserves s ∧ Answered s
    ∧ (∀ t c b, (s.producers t).writes? = some (c, b) → Owns s t c b) ∧ (Quiet s → Settles s) := by
  have h0 : (machine (τ := Unit) (ε := Unit) small).Run Headroom (newQueue small Unit Unit) :=
    .init (start_newQueue small)
  have h1 := h0.step (a := .push () ()) (by trivial) rfl
  have h2 := h1.step (a := .produce () false) (by trivial) rfl
  have h3 := h2.step (a := .produce () false) (by trivial) rfl
  have h4 := h3.step (a := .produce () false) (by trivial) rfl
  have h5 := h4.step (a := .produce () false) (by trivial) rfl
  have h6 := h5.step (a := .produce () false) (by trivial) rfl
  have h7 := h6.step (a := .produce () false) (by trivial) rfl
  have h8 := h7.step (a := .pop) (by trivial) rfl
  have h9 := h8.step (a := .consume none) (by trivial) rfl
  have h10 := h9.step (a := .consume none) (by trivial) rfl
  have h11 := h10.step (a := .consume none) (by trivial) rfl
  have h12 := h11.step (a := .consume none) (by trivial) rfl
  exact ⟨_, h12, rfl, rfl, conserves_of_run (by unfold Roomy; decide) h12⟩

/-- A capacity of `2^32` is packed as 0, and the first push is refused by the empty queue. -/
theorem wide_not_settles :
    ¬ ∀ s : State wide Unit Unit, (machine wide).Reachable s → Quiet s → Settles s := by
  intro h
  have hsettles := h _ (.init (start_newQueue wide)) (quiet_newQueue wide)
  have h0 : Alone (Action.OfProducer ()) (newQueue wide Unit Unit) (newQueue wide Unit Unit) :=
    .init rfl
  have h1 := h0.step (a := .push () ()) (by exact ⟨trivial, rfl⟩) rfl
  have h2 := h1.step (a := .produce () false) (by exact ⟨trivial, rfl⟩) rfl
  have h3 := h2.step (a := .produce () false) (by exact ⟨trivial, rfl⟩) rfl
  have h4 := h3.step (a := .produce () false) (by exact ⟨trivial, rfl⟩) rfl
  have h5 := h4.step (a := .produce () false) (by exact ⟨trivial, rfl⟩) rfl
  obtain ⟨c, hc, -⟩ := hsettles.full () _ h5 rfl wide.firstSegment
  cases hc

end MinStd.GrowableRingQueue
