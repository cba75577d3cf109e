import MinStd.SpscQueue

/-!
# The single-producer single-consumer queue is a bounded queue

A push takes effect where it stores `write_index_`, a pop where it stores `read_index_`; the
elements pushed and not taken are what the ring holds from `read_index_` on, up to the slot either
side is at work in.  A side's copy of its own index is exact, and its copy of the other's was exact
when it was read: the other side has only taken elements since, or only pushed some.
-/

namespace MinStd.SpscQueue

open Function

variable {α : Type*} {Q : Buffer}

/-! ### Indices -/

theorem Buffer.Usable.two_le (h : Q.Usable) : 2 ≤ Q.size_ := by
  unfold Buffer.Usable at h
  omega

theorem Buffer.Usable.capacity_eq (h : Q.Usable) : Q.capacity = Q.size_ - 1 := if_pos h

theorem nextIndex_eq {current : ℕ} (h : current < Q.size_) :
    nextIndex Q current = (current + 1) % Q.size_ := by
  have hlt := Q.size_lt
  unfold nextIndex
  rw [Nat.mod_eq_of_lt (by omega)]
  split_ifs with heq
  · rw [heq, Nat.mod_self]
  · rw [Nat.mod_eq_of_lt (by omega)]

/-! ### What the calls are at work on -/

def Push.stage : Push α → Stage (Op α) (Res α)
  | .idle => .idle
  | .loadWrite value => .called (.push_back value)
  | .loadRead value _ => .called (.push_back value)
  | .construct value _ _ => .called (.push_back value)
  | .store value _ => .called (.push_back value)
  | .ret ok => .taken (.pushed ok)

def Pop.stage : Pop α → Stage (Op α) (Res α)
  | .idle => .idle
  | .loadRead k => .called (.take k)
  | .loadWrite k _ => .called (.take k)
  | .move _ _ => .called (.take .pop_front)
  | .destroy k _ _ _ => .called (.take k)
  | .store k _ _ _ => .called (.take k)
  | .ret res => .taken res

def stages (producer : Push α) (consumer : Pop α) : Caller → Stage (Op α) (Res α)
  | .producer => producer.stage
  | .consumer => consumer.stage

theorem stages_producer (p p' : Push α) (c : Pop α) :
    stages p' c = update (stages p c) .producer p'.stage := by
  funext x
  cases x <;> rfl

theorem stages_consumer (p : Push α) (c c' : Pop α) :
    stages p c' = update (stages p c) .consumer c'.stage := by
  funext x
  cases x <;> rfl

theorem stages_same_producer {p p' : Push α} (c : Pop α) (h : p'.stage = p.stage) :
    stages p' c = stages p c := by
  rw [stages_producer p]
  exact update_eq_self_iff.2 h

theorem stages_same_consumer (p : Push α) {c c' : Pop α} (h : c'.stage = c.stage) :
    stages p c' = stages p c := by
  rw [stages_consumer p c]
  exact update_eq_self_iff.2 h

/-- The element the producer has constructed and not yet published. -/
def Push.back : Push α → List (Slot α)
  | .store value _ => [.live value false]
  | _ => []

/-- The first element's slot while the consumer takes it out. -/
def Pop.front (value : α) : Pop α → Slot α
  | .destroy .pop_front _ _ _ => .live value true
  | .store _ _ _ _ => .raw
  | _ => .live value false

/-- The slots of the queued elements. -/
def Pop.slots (c : Pop α) : List α → List (Slot α)
  | [] => []
  | value :: l => c.front value :: l.map fun v => .live v false

theorem Pop.length_slots (c : Pop α) (l : List α) : (c.slots l).length = l.length := by
  rcases l with _ | ⟨value, l⟩ <;> simp [Pop.slots]

theorem Pop.slots_append (c : Pop α) {l : List α} (value : α)
    (h : c.front value = .live value false ∨ l ≠ []) :
    c.slots (l ++ [value]) = c.slots l ++ [.live value false] := by
  rcases l with _ | ⟨v, l⟩
  · rcases h with h | h
    · simp [Pop.slots, h]
    · exact absurd rfl h
  · simp [Pop.slots]

theorem Pop.slots_eq_map {c : Pop α} (h : ∀ value, c.front value = .live value false)
    (l : List α) : c.slots l = l.map fun v => .live v false := by
  rcases l with _ | ⟨value, l⟩
  · rfl
  · simp [Pop.slots, h]

/-! ### The invariant -/

structure Pushing (Q : Buffer) (s : State α) (current next : ℕ) : Prop where
  usable : Q.Usable
  current_eq : current = s.writeIndex
  next_eq : next = (current + 1) % Q.size_
  room : s.queue.length + 1 < Q.size_

def PushOk (Q : Buffer) (s : State α) : Push α → Prop
  | .loadWrite _ => Q.Usable
  | .loadRead _ current => Q.Usable ∧ current = s.writeIndex
  | .construct _ current next => Pushing Q s current next
  | .store _ next => Pushing Q s s.writeIndex next
  | _ => True

structure Popping (Q : Buffer) (s : State α) (current next : ℕ) : Prop where
  current_eq : current = s.readIndex
  next_eq : next = (current + 1) % Q.size_
  pos : s.queue ≠ []

def PopOk (Q : Buffer) (s : State α) : Pop α → Prop
  | .loadWrite _ current => current = s.readIndex
  | .move current next => Popping Q s current next
  | .destroy k current next out => Popping Q s current next ∧ (k = .pop_front → out = s.queue.head?)
  | .store k next out gone => Popping Q s s.readIndex next ∧ s.queue.head? = some gone
      ∧ (k = .pop_front → out = some gone)
  | _ => True

structure Inv (Q : Buffer) (s : State α) : Prop where
  read : s.readIndex % Q.size_ = s.readIndex
  write : s.writeIndex = (s.readIndex + s.queue.length) % Q.size_
  room : s.queue.length ≤ Q.capacity
  split : s.pushed = s.taken ++ s.queue
  holds : RingHolds Q.size_ s.elements .raw s.readIndex
    (s.consumer.slots s.queue ++ s.producer.back)
  inside : ∀ i, Q.size_ ≤ i → s.elements i = .raw
  unmisused : s.misused = false
  producer : PushOk Q s s.producer
  consumer : PopOk Q s s.consumer
  atomic : (boundedQueue α Q.capacity).Atomic s.history (stages s.producer s.consumer) s.queue

theorem inv_start {s : State α} (h : Start s) : Inv Q s := by
  have hqueue : s.queue = [] := by
    unfold State.queue
    rw [h.pushed, List.drop_nil]
  refine ⟨?_, ?_, ?_, ?_, ?_, fun i _ => ?_, h.misused, ?_, ?_, ?_⟩
  · rw [h.readIndex, Nat.zero_mod]
  · rw [h.writeIndex, h.readIndex, hqueue]
    simp
  · rw [hqueue]
    exact Nat.zero_le _
  · rw [hqueue, h.pushed, h.taken, List.append_nil]
  · rw [hqueue, h.producer, h.elements]
    exact ⟨Nat.zero_le _, fun _ _ => by simp [Pop.slots, Push.back]⟩
  · rw [h.elements]
  · rw [h.producer]
    trivial
  · rw [h.consumer]
    trivial
  · have hstages : stages s.producer s.consumer = fun _ => .idle := by
      rw [h.producer, h.consumer]
      funext x
      cases x <;> rfl
    rw [h.history, hstages, hqueue]
    exact .start

/-! ### What the other side's steps leave -/

theorem PushOk.of_taken {s s' : State α} {x : Push α} (h : PushOk Q s x)
    (hw : s'.writeIndex = s.writeIndex) (hq : s'.queue.length ≤ s.queue.length) :
    PushOk Q s' x := by
  have pushing : ∀ {current next}, Pushing Q s current next → Pushing Q s' current next := by
    intro current next h
    have hroom := h.room
    exact ⟨h.usable, hw ▸ h.current_eq, h.next_eq, by omega⟩
  rcases x with _ | _ | _ | _ | ⟨value, next⟩ | _ <;> try trivial
  · exact ⟨h.1, hw ▸ h.2⟩
  · exact pushing h
  · show Pushing Q s' s'.writeIndex next
    rw [hw]
    exact pushing h

theorem PopOk.of_pushed {s s' : State α} {x : Pop α} (h : PopOk Q s x)
    (hr : s'.readIndex = s.readIndex) {l : List α} (hq : s'.queue = s.queue ++ l) :
    PopOk Q s' x := by
  have popping : ∀ {current next}, Popping Q s current next → Popping Q s' current next := by
    intro current next h
    refine ⟨hr ▸ h.current_eq, h.next_eq, ?_⟩
    rw [hq]
    exact List.append_ne_nil_of_left_ne_nil h.pos l
  have head : s.queue ≠ [] → s'.queue.head? = s.queue.head? := by
    intro hne
    rw [hq, List.head?_append_of_ne_nil _ hne]
  rcases x with _ | _ | ⟨k, current⟩ | _ | ⟨k, current, next, out⟩ | ⟨k, next, out, gone⟩ | _ <;>
    try trivial
  · show current = s'.readIndex
    rw [hr]
    exact h
  · exact popping h
  · exact ⟨popping h.1, fun hk => (h.2 hk).trans (head h.1.pos).symm⟩
  · refine ⟨?_, (head h.1.pos).trans h.2.1, h.2.2⟩
    rw [hr]
    exact popping h.1

/-- A step of the producer that changes no slot and no index. -/
theorem Inv.setProducer {s : State α} (h : Inv Q s) {p : Push α}
    {history : List (Event Caller (Op α) (Res α))} (hback : p.back = s.producer.back)
    (hok : PushOk Q s p)
    (hat : (boundedQueue α Q.capacity).Atomic history (stages p s.consumer) s.queue) :
    Inv Q { s with producer := p, history := history } := by
  refine ⟨h.read, h.write, h.room, h.split, ?_, h.inside, h.unmisused, hok.of_taken rfl le_rfl,
    h.consumer.of_pushed rfl (List.append_nil _).symm, hat⟩
  show RingHolds _ _ _ _ (_ ++ p.back)
  rw [hback]
  exact h.holds

/-- A step of the consumer that changes no slot and no index. -/
theorem Inv.setConsumer {s : State α} (h : Inv Q s) {c : Pop α}
    {history : List (Event Caller (Op α) (Res α))}
    (hslots : c.slots s.queue = s.consumer.slots s.queue) (hok : PopOk Q s c)
    (hat : (boundedQueue α Q.capacity).Atomic history (stages s.producer c) s.queue) :
    Inv Q { s with consumer := c, history := history } := by
  refine ⟨h.read, h.write, h.room, h.split, ?_, h.inside, h.unmisused,
    h.producer.of_taken rfl le_rfl, hok.of_pushed rfl (List.append_nil _).symm, hat⟩
  show RingHolds _ _ _ _ (c.slots s.queue ++ _)
  rw [hslots]
  exact h.holds

/-! ### The producer's steps -/

theorem Inv.room_lt {s : State α} (h : Inv Q s) (hQ : Q.Usable) : s.queue.length < Q.size_ := by
  have hroom := h.room
  have hcap := hQ.capacity_eq
  have htwo := hQ.two_le
  omega

/-- The producer sees the ring full only when it is. -/
theorem Inv.full {s : State α} (h : Inv Q s) (hQ : Q.Usable)
    (hnext : nextIndex Q s.writeIndex = s.readIndex) : s.queue.length = Q.capacity := by
  have hroom := h.room_lt hQ
  have htwo := hQ.two_le
  have hlt : s.writeIndex < Q.size_ := by
    rw [h.write]
    exact Nat.mod_lt _ (by omega)
  rw [nextIndex_eq hlt, h.write, Nat.mod_add_mod, add_assoc] at hnext
  by_contra hne
  rw [hQ.capacity_eq] at hne
  have hinj := ring_inj (r := s.readIndex) (i := s.queue.length + 1) (j := 0) (n := Q.size_)
    (by omega) (by omega) (by rw [hnext, add_zero, h.read])
  omega

/-- The slot a push constructs in is raw and in the buffer. -/
theorem Inv.construct {s : State α} (h : Inv Q s) {value : α} {current next : ℕ}
    (hp : s.producer = .construct value current next) :
    current < Q.size_ ∧ s.elements current = .raw := by
  have hok : Pushing Q s current next := by
    have := h.producer
    rwa [hp] at this
  have hroom := h.room_lt hok.usable
  have hholds := h.holds
  rw [hp, show (Push.construct value current next).back = [] from rfl, List.append_nil] at hholds
  have hraw := hholds.blank_after (by rwa [Pop.length_slots])
  rw [Pop.length_slots, ← h.write, ← hok.current_eq] at hraw
  refine ⟨?_, hraw⟩
  rw [hok.current_eq, h.write]
  exact Nat.mod_lt _ (by omega)

theorem Inv.constructed {s : State α} (h : Inv Q s) {value : α} {current next : ℕ}
    (hp : s.producer = .construct value current next) :
    Inv Q { s with
      elements := update s.elements current (.live value false)
      producer := .store value next } := by
  have hok : Pushing Q s current next := by
    have := h.producer
    rwa [hp] at this
  have hroom := h.room_lt hok.usable
  have hlt := (h.construct hp).1
  refine ⟨h.read, h.write, h.room, h.split, ?_, fun i hi => ?_, h.unmisused, ?_,
    h.consumer.of_pushed rfl (List.append_nil _).symm, ?_⟩
  · have hholds := h.holds
    rw [hp, show (Push.construct value current next).back = [] from rfl,
      List.append_nil] at hholds
    have hpush := hholds.push (b := .live value false) (by rwa [Pop.length_slots])
    rwa [Pop.length_slots, ← h.write, ← hok.current_eq] at hpush
  · show update s.elements current _ i = _
    rw [update_of_ne (by omega)]
    exact h.inside i hi
  · exact ⟨hok.usable, rfl, hok.current_eq ▸ hok.next_eq, hok.room⟩
  · have hsame : (Push.store value next).stage = s.producer.stage := by
      rw [hp]
      rfl
    show (boundedQueue α Q.capacity).Atomic _ (stages (.store value next) s.consumer) s.queue
    rw [stages_same_producer s.consumer hsame]
    exact h.atomic

theorem Inv.stored {s : State α} (h : Inv Q s) {value : α} {next : ℕ}
    (hp : s.producer = .store value next) :
    Inv Q { s with
      writeIndex := next
      pushed := s.pushed ++ [value]
      producer := .ret true } := by
  have hok : Pushing Q s s.writeIndex next := by
    have := h.producer
    rwa [hp] at this
  have hroom := hok.room
  have hqueue : (s.pushed ++ [value]).drop s.taken.length = s.queue ++ [value] := by
    rw [h.split, List.append_assoc, List.drop_left]
  refine ⟨h.read, ?_, ?_, ?_, ?_, h.inside, h.unmisused, trivial,
    h.consumer.of_pushed rfl hqueue, ?_⟩
  · show next = (s.readIndex + ((s.pushed ++ [value]).drop s.taken.length).length) % Q.size_
    rw [hqueue, hok.next_eq, h.write, Nat.mod_add_mod, List.length_append, add_assoc]
    rfl
  · show ((s.pushed ++ [value]).drop s.taken.length).length ≤ Q.capacity
    rw [hqueue, hok.usable.capacity_eq, List.length_append]
    show s.queue.length + 1 ≤ _
    omega
  · show s.pushed ++ [value] = s.taken ++ (s.pushed ++ [value]).drop s.taken.length
    rw [hqueue, ← List.append_assoc, ← h.split]
  · have hfront : s.consumer.front value = .live value false ∨ s.queue ≠ [] := by
      by_cases hne : s.queue = []
      · refine .inl ?_
        have hc := h.consumer
        rcases hcons : s.consumer with _ | _ | _ | _ | _ | _ | _ <;> rw [hcons] at hc <;> try rfl
        · exact absurd hne hc.1.pos
        · exact absurd hne hc.1.pos
      · exact .inr hne
    have hholds := h.holds
    rw [hp, Push.back, ← Pop.slots_append _ _ hfront] at hholds
    show RingHolds _ _ _ _ (s.consumer.slots ((s.pushed ++ [value]).drop s.taken.length) ++ [])
    rwa [hqueue, List.append_nil]
  · have htake : Takes Q.capacity (.push_back value) s.queue (.pushed true) (s.queue ++ [value]) :=
      .push (by rw [hok.usable.capacity_eq]; omega)
    have hcalled : stages s.producer s.consumer .producer = .called (.push_back value) := by
      show s.producer.stage = _
      rw [hp]
      rfl
    show (boundedQueue α Q.capacity).Atomic _ (stages (.ret true) s.consumer)
      ((s.pushed ++ [value]).drop s.taken.length)
    rw [hqueue, stages_producer s.producer]
    exact h.atomic.take hcalled htake

theorem Inv.stepPush {s s' : State α} (h : Inv Q s) (hs : stepPush Q s = some s') : Inv Q s' := by
  have hok := h.producer
  unfold SpscQueue.stepPush at hs
  rcases hp : s.producer with _ | value | ⟨value, current⟩ | ⟨value, current, next⟩ |
    ⟨value, next⟩ | ok <;> simp only [hp, reduceCtorEq, Option.some.injEq] at hs <;> rw [hp] at hok
  · subst hs
    refine h.setProducer (by rw [hp]; rfl) ⟨hok, rfl⟩ ?_
    rw [stages_same_producer s.consumer (p := s.producer) (by rw [hp]; rfl)]
    exact h.atomic
  · obtain ⟨hQ, rfl⟩ := hok
    split_ifs at hs with hnext
    · obtain rfl := Option.some.inj hs
      have htwo := hQ.two_le
      have hlt : s.writeIndex < Q.size_ := by
        rw [h.write]
        exact Nat.mod_lt _ (by omega)
      refine h.setProducer (by rw [hp]; rfl) ⟨hQ, rfl, nextIndex_eq hlt, ?_⟩ ?_
      · have hroom := h.room_lt hQ
        by_contra hfull
        rw [nextIndex_eq hlt, h.write, Nat.mod_add_mod, add_assoc,
          show s.queue.length + 1 = Q.size_ by omega, Nat.add_mod_right, h.read] at hnext
        exact hnext rfl
      · rw [stages_same_producer s.consumer (p := s.producer) (by rw [hp]; rfl)]
        exact h.atomic
    · obtain rfl := Option.some.inj hs
      refine h.setProducer (by rw [hp]; rfl) trivial ?_
      have htake : Takes Q.capacity (.push_back value) s.queue (.pushed false) s.queue :=
        .full (h.full hQ (not_not.1 hnext))
      have hcalled : stages s.producer s.consumer .producer = .called (.push_back value) := by
        show s.producer.stage = _
        rw [hp]
        rfl
      rw [stages_producer s.producer]
      exact h.atomic.take hcalled htake
  · rw [(h.construct hp).2] at hs
    obtain rfl := Option.some.inj hs
    exact h.constructed hp
  · subst hs
    exact h.stored hp
  · subst hs
    refine h.setProducer (by rw [hp]; rfl) trivial ?_
    have htaken : stages s.producer s.consumer .producer = .taken (.pushed ok) := by
      show s.producer.stage = _
      rw [hp]
      rfl
    rw [stages_producer s.producer]
    exact h.atomic.ret htaken

/-! ### The consumer's steps -/

/-- The consumer sees the ring empty exactly when it is. -/
theorem Inv.empty {s : State α} (h : Inv Q s) : s.readIndex = s.writeIndex ↔ s.queue = [] := by
  constructor
  · intro heq
    by_contra hne
    have hpos := List.length_pos_iff.2 hne
    have hroom := h.room
    unfold Buffer.capacity at hroom
    split_ifs at hroom with hQ
    · have hinj := ring_inj (r := s.readIndex) (i := s.queue.length) (j := 0) (n := Q.size_)
        (by omega) (by omega) (by rw [← h.write, ← heq, add_zero, h.read])
      omega
    · omega
  · intro hnil
    rw [h.write, hnil, List.length_nil, add_zero, h.read]

/-- The first element's slot, where the consumer is at work. -/
theorem Inv.first {s : State α} (h : Inv Q s) (hne : s.queue ≠ []) :
    s.readIndex < Q.size_ ∧ ∃ value l, s.queue = value :: l
      ∧ s.elements s.readIndex = s.consumer.front value := by
  obtain ⟨value, l, hq⟩ := List.exists_cons_of_ne_nil hne
  have hroom := h.room
  rw [hq, List.length_cons] at hroom
  unfold Buffer.capacity at hroom
  split_ifs at hroom with hQ
  · have hlt : s.readIndex < Q.size_ := by
      rw [← h.read]
      exact Nat.mod_lt _ (by omega)
    have hget := h.holds.get (j := 0) (by rw [hq]; simp [Pop.slots])
    refine ⟨hlt, value, l, hq, ?_⟩
    rw [add_zero, h.read] at hget
    rw [hget]
    simp [hq, Pop.slots]
  · omega

/-- A step of the consumer in the first element's slot. -/
theorem Inv.setFront {s : State α} (h : Inv Q s) {c : Pop α} {value : α} {l : List α}
    (hq : s.queue = value :: l) (hok : PopOk Q s c) (hstage : c.stage = s.consumer.stage) :
    Inv Q { s with elements := update s.elements s.readIndex (c.front value), consumer := c } := by
  have hne : s.queue ≠ [] := by
    rw [hq]
    exact List.cons_ne_nil _ _
  refine ⟨h.read, h.write, h.room, h.split, ?_, fun i hi => ?_, h.unmisused,
    h.producer.of_taken rfl le_rfl, hok.of_pushed rfl (List.append_nil _).symm, ?_⟩
  · have hset := h.holds.set (j := 0) (b := c.front value) (by rw [hq]; simp [Pop.slots])
    rw [add_zero, h.read, hq] at hset
    show RingHolds _ _ _ _ (c.slots s.queue ++ _)
    rw [hq]
    exact hset
  · show update s.elements _ _ i = _
    have hlt := (h.first hne).1
    rw [update_of_ne (by omega)]
    exact h.inside i hi
  · show (boundedQueue α Q.capacity).Atomic _ (stages s.producer c) s.queue
    rw [stages_same_consumer s.producer hstage]
    exact h.atomic

theorem Take.takes (k : Take) {capacity : ℕ} {value : α} {l : List α} {out : Option α}
    (h : k = .pop_front → out = some value) :
    Takes capacity (.take k) (value :: l) (k.res out) l := by
  rcases k with _ | _
  · rw [h rfl]
    exact .pop
  · exact .drop

/-- The consumer gives up the first slot. -/
theorem Inv.taken {s : State α} (h : Inv Q s) {k : Take} {next : ℕ} {out : Option α} {gone : α}
    (hc : s.consumer = .store k next out gone) :
    Inv Q { s with
      readIndex := next
      taken := s.taken ++ [gone]
      consumer := .ret (k.res out) } := by
  obtain ⟨hok, hhead, hout⟩ : PopOk Q s (.store k next out gone) := by
    have := h.consumer
    rwa [hc] at this
  obtain ⟨hlt, value, l, hq, -⟩ := h.first hok.pos
  obtain rfl : value = gone := by
    rw [hq] at hhead
    exact Option.some.inj hhead
  have hqueue : s.pushed.drop (s.taken ++ [value]).length = l := by
    rw [h.split, hq, List.append_cons s.taken value l, List.drop_left]
  have hnext : next = (s.readIndex + 1) % Q.size_ := hok.next_eq
  refine ⟨?_, ?_, ?_, ?_, ?_, h.inside, h.unmisused, h.producer.of_taken rfl ?_, trivial, ?_⟩
  · show next % Q.size_ = next
    rw [hnext, Nat.mod_mod]
  · show s.writeIndex = (next + (s.pushed.drop (s.taken ++ [value]).length).length) % Q.size_
    rw [hqueue, h.write, hq, hnext, Nat.mod_add_mod, List.length_cons, add_assoc, add_comm 1]
  · show (s.pushed.drop (s.taken ++ [value]).length).length ≤ Q.capacity
    have hroom := h.room
    rw [hq, List.length_cons] at hroom
    rw [hqueue]
    omega
  · show s.pushed = (s.taken ++ [value]) ++ s.pushed.drop (s.taken ++ [value]).length
    rw [hqueue, ← List.append_cons, ← hq]
    exact h.split
  · have hholds := h.holds
    rw [hc, hq] at hholds
    have htail := hholds.tail
    show RingHolds _ _ _ _
      (Pop.slots _ (s.pushed.drop (s.taken ++ [value]).length) ++ s.producer.back)
    rw [hqueue, Pop.slots_eq_map (fun _ => rfl), hnext]
    exact htail
  · show (s.pushed.drop (s.taken ++ [value]).length).length ≤ s.queue.length
    rw [hqueue, hq, List.length_cons]
    exact Nat.le_succ _
  · have hcalled : stages s.producer s.consumer .consumer = .called (.take k) := by
      show s.consumer.stage = _
      rw [hc]
      rfl
    show (boundedQueue α Q.capacity).Atomic _ (stages s.producer (.ret (k.res out)))
      (s.pushed.drop (s.taken ++ [value]).length)
    have hat := h.atomic
    rw [hq] at hat
    rw [hqueue, stages_consumer s.producer s.consumer]
    have htakes : Takes Q.capacity (.take k) (value :: l) (k.res out) l := k.takes hout
    exact hat.take hcalled htakes

theorem Inv.stepPop {s s' : State α} (h : Inv Q s) (hs : stepPop Q s = some s') : Inv Q s' := by
  have hok := h.consumer
  unfold SpscQueue.stepPop at hs
  rcases hc : s.consumer with _ | k | ⟨k, current⟩ | ⟨current, next⟩ | ⟨k, current, next, out⟩ |
    ⟨k, next, out, gone⟩ | res <;>
    simp only [hc, reduceCtorEq, Option.some.injEq] at hs <;> rw [hc] at hok
  · subst hs
    refine h.setConsumer ?_ rfl ?_
    · rw [hc, Pop.slots_eq_map (fun _ => rfl), Pop.slots_eq_map (fun _ => rfl)]
    · rw [stages_same_consumer s.producer (c := s.consumer) (by rw [hc]; rfl)]
      exact h.atomic
  · obtain rfl : current = s.readIndex := hok
    have hslots : s.consumer.slots s.queue = s.queue.map fun v => .live v false := by
      rw [hc]
      exact Pop.slots_eq_map (fun _ => rfl) _
    have hcalled : s.consumer.stage = .called (.take k) := by
      rw [hc]
      rfl
    split_ifs at hs with hempty
    · obtain rfl := Option.some.inj hs
      refine h.setConsumer ?_ trivial ?_
      · rw [hslots]
        exact Pop.slots_eq_map (fun _ => rfl) _
      · have hat := h.atomic
        rw [h.empty.1 hempty] at hat ⊢
        rw [stages_consumer s.producer s.consumer]
        have htakes : Takes Q.capacity (.take k) ([] : List α) (k.res none) [] := .empty
        exact hat.take hcalled htakes
    · have hne : s.queue ≠ [] := fun hnil => hempty (h.empty.2 hnil)
      have hnext := nextIndex_eq (h.first hne).1
      rcases k with _ | _ <;> obtain rfl := Option.some.inj hs
      · refine h.setConsumer ?_ ⟨rfl, hnext, hne⟩ ?_
        · rw [hslots]
          exact Pop.slots_eq_map (fun _ => rfl) _
        · rw [stages_same_consumer s.producer (show (Pop.move _ _).stage = _ from hcalled.symm)]
          exact h.atomic
      · refine h.setConsumer ?_ ⟨⟨rfl, hnext, hne⟩, by simp⟩ ?_
        · rw [hslots]
          exact Pop.slots_eq_map (fun _ => rfl) _
        · rw [stages_same_consumer s.producer
            (show (Pop.destroy .popFront _ _ none).stage = _ from hcalled.symm)]
          exact h.atomic
  · obtain rfl := hok.current_eq
    obtain ⟨-, value, l, hq, hcell⟩ := h.first hok.pos
    rw [hcell, hc] at hs
    obtain rfl := Option.some.inj hs
    exact h.setFront hq (c := .destroy .pop_front s.readIndex next (some value))
      ⟨hok, fun _ => by rw [hq]; rfl⟩ (by rw [hc]; rfl)
  · obtain ⟨hok, hout⟩ := hok
    obtain rfl := hok.current_eq
    obtain ⟨-, value, l, hq, hcell⟩ := h.first hok.pos
    have hs' : s' = { s with
        elements := update s.elements s.readIndex .raw
        consumer := .store k next out value } := by
      rw [hcell, hc] at hs
      rcases k with _ | _ <;> exact (Option.some.inj hs).symm
    subst hs'
    refine h.setFront hq (c := .store k next out value) ⟨hok, ?_, fun hk => ?_⟩ (by rw [hc]; rfl)
    · rw [hq]
      rfl
    · rw [hout hk, hq]
      rfl
  · subst hs
    exact h.taken hc
  · subst hs
    refine h.setConsumer ?_ trivial ?_
    · rw [hc, Pop.slots_eq_map (fun _ => rfl), Pop.slots_eq_map (fun _ => rfl)]
    · have htaken : stages s.producer s.consumer .consumer = .taken res := by
        show s.consumer.stage = _
        rw [hc]
        rfl
      rw [stages_consumer s.producer s.consumer]
      exact h.atomic.ret htaken

theorem Inv.step {s s' : State α} {a : Action α} (h : Inv Q s) (hs : step Q s a = some s') :
    Inv Q s' := by
  unfold SpscQueue.step at hs
  rcases a with value | k | _ | _
  · rcases hp : s.producer with _ | _ | _ | _ | _ | _ <;>
      simp only [hp, reduceCtorEq, Option.some.injEq] at hs
    subst hs
    have hidle : stages s.producer s.consumer .producer = .idle := by
      show s.producer.stage = _
      rw [hp]
      rfl
    split_ifs with hQ
    · refine h.setProducer (by rw [hp]; rfl) hQ ?_
      rw [stages_producer s.producer]
      exact h.atomic.call (.push_back value) hidle
    · refine h.setProducer (by rw [hp]; rfl) trivial ?_
      have hcap : Q.capacity = 0 := if_neg hQ
      have hroom := h.room
      have htake : Takes Q.capacity (.push_back value) s.queue (.pushed false) s.queue :=
        .full (by omega)
      rw [stages_producer s.producer]
      exact h.atomic.call_take hidle htake
  · rcases hc : s.consumer with _ | _ | _ | _ | _ | _ | _ <;>
      simp only [hc, reduceCtorEq, Option.some.injEq] at hs
    subst hs
    refine h.setConsumer ?_ trivial ?_
    · rw [hc, Pop.slots_eq_map (fun _ => rfl), Pop.slots_eq_map (fun _ => rfl)]
    · have hidle : stages s.producer s.consumer .consumer = .idle := by
        show s.consumer.stage = _
        rw [hc]
        rfl
      rw [stages_consumer s.producer s.consumer]
      exact h.atomic.call (.take k) hidle
  · exact h.stepPush hs
  · exact h.stepPop hs

theorem inv_of_reachable {s : State α} (h : (machine (α := α) Q).Reachable s) : Inv Q s :=
  Machine.reachable_induction (fun _ => inv_start) (fun _ _ _ _ ih hs => ih.step hs) h

/-! ### The destructor -/

theorem destroyLoop_eq {q : List α} {elements : ℕ → Slot α} {r last fuel : ℕ}
    {destroyed : List (Slot α)} (hr : r % Q.size_ = r) (hq : q.length ≤ Q.capacity)
    (hholds : RingHolds Q.size_ elements .raw r (q.map fun v => .live v false))
    (hlast : last = (r + q.length) % Q.size_) (hfuel : q.length < fuel) :
    ∃ elements', destroyLoop Q fuel r last elements destroyed
        = some (elements', destroyed ++ q.map fun v => .live v false)
      ∧ ∀ i < Q.size_, elements' i = .raw := by
  induction q generalizing elements r fuel destroyed with
  | nil =>
    obtain ⟨fuel, rfl⟩ := Nat.exists_eq_succ_of_ne_zero (show fuel ≠ 0 by omega)
    have heq : r = last := by rw [hlast, List.length_nil, add_zero, hr]
    refine ⟨elements, by simp [destroyLoop, heq], fun i hi => ?_⟩
    -- every slot is at some distance from `r`
    have hrlt : r < Q.size_ := by
      rw [← hr]
      exact Nat.mod_lt _ (by omega)
    have hcell := hholds.cell ((i + (Q.size_ - r)) % Q.size_) (Nat.mod_lt _ (by omega))
    rw [Nat.add_mod_mod, show r + (i + (Q.size_ - r)) = i + Q.size_ by omega, Nat.add_mod_right,
      Nat.mod_eq_of_lt hi] at hcell
    simpa using hcell
  | cons value q ih =>
    rw [List.length_cons] at hq hlast hfuel
    have hQ : Q.Usable := by
      by_contra hQ
      rw [Buffer.capacity, if_neg hQ] at hq
      omega
    have hcap := hQ.capacity_eq
    obtain ⟨fuel, rfl⟩ := Nat.exists_eq_succ_of_ne_zero (show fuel ≠ 0 by omega)
    have hrlt : r < Q.size_ := by
      rw [← hr]
      exact Nat.mod_lt _ (by omega)
    have hne : r ≠ last := by
      intro heq
      have hinj := ring_inj (r := r) (i := q.length + 1) (j := 0) (n := Q.size_)
        (by omega) (by omega) (by rw [← hlast, ← heq, add_zero, hr])
      omega
    have hcell := hholds.get (j := 0) (by simp)
    have hset := hholds.set (j := 0) (b := .raw) (by simp)
    rw [add_zero, hr] at hcell hset
    obtain ⟨elements', hloop, hraw⟩ := @ih (update elements r .raw)
      ((r + 1) % Q.size_) fuel (destroyed ++ [elements r])
      (Nat.mod_mod _ _) (by omega) hset.tail
      (by rw [hlast, Nat.mod_add_mod, add_assoc, add_comm 1]) (by omega)
    refine ⟨elements', ?_, hraw⟩
    rw [destroyLoop, if_pos hne, nextIndex_eq hrlt, hloop, hcell]
    simp

/-! ### The result -/

/-- The calls and returns so far are a history of the bounded queue used atomically; no slot was
misused; what was taken is what was pushed first, in order; and with no call under way the
destructor ends, having destroyed the elements still in the queue, once each, and nothing else. -/
structure Correct (Q : Buffer) (s : State α) : Prop where
  linearizable : ∃ p, (boundedQueue α Q.capacity).Atomic s.history p s.queue
  split : s.pushed = s.taken ++ s.queue
  unmisused : s.misused = false
  inside : ∀ i, Q.size_ ≤ i → s.elements i = .raw
  destroyed : s.producer = .idle → s.consumer = .idle → ∀ fuel > s.queue.length,
    ∃ elements', destructor Q fuel s = some (elements', s.queue.map fun v => .live v false)
      ∧ ∀ i < Q.size_, elements' i = .raw

theorem boundedQueue_of_reachable {s : State α} (h : (machine (α := α) Q).Reachable s) :
    Correct Q s := by
  have hinv := inv_of_reachable h
  refine ⟨⟨_, hinv.atomic⟩, hinv.split, hinv.unmisused, hinv.inside, fun hp hc fuel hfuel => ?_⟩
  have hholds := hinv.holds
  rw [hp, hc, Pop.slots_eq_map (fun _ => rfl), show (Push.idle : Push α).back = [] from rfl,
    List.append_nil] at hholds
  exact destroyLoop_eq hinv.read hinv.room hholds hinv.write hfuel

/-- A second element is refused while the first is being taken out of a buffer of two slots. -/
theorem boundedQueue_of_reachable_refused : ∃ (Q : Buffer) (s : State ℕ),
    (machine Q).Reachable s ∧ s.producer.stage = .taken (.pushed false)
      ∧ s.consumer = .ret (.popped (some 5)) ∧ Correct Q s := by
  have hrun : ∃ s, (machine ⟨2, by decide, true⟩).Reachable s
      ∧ s.producer = .ret false ∧ s.consumer = .ret (.popped (some 5)) :=
    Machine.exists_run (s := ⟨fun _ => .raw, 0, 0, .idle, .idle, false, [], [], []⟩)
      (List.flatten [[.push_back 5], List.replicate 5 .stepPush,
        [.take .pop_front], List.replicate 3 .stepPop,
        [.push_back 7], List.replicate 2 .stepPush, List.replicate 2 .stepPop])
      ⟨rfl, rfl, rfl, rfl, rfl, rfl, rfl, rfl, rfl⟩ (by decide)
  obtain ⟨s, hs, hpush, hpop⟩ := hrun
  refine ⟨_, s, hs, ?_, hpop, boundedQueue_of_reachable hs⟩
  rw [hpush]
  rfl

end MinStd.SpscQueue
