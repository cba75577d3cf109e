import MinStd.Proofs.GrowableRingAlone

/-!
# What the calls of the growable ring queue return

From its claim on, a push carries the value and the number of its call, so where it returns true the
call is among those pushed; while it looks for a segment nothing is claimed under that number.  A pop
takes one element at most, and returns true just after it has taken one.
-/

namespace MinStd.GrowableRingQueue

open Function

variable {P : Params} {τ ε : Type*} {s s' : State P τ ε} {t u : τ}

/-- What the calls have returned is what has been pushed and popped. -/
structure Answered (s : State P τ ε) : Prop where
  pushed : ∀ t, s.producers t = .ret true →
    ∃ c ∈ s.pushed, c.owner = t ∧ s.asked t = some (c.value, c.call)
  refused : ∀ t, s.producers t = .ret false → ∃ value call, s.asked t = some (value, call)
    ∧ ∀ c ∈ s.claims, c.owner = t → c.call ≠ call
  popped : s.consumer = .ret true → s.popped.length = s.before + 1
    ∧ ∃ c, s.popped.getLast? = some c ∧ s.given = some c.value
  empty : s.consumer = .ret false → s.popped.length = s.before

/-- `t` was asked to push the value in the call of that number, and has claimed nothing for it. -/
def Unclaimed (s : State P τ ε) (t : τ) (value : ε) (call : ℕ) : Prop :=
  s.asked t = some (value, call) ∧ ∀ c ∈ s.claims, c.owner = t → c.call ≠ call

/-- The claim is for `t`'s last call. -/
def Serves (s : State P τ ε) (t : τ) (c : Push P τ ε) : Prop :=
  c.owner = t ∧ s.asked t = some (c.value, c.call)

/-- What a producer has come to in its last call. -/
def Told (s : State P τ ε) (t : τ) : Producer P τ ε → Prop
  | .idle => True
  | .loadTarget value call => Unclaimed s t value call
  | .claim A | .clampLoad A _ | .clampSwap A _ _ | .storeTarget A => Unclaimed s t A.value A.call
  | .readBuffer c | .construct c _ | .readAgain c | .publish c _ => Serves s t c
  | .ret true => ∃ c ∈ s.pushed, Serves s t c
  | .ret false => ∃ value call, Unclaimed s t value call

/-- The consumer has taken an element in its last call, and nothing else. -/
def Took (s : State P τ ε) : Prop :=
  s.popped.length = s.before + 1 ∧ ∃ c, s.popped.getLast? = some c ∧ s.given = some c.value

/-- What the consumer has come to in its last call. -/
def Gave (s : State P τ ε) : Consumer P → Prop
  | .idle => True
  | .tryPop _ _ | .loadReady _ _ | .take _ _ | .ret false => s.popped.length = s.before
  | _ => Took s

theorem told_missed {A : Attempt P ε} (h : Unclaimed s t A.value A.call) : Told s t (missed A) := by
  unfold missed
  split_ifs
  · exact h
  · exact ⟨_, _, h⟩

theorem told_enterClamp {A : Attempt P ε} (c current : ℕ) (h : Unclaimed s t A.value A.call) :
    Told s t (enterClamp A c current) := by
  unfold enterClamp
  split_ifs
  · exact h
  · exact told_missed h

/-- What a step leaves of a producer's record. -/
structure Keeps (s s' : State P τ ε) (t : τ) : Prop where
  asked : s'.asked t = s.asked t
  pushed : ∀ c ∈ s.pushed, c ∈ s'.pushed
  claims : ∀ c ∈ s'.claims, c.owner = t → c ∈ s.claims

theorem Keeps.of_eq (hasked : s'.asked = s.asked) (hpushed : s'.pushed = s.pushed)
    (hclaims : s'.claims = s.claims) : Keeps s s' t :=
  ⟨congrFun hasked t, fun _ hc => hpushed ▸ hc, fun _ hc _ => hclaims ▸ hc⟩

theorem Told.keep {p : Producer P τ ε} (h : Told s t p) (hk : Keeps s s' t) : Told s' t p := by
  have hunclaimed : ∀ {value call}, Unclaimed s t value call → Unclaimed s' t value call :=
    fun h => ⟨hk.asked.trans h.1, fun c hc howner => h.2 c (hk.claims c hc howner) howner⟩
  have hserves : ∀ {c}, Serves s t c → Serves s' t c := fun h => ⟨h.1, hk.asked.trans h.2⟩
  cases p with
  | idle => trivial
  | loadTarget value call => exact hunclaimed h
  | claim A | clampLoad A c | clampSwap A c current | storeTarget A => exact hunclaimed h
  | readBuffer c | construct c b | readAgain c | publish c b => exact hserves h
  | ret result =>
    cases result with
    | true =>
      obtain ⟨c, hc, hs⟩ := h
      exact ⟨c, hk.pushed c hc, hserves hs⟩
    | false =>
      obtain ⟨value, call, hs⟩ := h
      exact ⟨value, call, hunclaimed hs⟩

theorem Gave.keep {q : Consumer P} (h : Gave s q) (hpopped : s'.popped = s.popped)
    (hbefore : s'.before = s.before) (hgiven : s'.given = s.given) : Gave s' q := by
  cases q with
  | idle => trivial
  | ret result => cases result <;> simpa only [Gave, Took, hpopped, hbefore, hgiven] using h
  | _ => simpa only [Gave, Took, hpopped, hbefore, hgiven] using h

section Steps

variable [DecidableEq τ]

/-- A producer's step leaves the others' records, and takes its own call on. -/
theorem Told.stepProducer {spurious : Bool} (h : Told s t (s.producers t))
    (hs : stepProducer s t spurious = some s') :
    Told s' t (s'.producers t) ∧ ∀ u, u ≠ t → Keeps s s' u := by
  have hset : ∀ (s₁ : State P τ ε) p, (s₁.setProducer t p).producers t = p :=
    fun s₁ p => show update s₁.producers t p t = p from update_self ..
  unfold GrowableRingQueue.stepProducer at hs
  split at hs <;> rename_i hp <;> try rw [hp] at h
  case h_1 => cases hs
  case h_3 A =>
    obtain rfl := Option.some.inj hs
    rw [hset]
    rcases claimed_cases t (s.segments A.target).life A (s.segments A.target).enqueue_pos with
      ⟨-, heq⟩ | ⟨-, heq | ⟨heq, -⟩⟩
    · rw [heq]
      refine ⟨⟨rfl, h.1⟩, fun u hu => ⟨rfl, fun _ => id, fun c hc howner => ?_⟩⟩
      refine (List.mem_append.1 hc).resolve_right fun hc => hu ?_
      rw [← howner, List.mem_singleton.1 hc]
    · rw [heq]
      refine ⟨Told.keep (p := .clampLoad A _) h (.of_eq rfl rfl ?_), fun u _ => .of_eq rfl rfl ?_⟩
      · exact List.append_nil s.claims
      · exact List.append_nil s.claims
    · rw [heq, claim_missed]
      refine ⟨(told_missed h).keep (.of_eq rfl rfl ?_), fun u _ => .of_eq rfl rfl ?_⟩
      · exact List.append_nil s.claims
      · exact List.append_nil s.claims
  case h_4 A c =>
    obtain rfl := Option.some.inj hs
    rw [hset]
    exact ⟨told_enterClamp c _ h, fun u _ => .of_eq rfl rfl rfl⟩
  case h_5 A c current =>
    split_ifs at hs <;> obtain rfl := Option.some.inj hs <;> rw [hset]
    · exact ⟨told_missed h, fun u _ => .of_eq rfl rfl rfl⟩
    · exact ⟨told_enterClamp c _ h, fun u _ => .of_eq rfl rfl rfl⟩
  case h_10 c buffer =>
    obtain rfl := Option.some.inj hs
    rw [hset]
    exact ⟨⟨c, List.mem_append_right _ (List.mem_singleton_self c), h⟩, fun u _ =>
      ⟨rfl, fun _ => List.mem_append_left _, fun _ hc _ => hc⟩⟩
  case h_11 result =>
    obtain rfl := Option.some.inj hs
    rw [hset]
    exact ⟨trivial, fun u _ => .of_eq rfl rfl rfl⟩
  all_goals
    obtain rfl := Option.some.inj hs
    rw [hset]
    exact ⟨h, fun u _ => .of_eq rfl rfl rfl⟩

omit [DecidableEq τ] in
theorem gave_finishPop (k : P.Index) (a : ℕ) (h : Took s) :
    Gave (finishPop s k a) (finishPop s k a).consumer := by
  show Gave _ (if _ then _ else _)
  split_ifs
  · exact h
  · exact h

variable [Fintype τ]

omit [DecidableEq τ] in
/-- The consumer takes an element at most. -/
theorem Gave.stepConsumer {space : Option ℕ} (h : Gave s s.consumer) (hshape : Shape s)
    (hs : stepConsumer s space = some s') : Gave s' s'.consumer := by
  cases hq : s.consumer <;> rw [hq] at h <;>
    simp only [GrowableRingQueue.stepConsumer, stepPop, stepRetire, stepShrink, hq, Option.or_none,
      Option.none_or, reduceCtorEq, Option.or_some] at hs
  case tryPop k a =>
    obtain rfl := Option.some.inj hs
    show Gave _ (if _ then if _ then _ else _ else _)
    split_ifs <;> exact h
  case loadReady k a =>
    obtain rfl := Option.some.inj hs
    show Gave _ (if _ then _ else _)
    split_ifs <;> exact h
  case take k a =>
    obtain rfl := Option.some.inj hs
    obtain ⟨-, c, hc⟩ := hshape.front_some hq
    refine ⟨?_, c, ?_, ?_⟩
    · show (s.popped ++ (s.front k).element.toList).length = s.before + 1
      replace h : s.popped.length = s.before := h
      rw [hc, Option.toList_some, List.length_append, h, List.length_singleton]
    · show (s.popped ++ (s.front k).element.toList).getLast? = some c
      rw [hc, Option.toList_some, List.getLast?_concat]
    · show (s.front k).element.map Claim.value = some c.value
      rw [hc]
      rfl
  case clearReady k a =>
    split_ifs at hs <;> obtain rfl := Option.some.inj hs
    · exact h
    · exact gave_finishPop k a h
  case retire k after =>
    cases space with
    | none =>
      obtain rfl := Option.some.inj hs
      exact h
    | some b =>
      dsimp only at hs
      split_ifs at hs with hb
      obtain rfl := Option.some.inj hs
      exact h
  case opening k n after =>
    obtain rfl := Option.some.inj hs
    cases after with
    | none => exact h
    | some a => exact gave_finishPop k a h
  case loadState k =>
    obtain rfl := Option.some.inj hs
    show Gave _ (if _ then _ else _)
    split_ifs <;> exact h
  case capState k w =>
    split_ifs at hs <;> obtain rfl := Option.some.inj hs <;> exact h
  case setCapacity k n =>
    obtain rfl := Option.some.inj hs
    show Gave _ (if _ then _ else _)
    split_ifs <;> exact h
  case ret result =>
    obtain rfl := Option.some.inj hs
    trivial
  all_goals
    obtain rfl := Option.some.inj hs
    exact h

theorem answered_of_run (hroomy : Roomy τ P.initial_capacity)
    (h : (machine (τ := τ) (ε := ε) P).Run Headroom s) : Answered s := by
  have main : (∀ t, Told s t (s.producers t)) ∧ Gave s s.consumer := by
    refine Machine.run_induction (I := fun s => (∀ t, Told s t (s.producers t)) ∧ Gave s s.consumer)
      (fun s h0 => ?_) (fun s s' act hr ih hg hs => ?_) h
    · rw [h0.producers, h0.consumer]
      exact ⟨fun _ => trivial, trivial⟩
    · obtain ⟨htold, hgave⟩ := ih
      obtain ⟨hshape, hL⟩ := sound_of_run hroomy hr
      cases act with
      | push t value =>
        simp only [machine, step] at hs
        split at hs
        · obtain rfl := Option.some.inj hs
          refine ⟨fun u => ?_, hgave.keep rfl rfl rfl⟩
          rcases eq_or_ne u t with rfl | hu
          · show Told _ u (update s.producers u _ u)
            rw [update_self]
            refine ⟨update_self .., fun c hc _ => ?_⟩
            exact (hL.calls c hc).ne
          · show Told _ u (update s.producers t _ u)
            rw [update_of_ne hu]
            exact (htold u).keep ⟨update_of_ne hu .., fun _ => id, fun _ hc _ => hc⟩
        · cases hs
      | pop =>
        simp only [machine, step] at hs
        split at hs
        · obtain rfl := Option.some.inj hs
          exact ⟨fun u => (htold u).keep (.of_eq rfl rfl rfl), rfl⟩
        · cases hs
      | produce t spurious =>
        obtain ⟨hown, hkeep⟩ := (htold t).stepProducer hs
        obtain ⟨hothers, hconsumer, hpopped, -, hbefore, hgiven⟩ := stepProducer_frame hs
        refine ⟨fun u => ?_, ?_⟩
        · rcases eq_or_ne u t with rfl | hu
          · exact hown
          · rw [hothers u hu]
            exact (htold u).keep (hkeep u hu)
        · rw [hconsumer]
          exact hgave.keep hpopped hbefore hgiven
      | consume space =>
        obtain ⟨hproducers, hpushed, hclaims, hasked, -⟩ := stepConsumer_frame hs
        refine ⟨fun u => ?_, hgave.stepConsumer hshape hs⟩
        rw [hproducers]
        exact (htold u).keep (.of_eq hasked hpushed hclaims)
  obtain ⟨htold, hgave⟩ := main
  refine ⟨fun t ht => ?_, fun t ht => ?_, fun hq => ?_, fun hq => ?_⟩
  · have := htold t
    rw [ht] at this
    exact this
  · have := htold t
    rw [ht] at this
    exact this
  · rw [hq] at hgave
    exact hgave
  · rw [hq] at hgave
    exact hgave

end Steps

end MinStd.GrowableRingQueue
