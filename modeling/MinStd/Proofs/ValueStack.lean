import MinStd.ValueStack

/-!
# The stack of values is a bounded stack

Only the producer pushes, so what it last read of the count is never below the count: the cell it
writes is above the entries, and its compare-and-swap succeeds only on an unchanged word.  A pop
whose compare-and-swap finds the generation it read, without 2^32 pushes since, finds no push made
since; then the entries have only shrunk, and by nothing if the count is the one it read, so the
cell it read is the top.  Each call takes effect at its successful compare-and-swap, or where it
reads a count that is full or empty.
-/

namespace MinStd.ValueStack

open Function

variable {α C : Type*} {K : Capacity}

theorem Capacity.lt (K : Capacity) : K.CAPACITY < WORD32 := by
  have := K.le
  unfold WORD32
  omega

theorem Capacity.mod (K : Capacity) : K.CAPACITY % WORD32 = K.CAPACITY := Nat.mod_eq_of_lt K.lt

/-! ### The entries -/

theorem length_stackOf (slots : ℕ → α) (n : ℕ) : (stackOf slots n).length = n := by
  induction n with
  | zero => rfl
  | succ n ih => simp [stackOf, ih]

/-- Writing a cell at or above the entries leaves them. -/
theorem stackOf_update (slots : ℕ → α) {i n : ℕ} (value : α) (h : n ≤ i) :
    stackOf (update slots i value) n = stackOf slots n := by
  induction n with
  | zero => rfl
  | succ n ih =>
    have hne : n ≠ i := by omega
    simp only [stackOf, update_of_ne hne, ih (by omega)]

theorem stackOf_pos (slots : ℕ → α) {n : ℕ} (h : n ≠ 0) :
    stackOf slots n = slots (n - 1) :: stackOf slots (n - 1) := by
  obtain ⟨m, rfl⟩ := Nat.exists_eq_succ_of_ne_zero h
  rfl

theorem length_entries (s : State α C) : s.entries.length = lo32 s.word := length_stackOf _ _

/-! ### What the calls know -/

/-- The word's generation is the number of pushes and its count fits the cells. -/
structure WordOk (K : Capacity) (s : State α C) : Prop where
  gen : hi32 s.word = s.pushes % WORD32
  count : lo32 s.word ≤ K.CAPACITY

/-- The producer's copy of the word is as new as the last push, and not below the count. -/
structure Copied (K : Capacity) (s : State α C) (old : ℕ) : Prop where
  gen : hi32 old = s.pushes % WORD32
  count : lo32 s.word ≤ lo32 old
  room : lo32 old < K.CAPACITY

def PushOk (K : Capacity) (s : State α C) : Push α → Prop
  | .write _ old => Copied K s old
  | .cas value old => Copied K s old ∧ s.slots (lo32 old) = value
  | _ => True

/-- A consumer's copy of the word: if it is as new as the last push, the count has only fallen. -/
structure Stale (s : State α C) (old since : ℕ) : Prop where
  le : since ≤ s.pushes
  gen : hi32 old = since % WORD32
  pos : lo32 old ≠ 0
  count : since = s.pushes → lo32 s.word ≤ lo32 old

def PopOk (s : State α C) : Pop α → Prop
  | .read old since => Stale s old since
  | .cas old val since => Stale s old since ∧
      (since = s.pushes → lo32 s.word = lo32 old → s.slots (lo32 old - 1) = val)
  | _ => True

/-- What a consumer knows survives as long as the entries only shrink, and whatever a push does. -/
theorem PopOk.mono {s s' : State α C} {x : Pop α} (h : PopOk s x) (hle : s.pushes ≤ s'.pushes)
    (hsame : s'.pushes = s.pushes → lo32 s'.word ≤ lo32 s.word ∧
      ∀ i < lo32 s'.word, s'.slots i = s.slots i) : PopOk s' x := by
  have stale : ∀ {old since}, Stale s old since → Stale s' old since := by
    intro old since h
    refine ⟨h.le.trans hle, h.gen, h.pos, fun he => ?_⟩
    have hle' := h.le
    have hs := (hsame (by omega)).1
    have hc := h.count (by omega)
    omega
  rcases x with _ | _ | ⟨old, since⟩ | ⟨old, val, since⟩ | _ <;> try trivial
  · exact stale h
  · obtain ⟨h1, h2⟩ := h
    refine ⟨stale h1, fun he hw => ?_⟩
    have hle' := h1.le
    have hc := h1.count (by omega)
    have hpos := h1.pos
    obtain ⟨hs, hslots⟩ := hsame (by omega)
    rw [hslots _ (by omega)]
    exact h2 (by omega) (by omega)

theorem PopOk.same {s s' : State α C} {x : Pop α} (h : PopOk s x) (hw : s'.word = s.word)
    (hslots : s'.slots = s.slots) (hpushes : s'.pushes = s.pushes) : PopOk s' x :=
  h.mono hpushes.ge fun _ => ⟨by rw [hw], fun _ _ => by rw [hslots]⟩

/-- What the producer knows survives the consumers' steps. -/
theorem PushOk.shrink {s s' : State α C} {x : Push α} (h : PushOk K s x)
    (hpushes : s'.pushes = s.pushes) (hslots : s'.slots = s.slots)
    (hw : lo32 s'.word ≤ lo32 s.word) : PushOk K s' x := by
  have copied : ∀ {old}, Copied K s old → Copied K s' old :=
    fun h => ⟨by rw [hpushes]; exact h.gen, hw.trans h.count, h.room⟩
  rcases x with _ | _ | _ | ⟨value, old⟩ | _ <;> try trivial
  · exact copied h
  · refine ⟨copied h.1, ?_⟩
    rw [hslots]
    exact h.2

/-- The producer's look at the word: it goes on to the cell above the entries, or the stack is
full. -/
theorem pushOk_pushLoop {s : State α C} (h : WordOk K s) (value : α) :
    PushOk K s (pushLoop K value s.word) := by
  unfold pushLoop
  rw [K.mod]
  split_ifs with hfull
  · trivial
  · exact ⟨h.gen, le_rfl, by omega⟩

theorem popOk_popLoop {s : State α C} (h : WordOk K s) : PopOk s (popLoop s.word s.pushes) := by
  unfold popLoop
  split_ifs with hc
  · exact ⟨le_rfl, h.gen, hc, fun _ => le_rfl⟩
  · trivial

/-- The generation a pop read is the word's only if no push was made since. -/
theorem Stale.current {s : State α C} {since : ℕ} (h : Stale s s.word since) (hw : WordOk K s)
    (hlt : s.pushes < since + WORD32) : since = s.pushes := by
  have h1 := h.le
  have h2 := h.gen
  rw [hw.gen] at h2
  unfold WORD32 at *
  omega

theorem lo32_popped (s : State α C) :
    lo32 (pack (hi32 s.word) (lo32 s.word - 1)) = lo32 s.word - 1 := by
  have := lo32_lt s.word
  exact lo32_pack (by omega)

/-! ### The stages of the calls -/

def Push.stage : Push α → Stage (Op α) (Res α)
  | .idle => .idle
  | .load value => .called (.push value)
  | .write value _ => .called (.push value)
  | .cas value _ => .called (.push value)
  | .ret ok => .taken (.pushed ok)

def Pop.stage : Pop α → Stage (Op α) (Res α)
  | .idle => .idle
  | .load => .called .pop
  | .read _ _ => .called .pop
  | .cas _ _ _ => .called .pop
  | .ret out => .taken (.popped out)

def stages (producer : Push α) (consumer : C → Pop α) : Caller C → Stage (Op α) (Res α)
  | .producer => producer.stage
  | .consumer c => (consumer c).stage

variable [DecidableEq C]

theorem stages_producer (p p' : Push α) (f : C → Pop α) :
    stages p' f = update (stages p f) .producer p'.stage := by
  funext c
  cases c <;> rfl

theorem stages_same_producer {p p' : Push α} (f : C → Pop α) (h : p'.stage = p.stage) :
    stages p' f = stages p f := by
  rw [stages_producer p]
  exact update_eq_self_iff.2 h

theorem stages_consumer (p : Push α) (f : C → Pop α) (c : C) (x : Pop α) :
    stages p (update f c x) = update (stages p f) (.consumer c) x.stage := by
  funext d
  rcases d with _ | d
  · rfl
  · by_cases hd : d = c
    · subst hd
      simp [stages]
    · have hne : Caller.consumer d ≠ .consumer c := fun h => hd (Caller.consumer.inj h)
      rw [update_of_ne hne]
      simp [stages, update_of_ne hd]

theorem stages_same_consumer (p : Push α) {f : C → Pop α} {c : C} {x : Pop α}
    (h : x.stage = (f c).stage) : stages p (update f c x) = stages p f := by
  rw [stages_consumer]
  exact update_eq_self_iff.2 h

/-! ### What a step does -/

/-- What a step does to the state. -/
inductive Effect (K : Capacity) (s : State α C) : State α C → Prop
  | push (value : α) : s.producer = .idle →
      Effect K s { s with
        producer := .load value
        history := s.history ++ [.call .producer (.push value)] }
  | pushLook (value : α) : s.producer.stage = .called (.push value) →
      Effect K s { s with producer := pushLoop K value s.word }
  | write (value : α) (old : ℕ) : s.producer = .write value old →
      Effect K s { s with slots := update s.slots (lo32 old) value, producer := .cas value old }
  | pushSwap (value : α) : s.producer = .cas value s.word →
      Effect K s { s with
        word := pack ((hi32 s.word + 1) % WORD32) ((lo32 s.word + 1) % WORD32)
        pushes := s.pushes + 1
        producer := .ret true }
  | pushRet (ok : Bool) : s.producer = .ret ok →
      Effect K s { s with producer := .idle, history := s.history ++ [.ret .producer (.pushed ok)] }
  | pop (c : C) : s.consumer c = .idle →
      Effect K s { s with
        consumer := update s.consumer c .load
        history := s.history ++ [.call (.consumer c) .pop] }
  | popLook (c : C) : (s.consumer c).stage = .called .pop →
      Effect K s { s with consumer := update s.consumer c (popLoop s.word s.pushes) }
  | read (c : C) (old since : ℕ) : s.consumer c = .read old since →
      Effect K s { s with
        consumer := update s.consumer c (.cas old (s.slots (lo32 old - 1)) since) }
  | popSwap (c : C) (val : α) (since : ℕ) : s.consumer c = .cas s.word val since →
      s.pushes < since + WORD32 →
      Effect K s { s with
        word := pack (hi32 s.word) (lo32 s.word - 1)
        consumer := update s.consumer c (.ret (some val)) }
  | popRet (c : C) (out : Option α) : s.consumer c = .ret out →
      Effect K s { s with
        consumer := update s.consumer c .idle
        history := s.history ++ [.ret (.consumer c) (.popped out)] }

theorem effect_of_stepPush {s s' : State α C} {spurious : Bool}
    (h : stepPush K s spurious = some s') : Effect K s s' := by
  unfold stepPush at h
  rcases hp : s.producer with _ | value | ⟨value, old⟩ | ⟨value, old⟩ | ok <;>
    simp only [hp, reduceCtorEq, Option.some.injEq] at h
  · subst h
    exact .pushLook value (by rw [hp]; rfl)
  · subst h
    exact .write value old hp
  · split_ifs at h with hw
    · obtain ⟨rfl, -⟩ := hw
      obtain rfl := Option.some.inj h
      exact .pushSwap value hp
    · obtain rfl := Option.some.inj h
      exact .pushLook value (by rw [hp]; rfl)
  · subst h
    exact .pushRet ok hp

theorem effect_of_stepPop {s s' : State α C} {c : C} {spurious : Bool}
    (hg : Unwrapped s (.stepPop c spurious)) (h : stepPop s c spurious = some s') :
    Effect K s s' := by
  unfold stepPop at h
  rcases hp : s.consumer c with _ | _ | ⟨old, since⟩ | ⟨old, val, since⟩ | out <;>
    simp only [hp, reduceCtorEq, Option.some.injEq] at h
  · subst h
    exact .popLook c (by rw [hp]; rfl)
  · subst h
    exact .read c old since hp
  · split_ifs at h with hw
    · obtain ⟨rfl, -⟩ := hw
      obtain rfl := Option.some.inj h
      exact .popSwap c val since hp (hg since (by rw [hp]; rfl))
    · obtain rfl := Option.some.inj h
      exact .popLook c (by rw [hp]; rfl)
  · subst h
    exact .popRet c out hp

theorem effect_of_step {s s' : State α C} {a : Action α C} (hg : Unwrapped s a)
    (h : step K s a = some s') : Effect K s s' := by
  unfold step at h
  rcases a with value | c | spurious | ⟨c, spurious⟩
  · rcases hp : s.producer with _ | _ | _ | _ | _ <;>
      simp only [hp, reduceCtorEq, Option.some.injEq] at h
    subst h
    exact .push value hp
  · rcases hp : s.consumer c with _ | _ | _ | _ | _ <;>
      simp only [hp, reduceCtorEq, Option.some.injEq] at h
    subst h
    exact .pop c hp
  · exact effect_of_stepPush h
  · exact effect_of_stepPop hg h

/-! ### The invariant -/

structure Inv (K : Capacity) (s : State α C) : Prop where
  word : WordOk K s
  producer : PushOk K s s.producer
  consumer : ∀ c, PopOk s (s.consumer c)
  atomic : (boundedStack α K.CAPACITY).Atomic s.history (stages s.producer s.consumer) s.entries

theorem inv_start {s : State α C} (h : Start s) : Inv K s := by
  have hw := h.word
  refine ⟨⟨?_, ?_⟩, ?_, fun c => ?_, ?_⟩
  · rw [hw, h.pushes]
    decide
  · rw [hw]
    exact Nat.zero_le _
  · rw [h.producer]
    trivial
  · rw [h.consumer]
    trivial
  · have hstages : stages s.producer s.consumer = fun _ => .idle := by
      rw [h.producer, h.consumer]
      funext c
      cases c <;> rfl
    rw [h.history, hstages]
    unfold State.entries
    rw [hw]
    exact .start

theorem popLoop_ne_some (old since : ℕ) (val : α) : popLoop old since ≠ .ret (some val) := by
  unfold popLoop
  split_ifs <;> simp

/-- The push that finds the stack full takes effect at its look. -/
theorem atomic_pushLook {s : State α C} {value : α} (h : Inv K s)
    (hp : s.producer.stage = .called (.push value)) :
    (boundedStack α K.CAPACITY).Atomic s.history
      (stages (pushLoop K value s.word) s.consumer) s.entries := by
  unfold pushLoop
  rw [K.mod]
  split_ifs with hfull
  · rw [stages_producer s.producer]
    have hlen : s.entries.length = K.CAPACITY := by
      have := h.word.count
      rw [length_entries]
      omega
    exact h.atomic.take hp (.full hlen)
  · rw [stages_same_producer s.consumer (show (Push.write value s.word).stage = _ from hp.symm)]
    exact h.atomic

/-- The pop that finds the stack empty takes effect at its look. -/
theorem atomic_popLook {s : State α C} {c : C} (h : Inv K s)
    (hc : (s.consumer c).stage = .called .pop) :
    (boundedStack α K.CAPACITY).Atomic s.history
      (stages s.producer (update s.consumer c (popLoop s.word s.pushes))) s.entries := by
  unfold popLoop
  split_ifs with hcount
  · rw [stages_same_consumer s.producer (show (Pop.read s.word s.pushes).stage = _ from hc.symm)]
    exact h.atomic
  · rw [stages_consumer]
    have hnil : s.entries = [] := List.length_eq_zero_iff.1 (by rw [length_entries]; omega)
    have ha := h.atomic
    rw [hnil] at ha ⊢
    exact ha.take hc .empty

/-- The producer's write is above the entries. -/
theorem Inv.write {s : State α C} {value : α} {old : ℕ} (h : Inv K s)
    (hp : s.producer = .write value old) :
    Inv K { s with slots := update s.slots (lo32 old) value, producer := .cas value old } := by
  have hold : Copied K s old := by
    have := h.producer
    rwa [hp] at this
  refine ⟨⟨h.word.gen, h.word.count⟩, ⟨⟨hold.gen, hold.count, hold.room⟩, update_self ..⟩,
    fun c => ?_, ?_⟩
  · refine (h.consumer c).mono le_rfl fun _ => ⟨le_rfl, fun i hi => ?_⟩
    have hi' : i < lo32 s.word := hi
    have hcount := hold.count
    exact update_of_ne (by omega) ..
  · have hentries : stackOf (update s.slots (lo32 old) value) (lo32 s.word) = s.entries :=
      stackOf_update _ _ hold.count
    have ha := h.atomic
    rw [← hentries] at ha
    show (boundedStack α K.CAPACITY).Atomic s.history (stages (.cas value old) s.consumer) _
    rw [stages_same_producer s.consumer (show _ = s.producer.stage by rw [hp]; rfl)]
    exact ha

/-- A successful push puts its value on top. -/
theorem Inv.pushSwap {s : State α C} {value : α} (h : Inv K s)
    (hp : s.producer = .cas value s.word) :
    Inv K { s with
      word := pack ((hi32 s.word + 1) % WORD32) ((lo32 s.word + 1) % WORD32)
      pushes := s.pushes + 1
      producer := .ret true } := by
  have hold : Copied K s s.word ∧ s.slots (lo32 s.word) = value := by
    have := h.producer
    rwa [hp] at this
  have hroom := hold.1.room
  have hK := K.lt
  have hcount : (lo32 s.word + 1) % WORD32 = lo32 s.word + 1 := Nat.mod_eq_of_lt (by omega)
  have hgen : (hi32 s.word + 1) % WORD32 < WORD32 := Nat.mod_lt _ (by decide)
  rw [hcount]
  have hlo : lo32 (pack ((hi32 s.word + 1) % WORD32) (lo32 s.word + 1)) = lo32 s.word + 1 :=
    lo32_pack (by omega)
  refine ⟨⟨?_, ?_⟩, trivial, fun c => ?_, ?_⟩
  · show hi32 (pack _ _) = (s.pushes + 1) % WORD32
    rw [hi32_pack hgen (by omega), h.word.gen, Nat.mod_add_mod]
  · show lo32 (pack _ _) ≤ K.CAPACITY
    omega
  · refine (h.consumer c).mono (Nat.le_succ _) fun he => ?_
    have hne : s.pushes + 1 = s.pushes := he
    omega
  · have hentries : stackOf s.slots (lo32 (pack ((hi32 s.word + 1) % WORD32) (lo32 s.word + 1)))
        = value :: s.entries := by
      rw [hlo, ← hold.2]
      rfl
    rw [stages_producer s.producer]
    show (boundedStack α K.CAPACITY).Atomic s.history _ (stackOf s.slots _)
    rw [hentries]
    have htake : Takes K.CAPACITY (.push value) s.entries (.pushed true) (value :: s.entries) :=
      .push (by rw [length_entries]; omega)
    refine h.atomic.take ?_ htake
    show s.producer.stage = _
    rw [hp]
    rfl

/-- A successful pop takes the top. -/
theorem Inv.top {s : State α C} {c : C} {val : α} {since : ℕ} (h : Inv K s)
    (hc : s.consumer c = .cas s.word val since) (hlt : s.pushes < since + WORD32) :
    lo32 s.word ≠ 0 ∧ s.entries = val :: stackOf s.slots (lo32 s.word - 1) := by
  have hold : Stale s s.word since ∧
      (since = s.pushes → lo32 s.word = lo32 s.word → s.slots (lo32 s.word - 1) = val) := by
    have := h.consumer c
    rwa [hc] at this
  obtain ⟨hstale, hval⟩ := hold
  refine ⟨hstale.pos, ?_⟩
  rw [← hval (hstale.current h.word hlt) rfl]
  exact stackOf_pos _ hstale.pos

theorem Inv.popSwap {s : State α C} {c : C} {val : α} {since : ℕ} (h : Inv K s)
    (hc : s.consumer c = .cas s.word val since) (hlt : s.pushes < since + WORD32) :
    Inv K { s with
      word := pack (hi32 s.word) (lo32 s.word - 1)
      consumer := update s.consumer c (.ret (some val)) } := by
  obtain ⟨hpos, htop⟩ := h.top hc hlt
  have hlo := lo32_popped s
  have hword := lo32_lt s.word
  refine ⟨⟨?_, ?_⟩, ?_, fun d => ?_, ?_⟩
  · show hi32 (pack _ _) = s.pushes % WORD32
    rw [hi32_pack (hi32_lt _) (by omega), h.word.gen]
  · have hcount := h.word.count
    show lo32 (pack _ _) ≤ K.CAPACITY
    omega
  · refine h.producer.shrink rfl rfl ?_
    show lo32 (pack _ _) ≤ lo32 s.word
    omega
  · by_cases hd : d = c
    · subst hd
      show PopOk _ (update s.consumer d _ d)
      rw [update_self]
      trivial
    · show PopOk _ (update s.consumer c _ d)
      rw [update_of_ne hd]
      refine (h.consumer d).mono le_rfl fun _ => ⟨?_, fun _ _ => rfl⟩
      show lo32 (pack _ _) ≤ lo32 s.word
      omega
  · have ha := h.atomic
    rw [htop] at ha
    show (boundedStack α K.CAPACITY).Atomic s.history _ (stackOf s.slots _)
    rw [stages_consumer, hlo]
    have htake : Takes K.CAPACITY .pop (val :: stackOf s.slots (lo32 s.word - 1))
        (.popped (some val)) (stackOf s.slots (lo32 s.word - 1)) := .pop
    refine ha.take ?_ htake
    show (s.consumer c).stage = _
    rw [hc]
    rfl

/-- What the consumers know after a step in which only `c` moves on. -/
theorem popOk_update {s s' : State α C} {c : C} {x : Pop α} (h : ∀ d, PopOk s (s.consumer d))
    (hw : s'.word = s.word) (hslots : s'.slots = s.slots) (hpushes : s'.pushes = s.pushes)
    (hx : PopOk s x) (d : C) : PopOk s' (update s.consumer c x d) := by
  by_cases hd : d = c
  · subst hd
    rw [update_self]
    exact hx.same hw hslots hpushes
  · rw [update_of_ne hd]
    exact (h d).same hw hslots hpushes

theorem Inv.effect {s s' : State α C} (h : Inv K s) (he : Effect K s s') : Inv K s' := by
  have hword := h.word
  rcases he with ⟨value, hp⟩ | ⟨value, hp⟩ | ⟨value, old, hp⟩ | ⟨value, hp⟩ | ⟨ok, hp⟩ | ⟨c, hc⟩ |
    ⟨c, hc⟩ | ⟨c, old, since, hc⟩ | ⟨c, val, since, hc, hlt⟩ | ⟨c, out, hc⟩
  · refine ⟨⟨hword.gen, hword.count⟩, trivial, fun c => (h.consumer c).same rfl rfl rfl, ?_⟩
    have hidle : stages s.producer s.consumer .producer = .idle := by
      show s.producer.stage = _
      rw [hp]
      rfl
    show (boundedStack α K.CAPACITY).Atomic _ (stages (.load value) s.consumer) s.entries
    rw [stages_producer s.producer]
    exact h.atomic.call (.push value) hidle
  · exact ⟨⟨hword.gen, hword.count⟩, (pushOk_pushLoop hword value).shrink rfl rfl le_rfl,
      fun c => (h.consumer c).same rfl rfl rfl, atomic_pushLook (s := s) h hp⟩
  · exact h.write hp
  · exact h.pushSwap hp
  · refine ⟨⟨hword.gen, hword.count⟩, trivial, fun c => (h.consumer c).same rfl rfl rfl, ?_⟩
    have htaken : stages s.producer s.consumer .producer = .taken (.pushed ok) := by
      show s.producer.stage = _
      rw [hp]
      rfl
    show (boundedStack α K.CAPACITY).Atomic _ (stages .idle s.consumer) s.entries
    rw [stages_producer s.producer]
    exact h.atomic.ret htaken
  · refine ⟨⟨hword.gen, hword.count⟩, h.producer.shrink rfl rfl le_rfl,
      popOk_update h.consumer rfl rfl rfl trivial, ?_⟩
    have hidle : stages s.producer s.consumer (.consumer c) = .idle := by
      show (s.consumer c).stage = _
      rw [hc]
      rfl
    show (boundedStack α K.CAPACITY).Atomic _ (stages _ (update s.consumer c .load)) s.entries
    rw [stages_consumer]
    exact h.atomic.call .pop hidle
  · exact ⟨⟨hword.gen, hword.count⟩, h.producer.shrink rfl rfl le_rfl,
      popOk_update h.consumer rfl rfl rfl (popOk_popLoop hword), atomic_popLook (s := s) h hc⟩
  · have hstale : Stale s old since := by
      have := h.consumer c
      rwa [hc] at this
    refine ⟨⟨hword.gen, hword.count⟩, h.producer.shrink rfl rfl le_rfl,
      popOk_update h.consumer rfl rfl rfl ⟨hstale, fun _ _ => rfl⟩, ?_⟩
    show (boundedStack α K.CAPACITY).Atomic s.history (stages s.producer (update s.consumer c _)) _
    rw [stages_same_consumer s.producer (show _ = (s.consumer c).stage by rw [hc]; rfl)]
    exact h.atomic
  · exact h.popSwap hc hlt
  · refine ⟨⟨hword.gen, hword.count⟩, h.producer.shrink rfl rfl le_rfl,
      popOk_update h.consumer rfl rfl rfl trivial, ?_⟩
    have htaken : stages s.producer s.consumer (.consumer c) = .taken (.popped out) := by
      show (s.consumer c).stage = _
      rw [hc]
      rfl
    show (boundedStack α K.CAPACITY).Atomic _ (stages _ (update s.consumer c .idle)) s.entries
    rw [stages_consumer]
    exact h.atomic.ret htaken

theorem inv_of_run {s : State α C} (h : (machine (α := α) (C := C) K).Run Unwrapped s) : Inv K s :=
  Machine.run_induction (fun _ => inv_start)
    (fun _ _ _ _ ih hg hs => ih.effect (effect_of_step hg hs)) h

/-! ### The result -/

/-- The calls and returns so far are a history of the bounded stack used atomically, which holds
the entries now, and a pop about to succeed takes the value it read off their top. -/
structure Correct (K : Capacity) (s : State α C) : Prop where
  linearizable : ∃ p, (boundedStack α K.CAPACITY).Atomic s.history p s.entries
  pop_top : ∀ c spurious s' val, Unwrapped s (.stepPop c spurious) →
    step K s (.stepPop c spurious) = some s' → s'.consumer c = .ret (some val) →
    s.entries = val :: s'.entries

theorem Inv.correct {s : State α C} (h : Inv K s) : Correct K s := by
  refine ⟨⟨_, h.atomic⟩, fun c spurious s' val hg hs hret => ?_⟩
  replace hs : stepPop s c spurious = some s' := hs
  unfold stepPop at hs
  rcases hc : s.consumer c with _ | _ | ⟨old, since⟩ | ⟨old, v, since⟩ | out <;>
    simp only [hc, reduceCtorEq, Option.some.injEq] at hs
  · subst hs
    simp only [update_self] at hret
    exact absurd hret (popLoop_ne_some _ _ _)
  · subst hs
    simp at hret
  · split_ifs at hs with hw
    · obtain ⟨rfl, -⟩ := hw
      obtain rfl := Option.some.inj hs
      simp only [update_self, Pop.ret.injEq, Option.some.injEq] at hret
      subst hret
      rw [(h.top hc (hg since (by rw [hc]; rfl))).2]
      show _ = v :: stackOf s.slots (lo32 (pack _ _))
      rw [lo32_popped]
    · obtain rfl := Option.some.inj hs
      simp only [update_self] at hret
      exact absurd hret (popLoop_ne_some _ _ _)
  · subst hs
    simp at hret

theorem boundedStack_of_run {s : State α C} (h : (machine K).Run Unwrapped s) : Correct K s :=
  (inv_of_run h).correct

/-- A pop's compare-and-swap fails on a push made since its read, and its second try takes the
pushed value. -/
theorem boundedStack_of_run_overtaken : ∃ (K : Capacity) (s : State ℕ (Fin 2)),
    (machine K).Run Unwrapped s ∧ s.consumer 0 = .ret (some 7) ∧ Correct K s := by
  have hrun : ∃ s, (machine ⟨2, by decide, by decide⟩).Run Unwrapped s
      ∧ s.consumer (0 : Fin 2) = .ret (some 7) :=
    Machine.exists_run (s := ⟨0, fun _ => 0, .idle, fun _ => .idle, 0, []⟩)
      (List.flatten [[.push 5], List.replicate 4 (.stepPush false),
        [.pop 0, .stepPop 0 false, .stepPop 0 false],
        [.push 7], List.replicate 3 (.stepPush false), List.replicate 3 (.stepPop 0 false)])
      ⟨rfl, rfl, rfl, rfl, rfl⟩ (by decide)
  obtain ⟨s, hs, hpop⟩ := hrun
  exact ⟨_, s, hs, hpop, boundedStack_of_run hs⟩

end MinStd.ValueStack
