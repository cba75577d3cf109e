import MinStd.RecursiveSpinMutex

/-!
# The recursive spin mutex has one holder at a time

The spin mutex is taken by one caller at most: the one that holds the recursive mutex, or is about
to, or is about to free it (`Takes`).  Only that caller stores the owner and the depth, and the
owner it stores is itself, so another caller that reads the owner, however stale, never reads
itself; a holder reads itself, as nobody else has stored since.
-/

namespace MinStd.RecursiveSpinMutex

open Function

variable {ι : Type*} {s s' : State ι} {i j : ι} {p : Pc}

/-! ### What each caller knows -/

def Takes (s : State ι) (i : ι) : Prop := Holds s i ∨ (s.pc i).Entering ∨ (s.pc i).Leaving

/-- `i` has no hold on the mutex. -/
structure Outside (s : State ι) (i : ι) : Prop where
  locks : s.locks i = 0
  unlocks : s.unlocks i = 0
  owner : s.owner ≠ some i

/-- `i` holds the mutex, and the owner and the depth say so. -/
structure Holding (s : State ι) (i : ι) : Prop where
  holds : Holds s i
  owner : s.owner = some i
  depth : s.depth = s.count i
  bound : s.depth < 2 ^ 32

/-- Between two of its stores, `i` is either without the mutex or with it. -/
def Settled (s : State ι) (i : ι) : Prop := Outside s i ∨ Holding s i

/-- What an answer says: a lock that succeeds adds one to the caller's count, an unlock takes one
off, and `try_lock` fails only for a caller that does not hold the mutex. -/
def Answered (s : State ι) (i : ι) : Answer → Prop
  | .fresh => True
  | .lock => s.count i = s.before i + 1
  | .tryLock true => s.count i = s.before i + 1
  | .tryLock false => s.before i = 0 ∧ s.count i = 0
  | .unlock => s.count i = s.before i - 1

/-- The answer of a call that takes the mutex. -/
def Answer.Takes : Answer → Prop
  | .lock => True
  | .tryLock taken => taken = true
  | _ => False

/-- A holder's depth is positive, so that counting it down does not wrap. -/
theorem lower_depth (h : Holding s i) : lower s.depth = s.depth - 1 := by
  have hh : s.unlocks i < s.locks i := h.holds
  have hd := h.depth
  have hb := h.bound
  unfold State.count at hd
  rw [lower, show s.depth + 2 ^ 32 - 1 = s.depth - 1 + 2 ^ 32 by omega, Nat.add_mod_right,
    Nat.mod_eq_of_lt (by omega)]

/-- What a caller learns from the owner. -/
theorem Settled.of_owner (h : Settled s i) (ho : s.owner = some i) : Holding s i :=
  h.resolve_left fun h => h.owner ho

theorem Settled.of_not_owner (h : Settled s i) (ho : s.owner ≠ some i) : Outside s i :=
  h.resolve_right fun h => ho h.owner

def PcOk (s : State ι) (i : ι) : Pc → Prop
  | .idle answer => Answered s i answer ∧ Settled s i
  | .lockOwner | .tryOwner | .unlockOwner => s.count i = s.before i ∧ Settled s i
  | .exchange | .spin | .tryLoad | .tryExchange => s.count i = s.before i ∧ Outside s i
  | .storeOwner answer => s.locks i = 0 ∧ s.unlocks i = 0 ∧ s.before i = 0 ∧ answer.Takes
  | .storeDepth answer =>
    s.locks i = 0 ∧ s.unlocks i = 0 ∧ s.owner = some i ∧ s.before i = 0 ∧ answer.Takes
  | .deepenLoad answer => Holding s i ∧ s.count i = s.before i ∧ answer.Takes
  | .deepenStore answer depth =>
    Holding s i ∧ depth = s.depth ∧ s.count i = s.before i ∧ answer.Takes
  | .lowerLoad => Holding s i ∧ s.count i = s.before i
  | .lowerStore depth => Holding s i ∧ depth = s.depth ∧ s.count i = s.before i
  | .clearOwner => s.locks i = s.unlocks i ∧ s.owner = some i ∧ s.before i = 1
  | .release => s.locks i = s.unlocks i ∧ s.owner = none ∧ s.before i = 1

structure Inv (s : State ι) : Prop where
  pc : ∀ i, PcOk s i (s.pc i)
  one : ∀ i j, Takes s i → Takes s j → i = j
  locked : s.locked = true ↔ ∃ i, Takes s i

/-- A program counter at neither end of a hold on the spin mutex. -/
def Pc.Clear (p : Pc) : Prop := ¬ p.Entering ∧ ¬ p.Leaving

theorem takes_iff (h : (s.pc i).Clear) : Takes s i ↔ Holds s i := by
  rw [Takes, or_iff_left (not_or.2 h)]

theorem Outside.not_holds (h : Outside s i) : ¬ Holds s i := by
  have := h.locks
  unfold Holds
  omega

theorem Outside.count (h : Outside s i) : s.count i = 0 := by
  unfold State.count
  rw [h.locks]
  exact Nat.zero_sub _

/-- A caller that has not taken the spin mutex has no hold on the recursive one. -/
theorem PcOk.outside (h : PcOk s i (s.pc i)) (ht : ¬ Takes s i) : Outside s i := by
  have hh : ¬ Holding s i := fun hh => ht (.inl hh.holds)
  unfold Takes at ht
  generalize s.pc i = p at h ht
  cases p <;> simp only [PcOk] at h
  case idle | lockOwner | tryOwner | unlockOwner => exact h.2.resolve_right hh
  case exchange | spin | tryLoad | tryExchange => exact h.2
  case deepenLoad | deepenStore | lowerLoad | lowerStore => exact absurd h.1 hh
  all_goals exact (ht (.inr (by first | exact .inl trivial | exact .inr trivial))).elim

/-! ### What a step leaves alone -/

/-- What a caller's knowledge rests on. -/
theorem PcOk.congr (h : PcOk s j p) (hl : s'.locks j = s.locks j)
    (hu : s'.unlocks j = s.unlocks j) (hb : s'.before j = s.before j)
    (hs : s'.owner = s.owner ∧ s'.depth = s.depth) : PcOk s' j p := by
  have hc : s'.count j = s.count j := by
    unfold State.count
    rw [hl, hu]
  have ha : ∀ a, Answered s' j a ↔ Answered s j a := by
    rintro (_ | _ | (_ | _) | _) <;> simp only [Answered, hc, hb]
  have ho : Outside s j → Outside s' j := by
    intro ho
    exact ⟨by rw [hl, ho.locks], by rw [hu, ho.unlocks], by rw [hs.1]; exact ho.owner⟩
  have hd : Holding s j → Holding s' j := by
    intro hd
    exact ⟨by unfold Holds; rw [hl, hu]; exact hd.holds, by rw [hs.1, hd.owner],
      by rw [hs.2, hc, hd.depth], by rw [hs.2]; exact hd.bound⟩
  cases p <;> simp only [PcOk, hl, hu, hb, hc, ha, hs] at h ⊢
  case idle | lockOwner | tryOwner | unlockOwner => exact ⟨h.1, h.2.imp ho hd⟩
  case exchange | spin | tryLoad | tryExchange => exact ⟨h.1, ho h.2⟩
  case deepenLoad | deepenStore | lowerLoad | lowerStore => exact ⟨hd h.1, h.2⟩
  all_goals exact h

/-- A caller that has not taken the spin mutex only relies on not being the owner. -/
theorem PcOk.congr_outside (h : PcOk s j (s.pc j)) (ht : ¬ Takes s j)
    (hl : s'.locks j = s.locks j) (hu : s'.unlocks j = s.unlocks j)
    (hb : s'.before j = s.before j) (ho : s'.owner ≠ some j) : PcOk s' j (s.pc j) := by
  have hout : Outside s' j :=
    ⟨by rw [hl, (h.outside ht).locks], by rw [hu, (h.outside ht).unlocks], ho⟩
  have hd : ¬ Holding s j := fun hd => ht (.inl hd.holds)
  have hc : s'.count j = s.count j := by
    unfold State.count
    rw [hl, hu]
  have ha : ∀ a, Answered s' j a ↔ Answered s j a := by
    rintro (_ | _ | (_ | _) | _) <;> simp only [Answered, hc, hb]
  unfold Takes at ht
  generalize s.pc j = p at h ht
  cases p <;> simp only [PcOk, hb, hc, ha] at h ⊢
  case idle | lockOwner | tryOwner | unlockOwner => exact ⟨h.1, .inl hout⟩
  case exchange | spin | tryLoad | tryExchange => exact ⟨h.1, hout⟩
  case deepenLoad | deepenStore | lowerLoad | lowerStore => exact absurd h.1 hd
  all_goals exact (ht (.inr (by first | exact .inl trivial | exact .inr trivial))).elim

/-- A step of `i` leaves what the record and the program counters say of the others. -/
structure Frame (s s' : State ι) (i : ι) : Prop where
  pc : ∀ j, j ≠ i → s'.pc j = s.pc j
  locks : ∀ j, j ≠ i → s'.locks j = s.locks j
  unlocks : ∀ j, j ≠ i → s'.unlocks j = s.unlocks j
  before : ∀ j, j ≠ i → s'.before j = s.before j

theorem Frame.takes (h : Frame s s' i) (hj : j ≠ i) : Takes s' j ↔ Takes s j := by
  unfold Takes Holds
  rw [h.pc j hj, h.locks j hj, h.unlocks j hj]

/-- Only the caller that has taken the spin mutex stores the owner or the depth, and the owner it
stores is no one else. -/
structure Owned (s s' : State ι) (i : ι) : Prop where
  others : ¬ Takes s i → s'.owner = s.owner ∧ s'.depth = s.depth
  owner : s'.owner = s.owner ∨ s'.owner = some i ∨ s'.owner = none

/-- The spin mutex goes with the caller that takes or frees it. -/
structure Locked (s s' : State ι) (i : ι) : Prop where
  stays : (Takes s' i ↔ Takes s i) → s'.locked = s.locked
  takes : ¬ Takes s i → Takes s' i → s.locked = false ∧ s'.locked = true
  frees : Takes s i → ¬ Takes s' i → s'.locked = false

theorem Inv.keep (hi : Inv s) (hf : Frame s s' i) (ho : Owned s s' i) (hl : Locked s s' i)
    (hp : PcOk s' i (s'.pc i)) : Inv s' := by
  have hfree : ∀ j, j ≠ i → Takes s i → ¬ Takes s j := fun j hj ht h => hj (hi.one j i h ht)
  have hnone : ∀ j, ¬ Takes s i → Takes s' i → ¬ Takes s j := by
    intro j h h' hj
    have := hi.locked.2 ⟨j, hj⟩
    rw [(hl.takes h h').1] at this
    cases this
  refine ⟨?_, ?_, ?_⟩
  · intro j
    by_cases hj : j = i
    · rw [hj]
      exact hp
    rw [hf.pc j hj]
    by_cases ht : Takes s j
    · exact (hi.pc j).congr (hf.locks j hj) (hf.unlocks j hj) (hf.before j hj)
        (ho.others fun h => hfree j hj h ht)
    refine (hi.pc j).congr_outside ht (hf.locks j hj) (hf.unlocks j hj) (hf.before j hj) ?_
    rcases ho.owner with h | h | h
    · rw [h]
      exact ((hi.pc j).outside ht).owner
    · rw [h]
      exact fun h => hj (Option.some.inj h).symm
    · rw [h]
      exact nofun
  · have main : ∀ j, j ≠ i → Takes s' j → ¬ Takes s' i := by
      intro j hj ht hti
      rw [hf.takes hj] at ht
      by_cases h : Takes s i
      · exact hfree j hj h ht
      · exact hnone j h hti ht
    intro j k hj hk
    by_cases hji : j = i
    · by_contra hjk
      exact main k (fun h => hjk (hji.trans h.symm)) hk (hji ▸ hj)
    by_cases hki : k = i
    · exact absurd (hki ▸ hk) (main j hji hj)
    · exact hi.one j k ((hf.takes hji).1 hj) ((hf.takes hki).1 hk)
  · by_cases h : Takes s i
    · by_cases h' : Takes s' i
      · rw [hl.stays (iff_of_true h' h), hi.locked]
        exact iff_of_true ⟨i, h⟩ ⟨i, h'⟩
      · rw [hl.frees h h']
        refine iff_of_false nofun ?_
        rintro ⟨j, hj⟩
        by_cases hji : j = i
        · exact h' (hji ▸ hj)
        · exact hfree j hji h ((hf.takes hji).1 hj)
    · by_cases h' : Takes s' i
      · rw [(hl.takes h h').2]
        exact iff_of_true rfl ⟨i, h'⟩
      · rw [hl.stays (iff_of_false h' h), hi.locked]
        refine ⟨?_, ?_⟩
        · rintro ⟨j, hj⟩
          exact ⟨j, (hf.takes fun hji => h (hji ▸ hj)).2 hj⟩
        · rintro ⟨j, hj⟩
          exact ⟨j, (hf.takes fun hji => h' (hji ▸ hj)).1 hj⟩

/-- A step of the caller that has taken the spin mutex. -/
theorem Inv.own (hi : Inv s) (hf : Frame s s' i) (ht : Takes s i)
    (ho : s'.owner = s.owner ∨ s'.owner = some i ∨ s'.owner = none)
    (hl : Takes s' i → s'.locked = s.locked) (hl' : ¬ Takes s' i → s'.locked = false)
    (hp : PcOk s' i (s'.pc i)) : Inv s' :=
  hi.keep hf ⟨fun h => absurd ht h, ho⟩
    ⟨fun h => hl (h.2 ht), fun h => absurd ht h, fun _ => hl'⟩ hp

/-! ### The steps -/

variable [DecidableEq ι]

@[simp] theorem setPc_pc (s : State ι) (i : ι) (p : Pc) : (s.setPc i p).pc i = p := update_self ..

theorem Frame.setPc (s : State ι) (i : ι) (p : Pc) : Frame s (s.setPc i p) i :=
  ⟨fun _ hj => update_of_ne hj .., fun _ _ => rfl, fun _ _ => rfl, fun _ _ => rfl⟩

theorem run_frame {p : Pc} (hi : Inv s) (hp : s.pc i = p) (hs : run s i p = some s') :
    Frame s s' i := by
  cases p <;> simp only [run, Option.some.injEq, reduceCtorEq] at hs
  case release =>
    subst hs
    have ht : Takes s i := .inr (.inr (by rw [hp]; trivial))
    have hout : ∀ j, j ≠ i → Outside s j :=
      fun j hj => (hi.pc j).outside fun h => hj (hi.one j i h ht)
    exact ⟨fun _ hj => update_of_ne hj .., fun j hj => (hout j hj).locks.symm,
      fun j hj => (hout j hj).unlocks.symm, fun _ _ => rfl⟩
  all_goals
    subst hs
    exact ⟨fun _ hj => update_of_ne hj .., fun _ hj => by simp [State.setPc, State.addLock,
      State.addUnlock, State.setDepth, hj], fun _ hj => by simp [State.setPc, State.addLock,
      State.addUnlock, State.setDepth, hj], fun _ _ => rfl⟩

@[simp] theorem pcOk_setPc {p q : Pc} : PcOk (s.setPc i p) j q ↔ PcOk s j q := by
  constructor <;> exact fun h => h.congr rfl rfl rfl ⟨rfl, rfl⟩

theorem takes_setPc {p : Pc} :
    Takes (s.setPc i p) i ↔ Holds s i ∨ p.Entering ∨ p.Leaving := by
  simp [Takes, Holds, State.setPc]

/-- A step that only reads. -/
theorem Inv.move {p : Pc} (hi : Inv s) (hc : (s.pc i).Clear) (hc' : p.Clear)
    (hp : PcOk s i p) : Inv (s.setPc i p) := by
  have ht : Takes (s.setPc i p) i ↔ Takes s i := by
    rw [takes_setPc, or_iff_left (not_or.2 hc'), takes_iff hc]
  refine hi.keep (.setPc s i p) ⟨fun _ => ⟨rfl, rfl⟩, .inl rfl⟩ ⟨fun _ => rfl, ?_, ?_⟩ ?_
  · exact fun h h' => absurd (ht.1 h') h
  · exact fun h h' => absurd (ht.2 h) h'
  · rw [setPc_pc]
    exact pcOk_setPc.2 hp

/-- The exchange that takes a free spin mutex. -/
theorem Inv.take {answer : Answer} (hi : Inv s) (hfree : s.locked ≠ true)
    (hok : s.count i = s.before i ∧ Outside s i) (ha : answer.Takes) :
    Inv ({ s with locked := true }.setPc i (.storeOwner answer)) := by
  have ht : ¬ Takes s i := fun h => hfree (hi.locked.2 ⟨i, h⟩)
  refine hi.keep ⟨fun _ hj => update_of_ne hj .., fun _ _ => rfl, fun _ _ => rfl, fun _ _ => rfl⟩
    ⟨fun _ => ⟨rfl, rfl⟩, .inl rfl⟩ ⟨?_, fun _ _ => ⟨eq_false_of_ne_true hfree, rfl⟩,
    fun h => absurd h ht⟩ ?_
  · exact fun h => absurd (h.1 (takes_setPc.2 (.inr (.inl trivial)))) ht
  · rw [setPc_pc]
    refine ⟨hok.2.locks, hok.2.unlocks, ?_, ha⟩
    rw [← hok.2.count]
    exact hok.1.symm

/-- The exchange that finds the spin mutex taken. -/
theorem Inv.busy {p : Pc} (hi : Inv s) (hl : s.locked = true) (hc : (s.pc i).Clear)
    (hc' : p.Clear) (hp : PcOk s i p) : Inv ({ s with locked := true }.setPc i p) := by
  have : { s with locked := true } = s := by
    cases s
    simp_all
  rw [this]
  exact hi.move hc hc' hp

omit [DecidableEq ι] in
theorem Answered.of_takes {answer : Answer} (ha : answer.Takes)
    (hc : s.count i = s.before i + 1) : Answered s i answer := by
  rcases answer with _ | _ | (_ | _) | _
  case lock => exact hc
  case tryLock.true => exact hc
  case tryLock.false => exact absurd ha nofun
  all_goals exact ha.elim

theorem Inv.run {p : Pc} (hi : Inv s) (hp : s.pc i = p) (hs : run s i p = some s')
    (hn : Nested s (.run i)) : Inv s' := by
  have hf := run_frame hi hp hs
  have hok := hi.pc i
  rw [hp] at hok
  have clear : p.Clear → (s.pc i).Clear := fun h => by rwa [hp]
  cases p <;> simp only [RecursiveSpinMutex.run, Option.some.injEq, reduceCtorEq] at hs
    <;> subst hs
  case lockOwner =>
    split_ifs with h
    · exact hi.move (clear ⟨id, id⟩) ⟨id, id⟩ ⟨hok.2.of_owner h, hok.1, trivial⟩
    · exact hi.move (clear ⟨id, id⟩) ⟨id, id⟩ ⟨hok.1, hok.2.of_not_owner h⟩
  case tryOwner =>
    split_ifs with h
    · exact hi.move (clear ⟨id, id⟩) ⟨id, id⟩ ⟨hok.2.of_owner h, hok.1, rfl⟩
    · exact hi.move (clear ⟨id, id⟩) ⟨id, id⟩ ⟨hok.1, hok.2.of_not_owner h⟩
  case unlockOwner =>
    split_ifs with h
    · exact hi.move (clear ⟨id, id⟩) ⟨id, id⟩ ⟨hok.2.of_owner h, hok.1⟩
    · have hout := hok.2.of_not_owner h
      refine hi.move (clear ⟨id, id⟩) ⟨id, id⟩ ⟨?_, .inl hout⟩
      rw [Answered, ← hok.1, hout.count]
  case exchange =>
    split_ifs with h
    · exact hi.busy h (clear ⟨id, id⟩) ⟨id, id⟩ hok
    · exact hi.take h hok trivial
  case spin =>
    split_ifs with h
    · exact hi.move (clear ⟨id, id⟩) ⟨id, id⟩ hok
    · exact hi.move (clear ⟨id, id⟩) ⟨id, id⟩ hok
  case tryLoad =>
    split_ifs with h
    · exact hi.move (clear ⟨id, id⟩) ⟨id, id⟩
        ⟨⟨hok.1 ▸ hok.2.count, hok.2.count⟩, .inl hok.2⟩
    · exact hi.move (clear ⟨id, id⟩) ⟨id, id⟩ hok
  case tryExchange =>
    split_ifs with h
    · exact hi.busy h (clear ⟨id, id⟩) ⟨id, id⟩
        ⟨⟨hok.1 ▸ hok.2.count, hok.2.count⟩, .inl hok.2⟩
    · exact hi.take h hok rfl
  case storeOwner answer =>
    have ht : Takes s i := .inr (.inl (by rw [hp]; trivial))
    refine hi.own hf ht (.inr (.inl rfl)) (fun _ => rfl) ?_ ?_
    · exact fun h => (h (takes_setPc.2 (.inr (.inl trivial)))).elim
    · rw [setPc_pc]
      exact ⟨hok.1, hok.2.1, rfl, hok.2.2⟩
  case storeDepth answer =>
    obtain ⟨hl, hu, ho, hb, ha⟩ := hok
    have ht : Takes s i := .inr (.inl (by rw [hp]; trivial))
    have hh : Holds ((s.setDepth 1).addLock i) i := by
      simp [Holds, State.addLock, State.setDepth, hu]
    have hcount : (((s.setDepth 1).addLock i).setPc i (.idle answer)).count i = 1 := by
      simp [State.count, State.setPc, State.addLock, State.setDepth, hl, hu]
    refine hi.own hf ht (.inl rfl) (fun _ => rfl) ?_ ?_
    · exact fun h => (h (takes_setPc.2 (.inl hh))).elim
    · rw [setPc_pc]
      refine ⟨.of_takes ha (hcount.trans ?_), .inr ⟨hh, ho, hcount.symm, ?_⟩⟩
      · show 1 = s.before i + 1
        rw [hb]
      · simp [State.setPc, State.addLock, State.setDepth]
  case deepenLoad answer =>
    exact hi.move (clear ⟨id, id⟩) ⟨id, id⟩ ⟨hok.1, rfl, hok.2⟩
  case lowerLoad =>
    exact hi.move (clear ⟨id, id⟩) ⟨id, id⟩ ⟨hok.1, rfl, hok.2⟩
  case deepenStore answer depth =>
    obtain ⟨hd, rfl, hb, ha⟩ := hok
    have hbound : s.count i + 1 < 2 ^ 32 := by
      rw [Nested, hp] at hn
      exact hn
    have hlt : s.unlocks i < s.locks i := hd.holds
    have hdepth := hd.depth
    have hdeeper : deeper s.depth = s.depth + 1 := Nat.mod_eq_of_lt (by omega)
    have hh : Holds ((s.setDepth (deeper s.depth)).addLock i) i := by
      simp only [Holds, State.addLock, State.setDepth, update_self]
      omega
    have hcount : (((s.setDepth (deeper s.depth)).addLock i).setPc i (.idle answer)).count i
        = s.count i + 1 := by
      simp only [State.count, State.setPc, State.addLock, State.setDepth, update_self]
      omega
    refine hi.own hf (.inl hd.holds) (.inl rfl) (fun _ => rfl) ?_ ?_
    · exact fun h => (h (takes_setPc.2 (.inl hh))).elim
    · rw [setPc_pc]
      refine ⟨.of_takes ha (hcount.trans ?_), .inr ⟨hh, hd.owner, ?_, ?_⟩⟩
      · show s.count i + 1 = s.before i + 1
        rw [hb]
      · show deeper s.depth = _
        rw [hcount, hdeeper, hdepth]
      · exact Nat.mod_lt _ (Nat.two_pow_pos 32)
  case lowerStore depth =>
    obtain ⟨hd, rfl, hb⟩ := hok
    have hlt : s.unlocks i < s.locks i := hd.holds
    have hdepth := hd.depth
    have hbound := hd.bound
    have hlower := lower_depth hd
    obtain ⟨depth, hdepth'⟩ : ∃ depth, lower s.depth = depth := ⟨_, rfl⟩
    rw [hdepth'] at hf hlower ⊢
    have hcount : ∀ p, (((s.setDepth depth).addUnlock i).setPc i p).count i = s.count i - 1 := by
      intro p
      simp only [State.count, State.setPc, State.addUnlock, State.setDepth, update_self]
      omega
    have hh : Holds ((s.setDepth depth).addUnlock i) i ↔ depth ≠ 0 := by
      simp only [Holds, State.addUnlock, State.setDepth, update_self]
      unfold State.count at hdepth
      omega
    split_ifs at hf ⊢ with h
    · have hz : depth = 0 := h
      refine hi.own hf (.inl hd.holds) (.inl rfl) (fun _ => rfl) ?_ ?_
      · exact fun h => (h (takes_setPc.2 (.inr (.inr trivial)))).elim
      · rw [setPc_pc]
        unfold State.count at hdepth hb
        refine ⟨?_, hd.owner, ?_⟩
        · simp only [State.setPc, State.addUnlock, State.setDepth, update_self]
          omega
        · show s.before i = 1
          omega
    · refine hi.own hf (.inl hd.holds) (.inl rfl) (fun _ => rfl) ?_ ?_
      · exact fun h' => (h' (takes_setPc.2 (.inl (hh.2 h)))).elim
      · rw [setPc_pc]
        refine ⟨(hcount _).trans ?_, .inr ⟨hh.2 h, hd.owner, ?_, ?_⟩⟩
        · show s.count i - 1 = s.before i - 1
          rw [hb]
        · show depth = _
          rw [hcount, ← hdepth]
          exact hlower
        · show depth < 2 ^ 32
          omega
  case clearOwner =>
    have ht : Takes s i := .inr (.inr (by rw [hp]; trivial))
    refine hi.own hf ht (.inr (.inr rfl)) (fun _ => rfl) ?_ ?_
    · exact fun h => (h (takes_setPc.2 (.inr (.inr trivial)))).elim
    · rw [setPc_pc]
      exact ⟨hok.1, rfl, hok.2.2⟩
  case release =>
    have ht : Takes s i := .inr (.inr (by rw [hp]; trivial))
    refine hi.own hf ht (.inl rfl) ?_ (fun _ => rfl) ?_
    · intro h
      rw [takes_setPc] at h
      rcases h with h | h | h
      · exact absurd h (Nat.lt_irrefl 0)
      · exact h.elim
      · exact h.elim
    · rw [setPc_pc]
      refine ⟨?_, .inl ⟨rfl, rfl, by simp [State.setPc, State.free, hok.2.1]⟩⟩
      show 0 - 0 = s.before i - 1
      rw [hok.2.2]

theorem Inv.call {c : Call} {answer : Answer} (hi : Inv s) (hp : s.pc i = .idle answer) :
    Inv ({ s with before := update s.before i (s.count i) }.setPc i c.start) := by
  have hok : Settled s i := by
    have := hi.pc i
    rw [hp] at this
    exact this.2
  have hc : (s.pc i).Clear := by
    rw [hp]
    exact ⟨id, id⟩
  have hc' : c.start.Clear := by cases c <;> exact ⟨id, id⟩
  have ht : Takes ({ s with before := update s.before i (s.count i) }.setPc i c.start) i
      ↔ Takes s i := by
    rw [takes_setPc, or_iff_left (not_or.2 hc'), takes_iff hc]
    rfl
  refine hi.keep ⟨fun _ hj => update_of_ne hj .., fun _ _ => rfl, fun _ _ => rfl,
    fun _ hj => update_of_ne hj ..⟩ ⟨fun _ => ⟨rfl, rfl⟩, .inl rfl⟩ ⟨fun _ => rfl, ?_, ?_⟩ ?_
  · exact fun h h' => absurd (ht.1 h') h
  · exact fun h h' => absurd (ht.2 h) h'
  · have hset : Settled ({ s with before := update s.before i (s.count i) }.setPc i c.start) i :=
      hok.imp (fun h => ⟨h.locks, h.unlocks, h.owner⟩)
        fun h => ⟨h.holds, h.owner, h.depth, h.bound⟩
    have hbefore : ({ s with before := update s.before i (s.count i) }.setPc i c.start).count i
        = ({ s with before := update s.before i (s.count i) }.setPc i c.start).before i :=
      (update_self i (s.count i) s.before).symm
    rw [setPc_pc]
    cases c <;> exact ⟨hbefore, hset⟩

theorem inv_of_run (h : machine.Run Nested s) : Inv s := by
  refine Machine.run_induction ?_ ?_ h
  · rintro s rfl
    have hn : ∀ i, ¬ Takes (initial : State ι) i := by
      rintro i (h | h | h)
      · exact absurd h (Nat.lt_irrefl 0)
      · exact h
      · exact h
    exact ⟨fun i => ⟨trivial, .inl ⟨rfl, rfl, nofun⟩⟩, fun i j hi => absurd hi (hn i),
      iff_of_false nofun fun ⟨i, hi⟩ => hn i hi⟩
  · intro s s' a _ hi hn hs
    cases a with
    | run i => exact hi.run rfl hs hn
    | call i c =>
      simp only [machine, step] at hs
      split at hs
      · rename_i hp
        cases hs
        exact hi.call hp
      · cases hs

/-! ### What callers see -/

/-- What a state of the mutex shows. -/
structure Sound (s : State ι) : Prop where
  one : ∀ i j, Holds s i → Holds s j → i = j
  depth : ∀ i, Holds s i → s.depth = s.count i
  /-- Taken means held, or on the way to be, or about to be freed by the holder whose count has
  reached zero. -/
  locked : s.locked = true ↔ ∃ i, Holds s i ∨ (s.pc i).Entering ∨ (s.pc i).Leaving
  leaving : ∀ i, (s.pc i).Leaving → s.locks i = s.unlocks i
  /-- A caller that was told it has the mutex holds it. -/
  holds : ∀ i, s.pc i = .idle .lock ∨ s.pc i = .idle (.tryLock true) → Holds s i
  /-- The count is of the locks that succeeded and the unlocks of the holder. -/
  answered : ∀ i a, s.pc i = .idle a → Answered s i a

/-- What a step of the mutex does. -/
structure SoundStep (s : State ι) (a : Action ι) (s' : State ι) : Prop where
  /-- The unlock that brings the count to zero goes on to free the mutex. -/
  zero : ∀ i, Holds s i → ¬ Holds s' i → a = .run i ∧ s'.pc i = .clearOwner
  /-- Nothing else frees it. -/
  frees : s.locked = true → s'.locked = false →
    ∃ i, a = .run i ∧ s.pc i = .release ∧ s.locks i = s.unlocks i
  tryLock : ∀ i, a = .run i → s.pc i = .tryOwner → 0 < s.before i →
    s' = s.setPc i (.deepenLoad (.tryLock true))
  unlock : ∀ i, a = .run i → s.pc i = .unlockOwner → s.before i = 0 →
    s' = s.setPc i (.idle .unlock)
  /-- A caller's count changes in its own calls only. -/
  others : ∀ i, a ≠ .run i → s'.count i = s.count i

/-- Only the store that brings the depth to zero ends a hold. -/
theorem run_zero {p : Pc} (hok : PcOk s i p) (hs : run s i p = some s') (h : Holds s i)
    (h' : ¬ Holds s' i) : s'.pc i = .clearOwner := by
  have hlt : s.unlocks i < s.locks i := h
  have holds : ∀ {t : State ι}, t.unlocks i = s.unlocks i → t.locks i ≥ s.locks i → Holds t i := by
    intro t hu hl
    unfold Holds
    omega
  cases p <;> simp only [run, Option.some.injEq, reduceCtorEq] at hs <;> subst hs
  case storeDepth =>
    exact (h' (holds rfl (by simp [State.setPc, State.addLock, State.setDepth]))).elim
  case deepenStore =>
    exact (h' (holds rfl (by simp [State.setPc, State.addLock, State.setDepth]))).elim
  case lowerStore =>
    obtain ⟨hd, rfl, -⟩ := hok
    have hdepth := hd.depth
    have hlower := lower_depth hd
    unfold State.count at hdepth
    have hz : ((s.setDepth (lower s.depth)).addUnlock i).depth = 0 := by
      simp only [Holds, State.setPc, State.addUnlock, State.setDepth, update_self] at h' ⊢
      omega
    rw [if_pos hz, setPc_pc]
  case release =>
    have := hok.1
    omega
  all_goals exact (h' (holds rfl (Nat.le_refl _))).elim

/-- Only the last store of an unlock frees the spin mutex. -/
theorem run_frees {p : Pc} (hs : run s i p = some s') (h : s.locked = true)
    (h' : s'.locked = false) : p = .release := by
  cases p <;> simp only [run, Option.some.injEq, reduceCtorEq] at hs <;> subst hs
  case release => rfl
  case exchange => cases h'
  case tryExchange => cases h'
  all_goals
    simp only [State.setPc, State.setDepth, State.addLock, State.addUnlock, h] at h'
    cases h'

omit [DecidableEq ι] in
theorem Inv.sound (hi : Inv s) : Sound s where
  one i j h h' := hi.one i j (.inl h) (.inl h')
  depth i h := by
    have hok := hi.pc i
    have hn : ¬ Outside s i := fun ho => ho.not_holds h
    have hh : s.unlocks i < s.locks i := h
    generalize s.pc i = p at hok
    cases p <;> simp only [PcOk, Settled, hn, and_false, false_or] at hok
    case idle | lockOwner | tryOwner | unlockOwner => exact hok.2.depth
    case deepenLoad | deepenStore | lowerLoad | lowerStore => exact hok.1.depth
    all_goals omega
  locked := hi.locked
  leaving i h := by
    have hok := hi.pc i
    generalize s.pc i = p at hok h
    cases p <;> first | exact h.elim | exact hok.1
  holds i h := by
    have hok := hi.pc i
    have hpos : s.count i = s.before i + 1 := by
      rcases h with h | h
      · rw [h] at hok
        exact hok.1
      · rw [h] at hok
        exact hok.1
    unfold State.count at hpos
    unfold Holds
    omega
  answered i a h := by
    have hok := hi.pc i
    rw [h] at hok
    exact hok.1

theorem Inv.sound_step {a : Action ι} (hi : Inv s) (hs : step s a = some s') :
    SoundStep s a s' := by
  cases a with
  | call i c =>
    simp only [step] at hs
    split at hs
    · cases hs
      exact ⟨fun _ h h' => absurd h h', fun h h' => absurd (h.symm.trans h') nofun, nofun, nofun,
        fun _ _ => rfl⟩
    · cases hs
  | run i =>
    have hok := hi.pc i
    have hf := run_frame hi rfl hs
    simp only [step] at hs
    refine ⟨?_, ?_, ?_, ?_, ?_⟩
    · intro j h h'
      have hj : j = i := by
        by_contra hj
        unfold Holds at h h'
        rw [hf.locks j hj, hf.unlocks j hj] at h'
        exact h' h
      subst hj
      refine ⟨rfl, ?_⟩
      exact run_zero hok hs h h'
    · intro h h'
      have hp := run_frees hs h h'
      rw [hp] at hok
      exact ⟨i, rfl, hp, hok.1⟩
    · rintro _ ⟨⟩ hp hh
      rw [hp] at hs
      simp only [RecursiveSpinMutex.run, Option.some.injEq] at hs
      rw [hp] at hok
      have ho : s.owner = some i := by
        rcases hok with ⟨hb, ho | ho⟩
        · rw [← hb, ho.count] at hh
          cases hh
        · exact ho.owner
      rw [← hs, if_pos ho]
    · rintro _ ⟨⟩ hp hh
      rw [hp] at hs
      simp only [RecursiveSpinMutex.run, Option.some.injEq] at hs
      rw [hp] at hok
      have ho : s.owner ≠ some i := by
        rcases hok with ⟨hb, ho | ho⟩
        · exact ho.owner
        · exact absurd (hb.trans hh) (Nat.sub_ne_zero_of_lt ho.holds)
      rw [← hs, if_neg ho]
    · intro j hj
      have hj : j ≠ i := fun h => hj (h ▸ rfl)
      unfold State.count
      rw [hf.locks j hj, hf.unlocks j hj]

/-- One owner at a time holds the mutex, `depth_` is its locks less its unlocks, and the mutex is
freed by the unlock that brings them level and by nothing else; the holder's `try_lock` finds
itself the owner, and an `unlock` by anyone else finds that it is not. -/
theorem one_holder_of_run (h : machine.Run Nested s) :
    Sound s ∧ ∀ a s', machine.step s a = some s' → SoundStep s a s' :=
  ⟨(inv_of_run h).sound, fun _ _ hs => (inv_of_run h).sound_step hs⟩

/-- An owner locks twice, another fails to lock and to unlock, and takes the mutex over once the
first has unlocked twice. -/
theorem one_holder_of_run_nested : ∃ s : State Bool, machine.Run Nested s ∧ s.owner = some true
    ∧ s.pc true = .idle (.tryLock true)
    ∧ Sound s ∧ ∀ a s', machine.step s a = some s' → SoundStep s a s' := by
  have hrun : ∃ s : State Bool, machine.Run Nested s
      ∧ s.owner = some true ∧ s.pc true = .idle (.tryLock true) :=
    Machine.exists_run (s := initial)
      [.call false .lock, .run false, .run false, .run false, .run false, .call false .tryLock,
        .run false, .run false, .run false, .call true .tryLock, .run true, .run true,
        .call true .unlock, .run true, .call false .unlock, .run false, .run false, .run false,
        .call true .tryLock, .run true, .call false .unlock, .run false, .run false, .run false,
        .run false, .run false, .run true, .run true, .run true, .run true] rfl (by decide)
  obtain ⟨s, hs, ho, hp⟩ := hrun
  exact ⟨s, hs, ho, hp, one_holder_of_run hs⟩

end MinStd.RecursiveSpinMutex
