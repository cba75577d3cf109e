import MinStd.EliminationArray
import Mathlib.Data.List.Nodup

/-!
# The elimination array pairs puts with gets

A slot that is not empty has one owner, the thread that claimed it, and while an offer is being
taken up one partner; every other thread's compare-and-swap on it fails.  A put and a get meet where
the partner's compare-and-swap takes the offer up: the owner's put or get had met nobody before, as
an offer is taken up once, nor had the partner's.  From there on the partner alone moves the element
until it sets the slot to `ELIMINATED`, and the owner alone after that, so the get reads the
element of its own put.
-/

namespace MinStd.EliminationArray

open Function

variable {τ ι ε : Type*}

/-! ### What a call under way knows -/

/-- The slot a thread has claimed. -/
def Pc.owns : Pc ι ε → Option ι
  | .putElement _ i => some i
  | .putWaiting _ i => some i
  | .putCancel _ i => some i
  | .putFinish i => some i
  | .getCancel i => some i
  | .getFinish i => some i
  | .getLoad i => some i
  | .getNull i _ => some i
  | .getEmpty i _ => some i
  | _ => none

/-- The slot whose offer a thread has taken up. -/
def Pc.joins : Pc ι ε → Option ι
  | .putGive _ i => some i
  | .putGiven i => some i
  | .getTake i => some i
  | .getClear i _ => some i
  | .getTaken i _ => some i
  | _ => none

/-- `t`'s put of `e` has met no get. -/
def Offers (s : State τ ι ε) (t : τ) (e : ε) : Prop :=
  .put (s.call t) (some e) ∈ s.history ∧ ∀ x ∈ s.exchanges, x.put ≠ s.call t

/-- `t`'s get has met no put. -/
def Seeks (s : State τ ι ε) (t : τ) : Prop :=
  .get (s.call t) ∈ s.history ∧ ∀ x ∈ s.exchanges, x.get ≠ s.call t

/-- `t`'s put has met a get. -/
def PutDone (s : State τ ι ε) (t : τ) : Prop := ∃ x ∈ s.exchanges, x.put = s.call t

/-- `t`'s get has met the put of `e`. -/
def GetDone (s : State τ ι ε) (t : τ) (e : Option ε) : Prop :=
  ∃ x ∈ s.exchanges, x.get = s.call t ∧ e = some x.element

/-- `t` owns slot `i`, which is in `state`. -/
structure Owns (s : State τ ι ε) (t : τ) (i : ι) (state : SlotState) : Prop where
  owner : (s.slots i).owner = t
  state : (s.slots i).state = state

/-- `t` has taken up the offer of slot `i`, which is in `state`. -/
structure Joins (s : State τ ι ε) (t : τ) (i : ι) (state : SlotState) : Prop where
  partner : (s.slots i).partner = t
  state : (s.slots i).state = state

/-- `t`'s put of `e` has met the get of the slot's owner. -/
def Met (s : State τ ι ε) (t : τ) (i : ι) (e : Option ε) : Prop :=
  ∃ x ∈ s.exchanges, x.put = s.call t ∧ x.get = s.call (s.slots i).owner ∧ e = some x.element

def PcOk (s : State τ ι ε) (t : τ) : Pc ι ε → Prop
  | .idle => True
  | .putFirst e _ => Offers s t e
  | .putSecond e _ _ => Offers s t e
  | .putElement e i => Owns s t i .PUT_SETUP ∧ Offers s t e
  | .putWaiting e i => Owns s t i .PUT_SETUP ∧ Offers s t e ∧ (s.slots i).element = some e
  | .putCancel e i =>
    (Owns s t i .WAITING_GET ∧ Offers s t e ∧ (s.slots i).element = some e)
      ∨ (Owns s t i .ELIMINATING_GET ∨ Owns s t i .ELIMINATED) ∧ PutDone s t
  | .putFinish i => (Owns s t i .ELIMINATING_GET ∨ Owns s t i .ELIMINATED) ∧ PutDone s t
  | .putGive e i => Joins s t i .ELIMINATING_PUT ∧ Met s t i (some e)
  | .putGiven i => Joins s t i .ELIMINATING_PUT ∧ Met s t i (s.slots i).element
  | .putRet ok => (ok = true → PutDone s t) ∧ (ok = false → ∀ x ∈ s.exchanges, x.put ≠ s.call t)
  | .getFirst _ => Seeks s t
  | .getSecond _ _ => Seeks s t
  | .getTake i => Joins s t i .ELIMINATING_GET ∧ GetDone s t (s.slots i).element
  | .getClear i e => Joins s t i .ELIMINATING_GET ∧ GetDone s t e
  | .getTaken i e => Joins s t i .ELIMINATING_GET ∧ GetDone s t e
  | .getCancel i =>
    (Owns s t i .WAITING_PUT ∧ Seeks s t) ∨ Owns s t i .ELIMINATING_PUT
      ∨ Owns s t i .ELIMINATED ∧ GetDone s t (s.slots i).element
  | .getFinish i =>
    Owns s t i .ELIMINATING_PUT ∨ Owns s t i .ELIMINATED ∧ GetDone s t (s.slots i).element
  | .getLoad i => Owns s t i .GET_CLEANUP ∧ GetDone s t (s.slots i).element
  | .getNull i e => Owns s t i .GET_CLEANUP ∧ GetDone s t e
  | .getEmpty i e => Owns s t i .GET_CLEANUP ∧ GetDone s t e
  | .getRet none => ∀ x ∈ s.exchanges, x.get ≠ s.call t
  | .getRet (some e) => GetDone s t e

/-- The states a thread's own slot can be in. -/
def Pc.states : Pc ι ε → List SlotState
  | .putElement _ _ => [.PUT_SETUP]
  | .putWaiting _ _ => [.PUT_SETUP]
  | .putCancel _ _ => [.WAITING_GET, .ELIMINATING_GET, .ELIMINATED]
  | .putFinish _ => [.ELIMINATING_GET, .ELIMINATED]
  | .getCancel _ => [.WAITING_PUT, .ELIMINATING_PUT, .ELIMINATED]
  | .getFinish _ => [.ELIMINATING_PUT, .ELIMINATED]
  | .getLoad _ => [.GET_CLEANUP]
  | .getNull _ _ => [.GET_CLEANUP]
  | .getEmpty _ _ => [.GET_CLEANUP]
  | _ => []

theorem PcOk.owner {s : State τ ι ε} {t : τ} {p : Pc ι ε} {i : ι} (h : PcOk s t p)
    (hp : p.owns = some i) : (s.slots i).owner = t ∧ (s.slots i).state ∈ p.states := by
  have owns : ∀ {state}, Owns s t i state → state ∈ p.states →
      (s.slots i).owner = t ∧ (s.slots i).state ∈ p.states := by
    intro state ho hstate
    exact ⟨ho.owner, by rw [ho.state]; exact hstate⟩
  cases p <;> simp only [Pc.owns, reduceCtorEq, Option.some.injEq] at hp <;> subst hp
  case putElement => exact owns h.1 (by simp [Pc.states])
  case putWaiting => exact owns h.1 (by simp [Pc.states])
  case putCancel =>
    rcases h with h | ⟨h | h, -⟩
    · exact owns h.1 (by simp [Pc.states])
    · exact owns h (by simp [Pc.states])
    · exact owns h (by simp [Pc.states])
  case putFinish =>
    rcases h with ⟨h | h, -⟩
    · exact owns h (by simp [Pc.states])
    · exact owns h (by simp [Pc.states])
  case getCancel =>
    rcases h with h | h | h
    · exact owns h.1 (by simp [Pc.states])
    · exact owns h (by simp [Pc.states])
    · exact owns h.1 (by simp [Pc.states])
  case getFinish =>
    rcases h with h | h
    · exact owns h (by simp [Pc.states])
    · exact owns h.1 (by simp [Pc.states])
  case getLoad => exact owns h.1 (by simp [Pc.states])
  case getNull => exact owns h.1 (by simp [Pc.states])
  case getEmpty => exact owns h.1 (by simp [Pc.states])

theorem PcOk.partner {s : State τ ι ε} {t : τ} {p : Pc ι ε} {i : ι} (h : PcOk s t p)
    (hp : p.joins = some i) : (s.slots i).partner = t
      ∧ ((s.slots i).state = .ELIMINATING_PUT ∨ (s.slots i).state = .ELIMINATING_GET) := by
  cases p <;> simp only [Pc.joins, reduceCtorEq, Option.some.injEq] at hp <;> subst hp
  case putGive => exact ⟨h.1.partner, .inl h.1.state⟩
  case putGiven => exact ⟨h.1.partner, .inl h.1.state⟩
  case getTake => exact ⟨h.1.partner, .inr h.1.state⟩
  case getClear => exact ⟨h.1.partner, .inr h.1.state⟩
  case getTaken => exact ⟨h.1.partner, .inr h.1.state⟩

/-- What a call knows survives a step that leaves its slot, adds no exchange of its own and only adds
to the history. -/
theorem PcOk.frame {s s' : State τ ι ε} {u : τ} {p : Pc ι ε} (h : PcOk s u p)
    (hcall : s'.call u = s.call u)
    (hslot : ∀ i, p.owns = some i ∨ p.joins = some i → s'.slots i = s.slots i)
    (howner : ∀ i, p.joins = some i → s'.call (s.slots i).owner = s.call (s.slots i).owner)
    (hmem : ∀ x ∈ s.exchanges, x ∈ s'.exchanges)
    (hnew : ∀ x ∈ s'.exchanges, x ∈ s.exchanges ∨ x.put ≠ s.call u ∧ x.get ≠ s.call u)
    (hhist : ∀ e ∈ s.history, e ∈ s'.history) : PcOk s' u p := by
  have offers : ∀ {e}, Offers s u e → Offers s' u e := by
    rintro e ⟨h1, h2⟩
    unfold Offers
    rw [hcall]
    exact ⟨hhist _ h1, fun x hx => (hnew x hx).elim (h2 x) And.left⟩
  have seeks : Seeks s u → Seeks s' u := by
    rintro ⟨h1, h2⟩
    unfold Seeks
    rw [hcall]
    exact ⟨hhist _ h1, fun x hx => (hnew x hx).elim (h2 x) And.right⟩
  have putDone : PutDone s u → PutDone s' u := by
    rintro ⟨x, hx, hp⟩
    exact ⟨x, hmem x hx, hcall ▸ hp⟩
  have getDone : ∀ {e}, GetDone s u e → GetDone s' u e := by
    rintro e ⟨x, hx, hg, he⟩
    exact ⟨x, hmem x hx, hcall ▸ hg, he⟩
  have owns : ∀ {i state}, p.owns = some i → Owns s u i state → Owns s' u i state := by
    intro i state hi ho
    have hs := hslot i (.inl hi)
    exact ⟨by rw [hs]; exact ho.owner, by rw [hs]; exact ho.state⟩
  have joins : ∀ {i state}, p.joins = some i → Joins s u i state → Joins s' u i state := by
    intro i state hi ho
    have hs := hslot i (.inr hi)
    exact ⟨by rw [hs]; exact ho.partner, by rw [hs]; exact ho.state⟩
  have met : ∀ {i e}, p.joins = some i → Met s u i e → Met s' u i e := by
    rintro i e hi ⟨x, hx, h1, h2, he⟩
    exact ⟨x, hmem x hx, hcall ▸ h1, by rw [hslot i (.inr hi), howner i hi]; exact h2, he⟩
  cases p
  case idle => trivial
  case putFirst => exact offers h
  case putSecond => exact offers h
  case putElement => exact ⟨owns rfl h.1, offers h.2⟩
  case putWaiting e i =>
    refine ⟨owns rfl h.1, offers h.2.1, ?_⟩
    rw [hslot i (.inl rfl)]
    exact h.2.2
  case putCancel e i =>
    rcases h with ⟨h1, h2, h3⟩ | ⟨h1, h2⟩
    · refine .inl ⟨owns rfl h1, offers h2, ?_⟩
      rw [hslot i (.inl rfl)]
      exact h3
    · exact .inr ⟨h1.imp (owns rfl) (owns rfl), putDone h2⟩
  case putFinish i => exact ⟨h.1.imp (owns rfl) (owns rfl), putDone h.2⟩
  case putGive => exact ⟨joins rfl h.1, met rfl h.2⟩
  case putGiven i =>
    refine ⟨joins rfl h.1, ?_⟩
    rw [hslot i (.inr rfl)]
    exact met rfl h.2
  case putRet ok =>
    refine ⟨fun hok => putDone (h.1 hok), fun hok x hx => ?_⟩
    rw [hcall]
    exact (hnew x hx).elim (h.2 hok x) And.left
  case getFirst => exact seeks h
  case getSecond => exact seeks h
  case getTake i =>
    refine ⟨joins rfl h.1, ?_⟩
    rw [hslot i (.inr rfl)]
    exact getDone h.2
  case getClear => exact ⟨joins rfl h.1, getDone h.2⟩
  case getTaken => exact ⟨joins rfl h.1, getDone h.2⟩
  case getCancel i =>
    rcases h with ⟨h1, h2⟩ | h | ⟨h1, h2⟩
    · exact .inl ⟨owns rfl h1, seeks h2⟩
    · exact .inr (.inl (owns rfl h))
    · refine .inr (.inr ⟨owns rfl h1, ?_⟩)
      rw [hslot i (.inl rfl)]
      exact getDone h2
  case getFinish i =>
    rcases h with h | ⟨h1, h2⟩
    · exact .inl (owns rfl h)
    · refine .inr ⟨owns rfl h1, ?_⟩
      rw [hslot i (.inl rfl)]
      exact getDone h2
  case getLoad i =>
    refine ⟨owns rfl h.1, ?_⟩
    rw [hslot i (.inl rfl)]
    exact getDone h.2
  case getNull => exact ⟨owns rfl h.1, getDone h.2⟩
  case getEmpty => exact ⟨owns rfl h.1, getDone h.2⟩
  case getRet e =>
    rcases e with _ | e
    · intro x hx
      rw [hcall]
      exact (hnew x hx).elim (h x) And.right
    · exact getDone h

/-! ### The invariant -/

/-- The number of the call an event belongs to. -/
def Event.number : Event ε → ℕ
  | .put c _ => c
  | .get c => c
  | .putRet c _ => c
  | .getRet c _ => c

/-- The number a call is made with. -/
def Event.made? : Event ε → Option ℕ
  | .put c _ => some c
  | .get c => some c
  | _ => none

/-- Every exchange is between a put and a get of their own and of the element put; the puts and gets
that returned true are those of an exchange, and a get returned the element of its exchange. -/
structure Paired (s : State τ ι ε) : Prop where
  numbered : (s.history.filterMap Event.made?).Nodup
  put_once : (s.exchanges.map Exchange.put).Nodup
  get_once : (s.exchanges.map Exchange.get).Nodup
  called : ∀ x ∈ s.exchanges, .put x.put (some x.element) ∈ s.history ∧ .get x.get ∈ s.history
  put_true : ∀ c, .putRet c true ∈ s.history → ∃ x ∈ s.exchanges, x.put = c
  put_false : ∀ c, .putRet c false ∈ s.history → ∀ x ∈ s.exchanges, x.put ≠ c
  get_true : ∀ c e, .getRet c (some e) ∈ s.history →
    ∃ x ∈ s.exchanges, x.get = c ∧ e = some x.element
  get_false : ∀ c, .getRet c none ∈ s.history → ∀ x ∈ s.exchanges, x.get ≠ c

/-- The call numbered `c` has not returned. -/
def Running (s : State τ ι ε) (c : ℕ) : Prop :=
  (∀ ok, .putRet c ok ∉ s.history) ∧ ∀ e, .getRet c e ∉ s.history

structure Inv (s : State τ ι ε) : Prop where
  pc : ∀ t, PcOk s t (s.pc t)
  owned : ∀ i, (s.slots i).state ≠ .EMPTY → (s.pc (s.slots i).owner).owns = some i
  distinct : ∀ t u, s.pc t ≠ .idle → s.pc u ≠ .idle → s.call t = s.call u → t = u
  below : ∀ t, s.pc t ≠ .idle → s.call t < s.calls
  running : ∀ t, s.pc t ≠ .idle → Running s (s.call t)
  fresh : ∀ e ∈ s.history, e.number < s.calls
  paired : Paired s

theorem Inv.of_pc {s : State τ ι ε} {t : τ} {p : Pc ι ε} (h : Inv s) (hp : s.pc t = p) :
    PcOk s t p := hp ▸ h.pc t

theorem inv_start {s : State τ ι ε} (h : Start s) : Inv s := by
  have hidle : ∀ t, s.pc t = .idle := fun t => by rw [h.pc]
  refine ⟨fun t => ?_, fun i hi => ?_, fun t _ ht => ?_, fun t ht => ?_, fun t ht => ?_, ?_, ?_⟩
  · rw [hidle]
    trivial
  · exact absurd (h.slots i) hi
  · exact absurd (hidle t) ht
  · exact absurd (hidle t) ht
  · exact absurd (hidle t) ht
  · rw [h.history]
    simp
  · constructor <;> simp [h.history, h.exchanges]

theorem Paired.same {s s' : State τ ι ε} (h : Paired s) (hx : s'.exchanges = s.exchanges)
    (hh : s'.history = s.history) : Paired s' := by
  constructor <;> simp only [hh, hx]
  · exact h.numbered
  · exact h.put_once
  · exact h.get_once
  · exact h.called
  · exact h.put_true
  · exact h.put_false
  · exact h.get_true
  · exact h.get_false

/-- A put and a get that have met nobody meet. -/
theorem Paired.exchange {s s' : State τ ι ε} (h : Paired s) {x : Exchange ε}
    (hx : s'.exchanges = s.exchanges ++ [x]) (hh : s'.history = s.history)
    (hput : .put x.put (some x.element) ∈ s.history) (hget : .get x.get ∈ s.history)
    (hput_new : ∀ y ∈ s.exchanges, y.put ≠ x.put) (hget_new : ∀ y ∈ s.exchanges, y.get ≠ x.get)
    (hput_runs : Running s x.put) (hget_runs : Running s x.get) : Paired s' := by
  have mem : ∀ y, y ∈ s'.exchanges ↔ y ∈ s.exchanges ∨ y = x := by
    intro y
    rw [hx, List.mem_append, List.mem_singleton]
  refine ⟨?_, ?_, ?_, fun y hy => ?_, fun c hc => ?_, fun c hc y hy => ?_, fun c e hc => ?_,
    fun c hc y hy => ?_⟩
  · rw [hh]
    exact h.numbered
  · rw [hx, List.map_append, List.nodup_append]
    refine ⟨h.put_once, by simp, ?_⟩
    intro a ha b hb
    obtain ⟨y, hy, rfl⟩ := List.mem_map.1 ha
    obtain rfl : b = x.put := by simpa using hb
    exact hput_new y hy
  · rw [hx, List.map_append, List.nodup_append]
    refine ⟨h.get_once, by simp, ?_⟩
    intro a ha b hb
    obtain ⟨y, hy, rfl⟩ := List.mem_map.1 ha
    obtain rfl : b = x.get := by simpa using hb
    exact hget_new y hy
  · rw [hh]
    rcases (mem y).1 hy with hy | rfl
    · exact h.called y hy
    · exact ⟨hput, hget⟩
  · rw [hh] at hc
    obtain ⟨y, hy, he⟩ := h.put_true c hc
    exact ⟨y, (mem y).2 (.inl hy), he⟩
  · rw [hh] at hc
    rcases (mem y).1 hy with hy | rfl
    · exact h.put_false c hc y hy
    · rintro rfl
      exact hput_runs.1 false hc
  · rw [hh] at hc
    obtain ⟨y, hy, he⟩ := h.get_true c e hc
    exact ⟨y, (mem y).2 (.inl hy), he⟩
  · rw [hh] at hc
    rcases (mem y).1 hy with hy | rfl
    · exact h.get_false c hc y hy
    · rintro rfl
      exact hget_runs.2 none hc

/-- No other thread has a part in an empty slot. -/
theorem Inv.empty {s : State τ ι ε} {i : ι} (h : Inv s) (hi : (s.slots i).state = .EMPTY) (u : τ) :
    ¬ ((s.pc u).owns = some i ∨ (s.pc u).joins = some i) := by
  rintro (hu | hu)
  · have hstate := ((h.pc u).owner hu).2
    rw [hi] at hstate
    cases hp : s.pc u <;> simp [hp, Pc.states] at hstate
  · have hstate := ((h.pc u).partner hu).2
    rw [hi] at hstate
    simp at hstate

/-- Only its owner has a part in a slot no offer of which is being taken up. -/
theorem Inv.sole {s : State τ ι ε} {t : τ} {i : ι} (h : Inv s) (howner : (s.slots i).owner = t)
    (h1 : (s.slots i).state ≠ .ELIMINATING_PUT) (h2 : (s.slots i).state ≠ .ELIMINATING_GET) (u : τ)
    (hut : u ≠ t) : ¬ ((s.pc u).owns = some i ∨ (s.pc u).joins = some i) := by
  rintro (hu | hu)
  · exact hut ((((h.pc u).owner hu).1).symm.trans howner)
  · exact (((h.pc u).partner hu).2).elim h1 h2

/-! ### Who owns a slot in a given state -/

section Owner

variable {s : State τ ι ε} {u : τ} {p : Pc ι ε} {i : ι}

/-- The owner of a slot that waits for a get. -/
theorem PcOk.waiting_get (h : PcOk s u p) (hp : p.owns = some i)
    (hi : (s.slots i).state = .WAITING_GET) :
    ∃ e, p = .putCancel e i ∧ Offers s u e ∧ (s.slots i).element = some e := by
  have hstate := (h.owner hp).2
  rw [hi] at hstate
  cases p <;> simp [Pc.owns, Pc.states] at hp hstate
  case putCancel e j =>
    subst hp
    rcases h with h | ⟨h | h, -⟩
    · exact ⟨e, rfl, h.2⟩
    · cases hi.symm.trans h.state
    · cases hi.symm.trans h.state

/-- The owner of a slot that waits for a put. -/
theorem PcOk.waiting_put (h : PcOk s u p) (hp : p.owns = some i)
    (hi : (s.slots i).state = .WAITING_PUT) : p = .getCancel i ∧ Seeks s u := by
  have hstate := (h.owner hp).2
  rw [hi] at hstate
  cases p <;> simp [Pc.owns, Pc.states] at hp hstate
  case getCancel j =>
    subst hp
    rcases h with h | h | h
    · exact ⟨rfl, h.2⟩
    · cases hi.symm.trans h.state
    · cases hi.symm.trans h.1.state

/-- The owner of a slot a get has taken up. -/
theorem PcOk.eliminating_get (h : PcOk s u p) (hp : p.owns = some i)
    (hi : (s.slots i).state = .ELIMINATING_GET) :
    ((∃ e, p = .putCancel e i) ∨ p = .putFinish i) ∧ PutDone s u := by
  have hstate := (h.owner hp).2
  rw [hi] at hstate
  cases p <;> simp [Pc.owns, Pc.states] at hp hstate
  case putCancel e j =>
    subst hp
    rcases h with h | h
    · cases hi.symm.trans h.1.state
    · exact ⟨.inl ⟨e, rfl⟩, h.2⟩
  case putFinish j =>
    subst hp
    exact ⟨.inr rfl, h.2⟩

/-- The owner of a slot a put has taken up. -/
theorem PcOk.eliminating_put (h : PcOk s u p) (hp : p.owns = some i)
    (hi : (s.slots i).state = .ELIMINATING_PUT) : p = .getCancel i ∨ p = .getFinish i := by
  have hstate := (h.owner hp).2
  rw [hi] at hstate
  cases p <;> simp [Pc.owns, Pc.states] at hp hstate
  case getCancel => exact .inl (by rw [hp])
  case getFinish => exact .inr (by rw [hp])

theorem offers_or_ret {e : ε} {attempts : ℕ} (h : Offers s u e) :
    PcOk s u (putNext (ι := ι) e attempts) := by
  unfold putNext
  split_ifs
  · exact h
  · exact ⟨by simp, fun _ => h.2⟩

theorem seeks_or_ret {attempts : ℕ} (h : Seeks s u) :
    PcOk s u (getNext (ι := ι) (ε := ε) attempts) := by
  unfold getNext
  split_ifs
  · exact h
  · exact h.2

end Owner

/-! ### One access to a slot -/

variable [DecidableEq τ] [DecidableEq ι]

/-- `t` goes on to `p`, slot `i` becomes `slot`, and the exchanges `new` are made. -/
structure Access (s s' : State τ ι ε) (t : τ) (p : Pc ι ε) (i : ι) (slot : Slot τ ε)
    (new : List (Exchange ε)) : Prop where
  slots : s'.slots = update s.slots i slot
  pc : s'.pc = update s.pc t p
  call : s'.call = s.call
  calls : s'.calls = s.calls
  exchanges : s'.exchanges = s.exchanges ++ new
  history : s'.history = s.history

variable {s s' : State τ ι ε} {t : τ} {p : Pc ι ε} {i : ι} {slot : Slot τ ε}
  {new : List (Exchange ε)}

/-- An access keeps the invariant if it keeps what the threads with a part in the slot know. -/
theorem Inv.access (h : Inv s) (ha : Access s s' t p i slot new) (hact : s.pc t ≠ .idle)
    (ht : PcOk s' t p)
    (hrole : ∀ u ≠ t, (s.pc u).owns = some i ∨ (s.pc u).joins = some i → PcOk s' u (s.pc u))
    (hnew : ∀ x ∈ new, ∀ u ≠ t, s.pc u ≠ .idle → (s.pc u).owns ≠ some i →
      x.put ≠ s.call u ∧ x.get ≠ s.call u)
    (howner : slot.state ≠ .EMPTY → slot.owner = t ∧ p.owns = some i
      ∨ slot.owner ≠ t ∧ slot.owner = (s.slots i).owner ∧ (s.slots i).state ≠ .EMPTY)
    (hleft : ∀ j ≠ i, (s.pc t).owns = some j → p.owns = some j) (hpaired : Paired s') : Inv s' := by
  have active : ∀ u, s'.pc u ≠ .idle → s.pc u ≠ .idle := by
    intro u hu
    by_cases hut : u = t
    · exact hut ▸ hact
    · rwa [ha.pc, update_of_ne hut] at hu
  refine ⟨fun u => ?_, fun j hj => ?_, fun u v hu hv he => ?_, fun u hu => ?_, fun u hu => ?_,
    fun e he => ?_, hpaired⟩
  · by_cases hut : u = t
    · subst hut
      rw [ha.pc, update_self]
      exact ht
    · rw [ha.pc, update_of_ne hut]
      by_cases hr : (s.pc u).owns = some i ∨ (s.pc u).joins = some i
      · exact hrole u hut hr
      · rw [not_or] at hr
        by_cases hidle : s.pc u = .idle
        · rw [hidle]
          trivial
        · refine (h.pc u).frame (by rw [ha.call]) (fun j hj => ?_) (fun j hj => ?_) (fun x hx => ?_)
            (fun x hx => ?_) (fun e he => ?_)
          · have hne : j ≠ i := by
              rintro rfl
              exact hj.elim hr.1 hr.2
            rw [ha.slots, update_of_ne hne]
          · rw [ha.call]
          · rw [ha.exchanges]
            exact List.mem_append_left _ hx
          · rw [ha.exchanges] at hx
            exact (List.mem_append.1 hx).imp id fun hx => hnew x hx u hut hidle hr.1
          · rw [ha.history]
            exact he
  · rw [ha.slots] at hj ⊢
    by_cases hji : j = i
    · subst hji
      rw [update_self] at hj ⊢
      rcases howner hj with ⟨h1, h2⟩ | ⟨h1, h2, h3⟩
      · rw [ha.pc, h1, update_self]
        exact h2
      · rw [ha.pc, update_of_ne h1, h2]
        exact h.owned j h3
    · rw [update_of_ne hji] at hj ⊢
      have howns := h.owned j hj
      rw [ha.pc]
      by_cases he : (s.slots j).owner = t
      · rw [he] at howns ⊢
        rw [update_self]
        exact hleft j hji howns
      · rwa [update_of_ne he]
  · rw [ha.call] at he
    exact h.distinct u v (active u hu) (active v hv) he
  · rw [ha.call, ha.calls]
    exact h.below u (active u hu)
  · unfold Running
    rw [ha.call, ha.history]
    exact h.running u (active u hu)
  · rw [ha.calls]
    rw [ha.history] at he
    exact h.fresh e he

/-- An access to a slot in which no other thread has a part. -/
theorem Inv.alone (h : Inv s) (ha : Access s s' t p i slot []) (hact : s.pc t ≠ .idle)
    (hsole : ∀ u ≠ t, ¬ ((s.pc u).owns = some i ∨ (s.pc u).joins = some i)) (ht : PcOk s' t p)
    (howner : slot.state ≠ .EMPTY → slot.owner = t ∧ p.owns = some i)
    (hleft : ∀ j ≠ i, (s.pc t).owns ≠ some j) : Inv s' := by
  refine h.access ha hact ht (fun u hu hr => absurd hr (hsole u hu)) (by simp)
    (fun hs => .inl (howner hs)) (fun j hj he => absurd he (hleft j hj)) ?_
  exact h.paired.same (by rw [ha.exchanges, List.append_nil]) ha.history

/-- A step of a thread that touches no slot. -/
theorem Inv.goOn (h : Inv s) (hact : s.pc t ≠ .idle) (i : ι) (howns : p.owns = (s.pc t).owns)
    (ht : PcOk s t p) : Inv (s.setPc t p) := by
  have frame : ∀ {u q}, PcOk s u q → PcOk (s.setPc t p) u q := fun h =>
    h.frame rfl (fun _ _ => rfl) (fun _ _ => rfl) (fun _ hx => hx) (fun _ hx => .inl hx)
      (fun _ he => he)
  have ha : Access s (s.setPc t p) t p i (s.slots i) [] :=
    ⟨(update_eq_self i s.slots).symm, rfl, rfl, rfl, (List.append_nil _).symm, rfl⟩
  refine h.access ha hact (frame ht) (fun u _ _ => frame (h.pc u)) (by simp) (fun hs => ?_)
    (fun j _ he => howns.trans he) (h.paired.same rfl rfl)
  by_cases he : (s.slots i).owner = t
  · exact .inl ⟨he, howns.trans (he ▸ h.owned i hs)⟩
  · exact .inr ⟨he, rfl, hs⟩

/-- An access of the partner to the slot whose offer it is taking up. -/
theorem Inv.beside (h : Inv s) (ha : Access s s' t p i slot []) (hjoins : (s.pc t).joins = some i)
    (hslot : slot.owner = (s.slots i).owner) (ht : PcOk s' t p)
    (howner : ∀ u, u ≠ t → (s.slots i).owner = u → (s.pc u).owns = some i → PcOk s' u (s.pc u)) :
    Inv s' := by
  obtain ⟨hpartner, hstate⟩ := (h.pc t).partner hjoins
  have hact : s.pc t ≠ .idle := by
    intro hp
    simp [hp, Pc.joins] at hjoins
  have howns : ∀ j, (s.pc t).owns ≠ some j := by
    intro j hj
    cases hp : s.pc t <;> simp [hp, Pc.joins, Pc.owns] at hjoins hj
  have hne : (s.slots i).state ≠ .EMPTY := by
    rcases hstate with hs | hs <;> rw [hs] <;> decide
  have hother : (s.slots i).owner ≠ t := fun he => howns i (he ▸ h.owned i hne)
  refine h.access ha hact ht (fun u hu hr => ?_) (by simp) (fun _ => .inr ⟨?_, hslot, hne⟩)
    (fun j _ he => absurd he (howns j)) (h.paired.same (by rw [ha.exchanges, List.append_nil])
      ha.history)
  · rcases hr with hr | hr
    · exact howner u hu ((h.pc u).owner hr).1 hr
    · exact absurd (((h.pc u).partner hr).1.symm.trans hpartner) hu
  · rwa [hslot]

/-- A put and a get meet. -/
theorem Inv.meet (h : Inv s) {x : Exchange ε} (ha : Access s s' t p i slot [x])
    (hact : s.pc t ≠ .idle) (hstate : (s.slots i).state = .WAITING_GET
      ∨ (s.slots i).state = .WAITING_PUT)
    (hnone : ∀ j, (s.pc t).owns ≠ some j) (hslot : slot.owner = (s.slots i).owner)
    (hcalls : (x.put = s.call (s.slots i).owner ∧ x.get = s.call t)
      ∨ x.put = s.call t ∧ x.get = s.call (s.slots i).owner)
    (hput : .put x.put (some x.element) ∈ s.history ∧ ∀ y ∈ s.exchanges, y.put ≠ x.put)
    (hget : .get x.get ∈ s.history ∧ ∀ y ∈ s.exchanges, y.get ≠ x.get) (ht : PcOk s' t p)
    (howner : PcOk s' (s.slots i).owner (s.pc (s.slots i).owner)) : Inv s' := by
  have hne : (s.slots i).state ≠ .EMPTY := by
    rcases hstate with hs | hs <;> rw [hs] <;> decide
  have howned := h.owned i hne
  have hother : (s.slots i).owner ≠ t := fun he => hnone i (he ▸ howned)
  have hoact : s.pc (s.slots i).owner ≠ .idle := by
    intro hp
    simp [hp, Pc.owns] at howned
  have hrun := h.running _ hoact
  have hrunt := h.running t hact
  refine h.access ha hact ht (fun u hu hr => ?_) (fun y hy u hu huact hur => ?_)
    (fun _ => .inr ⟨?_, hslot, hne⟩) (fun j _ he => absurd he (hnone j)) ?_
  · rcases hr with hr | hr
    · obtain rfl := ((h.pc u).owner hr).1
      exact howner
    · have hs := ((h.pc u).partner hr).2
      rcases hstate with h1 | h1 <;> rw [h1] at hs <;> simp at hs
  · obtain rfl := List.mem_singleton.1 hy
    have h1 : s.call t ≠ s.call u := fun he => hu (h.distinct t u hact huact he).symm
    have h2 : s.call (s.slots i).owner ≠ s.call u := by
      intro he
      rw [h.distinct _ u hoact huact he] at howned
      exact hur howned
    rcases hcalls with ⟨hc1, hc2⟩ | ⟨hc1, hc2⟩ <;> rw [hc1, hc2]
    · exact ⟨h2, h1⟩
    · exact ⟨h1, h2⟩
  · rwa [hslot]
  · refine h.paired.exchange ha.exchanges ha.history hput.1 hget.1 hput.2 hget.2 ?_ ?_
    · rcases hcalls with ⟨hc, -⟩ | ⟨hc, -⟩ <;> rw [hc]
      · exact hrun
      · exact hrunt
    · rcases hcalls with ⟨-, hc⟩ | ⟨-, hc⟩ <;> rw [hc]
      · exact hrunt
      · exact hrun

/-! ### Calls and returns -/

/-- What an event says of the exchanges, or that its call is a new one. -/
def EventOk (s : State τ ι ε) : Event ε → Prop
  | .put c _ => ∀ ev ∈ s.history, ev.number ≠ c
  | .get c => ∀ ev ∈ s.history, ev.number ≠ c
  | .putRet c true => ∃ x ∈ s.exchanges, x.put = c
  | .putRet c false => ∀ x ∈ s.exchanges, x.put ≠ c
  | .getRet c (some e) => ∃ x ∈ s.exchanges, x.get = c ∧ e = some x.element
  | .getRet c none => ∀ x ∈ s.exchanges, x.get ≠ c

theorem made_eq_number {ev : Event ε} {c : ℕ} (h : ev.made? = some c) : ev.number = c := by
  cases ev <;> simp [Event.made?] at h <;> exact h

omit [DecidableEq τ] [DecidableEq ι] in
theorem Paired.record (h : Paired s) {ev : Event ε} (hev : EventOk s ev)
    (hx : s'.exchanges = s.exchanges) (hh : s'.history = s.history ++ [ev]) : Paired s' := by
  have mem : ∀ {e}, e ∈ s'.history → e ∈ s.history ∨ e = ev := by
    intro e he
    rw [hh] at he
    exact (List.mem_append.1 he).imp id List.mem_singleton.1
  refine ⟨?_, ?_, ?_, fun x hx' => ?_, fun c hc => ?_, fun c hc => ?_, fun c e hc => ?_,
    fun c hc => ?_⟩
  · rw [hh, List.filterMap_append, List.nodup_append]
    refine ⟨h.numbered, ?_, fun c hc d hd => ?_⟩
    · rw [List.filterMap_cons, List.filterMap_nil]
      cases ev.made? <;> simp
    · obtain ⟨e, he, hec⟩ := List.mem_filterMap.1 hc
      have hnew : ev.made? = some d := by simpa using hd
      have hne : ∀ e ∈ s.history, e.number ≠ d := by
        cases ev <;> simp only [Event.made?, reduceCtorEq, Option.some.injEq] at hnew <;>
          subst hnew <;> exact hev
      exact fun hcd => hne e he ((made_eq_number hec).trans hcd)
  · rw [hx]
    exact h.put_once
  · rw [hx]
    exact h.get_once
  · rw [hx] at hx'
    obtain ⟨h1, h2⟩ := h.called x hx'
    rw [hh]
    exact ⟨List.mem_append_left _ h1, List.mem_append_left _ h2⟩
  · rw [hx]
    rcases mem hc with hc | rfl
    · exact h.put_true c hc
    · exact hev
  · rw [hx]
    rcases mem hc with hc | rfl
    · exact h.put_false c hc
    · exact hev
  · rw [hx]
    rcases mem hc with hc | rfl
    · exact h.get_true c e hc
    · exact hev
  · rw [hx]
    rcases mem hc with hc | rfl
    · exact h.get_false c hc
    · exact hev

omit [DecidableEq ι] in
/-- A call returns. -/
theorem Inv.ret (h : Inv s) {ev : Event ε} (hact : s.pc t ≠ .idle) (hnum : ev.number = s.call t)
    (hev : EventOk s ev) (hnone : ∀ i, (s.pc t).owns ≠ some i) :
    Inv ((s.record ev).setPc t .idle) := by
  have active : ∀ u, update s.pc t .idle u ≠ .idle → u ≠ t ∧ s.pc u ≠ .idle := by
    intro u hu
    by_cases hut : u = t
    · rw [hut, update_self] at hu
      exact absurd rfl hu
    · rw [update_of_ne hut] at hu
      exact ⟨hut, hu⟩
  refine ⟨fun u => ?_, fun i hi => ?_, fun u v hu hv he => ?_, fun u hu => ?_, fun u hu => ?_,
    fun e he => ?_, h.paired.record hev rfl rfl⟩
  · show PcOk _ u (update s.pc t .idle u)
    by_cases hut : u = t
    · rw [hut, update_self]
      trivial
    · rw [update_of_ne hut]
      exact (h.pc u).frame rfl (fun _ _ => rfl) (fun _ _ => rfl) (fun _ hx => hx)
        (fun _ hx => .inl hx) (fun _ he => List.mem_append_left _ he)
  · have howned := h.owned i hi
    show (update s.pc t .idle (s.slots i).owner).owns = some i
    rw [update_of_ne]
    · exact howned
    · exact fun he => hnone i (he ▸ howned)
  · exact h.distinct u v (active u hu).2 (active v hv).2 he
  · exact h.below u (active u hu).2
  · obtain ⟨hut, hu⟩ := active u hu
    obtain ⟨h1, h2⟩ := h.running u hu
    have hne : ev.number ≠ s.call u := fun he =>
      hut (h.distinct u t hu hact (he.symm.trans hnum))
    have old : ∀ e, e ∉ s.history → e.number = s.call u → e ∉ s.history ++ [ev] := by
      intro e he hn hmem
      rcases List.mem_append.1 hmem with hmem | hmem
      · exact he hmem
      · exact hne (List.mem_singleton.1 hmem ▸ hn)
    exact ⟨fun ok => old _ (h1 ok) rfl, fun e => old _ (h2 e) rfl⟩
  · rcases List.mem_append.1 he with he | he
    · exact h.fresh e he
    · rw [List.mem_singleton.1 he, hnum]
      exact h.below t hact

omit [DecidableEq ι] in
/-- A call is made. -/
theorem Inv.made (h : Inv s) {ev : Event ε} (hidle : s.pc t = .idle) (hnum : ev.number = s.calls)
    (hret : (∀ c ok, ev ≠ .putRet c ok) ∧ ∀ c e, ev ≠ .getRet c e) (hev : EventOk s ev)
    (ht : PcOk (((s.start t).record ev).setPc t p) t p) :
    Inv (((s.start t).record ev).setPc t p) := by
  have owner_ne : ∀ i, (s.slots i).state ≠ .EMPTY → (s.slots i).owner ≠ t := by
    intro i hi he
    have howned := h.owned i hi
    simp [he, hidle, Pc.owns] at howned
  have call : ∀ u ≠ t, update s.call t s.calls u = s.call u := fun u hu => update_of_ne hu ..
  have active : ∀ u, u ≠ t → update s.pc t p u ≠ .idle → s.pc u ≠ .idle := by
    intro u hut hu
    rwa [update_of_ne hut] at hu
  refine ⟨fun u => ?_, fun i hi => ?_, fun u v hu hv he => ?_, fun u hu => ?_, fun u hu => ?_,
    fun e he => ?_, h.paired.record hev rfl rfl⟩
  · by_cases hut : u = t
    · subst hut
      show PcOk _ u (update s.pc u p u)
      rw [update_self]
      exact ht
    · show PcOk _ u (update s.pc t p u)
      rw [update_of_ne hut]
      refine (h.pc u).frame (call u hut) (fun _ _ => rfl) (fun i hi => call _ ?_) (fun _ hx => hx)
        (fun _ hx => .inl hx) (fun _ he => List.mem_append_left _ he)
      have hstate := ((h.pc u).partner hi).2
      exact owner_ne i (by rcases hstate with hs | hs <;> rw [hs] <;> decide)
  · show (update s.pc t p (s.slots i).owner).owns = some i
    rw [update_of_ne (owner_ne i hi)]
    exact h.owned i hi
  · replace he : update s.call t s.calls u = update s.call t s.calls v := he
    by_cases hut : u = t <;> by_cases hvt : v = t
    · rw [hut, hvt]
    · rw [hut, update_self, call v hvt] at he
      have hlt := h.below v (active v hvt hv)
      omega
    · rw [hvt, update_self, call u hut] at he
      have hlt := h.below u (active u hut hu)
      omega
    · rw [call u hut, call v hvt] at he
      exact h.distinct u v (active u hut hu) (active v hvt hv) he
  · show update s.call t s.calls u < s.calls + 1
    by_cases hut : u = t
    · rw [hut, update_self]
      exact Nat.lt_succ_self _
    · rw [call u hut]
      exact Nat.lt_succ_of_lt (h.below u (active u hut hu))
  · have old : ∀ e, e ∉ s.history → e ≠ ev → e ∉ s.history ++ [ev] := by
      intro e he hne hmem
      exact (List.mem_append.1 hmem).elim he fun hm => hne (List.mem_singleton.1 hm)
    have hrun : Running s (update s.call t s.calls u) := by
      by_cases hut : u = t
      · rw [hut, update_self]
        exact ⟨fun ok hm => Nat.lt_irrefl _ (h.fresh _ hm), fun e hm => Nat.lt_irrefl _ (h.fresh _ hm)⟩
      · rw [call u hut]
        exact h.running u (active u hut hu)
    exact ⟨fun ok => old _ (hrun.1 ok) (hret.1 _ ok).symm,
      fun e => old _ (hrun.2 e) (hret.2 _ e).symm⟩
  · show e.number < s.calls + 1
    rcases List.mem_append.1 he with he | he
    · exact Nat.lt_succ_of_lt (h.fresh e he)
    · rw [List.mem_singleton.1 he, hnum]
      exact Nat.lt_succ_self _

/-! ### The steps -/

omit [DecidableEq τ] in
@[simp] theorem setState_slots (s : State τ ι ε) (i : ι) (state : SlotState) :
    (s.setState i state).slots = update s.slots i { s.slots i with state := state } := rfl

omit [DecidableEq τ] in
@[simp] theorem setElement_slots (s : State τ ι ε) (i : ι) (e : Option ε) :
    (s.setElement i e).slots = update s.slots i { s.slots i with element := e } := rfl

omit [DecidableEq τ] in
@[simp] theorem claim_slots (s : State τ ι ε) (t : τ) (i : ι) (state : SlotState) :
    (s.claim t i state).slots = update s.slots i { s.slots i with state := state, owner := t } :=
  rfl

omit [DecidableEq τ] in
@[simp] theorem join_slots (s : State τ ι ε) (t : τ) (i : ι) (state : SlotState) :
    (s.join t i state).slots = update s.slots i { s.slots i with state := state, partner := t } :=
  rfl

omit [DecidableEq ι] in
@[simp] theorem setPc_slots (s : State τ ι ε) (t : τ) (p : Pc ι ε) :
    (s.setPc t p).slots = s.slots := rfl

omit [DecidableEq τ] [DecidableEq ι] in
@[simp] theorem exchange_slots (s : State τ ι ε) (m n : ℕ) (e : Option ε) :
    (s.exchange m n e).slots = s.slots := rfl

theorem access_setState (s : State τ ι ε) (t : τ) (p : Pc ι ε) (i : ι) (state : SlotState) :
    Access s ((s.setState i state).setPc t p) t p i { s.slots i with state := state } [] :=
  ⟨rfl, rfl, rfl, rfl, (List.append_nil _).symm, rfl⟩

theorem access_setElement (s : State τ ι ε) (t : τ) (p : Pc ι ε) (i : ι) (e : Option ε) :
    Access s ((s.setElement i e).setPc t p) t p i { s.slots i with element := e } [] :=
  ⟨rfl, rfl, rfl, rfl, (List.append_nil _).symm, rfl⟩

theorem access_claim (s : State τ ι ε) (t : τ) (p : Pc ι ε) (i : ι) (state : SlotState) :
    Access s ((s.claim t i state).setPc t p) t p i { s.slots i with state := state, owner := t } [] :=
  ⟨rfl, rfl, rfl, rfl, (List.append_nil _).symm, rfl⟩

theorem access_join (s : State τ ι ε) (t : τ) (p : Pc ι ε) (i : ι) (state : SlotState) (m n : ℕ)
    (e : ε) : Access s (((s.join t i state).exchange m n (some e)).setPc t p) t p i
      { s.slots i with state := state, partner := t } [⟨m, n, e⟩] :=
  ⟨rfl, rfl, rfl, rfl, rfl, rfl⟩

theorem Inv.stepPut (h : Inv s) {choice : ι} (hs : stepPut s t choice = some s') : Inv s' := by
  have hact : s.pc t ≠ .idle := by
    intro hp
    simp [EliminationArray.stepPut, hp] at hs
  unfold EliminationArray.stepPut at hs
  cases hp : s.pc t <;> simp only [hp, reduceCtorEq, Option.some.injEq] at hs <;>
    have hok := h.of_pc hp
  case putFirst e attempts =>
    split_ifs at hs with hempty <;> obtain rfl := Option.some.inj hs
    · refine h.alone (access_claim ..) hact (fun u _ => h.empty hempty u) ⟨⟨?_, ?_⟩, hok⟩
        (fun _ => ⟨rfl, rfl⟩) (fun j _ => by simp [hp, Pc.owns])
      · simp
      · simp
    · exact h.goOn hact choice (by rw [hp]; rfl) hok
  case putSecond e attempts i =>
    split_ifs at hs with hwait <;> obtain rfl := Option.some.inj hs
    · have howns := h.owned i (by rw [hwait]; decide)
      obtain ⟨hpc, hseeks⟩ := (h.pc _).waiting_put howns hwait
      refine h.meet (access_join ..) hact (.inr hwait) (by simp [hp, Pc.owns]) rfl
        (.inr ⟨rfl, rfl⟩) hok hseeks ⟨⟨?_, ?_⟩, ⟨s.call t, s.call (s.slots i).owner, e⟩,
          List.mem_append_right _ (List.mem_singleton_self _), rfl, ?_, rfl⟩ ?_
      · simp
      · simp
      · simp [State.setPc, State.exchange, State.join]
      · rw [hpc]
        exact .inr (.inl ⟨by simp, by simp⟩)
    · refine h.goOn hact i ?_ (offers_or_ret hok)
      rw [hp]
      unfold putNext
      split_ifs <;> rfl
  case putElement e i =>
    subst hs
    obtain ⟨howns, hoffers⟩ := hok
    refine h.alone (access_setElement ..) hact ?_ ⟨⟨?_, ?_⟩, hoffers, ?_⟩
      (fun _ => ⟨howns.owner, rfl⟩) (fun j hj => by simpa [hp, Pc.owns] using hj.symm)
    · exact h.sole howns.owner (by rw [howns.state]; decide) (by rw [howns.state]; decide)
    · simpa using howns.owner
    · simpa using howns.state
    · simp
  case putWaiting e i =>
    subst hs
    obtain ⟨howns, hoffers, he⟩ := hok
    refine h.alone (access_setState ..) hact ?_ (.inl ⟨⟨?_, ?_⟩, hoffers, ?_⟩)
      (fun _ => ⟨howns.owner, rfl⟩) (fun j hj => by simpa [hp, Pc.owns] using hj.symm)
    · exact h.sole howns.owner (by rw [howns.state]; decide) (by rw [howns.state]; decide)
    · simpa using howns.owner
    · simp
    · simpa using he
  case putCancel e i =>
    split_ifs at hs with hwait <;> obtain rfl := Option.some.inj hs
    · have howner := ((h.pc t).owner (by rw [hp]; rfl)).1
      have hoffers : Offers s t e := by
        rcases hok with hok | ⟨hok | hok, -⟩
        · exact hok.2.1
        · cases hwait.symm.trans hok.state
        · cases hwait.symm.trans hok.state
      refine h.alone (access_setState ..) hact ?_ ⟨by simp, fun _ => hoffers.2⟩ (by simp)
        (fun j hj => by simpa [hp, Pc.owns] using hj.symm)
      exact h.sole howner (by rw [hwait]; decide) (by rw [hwait]; decide)
    · refine h.goOn hact i (by rw [hp]; rfl) ?_
      rcases hok with hok | hok
      · exact absurd hok.1.state hwait
      · exact hok
  case putFinish i =>
    split_ifs at hs with helim <;> obtain rfl := Option.some.inj hs
    · have howner := ((h.pc t).owner (by rw [hp]; rfl)).1
      refine h.alone (access_setState ..) hact ?_ ⟨fun _ => hok.2, by simp⟩ (by simp)
        (fun j hj => by simpa [hp, Pc.owns] using hj.symm)
      exact h.sole howner (by rw [helim]; decide) (by rw [helim]; decide)
    · exact h
  case putGive e i =>
    subst hs
    obtain ⟨hjoins, hmet⟩ := hok
    refine h.beside (access_setElement ..) (by rw [hp]; rfl) rfl ⟨⟨?_, ?_⟩, ?_⟩ ?_
    · simpa using hjoins.partner
    · simpa using hjoins.state
    · obtain ⟨x, hx, h1, h2, he⟩ := hmet
      exact ⟨x, hx, h1, by simpa [State.setPc, State.setElement] using h2, by simpa using he⟩
    · intro u _ hu howns
      have hstate : ((((s.setElement i (some e)).setPc t (.putGiven i)).slots i).owner = u)
          ∧ (((s.setElement i (some e)).setPc t (.putGiven i)).slots i).state
            = .ELIMINATING_PUT := by
        simpa using ⟨hu, hjoins.state⟩
      rcases (h.pc u).eliminating_put howns hjoins.state with hpc | hpc <;> rw [hpc]
      · exact .inr (.inl ⟨hstate.1, hstate.2⟩)
      · exact .inl ⟨hstate.1, hstate.2⟩
  case putGiven i =>
    subst hs
    obtain ⟨hjoins, x, hx, h1, h2, he⟩ := hok
    refine h.beside (access_setState ..) (by rw [hp]; rfl) rfl ⟨fun _ => ⟨x, hx, h1⟩, by simp⟩ ?_
    intro u _ hu howns
    have hstate : Owns ((s.setState i .ELIMINATED).setPc t (.putRet true)) u i .ELIMINATED :=
      ⟨by simpa using hu, by simp⟩
    have hgot : GetDone ((s.setState i .ELIMINATED).setPc t (.putRet true)) u
        (((s.setState i .ELIMINATED).setPc t (.putRet true)).slots i).element :=
      ⟨x, hx, by rw [h2, hu]; rfl, by simpa using he⟩
    rcases (h.pc u).eliminating_put howns hjoins.state with hpc | hpc <;> rw [hpc]
    · exact .inr (.inr ⟨hstate, hgot⟩)
    · exact .inr ⟨hstate, hgot⟩
  case putRet ok =>
    subst hs
    rcases ok with _ | _
    · exact h.ret hact rfl (hok.2 rfl) (by simp [hp, Pc.owns])
    · exact h.ret hact rfl (hok.1 rfl) (by simp [hp, Pc.owns])

theorem Inv.stepGet (h : Inv s) {choice : ι} {spurious : Bool}
    (hs : stepGet s t choice spurious = some s') : Inv s' := by
  have hact : s.pc t ≠ .idle := by
    intro hp
    simp [EliminationArray.stepGet, hp] at hs
  unfold EliminationArray.stepGet at hs
  cases hp : s.pc t <;> simp only [hp, reduceCtorEq, Option.some.injEq] at hs <;>
    have hok := h.of_pc hp
  case getFirst attempts =>
    split_ifs at hs with hempty <;> obtain rfl := Option.some.inj hs
    · refine h.alone (access_claim ..) hact (fun u _ => h.empty hempty.1 u)
        (.inl ⟨⟨?_, ?_⟩, hok⟩) (fun _ => ⟨rfl, rfl⟩) (fun j _ => by simp [hp, Pc.owns])
      · simp
      · simp
    · exact h.goOn hact choice (by rw [hp]; rfl) hok
  case getSecond attempts i =>
    split_ifs at hs with hwait <;> obtain rfl := Option.some.inj hs
    · have howns := h.owned i (by rw [hwait.1]; decide)
      obtain ⟨e, hpc, hoffers, he⟩ := (h.pc _).waiting_get howns hwait.1
      rw [he]
      refine h.meet (access_join ..) hact (.inl hwait.1) (by simp [hp, Pc.owns]) rfl
        (.inl ⟨rfl, rfl⟩) hoffers hok ⟨⟨?_, ?_⟩, ⟨s.call (s.slots i).owner, s.call t, e⟩,
          List.mem_append_right _ (List.mem_singleton_self _), rfl, ?_⟩ ?_
      · simp
      · simp
      · simpa using he
      · rw [hpc]
        exact .inr ⟨.inl ⟨by simp, by simp⟩, ⟨s.call (s.slots i).owner, s.call t, e⟩,
          List.mem_append_right _ (List.mem_singleton_self _), rfl⟩
    · refine h.goOn hact i ?_ (seeks_or_ret hok)
      rw [hp]
      unfold getNext
      split_ifs <;> rfl
  case getTake i =>
    subst hs
    exact h.goOn hact i (by rw [hp]; rfl) hok
  case getClear i e =>
    subst hs
    obtain ⟨hjoins, hgot⟩ := hok
    refine h.beside (access_setElement ..) (by rw [hp]; rfl) rfl ⟨⟨?_, ?_⟩, hgot⟩ ?_
    · simpa using hjoins.partner
    · simpa using hjoins.state
    · intro u _ hu howns
      have hstate : Owns ((s.setElement i none).setPc t (.getTaken i e)) u i .ELIMINATING_GET :=
        ⟨by simpa using hu, by simpa using hjoins.state⟩
      obtain ⟨⟨e', hpc⟩ | hpc, hdone⟩ := (h.pc u).eliminating_get howns hjoins.state <;> rw [hpc]
      · exact .inr ⟨.inl hstate, hdone⟩
      · exact ⟨.inl hstate, hdone⟩
  case getTaken i e =>
    subst hs
    obtain ⟨hjoins, hgot⟩ := hok
    refine h.beside (access_setState ..) (by rw [hp]; rfl) rfl hgot ?_
    intro u _ hu howns
    have hstate : Owns ((s.setState i .ELIMINATED).setPc t (.getRet (some e))) u i .ELIMINATED :=
      ⟨by simpa using hu, by simp⟩
    obtain ⟨⟨e', hpc⟩ | hpc, hdone⟩ := (h.pc u).eliminating_get howns hjoins.state <;> rw [hpc]
    · exact .inr ⟨.inr hstate, hdone⟩
    · exact ⟨.inr hstate, hdone⟩
  case getCancel i =>
    split_ifs at hs with hwait <;> obtain rfl := Option.some.inj hs
    · have howner := ((h.pc t).owner (by rw [hp]; rfl)).1
      have hseeks : Seeks s t := by
        rcases hok with hok | hok | hok
        · exact hok.2
        · cases hwait.symm.trans hok.state
        · cases hwait.symm.trans hok.1.state
      refine h.alone (access_setState ..) hact ?_ hseeks.2 (by simp)
        (fun j hj => by simpa [hp, Pc.owns] using hj.symm)
      exact h.sole howner (by rw [hwait]; decide) (by rw [hwait]; decide)
    · refine h.goOn hact i (by rw [hp]; rfl) ?_
      rcases hok with hok | hok
      · exact absurd hok.1.state hwait
      · exact hok
  case getFinish i =>
    split_ifs at hs with helim <;> obtain rfl := Option.some.inj hs
    · have howner := ((h.pc t).owner (by rw [hp]; rfl)).1
      have hgot : GetDone s t (s.slots i).element := by
        rcases hok with hok | hok
        · cases helim.symm.trans hok.state
        · exact hok.2
      refine h.alone (access_setState ..) hact ?_ ⟨⟨by simpa using howner, by simp⟩, ?_⟩
        (fun _ => ⟨howner, rfl⟩) (fun j hj => by simpa [hp, Pc.owns] using hj.symm)
      · exact h.sole howner (by rw [helim]; decide) (by rw [helim]; decide)
      · obtain ⟨x, hx, hg, he⟩ := hgot
        exact ⟨x, hx, hg, by simpa using he⟩
    · exact h
  case getLoad i =>
    subst hs
    exact h.goOn hact i (by rw [hp]; rfl) hok
  case getNull i e =>
    subst hs
    obtain ⟨howns, hgot⟩ := hok
    refine h.alone (access_setElement ..) hact ?_ ⟨⟨?_, ?_⟩, hgot⟩ (fun _ => ⟨howns.owner, rfl⟩)
      (fun j hj => by simpa [hp, Pc.owns] using hj.symm)
    · exact h.sole howns.owner (by rw [howns.state]; decide) (by rw [howns.state]; decide)
    · simpa using howns.owner
    · simpa using howns.state
  case getEmpty i e =>
    subst hs
    obtain ⟨howns, hgot⟩ := hok
    refine h.alone (access_setState ..) hact ?_ hgot (by simp)
      (fun j hj => by simpa [hp, Pc.owns] using hj.symm)
    exact h.sole howns.owner (by rw [howns.state]; decide) (by rw [howns.state]; decide)
  case getRet e =>
    subst hs
    rcases e with _ | e
    · exact h.ret hact rfl hok (by simp [hp, Pc.owns])
    · exact h.ret hact rfl hok (by simp [hp, Pc.owns])

theorem Inv.step (h : Inv s) {a : Action τ ι ε} (hs : step s a = some s') : Inv s' := by
  have hfresh : ∀ ev ∈ s.history, ev.number ≠ s.calls := fun ev hev =>
    Nat.ne_of_lt (h.fresh ev hev)
  have hexchanges : ∀ x ∈ s.exchanges, x.put ≠ s.calls ∧ x.get ≠ s.calls := fun x hx =>
    ⟨hfresh _ (h.paired.called x hx).1, hfresh _ (h.paired.called x hx).2⟩
  unfold EliminationArray.step at hs
  rcases a with ⟨t, e⟩ | t | ⟨t, i, spurious⟩
  · cases hp : s.pc t <;> simp only [hp, reduceCtorEq, Option.some.injEq] at hs
    subst hs
    refine h.made hp rfl ⟨by simp, by simp⟩ hfresh ?_
    have hcall : ∀ p, (((s.start t).record (.put s.calls e)).setPc t p).call t = s.calls :=
      fun _ => update_self ..
    rcases e with _ | e
    · refine ⟨by simp, fun _ x hx => ?_⟩
      rw [hcall]
      exact (hexchanges x hx).1
    · refine ⟨?_, fun x hx => ?_⟩ <;> rw [hcall]
      · exact List.mem_append_right _ (List.mem_singleton_self _)
      · exact (hexchanges x hx).1
  · cases hp : s.pc t <;> simp only [hp, reduceCtorEq, Option.some.injEq] at hs
    subst hs
    refine h.made hp rfl ⟨by simp, by simp⟩ hfresh ⟨?_, fun x hx => ?_⟩
    · show Event.get (update s.call t s.calls t) ∈ s.history ++ [Event.get s.calls]
      rw [update_self]
      exact List.mem_append_right _ (List.mem_singleton_self _)
    · show x.get ≠ update s.call t s.calls t
      rw [update_self]
      exact (hexchanges x hx).2
  · rcases Option.or_eq_some_iff.1 hs with hs | ⟨-, hs⟩
    · exact h.stepPut hs
    · exact h.stepGet hs

theorem paired_of_reachable (h : (machine (τ := τ) (ι := ι) (ε := ε)).Reachable s) : Paired s :=
  (Machine.reachable_induction (I := Inv) (fun _ => inv_start)
    (fun _ _ _ _ ih hs => ih.step hs) h).paired

/-- A put that waits in slot 1 and a get that takes its offer up. -/
theorem paired_of_reachable_run : ∃ s : State (Fin 2) (Fin 2) ℕ,
    (machine (τ := Fin 2) (ι := Fin 2) (ε := ℕ)).Reachable s ∧ s.pc 0 = .putRet true
      ∧ s.pc 1 = .getRet (some (some 7)) ∧ Paired s := by
  obtain ⟨s, hs, hput, hget⟩ : ∃ s, (machine (τ := Fin 2) (ι := Fin 2) (ε := ℕ)).Reachable s
      ∧ s.pc 0 = .putRet true ∧ s.pc 1 = .getRet (some (some 7)) :=
    Machine.exists_run
      (s := ⟨fun _ => ⟨.EMPTY, none, 0, 0⟩, fun _ => .idle, fun _ => 0, 0, [], []⟩)
      (List.flatten [[.put 0 (some 7), .get 1, .run 1 0 true, .run 1 0 false],
        List.replicate 3 (.run 0 1 false), List.replicate 3 (.run 1 1 false), [.run 0 1 false],
        List.replicate 2 (.run 1 1 false), [.run 0 1 false]])
      ⟨fun _ => rfl, rfl, rfl, rfl⟩ (by decide)
  exact ⟨s, hs, hput, hget, paired_of_reachable hs⟩

end MinStd.EliminationArray
