import MinStd.Proofs.SkipListHistory
import Mathlib.Order.Interval.Finset.Nat

/-!
# The upper levels

Where an `insert` publishes a level only over one that is published, a node met at a level is
published at every level below, so a predecessor is on the list it was met on.  A node's counter
then holds its links that are published and not counted off, and the reservation of its `insert`.
A tombstoned node whose counter is zero is settled: no link of it is left at an upper level and no
thread can publish one any more.  It is unlinked at level 0 only when settled, and pushed on the
retired list once, after that (`retires_of_run`).
-/

namespace MinStd.SkipList

variable {Tid K : Type*} {MAX_LEVELS : ℕ}

/-- The exchange that publishes a level finds the level below published. -/
def PublishesInOrder (s : State Tid K) (a : Tid × Act K) : Prop :=
  match s.pc a.1 with
  | .publish w i true => s.link (w.preds i.level) i.level = ⟨some (w.succs i.level), false⟩ →
    s.status i.newNode (i.level - 1) ≠ .unpublished
  | _ => True

/-- The node's links of upper levels that are published and not counted off. -/
def pending (s : State Tid K) (n : Node) : Finset ℕ :=
  (Finset.Ico 1 (s.topLevel n)).filter fun i => s.status n i = .linked ∨ s.status n i = .unlinked

/-- The `insert` of the node holds a reservation in its counter. -/
def Reserved (s : State Tid K) (n : Node) : Prop := ∃ t, (s.pc t).reserved? = some n

/-- What `upper_levels_remaining_` counts. -/
structure Remaining (s : State Tid K) (n : Node) : Prop where
  reserved : Reserved s n → s.upperLevelsRemaining n = (pending s n).card + 1
  unreserved : ¬ Reserved s n → s.upperLevelsRemaining n = (pending s n).card

/-- A removed node with no link at an upper level left, nor one to come. -/
structure Settled (s : State Tid K) (n : Node) : Prop where
  tombstoned : (s.link n 0).tombstoned = true
  status : ∀ i, 1 ≤ i → s.status n i ≠ .linked ∧ s.status n i ≠ .unlinked
  checked : ∀ t, (s.pc t).checked? ≠ some n

/-- What holds of the upper levels in the states of the guarded runs. -/
structure Upper (s : State Tid K) [LinearOrder K] : Prop where
  levels : ∀ i, ∃ l, Level s i l
  down : ∀ n i, s.status n (i + 1) ≠ .unpublished → s.status n i ≠ .unpublished
  range : ∀ n i, s.status n i ≠ .unpublished → i < s.topLevel n
  bottom : ∀ n i, s.status n i = .linked → s.status n 0 = .linked
  marked : ∀ n i j, (s.link n i).tombstoned = true → i < j → j < s.topLevel n →
    (s.link n j).tombstoned = true
  off : ∀ n i, s.status n i = .unlinked ∨ s.status n i = .counted →
    (s.link n i).tombstoned = true
  remaining : ∀ n, Remaining s n
  inserting : ∀ t u n i j, (s.pc t).inserting? = some (n, i) → (s.pc u).inserting? = some (n, j) →
    t = u
  ahead : ∀ t n i j, (s.pc t).inserting? = some (n, i) → i ≤ j → s.status n j = .unpublished
  aimed : ∀ t w i b, s.pc t = .publish w i b →
    (s.link i.newNode i.level).target = some (w.succs i.level)
  drained : ∀ t n, (s.pc t).drained? = some n → Settled s n
  unlinked : ∀ n, s.status n 0 = .unlinked → Settled s n
  uncounts : ∀ t n i, (s.pc t).uncounts? = some (n, i) → s.status n i = .unlinked
  uncounts_unique : ∀ t u n i, (s.pc t).uncounts? = some (n, i) →
    (s.pc u).uncounts? = some (n, i) → t = u
  uncounted : ∀ n i, 1 ≤ i → s.status n i = .unlinked → ∃ t, (s.pc t).uncounts? = some (n, i)

/-- What a step makes of a node's status at a level. -/
inductive Turn (s s' : State Tid K) (t : Tid) (n : Node) (i : ℕ) : Prop
  | same : s'.status n i = s.status n i → Turn s s' t n i
  | linkBottom : i = 0 → s.status n i = .unpublished → s'.status n i = .linked →
    (s.pc t).newNode? = some n → 0 < s.topLevel n → Turn s s' t n i
  | publish : 1 ≤ i → s.status n i = .unpublished → s'.status n i = .linked →
    (s.pc t).checked? = some n → (s.pc t).inserting? = some (n, i) → i < s.topLevel n →
    (∀ a, PublishesInOrder s (t, a) → s.status n (i - 1) ≠ .unpublished) → Turn s s' t n i
  | unlink : 1 ≤ i → s.status n i = .linked → s'.status n i = .unlinked →
    (s.link n i).tombstoned = true → (s'.pc t).uncounts? = some (n, i) → Turn s s' t n i
  | unlinkBottom : i = 0 → s.status n i = .linked → s'.status n i = .unlinked →
    (s.pc t).drained? = some n → (s'.pc t).retiring? = some n → Turn s s' t n i
  | count : 1 ≤ i → s.status n i = .unlinked → s'.status n i = .counted →
    (s.pc t).uncounts? = some (n, i) → Turn s s' t n i

section Holds

variable {p : Pc K} {n : Node}

theorem reserved_of_checked (h : p.checked? = some n) : p.reserved? = some n := by
  cases p <;> first | exact h | cases h

theorem inserting_of_reserved (h : p.reserved? = some n) : ∃ i, p.inserting? = some (n, i) := by
  cases p <;> cases h <;> exact ⟨_, rfl⟩

end Holds

section Levels

variable [LinearOrder K] {s s' : State Tid K} {t : Tid} {n : Node} {i : ℕ} {l : List Node}

/-- A predecessor that is not tombstoned is on the list of its level. -/
theorem Upper.pred_mem (h : Upper s) (hl : Level s i l) {key : K} {pred m : Node}
    (hp : PredOk id s i key pred) (hm : s.link pred i = ⟨some m, false⟩) : pred ∈ l := by
  rw [hl.mem]
  rcases hp.born with rfl | hb
  · exact .inl rfl
  refine .inr (.inr ?_)
  have hoff := h.off pred i
  rw [hm] at hoff
  rcases hs : s.status pred i with _ | _ | _ | _
  · exact absurd hs hb.level
  · rfl
  · cases hoff (.inl hs)
  · cases hoff (.inr hs)

/-- What a predecessor on the list aims at is on the list. -/
theorem Level.succ_linked (hl : Level s i l) {pred : Node} (hp : pred ∈ l)
    (hm : next s i pred = some n) (hn : 2 ≤ n) : s.status n i = .linked := by
  obtain ⟨l₁, l₂, rfl, -, h2⟩ := hl.chain.tail_of_mem hp
  rw [hm] at h2
  obtain ⟨l₃, rfl, -⟩ := h2.unlink_head (Option.some_injective _) (by simp)
  rcases (hl.mem n).1 (by simp) with rfl | rfl | hs
  · exact absurd hn (by decide)
  · exact absurd hn (by decide)
  · exact hs

variable [DecidableEq Tid]

theorem Effect.turn (h : Inv MAX_LEVELS id s) (hu : Upper s) (he : Effect MAX_LEVELS id s t s')
    (n : Node) (i : ℕ) : Turn s s' t n i := by
  have hok := h.memory.pcs t
  have one : ∀ {m : Node} {j : ℕ} {x : LevelStatus}, s'.status n i =
      (s.setStatus m j x).status n i → (n = m → i = j → s'.status n i = x → Turn s s' t n i) →
        Turn s s' t n i := by
    intro m j x hs hc
    rw [setStatus_status] at hs
    split_ifs at hs with hm
    · exact hc hm.1 hm.2 hs
    · exact .same hs
  cases he with
  | move | callRemove | storeUnlinked | claimed | claim | enqueue | reserve | unreserve
  | construct | aimAll | aimBottom | aimOwn | softDelete | markBottom => exact .same rfl
  | @linkBottom w topLevel m retries hp hlk =>
    rw [hp] at hok
    refine one rfl fun hn hi hs => ?_
    subst hn hi
    have hnew : (s.pc t).newNode? = some n := by rw [hp]; rfl
    refine .linkBottom rfl (h.new t n hnew 0) hs hnew ?_
    rw [hok.2.2.2.topLevel]
    exact hok.2.2.1.1
  | @unlink w m n' curr succ tombstoned hp hlk =>
    rw [hp] at hok
    obtain ⟨hw, -, ho, -⟩ := hok
    refine one rfl fun hn hi hs => ?_
    subst hn hi
    obtain ⟨l, hl⟩ := hu.levels w.level
    have hlinked := hl.succ_linked (hu.pred_mem hl hw.pred hlk) (by rw [next, hlk]) ho.pub.sentinel
    by_cases h0 : w.level = 0
    · refine .unlinkBottom h0 hlinked hs (by rw [hp]; exact if_pos h0) ?_
      rw [setPc_self, if_pos h0]
      rfl
    · refine .unlink (Nat.pos_of_ne_zero h0) hlinked hs (by rw [ho.frozen]) ?_
      rw [setPc_self, if_neg h0]
      rfl
  | @unlinkRemoved w n' succ hp hlk =>
    rw [hp] at hok
    obtain ⟨hw, ht, -⟩ := hok
    refine one rfl fun hn hi hs => ?_
    subst hn hi
    obtain ⟨l, hl⟩ := hu.levels 0
    have hlinked := hl.succ_linked (hu.pred_mem hl hw.pred hlk) (by rw [next, hlk]) ht.born.sentinel
    exact .unlinkBottom rfl hlinked hs (by rw [hp]; rfl) (by rw [setPc_self]; rfl)
  | @uncount w m n' curr succ tombstoned p hp =>
    rw [hp] at hok
    refine one rfl fun hn hi hs => ?_
    subst hn hi
    have hc : (s.pc t).uncounts? = some (n, w.level) := by rw [hp]; rfl
    exact .count (Nat.pos_of_ne_zero hok.2.2.2.2) (hu.uncounts t n w.level hc) hs hc
  | @publish w j hp hlk =>
    rw [hp] at hok
    obtain ⟨-, hi⟩ := hok
    refine one rfl fun hn hj hs => ?_
    subst hn hj
    have hins : (s.pc t).inserting? = some (j.newNode, j.level) := by rw [hp]; rfl
    refine .publish hi.level.1 (hu.ahead t _ _ _ hins le_rfl) hs (by rw [hp]; rfl) hins ?_ fun a ha => ?_
    · rw [hi.new.topLevel]
      exact hi.level.2
    · unfold PublishesInOrder at ha
      rw [hp] at ha
      exact ha hlk

omit [DecidableEq Tid] in
theorem PcOk.inserting {p : Pc K} (hp : PcOk MAX_LEVELS id s p)
    (hn : p.inserting? = some (n, i)) : Pub s 0 n ∧ 1 ≤ i := by
  have mode : ∀ {w : Walk K} {m : Mode}, ModeOk MAX_LEVELS s w m →
      m.inserting? = some (n, i) → Pub s 0 n ∧ 1 ≤ i := by
    rintro w ((_ | _ | j | _) | _ | _) hm hn <;> cases hn
    exact ⟨hm.1.born, hm.1.level.1⟩
  have resume : ∀ {k : Resume K}, ResumeOk MAX_LEVELS id s k → k.inserting? = some (n, i) →
      Pub s 0 n ∧ 1 ≤ i := by
    rintro (_ | _) hk hn
    · exact mode hk.2.1 hn
    · cases hn
  unfold Pc.inserting? at hn
  split at hn
  · exact mode hp.2 hn
  · exact mode hp.2.1 hn
  · exact mode hp.2.1 hn
  · exact mode hp.2.1 hn
  · exact mode hp.2.1 hn
  · exact mode hp.2.1 hn
  · exact resume hp.2 hn
  · exact resume hp.2 hn
  · exact resume hp.2 hn
  · cases hn
    exact ⟨hp.2.born, hp.2.level.1⟩
  · cases hn
    exact ⟨hp.2.born, hp.2.level.1⟩
  · cases hn
    exact ⟨hp.2.born, hp.2.level.1⟩
  · cases hn
    exact ⟨hp.2.born, hp.2.level.1⟩
  · cases hn
    exact ⟨hp.2.born, hp.2.level.1⟩
  · cases hn

omit [LinearOrder K] [DecidableEq Tid] in
theorem newNode_of_checked {p : Pc K} (h : p.checked? = some n) : p.newNode? = none :=
  (holds_of_reserved (reserved_of_checked h)).1

theorem Effect.checked (he : Effect MAX_LEVELS id s t s') (hn : (s'.pc t).checked? = some n) :
    (s.pc t).checked? = some n ∨
      ∃ i, 1 ≤ i ∧ i < s.topLevel n ∧ (s.link n i).tombstoned = false := by
  cases he <;> rw [setPc_self] at hn
  case move hm => exact hm.checked n hn
  case aimOwn hp _ => exact .inl (by rw [hp]; exact hn)
  case uncount hpl | claimed hpl | enqueue hpl | unreserve hpl =>
    rw [(free_of_plain hpl.plain).checked] at hn
    cases hn
  case linkBottom | publish =>
    unfold publishFrom at hn
    split_ifs at hn <;> cases hn
  case unlink => split_ifs at hn <;> cases hn
  all_goals cases hn

theorem Effect.drained (he : Effect MAX_LEVELS id s t s') (hn : (s'.pc t).drained? = some n) :
    (s.pc t).drained? = some n ∨
      s.upperLevelsRemaining n ≤ 0 ∧ (s.link n 0).tombstoned = true := by
  cases he <;> rw [setPc_self] at hn
  case move hm => exact hm.drained n hn
  case uncount hpl | claimed hpl | enqueue hpl | unreserve hpl =>
    rw [(free_of_plain hpl.plain).drained] at hn
    cases hn
  case linkBottom | publish =>
    unfold publishFrom at hn
    split_ifs at hn <;> cases hn
  case unlink => split_ifs at hn <;> cases hn
  all_goals cases hn

/-- An `insert` goes on with its level, or past it once the level is published. -/
theorem Effect.inserting (he : Effect MAX_LEVELS id s t s')
    (hn : (s'.pc t).inserting? = some (n, i)) :
    ((s.pc t).newNode? = some n ∧ 1 ≤ i) ∨ ∃ j ≤ i, (s.pc t).inserting? = some (n, j) ∧
      (s'.status n j ≠ s.status n j → (s.pc t).checked? = some n → j < i) := by
  have keep : (s.pc t).inserting? = some (n, i) → s'.status = s.status → ∃ j ≤ i,
      (s.pc t).inserting? = some (n, j) ∧
      (s'.status n j ≠ s.status n j → (s.pc t).checked? = some n → j < i) :=
    fun h hs => ⟨i, le_rfl, h, fun hne => absurd (by rw [hs]) hne⟩
  cases he <;> rw [setPc_self] at hn
  case move hm =>
    rcases hm.inserting with h | h
    · rw [h] at hn
      cases hn
    · exact .inr (keep (h ▸ hn) rfl)
  case unlink hp _ =>
    refine .inr ⟨i, le_rfl, ?_, fun _ hc => ?_⟩
    · rw [hp]
      split_ifs at hn <;> exact hn
    · rw [hp] at hc
      cases hc
  case linkBottom w topLevel n' retries hp _ =>
    unfold publishFrom at hn
    split_ifs at hn <;> cases hn
    exact .inl ⟨by rw [hp]; rfl, le_rfl⟩
  case publish w j hp _ =>
    unfold publishFrom at hn
    split_ifs at hn <;> cases hn
    exact .inr ⟨j.level, Nat.le_succ _, by rw [hp]; rfl, fun _ _ => Nat.lt_succ_self _⟩
  case storeUnlinked hp | claim hp _ | reserve hp | aimOwn hp _ =>
    exact .inr (keep (by rw [hp]; exact hn) rfl)
  case claimed hp _ _ hpl | enqueue hp _ hpl =>
    rcases hpl.inserting with h | h
    · rw [h] at hn
      cases hn
    · exact .inr (keep (by rw [hp]; exact h.symm.trans hn) rfl)
  case uncount hp _ hpl =>
    rcases hpl.inserting with h | h
    · rw [h] at hn
      cases hn
    · refine .inr ⟨i, le_rfl, by rw [hp]; exact h.symm.trans hn, fun _ hc => ?_⟩
      rw [hp] at hc
      cases hc
  case unreserve w j abandon p level hp hle _ hpl =>
    rcases hpl.inserting with h | h <;> rw [h] at hn <;> cases hn
    exact .inr ⟨j.level, hle, by rw [hp]; rfl, fun hne => absurd rfl hne⟩
  all_goals cases hn

theorem Effect.uncounts (h : Inv MAX_LEVELS id s) (hu : Upper s)
    (he : Effect MAX_LEVELS id s t s') (hn : (s'.pc t).uncounts? = some (n, i)) :
    s.status n i = .linked ∧ s'.status n i = .unlinked := by
  have hok := h.memory.pcs t
  cases he <;> rw [setPc_self] at hn
  case move hm =>
    rw [hm.uncounts.1] at hn
    cases hn
  case uncount hpl | claimed hpl | enqueue hpl | unreserve hpl =>
    rw [(free_of_plain hpl.plain).uncounts] at hn
    cases hn
  case linkBottom | publish =>
    unfold publishFrom at hn
    split_ifs at hn <;> cases hn
  case unlink hp hlk =>
    split_ifs at hn <;> cases hn
    rw [hp] at hok
    obtain ⟨l, hl⟩ := hu.levels _
    refine ⟨hl.succ_linked (hu.pred_mem hl hok.1.pred hlk) (by rw [next, hlk])
      hok.2.2.1.pub.sentinel, ?_⟩
    exact (setStatus_status _ _ _).trans (if_pos ⟨rfl, rfl⟩)
  all_goals cases hn

theorem Effect.counts (he : Effect MAX_LEVELS id s t s')
    (hn : (s.pc t).uncounts? = some (n, i)) : s'.status n i = .counted := by
  cases he
  case move hm =>
    rw [hm.uncounts.2] at hn
    cases hn
  case uncount hp _ _ =>
    rw [hp] at hn
    cases hn
    exact (setStatus_status _ _ _).trans (if_pos ⟨rfl, rfl⟩)
  case linkBottom hp _ | unlink hp _ | unlinkRemoved hp _ | claimed hp _ _ _ | claim hp _
    | enqueue hp _ _ | aimOwn hp _ | publish hp _ | unreserve hp _ _ _ | softDelete hp _
    | markBottom hp _ =>
    rw [hp] at hn
    cases hn
  all_goals
    rename_i hp
    rw [hp] at hn
    cases hn

/-- What a step does to where a link aims. -/
theorem Effect.target (h : Inv MAX_LEVELS id s) (he : Effect MAX_LEVELS id s t s') (n : Node)
    (i : ℕ) : (s'.link n i).target = (s.link n i).target ∨ n = head ∨ Pub s i n ∨
      (s.pc t).newNode? = some n ∨ n = s.fresh ∨ ∃ j, (s.pc t).inserting? = some (n, j) := by
  have hok := h.memory.pcs t
  have one : ∀ {m : Node} {j : ℕ} {l : Link}, s'.link n i = (s.setLink m j l).link n i →
      (l.target = (s.link m j).target ∨ m = head ∨ Pub s j m ∨ (s.pc t).newNode? = some m ∨
        m = s.fresh ∨ ∃ j, (s.pc t).inserting? = some (m, j)) →
      (s'.link n i).target = (s.link n i).target ∨ n = head ∨ Pub s i n ∨
        (s.pc t).newNode? = some n ∨ n = s.fresh ∨ ∃ j, (s.pc t).inserting? = some (n, j) := by
    intro m j l hl hm
    rw [setLink_link] at hl
    split_ifs at hl with hn
    · obtain ⟨rfl, rfl⟩ := hn
      rwa [hl]
    · exact .inl (by rw [hl])
  cases he with
  | move | callRemove | storeUnlinked | claimed | claim | enqueue | reserve | unreserve
  | uncount => exact .inl rfl
  | @construct w topLevel retries hp =>
    by_cases hn : n = s.fresh
    · exact .inr (.inr (.inr (.inr (.inl hn))))
    · exact .inl (by simp [State.setPc, State.construct, hn])
  | @aimAll w topLevel m retries hp =>
    by_cases hn : n = m
    · exact .inr (.inr (.inr (.inl (by rw [hp, hn]; rfl))))
    · exact .inl (by simp [State.setPc, State.aimAll, hn])
  | aimBottom hp => exact one rfl (.inr (.inr (.inr (.inl (by rw [hp]; rfl)))))
  | linkBottom hp hlk =>
    rw [hp] at hok
    have := (hok.1.preds 0 (Nat.zero_le _)).born
    exact one rfl (.inr (this.imp_right .inl))
  | unlink hp hlk =>
    rw [hp] at hok
    exact one rfl (.inr (hok.1.pred.born.imp_right .inl))
  | unlinkRemoved hp hlk =>
    rw [hp] at hok
    exact one rfl (.inr (hok.1.pred.born.imp_right .inl))
  | aimOwn hp hlk => exact one rfl (.inr (.inr (.inr (.inr (.inr ⟨_, by rw [hp]; rfl⟩)))))
  | @publish w j hp hlk =>
    rw [hp] at hok
    obtain ⟨hf, hi⟩ := hok
    have h1 := hi.top.2
    have h2 := hi.level.2
    have := (hf.preds j.level (by omega)).born
    exact one rfl (.inr (this.imp_right .inl))
  | softDelete hp hlk => exact one rfl (.inl (by rw [hlk]))
  | markBottom hp hlk => exact one rfl (.inl (by rw [hlk]))

theorem Settled.step (hn : Settled s n) (h : Inv MAX_LEVELS id s) (hu : Upper s)
    (he : Effect MAX_LEVELS id s t s') : Settled s' n := by
  have hx := he.extends h
  refine ⟨?_, fun i hi => ?_, fun u hc => ?_⟩
  · rw [hx.frozen n (h.memory.tombstoned n 0 hn.tombstoned).fresh 0 hn.tombstoned, hn.tombstoned]
  · have hni := hn.status i hi
    rcases he.turn h hu n i with hs | ⟨h0, -⟩ | ⟨-, -, -, hc, -⟩ | ⟨-, hs, -⟩ | ⟨h0, -⟩ | ⟨-, hs, -⟩
    · rwa [hs]
    · omega
    · exact absurd hc (hn.checked t)
    · exact absurd hs hni.1
    · omega
    · exact absurd hs hni.2
  · by_cases hut : u = t
    · subst hut
      rcases he.checked hc with hc | ⟨i, h1, h2, h3⟩
      · exact hn.checked u hc
      · rw [hu.marked n 0 i hn.tombstoned h1 h2] at h3
        cases h3
    · rw [he.pc_of_ne hut] at hc
      exact hn.checked u hc

omit [DecidableEq Tid] in
/-- A node that may be published is on the list. -/
theorem Upper.linked_of_checked (hu : Upper s) (h : Inv MAX_LEVELS id s)
    (hn : (s.pc t).checked? = some n) : s.status n 0 = .linked := by
  obtain ⟨i, hi⟩ := inserting_of_reserved (reserved_of_checked hn)
  have hp := ((h.memory.pcs t).inserting hi).1
  rcases hs : s.status n 0 with _ | _ | _ | _
  · exact absurd hs hp.level
  · rfl
  · exact absurd hn ((hu.unlinked n hs).checked t)
  · exact absurd hs (h.memory.uncounted n)

theorem Effect.levels (h : Inv MAX_LEVELS id s) (hu : Upper s) (he : Effect MAX_LEVELS id s t s')
    (i : ℕ) : ∃ l, Level s' i l := by
  by_cases h0 : i = 0
  · exact h0 ▸ he.bottom h
  obtain ⟨l, hl⟩ := hu.levels i
  have hok := h.memory.pcs t
  have hx := he.extends h
  have hrank := h.rank_eq hl hx
  have hnew : ∀ n, (s.pc t).newNode? = some n → n ∉ l := fun n hn => by
    obtain ⟨key, topLevel, hno⟩ := hok.newNode hn
    exact hl.notMem hno.sentinel (h.new t n hn i)
  cases he with
  | move | callRemove | storeUnlinked | claimed | claim | enqueue | reserve | unreserve =>
    exact ⟨l, hl.congr (fun _ _ => rfl) (fun _ => Iff.rfl) hrank⟩
  | construct hp =>
    refine ⟨l, hl.congr (fun n hn => ?_) (fun _ => Iff.rfl) hrank⟩
    have hne : n ≠ s.fresh := by
      rintro rfl
      refine hl.notMem h.fresh ?_ hn
      by_contra hs
      exact absurd (h.memory.published _ i hs).fresh (lt_irrefl _)
    simp [next, State.setPc, State.construct, hne]
  | @aimAll w topLevel n retries hp =>
    refine ⟨l, hl.congr (fun m hm => ?_) (fun _ => Iff.rfl) hrank⟩
    have hne : m ≠ n := by
      rintro rfl
      exact hnew m (by rw [hp]; rfl) hm
    simp [next, State.setPc, State.aimAll, hne]
  | @aimBottom w topLevel n retries hp =>
    exact ⟨l, hl.congr (fun m _ => congrFun (next_setLink_of_ne h0 _) m) (fun _ => Iff.rfl) hrank⟩
  | @linkBottom w topLevel n retries hp hlk =>
    refine ⟨l, hl.congr (fun m _ => congrFun (next_setLink_of_ne h0 _) m) (fun m => ?_) hrank⟩
    change (State.setStatus _ n 0 .linked).status m i = _ ↔ _
    rw [setStatus_status, if_neg fun h => h0 h.2]
    exact Iff.rfl
  | @unlink w m n curr succ tombstoned hp hlk =>
    rw [hp] at hok
    obtain ⟨hw, hm, ho, -⟩ := hok
    by_cases hi : i = w.level
    · subst hi
      refine ⟨l.erase n, hl.unlink (hu.pred_mem hl hw.pred hlk) (by rw [next, hlk]) ho.pub ?_
        (fun m => ?_) hrank⟩
      · rw [show next s w.level n = some curr by rw [next, ho.frozen]]
        exact next_setLink _
      · change (State.setStatus _ n w.level .unlinked).status m w.level = _ ↔ _
        rw [setStatus_status]
        by_cases hm : m = n <;> simp [hm, State.setLink]
    · refine ⟨l, hl.congr (fun m _ => ?_) (fun m => ?_) hrank⟩
      · exact congrFun (next_setLink_of_ne hi _) m
      · change (State.setStatus _ n w.level .unlinked).status m i = _ ↔ _
        rw [setStatus_status, if_neg fun h => hi h.2]
        exact Iff.rfl
  | @unlinkRemoved w n succ hp hlk =>
    refine ⟨l, hl.congr (fun m _ => congrFun (next_setLink_of_ne h0 _) m) (fun m => ?_) hrank⟩
    change (State.setStatus _ n 0 .unlinked).status m i = _ ↔ _
    rw [setStatus_status, if_neg fun h => h0 h.2]
    exact Iff.rfl
  | @uncount w m n curr succ tombstoned p hp =>
    have hs := hu.uncounts t n w.level (by rw [hp]; rfl)
    refine ⟨l, hl.congr (fun _ _ => rfl) (fun a => ?_) hrank⟩
    change (State.setStatus _ n w.level .counted).status a i = _ ↔ _
    rw [setStatus_status]
    split_ifs with ha
    · rw [ha.1, ha.2, hs]
      simp
    · exact Iff.rfl
  | @aimOwn w j ownNext hp hlk =>
    have hs := hu.ahead t j.newNode j.level j.level (by rw [hp]; rfl) le_rfl
    rw [hp] at hok
    refine ⟨l, hl.congr (fun m hm => ?_) (fun _ => Iff.rfl) hrank⟩
    by_cases hi : i = j.level
    · subst hi
      have hne : m ≠ j.newNode := by
        rintro rfl
        exact hl.notMem hok.2.born.sentinel hs hm
      exact congrFun (next_setLink _) m |>.trans (Function.update_of_ne hne _ _)
    · exact congrFun (next_setLink_of_ne hi _) m
  | @publish w j hp hlk =>
    by_cases hi : i = j.level
    swap
    · refine ⟨l, hl.congr (fun m _ => congrFun (next_setLink_of_ne hi _) m) (fun m => ?_) hrank⟩
      change (State.setStatus _ j.newNode j.level .linked).status m i = _ ↔ _
      rw [setStatus_status, if_neg fun h => hi h.2]
      exact Iff.rfl
    subst hi
    have hc : (s.pc t).checked? = some j.newNode := by rw [hp]; rfl
    have hs := hu.ahead t j.newNode j.level j.level (by rw [hp]; rfl) le_rfl
    have haim := hu.aimed t w j true hp
    rw [hp] at hok
    obtain ⟨hf, hj⟩ := hok
    have h1 := hj.top.2
    have h2 := hj.level.2
    have hpr := hf.preds j.level (by omega)
    have hsu := hf.succs j.level (by omega)
    have hpred := hu.pred_mem hl hpr hlk
    have hrn : rank s j.newNode = (w.key : WithTop K) := by
      rw [rank_of_pub hj.born, hj.new.key]
    have hlt : rank s j.newNode < rank s (w.succs j.level) := by
      refine lt_of_le_of_ne (hrn ▸ hsu.after) fun he => ?_
      rcases hsu.on with hnil | hp'
      · rw [hnil] at he
        exact absurd he (rank_lt_NIL (.inr hj.born)).ne
      · -- both are on the list of level 0, where each key is once
        have hs' := hl.succ_linked hpred (by rw [next, hlk]) hp'.sentinel
        obtain ⟨l₀, hl₀⟩ := hu.levels 0
        have := hl₀.eq_of_rank ((hl₀.mem _).2 (.inr (.inr (hu.linked_of_checked h hc))))
          ((hl₀.mem _).2 (.inr (.inr (hu.bottom _ _ hs')))) he
        rw [← this, hs] at hs'
        cases hs'
    refine hl.insert hpred (hl.notMem hj.born.sentinel hs) (by rw [next, hlk]) haim
      (hrn ▸ hpr.before) hlt (next_setLink _) (fun m => ?_) fun m hm => ?_
    · change (State.setStatus _ j.newNode j.level .linked).status m j.level = _ ↔ _
      rw [setStatus_status]
      by_cases hm : m = j.newNode <;> simp [hm, State.setLink]
    · rcases hm with hm | rfl
      · exact hrank m hm
      · rfl
  | @softDelete w n level retries current hp hlk =>
    refine ⟨l, hl.congr (fun m _ => ?_) (fun _ => Iff.rfl) hrank⟩
    by_cases hi : i = level
    · subst hi
      refine (congrFun (next_setLink (s := s) (n := n) (i := i) ⟨current, true⟩) m).trans ?_
      by_cases hm : m = n
      · subst hm
        simp [next, hlk]
      · simp [hm]
    · exact congrFun (next_setLink_of_ne hi _) m
  | @markBottom w n retries succ hp hlk =>
    exact ⟨l, hl.congr (fun m _ => congrFun (next_setLink_of_ne h0 _) m) (fun _ => Iff.rfl) hrank⟩

omit [LinearOrder K] [DecidableEq Tid] in
theorem mem_pending : i ∈ pending s n ↔
    (1 ≤ i ∧ i < s.topLevel n) ∧ (s.status n i = .linked ∨ s.status n i = .unlinked) := by
  simp [pending]

omit [LinearOrder K] [DecidableEq Tid] in
theorem pending_congr (htop : s'.topLevel n = s.topLevel n)
    (hs : ∀ i, 1 ≤ i → (s'.status n i = .linked ∨ s'.status n i = .unlinked ↔
      s.status n i = .linked ∨ s.status n i = .unlinked)) : pending s' n = pending s n := by
  ext i
  rw [mem_pending, mem_pending, htop]
  exact and_congr_right fun h => hs i h.1

theorem Effect.reserved_iff (he : Effect MAX_LEVELS id s t s')
    (h : (s'.pc t).reserved? = (s.pc t).reserved? ∨
      (s'.pc t).reserved? ≠ some n ∧ (s.pc t).reserved? ≠ some n) :
    Reserved s' n ↔ Reserved s n := by
  refine exists_congr fun u => ?_
  by_cases hu : u = t
  · subst hu
    rcases h with h | h
    · rw [h]
    · exact ⟨fun h' => absurd h' h.1, fun h' => absurd h' h.2⟩
  · rw [he.pc_of_ne hu]

omit [LinearOrder K] [DecidableEq Tid] in
theorem Remaining.congr (h : Remaining s n) (hpend : pending s' n = pending s n)
    (hrem : s'.upperLevelsRemaining n = s.upperLevelsRemaining n)
    (hres : Reserved s' n ↔ Reserved s n) : Remaining s' n := by
  refine ⟨fun hr => ?_, fun hr => ?_⟩
  · rw [hrem, hpend, h.reserved (hres.1 hr)]
  · rw [hrem, hpend, h.unreserved fun h' => hr (hres.2 h')]

omit [DecidableEq Tid] in
/-- One `insert` at most holds a reservation for a node. -/
theorem Upper.reserved_unique (hu : Upper s) {u : Tid} (ht : (s.pc t).reserved? = some n)
    (hu' : (s.pc u).reserved? = some n) : t = u := by
  obtain ⟨i, hi⟩ := inserting_of_reserved ht
  obtain ⟨j, hj⟩ := inserting_of_reserved hu'
  exact hu.inserting t u n i j hi hj

theorem Remaining.step (h : Inv MAX_LEVELS id s) (hu : Upper s) (he : Effect MAX_LEVELS id s t s')
    (n : Node) : Remaining s' n := by
  have hrem := hu.remaining n
  have hok := h.memory.pcs t
  have heff := he
  -- a step that leaves the counter and the reservation of the thread
  have same : pending s' n = pending s n →
      s'.upperLevelsRemaining n = s.upperLevelsRemaining n →
      (s'.pc t).reserved? = (s.pc t).reserved? → Remaining s' n :=
    fun hpend hr hres => hrem.congr hpend hr (he.reserved_iff (.inl hres))
  have gone : ∀ {m : Node}, (s.pc t).reserved? = some m → (s'.pc t).reserved? = none →
      ¬ Reserved s' m := by
    rintro m hm hm' ⟨u, hru⟩
    by_cases hut : u = t
    · subst hut
      rw [hm'] at hru
      cases hru
    · rw [he.pc_of_ne hut] at hru
      exact hut (hu.reserved_unique hru hm)
  cases he with
  | move hm => exact same rfl rfl (by rw [setPc_self]; exact hm.reserved)
  | callRemove hp | aimAll hp | aimBottom hp | storeUnlinked hp | claim hp | aimOwn hp
  | softDelete hp | markBottom hp => exact same rfl rfl (by rw [setPc_self, hp]; rfl)
  | claimed hp _ _ hpl | enqueue hp _ hpl =>
    exact same rfl rfl (by rw [setPc_self, hp]; exact (free_of_plain hpl.plain).reserved)
  | @construct w topLevel retries hp =>
    by_cases hn : n = s.fresh
    · have hun : ∀ i, s.status n i = .unpublished := fun i => by
        by_contra hs
        exact lt_irrefl _ (hn ▸ (h.memory.published n i hs).fresh)
      have hres : ¬ Reserved s n := by
        rintro ⟨u, hru⟩
        obtain ⟨i, hi⟩ := inserting_of_reserved hru
        exact ((h.memory.pcs u).inserting hi).1.bottom (hun 0)
      refine ⟨fun hr => ?_, fun _ => ?_⟩
      · refine absurd hr ((heff.reserved_iff (.inl ?_)).not.2 hres)
        rw [setPc_self, hp]
        rfl
      · have : pending ((s.construct s.fresh w.key topLevel).setPc t
            (.aimAll w topLevel s.fresh retries)) n = ∅ := by
          ext i
          rw [mem_pending]
          simp [State.setPc, State.construct, hun]
        rw [this]
        simp [State.setPc, State.construct, hn]
    · refine same (pending_congr ?_ fun _ _ => Iff.rfl) ?_ (by rw [setPc_self, hp]; rfl)
      · simp [State.setPc, State.construct, hn]
      · simp [State.setPc, State.construct, hn]
  | @linkBottom w topLevel m retries hp hlk =>
    refine same (pending_congr rfl fun i hi => ?_) rfl ?_
    · change (State.setStatus _ m 0 .linked).status n i = _ ∨
        (State.setStatus _ m 0 .linked).status n i = _ ↔ _
      rw [setStatus_status, if_neg fun h => by omega]
      exact Iff.rfl
    · rw [setPc_self, hp]
      unfold publishFrom
      split_ifs <;> rfl
  | @unlink w m n' curr succ tombstoned hp hlk =>
    refine same (pending_congr rfl fun i hi => ?_) rfl ?_
    · change (State.setStatus _ n' w.level .unlinked).status n i = _ ∨
        (State.setStatus _ n' w.level .unlinked).status n i = _ ↔ _
      rw [setStatus_status]
      split_ifs with hni
      · have h0 : w.level ≠ 0 := by omega
        rcases heff.turn h hu n i with hs | ⟨h1, -⟩ | ⟨-, -, -, hc, -⟩ | ⟨-, hs, -⟩ | ⟨h1, -⟩ |
          ⟨-, hs, -⟩
        · have : (State.setStatus (s.setLink w.pred w.level ⟨some curr, false⟩) n' w.level
            .unlinked).status n i = s.status n i := hs
          rw [setStatus_status, if_pos hni] at this
          simp [← this]
        · omega
        · rw [hp] at hc
          cases hc
        · simp [hs]
        · omega
        · simp [hs]
      · exact Iff.rfl
    · rw [setPc_self, hp]
      split_ifs <;> rfl
  | @unlinkRemoved w n' succ hp hlk =>
    refine same (pending_congr rfl fun i hi => ?_) rfl (by rw [setPc_self, hp]; rfl)
    change (State.setStatus _ n' 0 .unlinked).status n i = _ ∨
      (State.setStatus _ n' 0 .unlinked).status n i = _ ↔ _
    rw [setStatus_status, if_neg fun h => by omega]
    exact Iff.rfl
  | @uncount w m n' curr succ tombstoned p hp hpok hpl =>
    have hs := hu.uncounts t n' w.level (by rw [hp]; rfl)
    rw [hp] at hok
    obtain ⟨-, -, ho, -, h0⟩ := hok
    have hres := heff.reserved_iff (n := n) (.inl (by
      rw [setPc_self, hp]
      exact (free_of_plain hpl.plain).reserved))
    by_cases hn : n = n'
    · subst hn
      have hmem : w.level ∈ pending s n :=
        mem_pending.2 ⟨⟨Nat.pos_of_ne_zero h0, hu.range n _ ho.pub.level⟩, .inr hs⟩
      have hpend : pending (((s.addRemaining n (-1)).setStatus n w.level .counted).setPc t p) n =
          (pending s n).erase w.level := by
        ext i
        rw [Finset.mem_erase, mem_pending, mem_pending]
        change _ ∧ ((State.setStatus _ n w.level .counted).status n i = _ ∨
          (State.setStatus _ n w.level .counted).status n i = _) ↔ _
        rw [setStatus_status]
        by_cases hi : i = w.level
        · simp [hi]
        · simp only [hi, and_false, if_false, ne_eq, not_false_eq_true, true_and]
          exact Iff.rfl
      have hcard := Finset.card_erase_of_mem hmem
      have hpos := Finset.card_pos.2 ⟨_, hmem⟩
      have hval : (((s.addRemaining n (-1)).setStatus n w.level .counted).setPc t
          p).upperLevelsRemaining n = s.upperLevelsRemaining n - 1 := by
        simp [State.setPc, State.setStatus, State.addRemaining, sub_eq_add_neg]
      refine ⟨fun hr => ?_, fun hr => ?_⟩
      · have := hrem.reserved (hres.1 hr)
        rw [hpend, hval]
        omega
      · have := hrem.unreserved fun h' => hr (hres.2 h')
        rw [hpend, hval]
        omega
    · refine hrem.congr (pending_congr rfl fun i _ => ?_) ?_ hres
      · change (State.setStatus _ n' w.level .counted).status n i = _ ∨
          (State.setStatus _ n' w.level .counted).status n i = _ ↔ _
        rw [setStatus_status, if_neg fun h => hn h.1]
        exact Iff.rfl
      · simp [State.setPc, State.setStatus, State.addRemaining, hn]
  | @reserve w i hp =>
    by_cases hn : n = i.newNode
    · subst hn
      have hres : ¬ Reserved s i.newNode := by
        rintro ⟨u, hru⟩
        obtain ⟨j, hj⟩ := inserting_of_reserved hru
        obtain rfl := hu.inserting u t _ _ i.level hj (by rw [hp]; rfl)
        rw [hp] at hru
        cases hru
      have := hrem.unreserved hres
      refine ⟨fun _ => ?_, fun hr => absurd ⟨t, by rw [setPc_self]; rfl⟩ hr⟩
      have hpend : pending ((s.addRemaining i.newNode 1).setPc t (.loadOwn w i)) i.newNode =
          pending s i.newNode := rfl
      rw [hpend]
      simp [State.setPc, State.addRemaining, this]
    · refine hrem.congr rfl ?_ (heff.reserved_iff (.inr ⟨?_, ?_⟩))
      · simp [State.setPc, State.addRemaining, hn]
      · rw [setPc_self]
        simpa [Pc.reserved?] using Ne.symm hn
      · rw [hp]
        simp [Pc.reserved?]
  | @publish w i hp hlk =>
    have hs := hu.ahead t i.newNode i.level i.level (by rw [hp]; rfl) le_rfl
    have hr : (s.pc t).reserved? = some i.newNode := by rw [hp]; rfl
    have hr' : (publishFrom w i (i.level + 1)).reserved? = none := by
      unfold publishFrom
      split_ifs <;> rfl
    rw [hp] at hok
    obtain ⟨-, hi⟩ := hok
    by_cases hn : n = i.newNode
    · subst hn
      have hnot : i.level ∉ pending s i.newNode := fun hm => by
        rw [mem_pending, hs] at hm
        simp at hm
      have hpend : pending (((s.setLink (w.preds i.level) i.level ⟨some i.newNode, false⟩).setStatus
          i.newNode i.level .linked).setPc t (publishFrom w i (i.level + 1))) i.newNode =
          insert i.level (pending s i.newNode) := by
        ext j
        rw [Finset.mem_insert, mem_pending, mem_pending]
        change _ ∧ ((State.setStatus _ i.newNode i.level .linked).status i.newNode j = _ ∨
          (State.setStatus _ i.newNode i.level .linked).status i.newNode j = _) ↔ _
        rw [setStatus_status]
        by_cases hj : j = i.level
        · simp only [hj, and_self, if_true, true_or, iff_true, and_true]
          refine ⟨hi.level.1, ?_⟩
          have := hi.new.topLevel
          have h2 := hi.level.2
          change i.level < s.topLevel i.newNode
          omega
        · simp only [hj, and_false, if_false, false_or]
          exact Iff.rfl
      have := hrem.reserved ⟨t, hr⟩
      refine ⟨fun h' => absurd h' (gone hr (by rw [setPc_self, hr'])), fun _ => ?_⟩
      rw [hpend, Finset.card_insert_of_notMem hnot]
      push_cast
      exact this
    · refine hrem.congr (pending_congr rfl fun j _ => ?_) rfl (heff.reserved_iff (.inr ⟨?_, ?_⟩))
      · change (State.setStatus _ i.newNode i.level .linked).status n j = _ ∨
          (State.setStatus _ i.newNode i.level .linked).status n j = _ ↔ _
        rw [setStatus_status, if_neg fun h => hn h.1]
        exact Iff.rfl
      · rw [setPc_self, hr']
        simp
      · rw [hr]
        simpa using Ne.symm hn
  | @unreserve w i abandon p level hp hle hpok hpl =>
    have hr : (s.pc t).reserved? = some i.newNode := by rw [hp]; rfl
    have hr' := (free_of_plain hpl.plain).reserved
    by_cases hn : n = i.newNode
    · subst hn
      have := hrem.reserved ⟨t, hr⟩
      refine ⟨fun h' => absurd h' (gone hr (by rw [setPc_self, hr'])), fun _ => ?_⟩
      have hpend : pending ((s.addRemaining i.newNode (-1)).setPc t p) i.newNode =
          pending s i.newNode := rfl
      rw [hpend]
      simp [State.setPc, State.addRemaining, this]
    · refine hrem.congr rfl ?_ (heff.reserved_iff (.inr ⟨?_, ?_⟩))
      · simp [State.setPc, State.addRemaining, hn]
      · rw [setPc_self, hr']
        simp
      · rw [hr]
        simpa using Ne.symm hn

/-- The level published next and those above it are not published. -/
theorem Upper.ahead_step (hu : Upper s) (h : Inv MAX_LEVELS id s)
    (he : Effect MAX_LEVELS id s t s') {u : Tid} {j : ℕ}
    (hn : (s'.pc u).inserting? = some (n, i)) (hij : i ≤ j) : s'.status n j = .unpublished := by
  by_cases hut : u = t
  · subst hut
    rcases he.inserting hn with ⟨hnew, hi⟩ | ⟨k, hki, hk, hlt⟩
    · have hs := h.new u n hnew j
      rcases he.turn h hu n j with hs' | ⟨h0, -⟩ | ⟨-, -, -, hc, -⟩ | ⟨-, hs', -⟩ | ⟨-, hs', -⟩ |
        ⟨-, hs', -⟩
      · rw [hs', hs]
      · omega
      · rw [newNode_of_checked hc] at hnew
        cases hnew
      all_goals
        rw [hs] at hs'
        cases hs'
    · have hs := hu.ahead u n k j hk (hki.trans hij)
      rcases he.turn h hu n j with hs' | ⟨h0, -, -⟩ | ⟨-, -, hs', hc, hk', -⟩ | ⟨-, hs', -⟩ |
        ⟨-, hs', -⟩ | ⟨-, hs', -⟩
      · rw [hs', hs]
      · have := ((h.memory.pcs u).inserting hk).2
        omega
      · rw [hk] at hk'
        cases hk'
        have := hlt (by rw [hs', hs]; simp) hc
        omega
      all_goals
        rw [hs] at hs'
        cases hs'
  · rw [he.pc_of_ne hut] at hn
    have hs := hu.ahead u n i j hn hij
    have hp := (h.memory.pcs u).inserting hn
    rcases he.turn h hu n j with hs' | ⟨-, -, -, hnew, -⟩ | ⟨-, -, -, -, hk, -⟩ | ⟨-, hs', -⟩ |
      ⟨-, hs', -⟩ | ⟨-, hs', -⟩
    · rw [hs', hs]
    · exact absurd (h.new t n hnew 0) hp.1.bottom
    · exact absurd (hu.inserting u t n _ _ hn hk) hut
    all_goals
      rw [hs] at hs'
      cases hs'

theorem Upper.inserting_step (hu : Upper s) (h : Inv MAX_LEVELS id s)
    (he : Effect MAX_LEVELS id s t s') {u v : Tid} {j : ℕ}
    (hn : (s'.pc u).inserting? = some (n, i)) (hm : (s'.pc v).inserting? = some (n, j)) :
    u = v := by
  have old : ∀ {u v i j}, u ≠ t → (s'.pc u).inserting? = some (n, i) →
      (s'.pc v).inserting? = some (n, j) → u = v := by
    intro u v i j hut hn hm
    rw [he.pc_of_ne hut] at hn
    by_cases hvt : v = t
    · subst hvt
      rcases he.inserting hm with ⟨hnew, -⟩ | ⟨k, -, hk, -⟩
      · exact absurd (h.new v n hnew 0) ((h.memory.pcs u).inserting hn).1.bottom
      · exact hu.inserting u v n _ _ hn hk
    · rw [he.pc_of_ne hvt] at hm
      exact hu.inserting u v n _ _ hn hm
  by_cases hut : u = t
  · by_cases hvt : v = t
    · rw [hut, hvt]
    · exact (old hvt hm hn).symm
  · exact old hut hn hm

theorem Upper.aimed_step (hu : Upper s) (h : Inv MAX_LEVELS id s)
    (he : Effect MAX_LEVELS id s t s') {u : Tid} {w : Walk K} {j : Insertion} {b : Bool}
    (hp : s'.pc u = .publish w j b) :
    (s'.link j.newNode j.level).target = some (w.succs j.level) := by
  by_cases hut : u = t
  · subst hut
    cases he <;> rw [setPc_self] at hp
    case move hm =>
      rcases hm.publish w j b hp with ⟨b', hb⟩ | ht
      · exact hu.aimed u w j b' hb
      · exact ht
    case aimOwn hp' _ =>
      cases hp
      exact congrArg Link.target ((setLink_link _ _ _).trans (if_pos ⟨rfl, rfl⟩))
    case uncount hpl | claimed hpl | enqueue hpl | unreserve hpl =>
      exact absurd hp ((free_of_plain hpl.plain).publish _ _ _)
    case linkBottom | publish =>
      unfold publishFrom at hp
      split_ifs at hp
    case unlink => split_ifs at hp
    all_goals cases hp
  · rw [he.pc_of_ne hut] at hp
    have hins : (s.pc u).inserting? = some (j.newNode, j.level) := by rw [hp]; rfl
    have hpub := ((h.memory.pcs u).inserting hins).1
    rcases he.target h j.newNode j.level with ht | ht | ht | ht | ht | ⟨k, ht⟩
    · rw [ht, hu.aimed u w j b hp]
    · exact absurd ht hpub.ne_head
    · exact absurd (hu.ahead u _ _ _ hins le_rfl) ht.level
    · exact absurd (h.new t _ ht 0) hpub.bottom
    · exact absurd hpub.fresh (ht ▸ lt_irrefl _)
    · exact absurd (hu.inserting u t _ _ _ hins ht) hut

omit [DecidableEq Tid] in
/-- A tombstoned node whose counter is zero is settled. -/
theorem Upper.settled_of_drained (hu : Upper s) (hr : s.upperLevelsRemaining n ≤ 0)
    (ht : (s.link n 0).tombstoned = true) : Settled s n := by
  have hrem := hu.remaining n
  have hres : ¬ Reserved s n := fun h => by
    have := hrem.reserved h
    omega
  have hpend : pending s n = ∅ := by
    have := hrem.unreserved hres
    exact Finset.card_eq_zero.1 (by omega)
  have hno : ∀ i, 1 ≤ i → ¬ (s.status n i = .linked ∨ s.status n i = .unlinked) := fun i hi hs => by
    have hm : i ∈ pending s n :=
      mem_pending.2 ⟨⟨hi, hu.range n i (by rcases hs with hs | hs <;> rw [hs] <;> simp)⟩, hs⟩
    simp [hpend] at hm
  exact ⟨ht, fun i hi => not_or.1 (hno i hi), fun t hc => hres ⟨t, reserved_of_checked hc⟩⟩

theorem Upper.step (hu : Upper s) (h : Inv MAX_LEVELS id s) {a : Act K}
    (hg : PublishesInOrder s (t, a)) (he : Effect MAX_LEVELS id s t s') : Upper s' := by
  have hx := he.extends h
  have settled : ∀ {n}, Settled s n → Settled s' n := fun hn => hn.step h hu he
  have range : ∀ n i, s.status n i ≠ .unpublished → i < s'.topLevel n := fun n i hs => by
    rw [hx.topLevel n (h.memory.published n i hs).fresh]
    exact hu.range n i hs
  have frozen : ∀ {n i}, (s.link n i).tombstoned = true → (s'.link n i).tombstoned = true := by
    intro n i ht
    rw [hx.frozen n (h.memory.tombstoned n i ht).fresh i ht, ht]
  refine ⟨he.levels h hu, fun n i hs => ?_, fun n i hs => ?_, fun n i hs => ?_,
    fun n i j ht hij hj => ?_, fun n i hs => ?_, Remaining.step h hu he,
    fun u v n i j => hu.inserting_step h he, fun u n i j => hu.ahead_step h he,
    fun u w i b => hu.aimed_step h he, fun u n hn => ?_, fun n hs => ?_, fun u n i hn => ?_,
    fun u v n i hn hm => ?_, fun n i hi hs => ?_⟩
  · -- the level below the one that is published now is published: the guard
    have old : s.status n (i + 1) ≠ .unpublished → s'.status n i ≠ .unpublished :=
      fun h' => hx.status n i (hu.down n i h')
    rcases he.turn h hu n (i + 1) with hs' | ⟨h0, -⟩ | ⟨-, -, -, -, -, -, hin⟩ | ⟨-, hs', -⟩ |
      ⟨-, hs', -⟩ | ⟨-, hs', -⟩
    · exact old (hs' ▸ hs)
    · omega
    · exact hx.status n i (hin a hg)
    all_goals exact old (by rw [hs']; simp)
  · rcases he.turn h hu n i with hs' | ⟨rfl, -, -, hnew, ht⟩ | ⟨-, -, -, hc, -, ht, -⟩ | ⟨-, hs', -⟩ |
      ⟨-, hs', -⟩ | ⟨-, hs', -⟩
    · exact range n i (hs' ▸ hs)
    · obtain ⟨_, _, hno⟩ := (h.memory.pcs t).newNode hnew
      rw [hx.topLevel n hno.fresh]
      exact ht
    · obtain ⟨k, hk⟩ := inserting_of_reserved (reserved_of_checked hc)
      rw [hx.topLevel n ((h.memory.pcs t).inserting hk).1.fresh]
      exact ht
    all_goals exact range n i (by rw [hs']; simp)
  · -- at level 0 only a settled node is unlinked
    have bottom : s.status n 0 = .linked → ¬ Settled s n → s'.status n 0 = .linked := by
      intro h0 hns
      rcases he.turn h hu n 0 with hs' | ⟨-, hs', -⟩ | ⟨h1, -⟩ | ⟨h1, -⟩ | ⟨-, -, -, hd, -⟩ | ⟨h1, -⟩
      · rw [hs', h0]
      · rw [hs'] at h0
        cases h0
      · omega
      · omega
      · exact absurd (hu.drained t n hd) hns
      · omega
    rcases Nat.eq_zero_or_pos i with rfl | hi
    · exact hs
    rcases he.turn h hu n i with hs' | ⟨h0, -⟩ | ⟨-, -, -, hc, -⟩ | ⟨-, -, hs', -⟩ | ⟨-, -, hs', -⟩ |
      ⟨-, -, hs', -⟩
    · exact bottom (hu.bottom n i (hs' ▸ hs)) fun hn => (hn.status i hi).1 (hs' ▸ hs)
    · omega
    · exact bottom (hu.linked_of_checked h hc) fun hn => hn.checked t hc
    all_goals
      rw [hs'] at hs
      cases hs
  · have top : n < s.fresh → j < s.topLevel n := fun hn => hx.topLevel n hn ▸ hj
    rcases he.link h n i with hl | hl
    · rw [hl] at ht
      exact frozen (hu.marked n i j ht hij (top (h.memory.tombstoned n i ht).fresh))
    · obtain ⟨hp, hm⟩ := hl.tombstoned ht
      exact frozen (hm j hij (top hp.fresh))
  · rcases he.turn h hu n i with hs' | ⟨-, -, hs', -⟩ | ⟨-, -, hs', -⟩ | ⟨-, -, -, ht, -⟩ |
      ⟨rfl, -, -, hd, -⟩ | ⟨-, hs', -⟩
    · exact frozen (hu.off n i (hs' ▸ hs))
    · simp [hs'] at hs
    · simp [hs'] at hs
    · exact frozen ht
    · exact frozen (hu.drained t n hd).tombstoned
    · exact frozen (hu.off n i (.inl hs'))
  · by_cases hut : u = t
    · subst hut
      rcases he.drained hn with hn | ⟨hr, ht⟩
      · exact settled (hu.drained u n hn)
      · exact settled (hu.settled_of_drained hr ht)
    · rw [he.pc_of_ne hut] at hn
      exact settled (hu.drained u n hn)
  · rcases he.turn h hu n 0 with hs' | ⟨-, -, hs', -⟩ | ⟨h1, -⟩ | ⟨h1, -⟩ | ⟨-, -, -, hd, -⟩ | ⟨h1, -⟩
    · exact settled (hu.unlinked n (hs' ▸ hs))
    · rw [hs'] at hs
      cases hs
    · omega
    · omega
    · exact settled (hu.drained t n hd)
    · omega
  · by_cases hut : u = t
    · subst hut
      exact (he.uncounts h hu hn).2
    · rw [he.pc_of_ne hut] at hn
      have hs := hu.uncounts u n i hn
      rcases he.turn h hu n i with hs' | ⟨-, hs', -⟩ | ⟨-, hs', -⟩ | ⟨-, hs', -⟩ | ⟨-, hs', -⟩ |
        ⟨-, -, -, hc⟩
      · rw [hs', hs]
      · rw [hs] at hs'
        cases hs'
      · rw [hs] at hs'
        cases hs'
      · rw [hs] at hs'
        cases hs'
      · rw [hs] at hs'
        cases hs'
      · exact absurd (hu.uncounts_unique u t n i hn hc) hut
  · have old : ∀ {u v}, u ≠ t → (s'.pc u).uncounts? = some (n, i) →
        (s'.pc v).uncounts? = some (n, i) → u = v := by
      intro u v hut hn hm
      rw [he.pc_of_ne hut] at hn
      by_cases hvt : v = t
      · subst hvt
        have := (he.uncounts h hu hm).1
        rw [hu.uncounts u n i hn] at this
        cases this
      · rw [he.pc_of_ne hvt] at hm
        exact hu.uncounts_unique u v n i hn hm
    by_cases hut : u = t
    · by_cases hvt : v = t
      · rw [hut, hvt]
      · exact (old hvt hm hn).symm
    · exact old hut hn hm
  · rcases he.turn h hu n i with hs' | ⟨-, -, hs', -⟩ | ⟨-, -, hs', -⟩ | ⟨-, -, -, -, hc⟩ | ⟨h0, -⟩ |
      ⟨-, -, hs', -⟩
    · obtain ⟨u, hc⟩ := hu.uncounted n i hi (hs' ▸ hs)
      refine ⟨u, ?_⟩
      rw [he.pc_of_ne ?_, hc]
      rintro rfl
      rw [he.counts hc] at hs
      cases hs
    · rw [hs'] at hs
      cases hs
    · rw [hs'] at hs
      cases hs
    · exact ⟨t, hc⟩
    · omega
    · rw [hs'] at hs
      cases hs

end Levels

/-- The node a thread is about to push on the retired list. -/
def Pc.enqueuing? : Pc K → Option Node
  | .enqueue node _ => some node
  | _ => none

/-- The retired list holds no node twice, and none that a thread is about to push. -/
structure Enqueued (s : State Tid K) : Prop where
  nodup : s.retired.Nodup
  flagged : ∀ n ∈ s.retired, s.retirementEnqueued n = true
  claimed : ∀ t n, (s.pc t).enqueuing? = some n → s.retirementEnqueued n = true ∧ n ∉ s.retired
  unique : ∀ t u n, (s.pc t).enqueuing? = some n → (s.pc u).enqueuing? = some n → t = u

section Enqueued

variable [LinearOrder K] [DecidableEq Tid] {known : ℕ → ℕ} {s s' : State Tid K} {t : Tid} {n : Node}

omit [LinearOrder K] [DecidableEq Tid] in
theorem enqueuing_of_retiring {p : Pc K} (h : p.retiring? = none) : p.enqueuing? = none := by
  cases p <;> first | rfl | cases h

/-- Only the claim of `retirement_enqueued_` leads to the push. -/
theorem Effect.claims (he : Effect MAX_LEVELS known s t s')
    (hn : (s'.pc t).enqueuing? = some n) :
    s.retirementEnqueued n = false ∧ s'.retirementEnqueued n = true := by
  cases he <;> rw [setPc_self] at hn
  case move hm =>
    rw [enqueuing_of_retiring hm.retiring.1] at hn
    cases hn
  case uncount hpl | claimed hpl | enqueue hpl | unreserve hpl =>
    rw [enqueuing_of_retiring (free_of_plain hpl.plain).retiring] at hn
    cases hn
  case linkBottom | publish =>
    unfold publishFrom at hn
    split_ifs at hn <;> cases hn
  case unlink => split_ifs at hn <;> cases hn
  case claim hr =>
    cases hn
    exact ⟨hr, Function.update_self ..⟩
  all_goals cases hn

theorem Effect.flagged (h : Inv MAX_LEVELS known s) (he : Effect MAX_LEVELS known s t s')
    (hn : s.retirementEnqueued n = true) : s'.retirementEnqueued n = true := by
  cases he
  case construct =>
    have hne : n ≠ s.fresh := fun hf => by
      have hs := h.memory.retired n hn
      exact absurd (h.memory.published n 0 (by rw [hs]; simp)).fresh (hf ▸ lt_irrefl _)
    exact (Function.update_of_ne hne ..).trans hn
  case claim m k _ _ =>
    by_cases hm : n = m
    · subst hm
      exact Function.update_self ..
    · exact (Function.update_of_ne hm ..).trans hn
  all_goals exact hn

theorem Effect.pushed (he : Effect MAX_LEVELS known s t s') : s'.retired = s.retired ∨
    ∃ n, (s.pc t).enqueuing? = some n ∧ s'.retired = s.retired ++ [n] := by
  cases he
  case enqueue n _ _ hp _ _ => exact .inr ⟨n, by rw [hp]; rfl, rfl⟩
  all_goals exact .inl rfl

theorem Enqueued.step (hq : Enqueued s) (h : Inv MAX_LEVELS known s)
    (he : Effect MAX_LEVELS known s t s') : Enqueued s' := by
  have claims : ∀ {u n}, (s'.pc t).enqueuing? = some n → (s.pc u).enqueuing? ≠ some n := by
    intro u n hn hu
    exact absurd (hq.claimed u n hu).1 (by rw [(he.claims hn).1]; simp)
  refine ⟨?_, fun n hn => ?_, fun u n hu => ?_, fun u v n hu hv => ?_⟩
  · rcases he.pushed with hr | ⟨n, hn, hr⟩ <;> rw [hr]
    · exact hq.nodup
    · exact List.nodup_append.2 ⟨hq.nodup, List.nodup_singleton n, fun m hm k hk => by
        rw [List.mem_singleton.1 hk]
        rintro rfl
        exact (hq.claimed t m hn).2 hm⟩
  · rcases he.pushed with hr | ⟨m, hm, hr⟩ <;> rw [hr] at hn
    · exact he.flagged h (hq.flagged n hn)
    · rcases List.mem_append.1 hn with hn | hn
      · exact he.flagged h (hq.flagged n hn)
      · exact he.flagged h (List.mem_singleton.1 hn ▸ (hq.claimed t m hm).1)
  · by_cases hut : u = t
    · subst hut
      obtain ⟨hfalse, htrue⟩ := he.claims hu
      refine ⟨htrue, fun hn => ?_⟩
      rcases he.pushed with hr | ⟨m, hm, hr⟩ <;> rw [hr] at hn
      · exact absurd (hq.flagged n hn) (by simp [hfalse])
      · rcases List.mem_append.1 hn with hn | hn
        · exact absurd (hq.flagged n hn) (by simp [hfalse])
        · exact claims hu (List.mem_singleton.1 hn ▸ hm)
    · rw [he.pc_of_ne hut] at hu
      obtain ⟨htrue, hnot⟩ := hq.claimed u n hu
      refine ⟨he.flagged h htrue, fun hn => ?_⟩
      rcases he.pushed with hr | ⟨m, hm, hr⟩ <;> rw [hr] at hn
      · exact hnot hn
      · rcases List.mem_append.1 hn with hn | hn
        · exact hnot hn
        · exact hut (hq.unique u t n hu (List.mem_singleton.1 hn ▸ hm))
  · by_cases hut : u = t <;> by_cases hvt : v = t
    · rw [hut, hvt]
    · subst hut
      rw [he.pc_of_ne hvt] at hv
      exact absurd hv (claims hu)
    · subst hvt
      rw [he.pc_of_ne hut] at hu
      exact absurd hu (claims hv)
    · rw [he.pc_of_ne hut] at hu
      rw [he.pc_of_ne hvt] at hv
      exact hq.unique u v n hu hv

end Enqueued

section Runs

variable [LinearOrder K] [Inhabited K] {s : State Tid K} {n : Node}

theorem upper_start : Upper (.start : State Tid K) where
  levels i := by
    refine ⟨[head, NIL], ⟨rfl, rfl, rfl⟩, fun n => ?_, ?_⟩
    · simp [State.start]
    · simpa using rank_head_lt_NIL
  down _ _ h := absurd rfl h
  range _ _ h := absurd rfl h
  bottom _ _ h := nomatch h
  marked n i _ h := by
    simp only [State.start] at h
    split_ifs at h
  off _ _ h := nomatch h
  remaining n := ⟨fun ⟨_, h⟩ => (nomatch h), fun _ => by simp [State.start, pending]⟩
  inserting _ _ _ _ _ h := nomatch h
  ahead _ _ _ _ _ _ := rfl
  aimed _ _ _ _ h := nomatch h
  drained _ _ h := nomatch h
  unlinked _ h := nomatch h
  uncounts _ _ _ h := nomatch h
  uncounts_unique _ _ _ _ h := nomatch h
  uncounted _ _ _ h := nomatch h

omit [LinearOrder K] in
theorem enqueued_start : Enqueued (.start : State Tid K) where
  nodup := List.nodup_nil
  flagged _ h := nomatch h
  claimed _ _ h := nomatch h
  unique _ _ _ h := nomatch h

omit [Inhabited K] in
theorem Upper.known (hu : Upper s) : Known id s :=
  ⟨fun _ _ h => h, fun i n h => ⟨hu.down n i h.level, h.bottom, h.sentinel, h.fresh⟩⟩

omit [Inhabited K] in
/-- No node of a level's list aims at a settled node that is off the list of level 0. -/
theorem Upper.off_lists (hu : Upper s) (hs : Settled s n) (h0 : s.status n 0 = .unlinked)
    (hn : 2 ≤ n) {i : ℕ} {pred : Node} (hp : pred = head ∨ s.status pred i = .linked) :
    next s i pred ≠ some n := by
  intro hnext
  obtain ⟨l, hl⟩ := hu.levels i
  have hlinked := hl.succ_linked ((hl.mem pred).2 (hp.imp_right .inr)) hnext hn
  rcases Nat.eq_zero_or_pos i with rfl | hi
  · rw [h0] at hlinked
    cases hlinked
  · exact (hs.status i hi).1 hlinked

variable [DecidableEq Tid]

theorem upper_of_run (h : (machine Tid K MAX_LEVELS).Run PublishesInOrder s) :
    Inv MAX_LEVELS id s ∧ Upper s ∧ Enqueued s := by
  refine Machine.run_induction (I := fun s => Inv MAX_LEVELS id s ∧ Upper s ∧ Enqueued s)
    (fun _ h0 => h0 ▸ ⟨inv_start, upper_start, enqueued_start⟩) ?_ h
  rintro s s' a - ⟨hi, hu, hq⟩ hg hs
  have he := step_effect hu.known hi.memory hs
  exact ⟨hi.step he, hu.step hi hg he, hq.step hi he⟩

/-- What the upper levels and the retired list are to each other. -/
structure Retires (s : State Tid K) : Prop where
  remaining : ∀ n, Remaining s n ∧ 0 ≤ s.upperLevelsRemaining n
  once : s.retired.Nodup
  settled : ∀ n ∈ s.retired, s.status n 0 = .unlinked ∧ Settled s n
  off : ∀ n ∈ s.retired, ∀ i pred, pred = head ∨ s.status pred i = .linked →
    next s i pred ≠ some n

/-- While no level is published over one that is not, a retired node is on no level's list, and no
thread can publish a link of it. -/
theorem retires_of_run (h : (machine Tid K MAX_LEVELS).Run PublishesInOrder s) : Retires s := by
  obtain ⟨hi, hu, hq⟩ := upper_of_run h
  have hoff : ∀ n ∈ s.retired, s.status n 0 = .unlinked := fun n hn =>
    hi.memory.retired n (hq.flagged n hn)
  refine ⟨fun n => ⟨hu.remaining n, ?_⟩, hq.nodup,
    fun n hn => ⟨hoff n hn, hu.unlinked n (hoff n hn)⟩, fun n hn i pred hp => ?_⟩
  · by_cases hr : Reserved s n
    · have := (hu.remaining n).reserved hr
      omega
    · have := (hu.remaining n).unreserved hr
      omega
  · have hborn := hi.memory.published n 0 (by rw [hoff n hn]; simp)
    exact hu.off_lists (hu.unlinked n (hoff n hn)) (hoff n hn) hborn.sentinel hp

omit [Inhabited K] in
instance (s : State Tid K) (a : Tid × Act K) : Decidable (PublishesInOrder s a) := by
  unfold PublishesInOrder
  split <;> infer_instance

end Runs

end MinStd.SkipList
