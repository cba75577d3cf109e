import MinStd.Proofs.SkipListInv

/-!
# The skip list is a set

A key is in the set from the link of its node at level 0 to that node's mark.  A node is linked
between two neighbours of the level-0 list, the second with a larger key, so no node of the list
has its key; a node is marked while it is on the list.  So the links and marks of a key alternate
(`sound_of_reachable`).
-/

namespace MinStd.SkipList

variable {Tid K : Type*} {MAX_LEVELS : ℕ} {known : ℕ → ℕ}

/-- The node is linked at level 0 and not tombstoned there. -/
def Live (s : State Tid K) (n : Node) : Prop :=
  s.status n 0 = .linked ∧ (s.link n 0).tombstoned = false

variable [LinearOrder K]

/-- The skip list is a set of keys: the links of level 0 lead from the head through `l` to `NIL`,
its untombstoned nodes in order of their keys; a key's links and marks alternate; a `remove` marks
one node at most. -/
structure Sound (s : State Tid K) : Prop where
  list : ∃ l : List Node, Linked some (next s 0) (some head) (head :: l ++ [NIL]) none
    ∧ ((l.filter fun n => !(s.link n 0).tombstoned).map s.key).Pairwise (· < ·)
    ∧ ∀ n ∈ l, ∀ m ∈ l, (s.link n 0).tombstoned = false → (s.link m 0).tombstoned = false →
      s.key n = s.key m → n = m
  alternate : ∀ (k : K) (i : ℕ) (inserted : Bool), (s.history k)[i]? = some inserted →
    (inserted = true ↔ i % 2 = 0)
  marks : ∀ t, s.marks t ≤ 1

section Live

variable {s s' : State Tid K} {n m : Node} {l : List Node}

theorem Inv.live_pub (h : Inv MAX_LEVELS known s) (hn : Live s n) : Pub s 0 n :=
  h.memory.published n 0 (by rw [hn.1]; simp)

theorem Inv.live_unique (h : Inv MAX_LEVELS known s) (hn : Live s n) (hm : Live s m)
    (hk : s.key n = s.key m) : n = m := by
  obtain ⟨l, hl⟩ := h.bottom
  refine hl.eq_of_rank ((hl.mem n).2 (.inr (.inr hn.1))) ((hl.mem m).2 (.inr (.inr hm.1))) ?_
  rw [rank_of_pub (h.live_pub hn), rank_of_pub (h.live_pub hm), hk]

/-- No node of the list has a key between two neighbours. -/
theorem Level.no_key_between {key : K} {succ : Node} (hl : Level s 0 l) (hn : n ∈ l)
    (hnext : next s 0 n = some succ) (hlt : rank s n < (key : WithTop K))
    (hgt : ((key : WithTop K) : WithBot (WithTop K)) < rank s succ) (hm : m ∈ l) :
    rank s m ≠ (key : WithTop K) := by
  intro he
  obtain ⟨l₁, l₂, rfl, -, h2⟩ := hl.chain.tail_of_mem hn
  rw [hnext] at h2
  obtain ⟨l₃, rfl, -⟩ := h2.unlink_head (Option.some_injective _) (by simp)
  obtain ⟨-, h3, h4⟩ := List.pairwise_append.1 hl.sorted
  rw [List.pairwise_cons, List.pairwise_cons] at h3
  rcases List.mem_append.1 hm with hm | hm
  · exact absurd (he ▸ h4 m hm n (by simp)) (lt_asymm hlt)
  rcases List.mem_cons.1 hm with rfl | hm
  · exact absurd he hlt.ne
  rcases List.mem_cons.1 hm with rfl | hm
  · exact absurd he hgt.ne'
  · exact absurd (he ▸ h3.2.1 m hm) (lt_asymm hgt)

end Live

section History

variable [DecidableEq Tid] {s s' : State Tid K} {t : Tid} {n : Node}

/-- What a step does to the set. -/
inductive Writes (s s' : State Tid K) : Prop
  | keeps : s'.history = s.history → (∀ n, Live s' n ↔ Live s n) → Writes s s'
  | inserts (n : Node) : s'.history = (s.record (s'.key n) true).history →
    (∀ m, Live s m → s.key m ≠ s'.key n) → (∀ m, Live s' m ↔ Live s m ∨ m = n) → Writes s s'
  | removes (n : Node) : s'.history = (s.record (s.key n) false).history → Live s n →
    (∀ m, Live s' m ↔ Live s m ∧ m ≠ n) → Writes s s'

omit [LinearOrder K] [DecidableEq Tid] in
/-- An exchange that keeps every tombstone at level 0. -/
theorem live_setLink {i : ℕ} {l : Link} (h : i = 0 → l.tombstoned = (s.link n 0).tombstoned)
    (m : Node) : Live (s.setLink n i l) m ↔ Live s m := by
  unfold Live
  rw [setLink_link]
  split_ifs with hm
  · obtain ⟨rfl, rfl⟩ := hm
    rw [h rfl]
    exact Iff.rfl
  · exact Iff.rfl

omit [LinearOrder K] [DecidableEq Tid] in
theorem live_setStatus {i : ℕ} {st : LevelStatus}
    (h : i = 0 → st ≠ .linked ∧ (s.link n 0).tombstoned = true) (m : Node) :
    Live (s.setStatus n i st) m ↔ Live s m := by
  unfold Live
  rw [setStatus_status]
  split_ifs with hm
  · obtain ⟨rfl, rfl⟩ := hm
    have ht : ((s.setStatus m 0 st).link m 0).tombstoned = true := (h rfl).2
    simp [ht, (h rfl).2]
  · exact Iff.rfl

theorem Effect.writes (h : Inv MAX_LEVELS known s) (he : Effect MAX_LEVELS known s t s') : Writes s s' := by
  obtain ⟨l, hl⟩ := h.bottom
  have hok := h.memory.pcs t
  have hx := he.extends h
  have unpub : ∀ {n}, s.status n 0 = .unpublished → ∀ s'' : State Tid K, s''.status = s.status →
      (∀ m ≠ n, s''.link m 0 = s.link m 0) → ∀ m, Live s'' m ↔ Live s m := by
    intro n hn s'' hst hlk m
    unfold Live
    rw [hst]
    by_cases hm : m = n
    · simp [hm, hn]
    · rw [hlk m hm]
  cases he with
  | move | callRemove | storeUnlinked | claimed | claim | enqueue | reserve | unreserve =>
    exact .keeps rfl fun _ => Iff.rfl
  | construct hp =>
    refine .keeps rfl (unpub (n := s.fresh) ?_ _ rfl fun m hm => ?_)
    · by_contra hs
      exact lt_irrefl _ (h.memory.published _ 0 hs).fresh
    · simp [State.setPc, State.construct, hm]
  | @aimAll w topLevel n retries hp =>
    refine .keeps rfl (unpub (n := n) (h.new t n (by rw [hp]; rfl) 0) _ rfl fun m hm => ?_)
    simp [State.setPc, State.aimAll, hm]
  | @aimBottom w topLevel n retries hp =>
    refine .keeps rfl (unpub (n := n) (h.new t n (by rw [hp]; rfl) 0) _ rfl fun m hm => ?_)
    exact (setLink_link _ _ _).trans (if_neg fun h => hm h.1)
  | @linkBottom w topLevel n retries hp hlk =>
    have hn : (s.pc t).newNode? = some n := by rw [hp]; rfl
    rw [hp] at hok
    obtain ⟨hf, hnf, -, hno⟩ := hok
    have hpr := hf.preds 0 (Nat.zero_le _)
    refine .inserts n ?_ (fun m hm hk => ?_) fun m => ?_
    · rw [hx.key n hno.fresh, hno.key]
      rfl
    · refine hl.no_key_between (h.pred_mem hl hpr hlk) (by rw [next, hlk]) hpr.before hnf
        ((hl.mem m).2 (.inr (.inr hm.1))) ?_
      rw [rank_of_pub (h.live_pub hm), hk, hx.key n hno.fresh, hno.key]
    · have hlive := live_setLink (s := s) (n := w.preds 0) (i := 0) (l := ⟨some n, false⟩)
        (fun _ => by rw [hlk]) m
      change Live (State.setStatus _ n 0 .linked) m ↔ _
      rw [← hlive]
      have hnp : n ≠ w.preds 0 := by
        rintro rfl
        rcases hpr.zero with h0 | hp
        · exact absurd (h0 ▸ hno.sentinel) (by decide)
        · exact hp.bottom (h.new t _ hn 0)
      unfold Live
      by_cases hm : m = n
      · subst hm
        have ht : (State.link (State.setStatus (s.setLink (w.preds 0) 0 ⟨some m, false⟩) m 0
            .linked) m 0).tombstoned = false := by
          change (State.link (s.setLink _ _ _) m 0).tombstoned = false
          rw [setLink_link, if_neg fun h => hnp h.1]
          exact h.new_link hn 0
        simp [setStatus_status, ht]
      · rw [setStatus_status, if_neg fun h => hm h.1]
        simp only [hm, or_false]
        exact Iff.rfl
  | @unlink w m n curr succ tombstoned hp hlk =>
    rw [hp] at hok
    obtain ⟨-, -, ho, -⟩ := hok
    refine .keeps rfl fun a => ?_
    have htomb : w.level = 0 → (s.link n 0).tombstoned = true := fun h0 => by
      have := ho.frozen
      rw [h0] at this
      rw [this]
    refine (live_setStatus (s := s.setLink w.pred w.level ⟨some curr, false⟩) (fun h0 => ?_) a).trans
      (live_setLink (fun h0 => ?_) a)
    · refine ⟨by simp, ?_⟩
      rw [setLink_link]
      split_ifs with hnp
      · have := htomb h0
        rw [hnp.1, ← h0, hlk] at this
        cases this
      · exact htomb h0
    · rw [h0] at hlk
      rw [hlk]
  | @unlinkRemoved w n succ hp hlk =>
    rw [hp] at hok
    obtain ⟨-, -, hm⟩ := hok
    refine .keeps rfl fun a => ?_
    refine (live_setStatus (s := s.setLink w.pred 0 ⟨succ, false⟩) (fun _ => ?_) a).trans
      (live_setLink (fun _ => by rw [hlk]) a)
    refine ⟨by simp, ?_⟩
    rw [setLink_link]
    split_ifs with hnp
    · have := hm.tombstoned
      rw [hnp.1, hlk] at this
      cases this
    · exact hm.tombstoned
  | @uncount w m n curr succ tombstoned p hp =>
    rw [hp] at hok
    exact .keeps rfl (live_setStatus fun h0 => absurd h0 hok.2.2.2.2)
  | @aimOwn w i ownNext hp hlk =>
    refine .keeps rfl fun m => live_setLink (s := s) (fun h0 => ?_) m
    rw [h0] at hlk
    rw [hlk]
  | @publish w i hp hlk =>
    rw [hp] at hok
    have h0 := hok.2.level.1
    refine .keeps rfl fun m => (live_setStatus (fun h => ?_) m).trans (live_setLink (fun h => ?_) m)
    all_goals omega
  | @softDelete w n level retries current hp hlk =>
    rw [hp] at hok
    have h0 := hok.2.2
    exact .keeps rfl fun m => live_setLink (s := s) (fun h => by omega) m
  | @markBottom w n retries succ hp hlk =>
    rw [hp] at hok
    have hlive : Live s n := by
      refine ⟨?_, by rw [hlk]⟩
      rcases hs : s.status n 0 with _ | _ | _ | _
      · exact absurd hs hok.2.born.bottom
      · rfl
      · have := h.memory.off n hs
        rw [hlk] at this
        cases this
      · exact absurd hs (h.memory.uncounted n)
    refine .removes n ?_ hlive fun m => ?_
    · rw [hok.2.key]
      rfl
    · change Live (s.setLink n 0 ⟨succ, true⟩) m ↔ _
      unfold Live
      rw [setLink_link]
      by_cases hm : m = n
      · simp [hm]
      · simp only [hm, if_false, ne_eq, not_false_eq_true, and_true]
        exact Iff.rfl

/-- The links and marks of a key so far, and whether it is in the set. -/
structure Kept (s : State Tid K) : Prop where
  alternate : ∀ (k : K) (i : ℕ) (inserted : Bool), (s.history k)[i]? = some inserted →
    (inserted = true ↔ i % 2 = 0)
  live : ∀ k, (s.history k).length % 2 = 1 ↔ ∃ n, Live s n ∧ s.key n = k

omit [DecidableEq Tid] in
/-- One more event of a key, a link where the key is absent or a mark where it is in. -/
theorem Kept.record {k : K} {b : Bool} (h : Kept s)
    (hev : b = true ↔ ¬ ∃ n, Live s n ∧ s.key n = k)
    (hhist : s'.history = (s.record k b).history)
    (hlive : ∀ k', (∃ n, Live s' n ∧ s'.key n = k') ↔
      if k' = k then b = true else ∃ n, Live s n ∧ s.key n = k') : Kept s' := by
  rw [← h.live k] at hev
  refine ⟨fun k' i b' hb => ?_, fun k' => ?_⟩
  · by_cases hk : k' = k
    · subst hk
      simp only [hhist, State.record, Function.update_self] at hb
      rw [List.getElem?_append] at hb
      split_ifs at hb with hi
      · exact h.alternate k' i b' hb
      · rw [List.getElem?_singleton] at hb
        split_ifs at hb with h1
        cases hb
        rw [hev]
        omega
    · simp only [hhist, State.record, Function.update_of_ne hk] at hb
      exact h.alternate k' i b' hb
  · rw [hlive]
    by_cases hk : k' = k
    · subst hk
      simp only [hhist, State.record, Function.update_self, List.length_append, List.length_singleton,
        if_pos]
      rw [hev]
      omega
    · simp only [hhist, State.record, Function.update_of_ne hk, if_neg hk]
      exact h.live k'

theorem Kept.step (hk : Kept s) (h : Inv MAX_LEVELS known s) (he : Effect MAX_LEVELS known s t s') :
    Kept s' := by
  have hx := he.extends h
  have key : ∀ {m}, Live s m → s'.key m = s.key m := fun hm => hx.key _ (h.live_pub hm).fresh
  rcases he.writes h with ⟨hhist, hlive⟩ | ⟨n, hhist, habs, hlive⟩ | ⟨n, hhist, hn, hlive⟩
  · refine ⟨fun k i b hb => hk.alternate k i b (hhist ▸ hb), fun k => ?_⟩
    rw [hhist, hk.live k]
    refine exists_congr fun m => ?_
    rw [hlive m]
    exact and_congr_right fun hm => by rw [key hm]
  · refine hk.record (k := s'.key n) (b := true) ?_ hhist fun k => ?_
    · simp only [true_iff]
      rintro ⟨m, hm, hmk⟩
      exact habs m hm hmk
    · split_ifs with hkn
      · simp only [iff_true]
        exact ⟨n, (hlive n).2 (.inr rfl), hkn.symm⟩
      · refine exists_congr fun m => ?_
        rw [hlive m]
        constructor
        · rintro ⟨hm | rfl, hmk⟩
          · exact ⟨hm, key hm ▸ hmk⟩
          · exact absurd hmk.symm hkn
        · rintro ⟨hm, hmk⟩
          exact ⟨.inl hm, (key hm).trans hmk⟩
  · refine hk.record (k := s.key n) (b := false) ?_ hhist fun k => ?_
    · simp only [Bool.false_eq_true, false_iff, not_not]
      exact ⟨n, hn, rfl⟩
    · split_ifs with hkn
      · simp only [iff_false]
        rintro ⟨m, hm, hmk⟩
        obtain ⟨hm, hne⟩ := (hlive m).1 hm
        exact hne (h.live_unique hm hn (by rw [← key hm, hmk, hkn]))
      · refine exists_congr fun m => ?_
        rw [hlive m]
        constructor
        · rintro ⟨⟨hm, -⟩, hmk⟩
          exact ⟨hm, key hm ▸ hmk⟩
        · rintro ⟨hm, hmk⟩
          exact ⟨⟨hm, by rintro rfl; exact hkn hmk.symm⟩, (key hm).trans hmk⟩

/-- A `remove` that has marked a node does not come to another. -/
theorem Effect.marks (he : Effect MAX_LEVELS known s t s')
    (h : ∀ u, s.marks u ≤ 1 ∧ ((s.pc u).unmarked = true → s.marks u = 0)) :
    ∀ u, s'.marks u ≤ 1 ∧ ((s'.pc u).unmarked = true → s'.marks u = 0) := by
  intro u
  by_cases hu : u = t
  · subst hu
    have keep : ∀ {m : ℕ} {b : Bool}, m = s.marks u → (b = true → (s.pc u).unmarked = true) →
        m ≤ 1 ∧ (b = true → m = 0) := by
      rintro m b rfl hb
      exact ⟨(h u).1, fun hbt => (h u).2 (hb hbt)⟩
    cases he <;> rw [setPc_self]
    case move hm => exact keep rfl hm.unmarked
    case callRemove => simp [State.setPc]
    case markBottom hp _ =>
      have : s.marks u = 0 := (h u).2 (by rw [hp]; rfl)
      simp [State.setPc, State.record, State.setLink, this, Pc.unmarked]
    case unlink hp _ =>
      refine keep rfl ?_
      rw [hp]
      split_ifs <;> exact id
    case linkBottom hp _ | publish hp _ =>
      refine keep rfl ?_
      unfold publishFrom
      split_ifs <;> simp [Pc.unmarked]
    case uncount hp _ hpl | claimed hp _ _ hpl | enqueue hp _ hpl =>
      exact keep rfl fun hb => by rw [hp]; exact hpl.unmarked hb
    case unreserve hp _ hpl => exact keep rfl fun hb => absurd (hpl.unmarked hb) (by simp)
    case storeUnlinked hp | claim hp _ => exact keep rfl fun hb => by rw [hp]; exact hb
    case softDelete hp _ => exact keep rfl fun _ => by rw [hp]; rfl
    all_goals exact keep rfl (by simp [Pc.unmarked, Resume.unmarked])
  · have hm : s'.marks u = s.marks u := by
      cases he
      case callRemove | markBottom => exact Function.update_of_ne hu _ _
      all_goals rfl
    rw [hm, he.pc_of_ne hu]
    exact h u

end History

section Reachable

variable [DecidableEq Tid] [Inhabited K] {s s' : State Tid K}

omit [DecidableEq Tid] [Inhabited K] in
theorem rank_head_lt_NIL : rank s head < rank s NIL := WithBot.bot_lt_coe _

omit [DecidableEq Tid] in
theorem inv_start : Inv MAX_LEVELS known (.start : State Tid K) := by
  have target : ∀ {n i m}, ((State.start : State Tid K).link n i).target = some m →
      n = head ∧ m = NIL := by
    intro n i m hm
    simp only [State.start] at hm
    split_ifs at hm with hn
    cases hm
    exact ⟨hn, rfl⟩
  have untombstoned : ∀ n i, ((State.start : State Tid K).link n i).tombstoned ≠ true := by
    intro n i
    simp only [State.start]
    split_ifs <;> simp
  refine ⟨⟨fun _ => trivial, fun n i m hm => .inl (target hm).2, fun _ _ h => absurd rfl h,
    fun n i h => absurd h (untombstoned n i), ?_, ?_, ?_, ?_⟩, fun i => rfl, le_rfl, ?_, ?_, ?_,
    [head, NIL], ?_⟩
  iterate 7 simp [State.start, Pc.newNode?]
  refine ⟨⟨rfl, rfl, rfl⟩, fun n => ?_, ?_⟩
  · simp [State.start]
  · simpa using rank_head_lt_NIL

theorem inv_of_reachable (h : (machine Tid K MAX_LEVELS).Reachable s) : Inv MAX_LEVELS (fun _ => 0) s :=
  Machine.reachable_induction (fun _ h0 => h0 ▸ inv_start)
    (fun _ _ _ _ hi hs => hi.step (step_effect known_zero hi.memory hs)) h

theorem kept_of_reachable (h : (machine Tid K MAX_LEVELS).Reachable s) : Kept s := by
  refine Machine.reachable_induction (fun s h0 => ?_)
    (fun _ _ _ hr hk hs => ?_) h
  · rw [show s = .start from h0]
    exact ⟨by simp [State.start], by simp [State.start, Live]⟩
  · have hi := inv_of_reachable hr
    exact hk.step hi (step_effect known_zero hi.memory hs)

theorem marks_of_reachable (h : (machine Tid K MAX_LEVELS).Reachable s) :
    ∀ t, s.marks t ≤ 1 ∧ ((s.pc t).unmarked = true → s.marks t = 0) := by
  refine Machine.reachable_induction
    (I := fun s => ∀ t, s.marks t ≤ 1 ∧ ((s.pc t).unmarked = true → s.marks t = 0))
    (fun s h0 => ?_) (fun _ _ _ hr hk hs => ?_) h
  · rw [show s = .start from h0]
    exact fun t => ⟨Nat.zero_le _, fun _ => rfl⟩
  · exact (step_effect known_zero (inv_of_reachable hr).memory hs).marks hk

omit [DecidableEq Tid] [Inhabited K] in
/-- A level begins at the head and ends at `NIL`. -/
theorem Level.ends {i : ℕ} {l : List Node} (hl : Level s i l) (hnil : next s i NIL = none) :
    ∃ l', l = head :: l' ++ [NIL] := by
  obtain ⟨l₁, rfl, -⟩ := hl.chain.unlink_head (Option.some_injective _) (by simp)
  have hmem : NIL ∈ l₁ := by
    have := (hl.mem NIL).2 (.inr (.inl rfl))
    exact (List.mem_cons.1 this).resolve_left (by decide)
  obtain ⟨l₂, l₃, rfl, -, h3⟩ := hl.chain.2.tail_of_mem hmem
  rw [hnil] at h3
  rcases l₃ with _ | ⟨m, l₃⟩
  · exact ⟨l₂, rfl⟩
  · cases h3.1

/-- In every reachable state the list is a set of keys. -/
theorem sound_of_reachable (h : (machine Tid K MAX_LEVELS).Reachable s) : Sound s := by
  have hi := inv_of_reachable h
  refine ⟨?_, (kept_of_reachable h).alternate, fun t => (marks_of_reachable h t).1⟩
  obtain ⟨l, hl⟩ := hi.bottom
  obtain ⟨l, rfl⟩ := hl.ends (by rw [next, hi.nil])
  have hpub : ∀ n ∈ l, Pub s 0 n := fun n hn => by
    have hnd := hl.nodup
    simp only [List.cons_append, List.nodup_cons, List.mem_append, List.nodup_append] at hnd
    rcases (hl.mem n).1 (by simp [hn]) with rfl | rfl | hs
    · exact absurd (.inl hn) hnd.1
    · exact absurd rfl (hnd.2.2.2 _ hn _ (by simp))
    · exact hi.memory.published n 0 (by rw [hs]; simp)
  have hsorted : l.Pairwise fun a b => s.key a < s.key b := by
    refine (hl.sorted.sublist ?_).imp_of_mem fun ha hb hab => ?_
    · exact (List.sublist_cons_self head l).trans (List.sublist_append_left _ _)
    · rw [rank_of_pub (hpub _ ha), rank_of_pub (hpub _ hb)] at hab
      exact WithTop.coe_lt_coe.1 (WithBot.coe_lt_coe.1 hab)
  refine ⟨l, hl.chain, List.pairwise_map.2 (hsorted.sublist List.filter_sublist), ?_⟩
  intro n hn m hm _ _ hk
  refine hl.eq_of_rank (by simp [hn]) (by simp [hm]) ?_
  rw [rank_of_pub (hpub n hn), rank_of_pub (hpub m hm), hk]

theorem sound_of_reachable_run : ∃ s : State (Fin 2) ℕ, (machine (Fin 2) ℕ 1).Reachable s
    ∧ s.history 5 = [true, false, true] ∧ Sound s := by
  obtain ⟨s, hs, hk⟩ := (machine (Fin 2) ℕ 1).exists_run (G := fun _ _ => True)
    (P := fun s => s.history 5 = [true, false, true])
    (List.flatten [[(0, .insert 5 2)], List.replicate 4 (0, .run false), [(0, .allocate true)],
      List.replicate 7 (0, .run false), [(1, .remove 5)], List.replicate 13 (1, .run false),
      [(0, .insert 5 1)], List.replicate 15 (0, .run false), [(0, .allocate true)],
      List.replicate 3 (0, .run false)]) rfl (by decide)
  exact ⟨s, hs, hk, sound_of_reachable hs⟩

end Reachable

end MinStd.SkipList
