import MinStd.Proofs.SkipListSet

/-!
# Every step keeps the list

A step changes the registers of its own thread, what `Effect.link` and `Effect.status` allow, and
nothing a published node stands on, so `Inv` holds in every reachable state (`inv_of_reachable`).
-/

namespace MinStd.SkipList

variable {Tid K : Type*} {MAX_LEVELS : ℕ} {known : ℕ → ℕ} [LinearOrder K]

section Level

variable {s : State Tid K} {l : List Node} {n : Node} {i : ℕ}

theorem rank_lt_NIL (hn : n = head ∨ Pub s i n) : rank s n < rank s NIL := by
  have hnil : rank s NIL = ((⊤ : WithTop K) : WithBot (WithTop K)) := rfl
  rw [hnil]
  rcases hn with rfl | hn
  · exact WithBot.bot_lt_coe _
  · rw [rank_of_pub hn]
    exact WithBot.coe_lt_coe.2 (WithTop.coe_lt_top _)

/-- Every node of a level but `NIL` aims at a node of it. -/
theorem Level.next_mem (hl : Level s i l) (hn : n ∈ l) (hp : n = head ∨ Pub s i n) :
    ∃ m ∈ l, next s i n = some m := by
  obtain ⟨l₁, l₂, rfl, -, h2⟩ := hl.chain.tail_of_mem hn
  rcases l₂ with _ | ⟨m, l₂⟩
  · -- nothing comes after `n`, so `NIL` comes before it
    have hne : n ≠ NIL := by
      rintro rfl
      exact lt_irrefl _ (rank_lt_NIL hp)
    have hmem : NIL ∈ l₁ := by simpa [hne.symm] using (hl.mem NIL).2 (.inr (.inl rfl))
    have := (List.pairwise_append.1 hl.sorted).2.2 NIL hmem n (by simp)
    exact absurd (rank_lt_NIL hp) (lt_asymm this)
  · exact ⟨m, by simp, h2.1⟩

theorem Level.eq_of_rank (hl : Level s i l) {m : Node} (hn : n ∈ l) (hm : m ∈ l)
    (h : rank s n = rank s m) : n = m :=
  List.inj_on_of_nodup_map (List.pairwise_map.2 (hl.sorted.imp fun h => h.ne)) hn hm h

end Level

section Step

variable [DecidableEq Tid] {s s' : State Tid K} {t u : Tid} {n : Node}

omit [LinearOrder K] in
@[simp] theorem setPc_self (p : Pc K) : (s.setPc t p).pc t = p := Function.update_self ..

theorem Effect.pc_of_ne (he : Effect MAX_LEVELS known s t s') (hu : u ≠ t) : s'.pc u = s.pc u := by
  cases he <;> exact (update_pc _ _ _ _).trans (if_neg hu)

/-- The registers of the stepping thread. -/
theorem Effect.ok (h : Inv MAX_LEVELS known s) (he : Effect MAX_LEVELS known s t s') :
    PcOk MAX_LEVELS known s' (s'.pc t) := by
  have hok := h.memory.pcs t
  have hx := he.extends h
  cases he <;> rw [setPc_self]
  case move hm => exact hm.ok.extend hx
  case callRemove => exact startSearch_ok trivial
  case construct w topLevel retries hp =>
    rw [hp] at hok
    obtain ⟨hf, hnf, ht⟩ := hok
    refine ⟨hf.extend hx, hnf.extend hf hx, ht, ?_, ?_, h.fresh, Nat.lt_succ_self _⟩ <;>
      simp [State.setPc, State.construct]
  case aimAll hp | aimBottom hp =>
    rw [hp] at hok
    obtain ⟨hf, hnf, ht, hno⟩ := hok
    exact ⟨hf.extend hx, hnf.extend hf hx, ht, hno.extend hx⟩
  case linkBottom w topLevel n retries hp hl =>
    rw [hp] at hok
    obtain ⟨hf, hnf, ht, hno⟩ := hok
    refine publishFrom_ok (hf.extend hx) (hno.extend hx) ht ?_ le_rfl
    refine ⟨?_, ?_, hno.sentinel, hno.fresh⟩ <;>
    · change (State.setStatus _ n 0 .linked).status n 0 ≠ _
      simp [setStatus_status]
  case unlink w m n curr succ tombstoned hp hl =>
    rw [hp] at hok
    obtain ⟨hw, hm, ho, hlo⟩ := hok
    split_ifs at hx ⊢ with h0
    · refine ⟨?_, hw.extend hx, hm.extend hx, hlo.extend hx⟩
      change (State.setStatus _ n w.level .unlinked).status n 0 = _
      simp [setStatus_status, h0]
    · exact ⟨hw.extend hx, hm.extend hx, ho.extend hx, hlo.extend hx, h0⟩
  case unlinkRemoved w n succ hp hl =>
    refine ⟨?_, trivial⟩
    change (State.setStatus _ n 0 .unlinked).status n 0 = _
    simp [setStatus_status]
  case uncount hpok _ | claimed hpok _ | enqueue hpok _ | unreserve hpok _ => exact hpok.extend hx
  case storeUnlinked hp | claim hp _ =>
    rw [hp] at hok
    exact ⟨hx.off _ hok.1, hok.2.extend hx⟩
  case reserve hp | aimOwn hp _ =>
    rw [hp] at hok
    exact ⟨hok.1.extend hx, hok.2.extend hx⟩
  case publish w i hp hl =>
    rw [hp] at hok
    obtain ⟨hf, hi⟩ := hok
    exact publishFrom_ok (hf.extend hx) (hi.new.extend hx) hi.top (hi.born.extend hx) (by omega)
  case softDelete hp hl =>
    rw [hp] at hok
    exact ⟨hok.1.extend hx, hok.2.1.extend hx, hok.2.2⟩
  case markBottom w n retries succ hp hl =>
    rw [hp] at hok
    refine ⟨hok.1.extend hx, hok.2.extend hx, fun _ => ?_⟩
    change ((s.setLink n 0 ⟨succ, true⟩).link n 0).tombstoned = true
    simp [setLink_link]

/-- The node a thread inserts: the one it had, or a fresh one. -/
theorem Effect.newNode (he : Effect MAX_LEVELS known s t s') :
    (s'.pc t).newNode? = none ∨ (s'.pc t).newNode? = (s.pc t).newNode? ∨
      (s'.pc t).newNode? = some s.fresh ∧ ∀ m i, s'.status m i = s.status m i := by
  cases he <;> rw [setPc_self]
  case move hm => exact hm.new.imp_right .inl
  case callRemove | reserve | aimOwn | softDelete | markBottom | unlinkRemoved => exact .inl rfl
  case construct => exact .inr (.inr ⟨rfl, fun _ _ => rfl⟩)
  case aimAll hp | aimBottom hp | storeUnlinked hp | claim hp _ =>
    exact .inr (.inl (by rw [hp]; rfl))
  case linkBottom | publish =>
    unfold publishFrom
    split_ifs <;> exact .inl rfl
  case unlink hp _ =>
    refine .inr (.inl ?_)
    rw [hp]
    split_ifs <;> rfl
  case uncount hp hpok hpl | claimed hp hr hpok hpl | enqueue hp hpok hpl =>
    exact hpl.new.imp_right fun h => .inl (h.trans (by rw [hp]; rfl))
  case unreserve hp hpok hpl => exact .inl (hpl.new.elim id id)

/-- A step that comes to an exchange at level 0 has aimed the new node. -/
theorem Effect.stored (h : Inv MAX_LEVELS known s) (he : Effect MAX_LEVELS known s t s') {w : Walk K}
    {topLevel r : ℕ} {b : Bool} (hp' : s'.pc t = .linkBottom w topLevel n r b) :
    s'.link n 0 = ⟨some (w.succs 0), false⟩ := by
  cases he <;> rw [setPc_self] at hp'
  case move hm =>
    obtain ⟨b', hb⟩ := hm.link _ _ _ _ _ hp'
    exact h.stored t _ _ _ _ _ hb
  case callRemove | construct | reserve | aimOwn | softDelete | markBottom | unlinkRemoved
    | storeUnlinked | claim => cases hp'
  case aimAll hp =>
    cases hp'
    simp [State.setPc, State.aimAll]
  case aimBottom hp =>
    cases hp'
    exact (setLink_link _ _ _).trans (if_pos ⟨rfl, rfl⟩)
  case linkBottom | publish =>
    unfold publishFrom at hp'
    split_ifs at hp'
  case unlink => split_ifs at hp'
  case uncount hpl | claimed hpl | enqueue hpl | unreserve hpl =>
    exact absurd hp' ((free_of_plain hpl.plain).link _ _ _ _ _)

theorem Effect.enqueued (h : Inv MAX_LEVELS known s) (he : Effect MAX_LEVELS known s t s')
    (hn : s'.retirementEnqueued n = true) : s.status n 0 = .unlinked := by
  have hok := h.memory.pcs t
  cases he
  case construct w topLevel retries hp =>
    by_cases hf : n = s.fresh
    · simp [State.setPc, State.construct, hf] at hn
    · exact h.memory.retired n (by simpa [State.setPc, State.construct, hf] using hn)
  case claim m k hp hr =>
    rw [hp] at hok
    by_cases hm : n = m
    · exact hm ▸ hok.1
    · exact h.memory.retired n (by simpa [State.setPc, hm] using hn)
  all_goals exact h.memory.retired n hn

theorem Effect.memory (h : Inv MAX_LEVELS known s) (he : Effect MAX_LEVELS known s t s') :
    Memory MAX_LEVELS known s' := by
  have hx := he.extends h
  have published : ∀ n i, s'.status n i ≠ .unpublished → Pub s' i n := fun n i hn => by
    rcases he.status h n i with hs | hs
    · exact (h.memory.published n i (hs ▸ hn)).extend hx
    · exact hs.pub
  refine ⟨fun u => ?_, fun n i m hm => ?_, published, fun n i hn => ?_, fun n hn => ?_, fun n => ?_,
    fun n hn => hx.off n (he.enqueued h hn), fun n hn => ?_⟩
  · by_cases hu : u = t
    · exact hu ▸ he.ok h
    · rw [he.pc_of_ne hu]
      exact (h.memory.pcs u).extend hx
  · rcases he.link h n i with hl | hl
    · exact (h.memory.targets n i m (hl ▸ hm)).extend hx
    · exact hl.target m hm
  · rcases he.link h n i with hl | hl
    · exact (h.memory.tombstoned n i (hl ▸ hn)).extend hx
    · exact (hl.tombstoned hn).1.extend hx
  · have ht : (s.link n 0).tombstoned = true := by
      rcases he.status h n 0 with hs | hs
      · exact h.memory.off n (hs ▸ hn)
      · exact (hs.bottom rfl).2 hn
    rw [hx.frozen n (h.memory.tombstoned n 0 ht).fresh 0 ht, ht]
  · rcases he.status h n 0 with hs | hs
    · rw [hs]
      exact h.memory.uncounted n
    · exact (hs.bottom rfl).1
  · obtain ⟨l, hl⟩ := he.bottom h
    have hp := published n 0 (by rw [hn]; simp)
    obtain ⟨m, hm, hnm⟩ := hl.next_mem ((hl.mem n).2 (.inr (.inr hn))) (.inr hp)
    refine ⟨m, hnm, fun hs => ?_⟩
    have hpm := published m 0 (by rw [hs]; simp)
    rcases (hl.mem m).1 hm with rfl | rfl | hm
    · exact hpm.ne_head rfl
    · exact hpm.ne_NIL rfl
    · rw [hs] at hm
      cases hm

/-- The nodes being inserted: no step of another thread publishes them or stores in them. -/
theorem Inv.new_kept (h : Inv MAX_LEVELS known s) (he : Effect MAX_LEVELS known s t s')
    (hn : (s.pc u).newNode? = some n) (hu : u ≠ t) (i : ℕ) :
    s'.status n i = s.status n i ∧ s'.link n i = s.link n i := by
  obtain ⟨_, _, hno⟩ := (h.memory.pcs u).newNode hn
  have hpub : ¬ Pub s 0 n := fun hp => hp.bottom (h.new u n hn 0)
  have hown : (s.pc t).newNode? ≠ some n := fun ht => hu (h.new_unique u t n hn ht)
  constructor
  · rcases he.status h n i with hs | hs
    · exact hs
    · rcases hs.owner with hp | hp
      · exact absurd hp hpub
      · exact absurd hp.1 hown
  · rcases he.link h n i with hl | hl
    · exact hl
    · rcases hl.owner with rfl | hp | hp | hp
      · exact absurd hno.sentinel (by decide)
      · exact absurd hp hpub
      · exact absurd hp hown
      · exact absurd hno.fresh (hp ▸ lt_irrefl _)

theorem Inv.step (h : Inv MAX_LEVELS known s) (he : Effect MAX_LEVELS known s t s') : Inv MAX_LEVELS known s' := by
  have hx := he.extends h
  have fresh_new : ∀ u, (s.pc u).newNode? ≠ some s.fresh := fun u hu => by
    obtain ⟨_, _, hno⟩ := (h.memory.pcs u).newNode hu
    exact lt_irrefl _ hno.fresh
  refine ⟨he.memory h, fun i => ?_, h.fresh.trans hx.fresh, fun u n hu i => ?_,
    fun u v n hu hv => ?_, fun u w topLevel n r b hu => ?_, he.bottom h⟩
  · rcases he.link h NIL i with hl | hl
    · rw [hl, h.nil]
    · exact absurd rfl hl.ne_NIL
  · by_cases hut : u = t
    · subst hut
      rcases he.newNode with ht | ht | ⟨ht, hst⟩
      · rw [ht] at hu
        cases hu
      · rcases he.status h n i with hs | hs
        · rw [hs]
          exact h.new u n (ht ▸ hu) i
        · rcases hs.owner with hp | hp
          · exact absurd (h.new u n (ht ▸ hu) 0) hp.bottom
          · rw [hp.2] at hu
            cases hu
      · rw [hst]
        rw [ht] at hu
        cases hu
        by_contra hs
        exact lt_irrefl _ (h.memory.published _ i hs).fresh
    · rw [he.pc_of_ne hut] at hu
      rw [(h.new_kept he hu hut i).1, h.new u n hu i]
  · -- one of the two threads has not moved
    have old : ∀ {u v}, u ≠ t → (s'.pc u).newNode? = some n → (s'.pc v).newNode? = some n →
        u = v := by
      intro u v hut hu hv
      rw [he.pc_of_ne hut] at hu
      by_cases hvt : v = t
      · subst hvt
        rcases he.newNode with ht | ht | ⟨ht, -⟩ <;> rw [ht] at hv
        · cases hv
        · exact h.new_unique u v n hu hv
        · cases hv
          exact absurd hu (fresh_new u)
      · rw [he.pc_of_ne hvt] at hv
        exact h.new_unique u v n hu hv
    by_cases hut : u = t
    · by_cases hvt : v = t
      · rw [hut, hvt]
      · exact (old hvt hv hu).symm
    · exact old hut hu hv
  · by_cases hut : u = t
    · exact he.stored h (hut ▸ hu)
    · rw [he.pc_of_ne hut] at hu
      rw [(h.new_kept he (by rw [hu]; rfl) hut 0).2, h.stored u _ _ _ _ _ hu]

end Step

end MinStd.SkipList
