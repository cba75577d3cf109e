import MinStd.Proofs.SkipListLevels

/-!
# A find alone

With every other thread idle, a search finds each level's list as it is.  It walks a level from a
node of it to the first node that is neither tombstoned nor before the key, and unlinks the
tombstoned nodes between the two (`Alone.walk_level`).  So a tombstoned node it meets at level 0 has
no upper level left on a list: either a walk above has unlinked it there, or it stands behind a node
that stops the search (`Alone.drained`).  A `find` thus retires the removed nodes of its key
(`recovers_of_run`).
-/

namespace MinStd.SkipList

variable {Tid K : Type*} {MAX_LEVELS : ℕ}

/-- A node off the list of level 0 is retired, or a thread is about to push it, and no node is
published above `MAX_LEVELS`. -/
structure Pushed (MAX_LEVELS : ℕ) (s : State Tid K) : Prop where
  unlinked : ∀ n, s.status n 0 = .unlinked → n ∈ s.retired ∨ ∃ t, (s.pc t).retiring? = some n
  claimed : ∀ n, s.retirementEnqueued n = true →
    n ∈ s.retired ∨ ∃ t, (s.pc t).enqueuing? = some n
  reach : ∀ n i, s.status n i ≠ .unpublished → i ≤ MAX_LEVELS

section Pushed

variable [LinearOrder K] [DecidableEq Tid] {s s' : State Tid K} {t : Tid} {n : Node} {i : ℕ}

omit [LinearOrder K] [DecidableEq Tid] in
theorem retiring_of_enqueuing {p : Pc K} (h : p.enqueuing? = some n) : p.retiring? = some n := by
  cases p <;> first | exact h | cases h

theorem Effect.retiring (he : Effect MAX_LEVELS id s t s') (hn : (s.pc t).retiring? = some n) :
    (s'.pc t).retiring? = some n ∨ n ∈ s'.retired ∨ s.retirementEnqueued n = true := by
  cases he
  case move hm =>
    rw [hm.retiring.2] at hn
    cases hn
  case storeUnlinked hp | claim hp _ =>
    rw [hp] at hn
    rw [setPc_self]
    exact .inl hn
  case claimed hp hr _ _ =>
    rw [hp] at hn
    cases hn
    exact .inr (.inr hr)
  case enqueue hp _ _ =>
    rw [hp] at hn
    cases hn
    exact .inr (.inl (List.mem_append_right _ (List.mem_singleton_self n)))
  case linkBottom hp _ | unlink hp _ | unlinkRemoved hp _ | aimOwn hp _ | publish hp _
    | softDelete hp _ | markBottom hp _ | uncount hp _ _ | unreserve hp _ _ _ =>
    rw [hp] at hn
    cases hn
  all_goals
    rename_i hp
    rw [hp] at hn
    cases hn

theorem Effect.enqueuing (he : Effect MAX_LEVELS id s t s') (hn : (s.pc t).enqueuing? = some n) :
    n ∈ s'.retired := by
  cases he
  case move hm =>
    rw [enqueuing_of_retiring hm.retiring.2] at hn
    cases hn
  case enqueue hp _ _ =>
    rw [hp] at hn
    cases hn
    exact List.mem_append_right _ (List.mem_singleton_self n)
  case linkBottom hp _ | unlink hp _ | unlinkRemoved hp _ | aimOwn hp _ | publish hp _
    | softDelete hp _ | markBottom hp _ | uncount hp _ _ | unreserve hp _ _ _ | claim hp _
    | claimed hp _ _ _ =>
    rw [hp] at hn
    cases hn
  all_goals
    rename_i hp
    rw [hp] at hn
    cases hn

theorem Effect.flags (he : Effect MAX_LEVELS id s t s') (hn : s'.retirementEnqueued n = true) :
    s.retirementEnqueued n = true ∨ (s'.pc t).enqueuing? = some n := by
  cases he
  case construct =>
    by_cases hf : n = s.fresh
    · simp [State.setPc, State.construct, hf] at hn
    · exact .inl ((Function.update_of_ne hf ..).symm.trans hn)
  case claim m k _ _ =>
    by_cases hm : n = m
    · rw [setPc_self, hm]
      exact .inr rfl
    · exact .inl ((Function.update_of_ne hm ..).symm.trans hn)
  all_goals exact .inl hn

omit [DecidableEq Tid] in
theorem PcOk.level_le {p : Pc K} (hp : PcOk MAX_LEVELS id s p) (hc : p.checked? = some n)
    (hi : p.inserting? = some (n, i)) : i ≤ MAX_LEVELS := by
  cases p <;> cases hc <;> cases hi
  all_goals
    have htop := hp.2.top.2
    have hlevel := hp.2.level.2
    omega

theorem Pushed.step (hp : Pushed MAX_LEVELS s) (h : Inv MAX_LEVELS id s) (hu : Upper s)
    (he : Effect MAX_LEVELS id s t s') : Pushed MAX_LEVELS s' := by
  have retired : ∀ {n}, n ∈ s.retired → n ∈ s'.retired := fun {n} hn => by
    rcases he.pushed with hr | ⟨m, -, hr⟩ <;> rw [hr]
    · exact hn
    · exact List.mem_append_left _ hn
  have other : ∀ {u n}, (s.pc u).enqueuing? = some n →
      n ∈ s'.retired ∨ ∃ v, (s'.pc v).enqueuing? = some n := fun {u n} hun => by
    by_cases hut : u = t
    · exact .inl (he.enqueuing (hut ▸ hun))
    · exact .inr ⟨u, by rw [he.pc_of_ne hut, hun]⟩
  have claimed : ∀ n, s.retirementEnqueued n = true →
      n ∈ s'.retired ∨ ∃ v, (s'.pc v).enqueuing? = some n := fun n hn =>
    (hp.claimed n hn).elim (fun h => .inl (retired h)) fun ⟨_, h⟩ => other h
  refine ⟨fun n hn => ?_, fun n hn => ?_, fun n i hn => ?_⟩
  · rcases he.turn h hu n 0 with hs | ⟨-, -, hs, -⟩ | ⟨h1, -⟩ | ⟨h1, -⟩ | ⟨-, -, -, -, hr⟩ | ⟨h1, -⟩
    · rcases hp.unlinked n (hs ▸ hn) with hr | ⟨u, hr⟩
      · exact .inl (retired hr)
      by_cases hut : u = t
      · subst hut
        rcases he.retiring hr with hr | hr | hf
        · exact .inr ⟨u, hr⟩
        · exact .inl hr
        · exact (claimed n hf).imp_right fun ⟨v, hv⟩ => ⟨v, retiring_of_enqueuing hv⟩
      · exact .inr ⟨u, by rw [he.pc_of_ne hut, hr]⟩
    · rw [hs] at hn
      cases hn
    · omega
    · omega
    · exact .inr ⟨t, hr⟩
    · omega
  · rcases he.flags hn with hf | ht
    · exact claimed n hf
    · exact .inr ⟨t, ht⟩
  · rcases he.turn h hu n i with hs | ⟨h0, -⟩ | ⟨-, -, -, hc, hi, -⟩ | ⟨-, hs, -⟩ | ⟨h0, -⟩ |
      ⟨-, hs, -⟩
    · exact hp.reach n i (hs ▸ hn)
    · omega
    · exact (h.memory.pcs t).level_le hc hi
    · exact hp.reach n i (by rw [hs]; simp)
    · omega
    · exact hp.reach n i (by rw [hs]; simp)

variable [Inhabited K]

theorem pushed_of_run (h : (machine Tid K MAX_LEVELS).Run PublishesInOrder s) :
    Pushed MAX_LEVELS s := by
  refine Machine.run_induction (I := Pushed MAX_LEVELS) (fun _ h0 => ?_)
    (fun s s' a hr hp _ hs => ?_) h
  · subst h0
    exact ⟨fun _ h => (nomatch h), fun _ h => (nomatch h), fun _ _ h => absurd rfl h⟩
  · obtain ⟨hi, hu, -⟩ := upper_of_run hr
    exact hp.step hi hu (step_effect hu.known hi.memory hs)

end Pushed

/-- The steps of the thread. -/
def Runs (t : Tid) (a : Tid × Act K) : Prop := ∃ stale, a = (t, .run stale)

section Alone

variable [LinearOrder K] [Inhabited K] [DecidableEq Tid] {s s' : State Tid K} {t : Tid}
  {w : Walk K} {c : Caller} {n m curr : Node} {i : ℕ} {l : List Node}

/-- The thread's next steps come to the state, whatever loads find of retired nodes. -/
abbrev Goes (MAX_LEVELS : ℕ) (t : Tid) : State Tid K → State Tid K → Prop :=
  (machine Tid K MAX_LEVELS).Leads PublishesInOrder (Runs t)

theorem Goes.head {r : State Tid K} (hp : (s.pc t).checked? = none)
    (hs : ∀ stale, step MAX_LEVELS s t (.run stale) = some r) (h : Goes MAX_LEVELS t r s') :
    Goes MAX_LEVELS t s s' := by
  refine .step ?_ h
  rintro _ ⟨stale, rfl⟩
  refine ⟨?_, hs stale⟩
  unfold PublishesInOrder
  split
  · rename_i hpc
    rw [hpc] at hp
    cases hp
  · trivial

variable (MAX_LEVELS) in
/-- The other threads are idle. -/
structure Alone (t : Tid) (s : State Tid K) : Prop where
  run : (machine Tid K MAX_LEVELS).Run PublishesInOrder s
  idle : ∀ u, u ≠ t → s.pc u = .idle

theorem Alone.goes (h : Alone MAX_LEVELS t s) (hg : Goes MAX_LEVELS t s s') :
    Alone MAX_LEVELS t s' := by
  have hidle : ∀ (s s' : State Tid K) (a : Tid × Act K),
      (machine Tid K MAX_LEVELS).Run PublishesInOrder s → (∀ u, u ≠ t → s.pc u = .idle) →
      Runs t a → (machine Tid K MAX_LEVELS).step s a = some s' → ∀ u, u ≠ t → s'.pc u = .idle := by
    rintro s s' a hr hidle ⟨stale, rfl⟩ hs u hu
    obtain ⟨hi, hup, -⟩ := upper_of_run hr
    rw [(step_effect hup.known hi.memory (a := .run stale) hs).pc_of_ne hu, hidle u hu]
  obtain ⟨hr, hi⟩ := hg.run ⟨_, false, rfl⟩ hidle h.run h.idle
  exact ⟨hr, hi⟩

end Alone

section List

variable [LinearOrder K] {s s' : State Tid K} {t : Tid} {n m : Node} {i : ℕ} {l : List Node}

theorem Inv.head_live (h : Inv MAX_LEVELS id s) (i : ℕ) : (s.link head i).tombstoned = false := by
  by_contra ht
  exact (h.memory.tombstoned head i (by simpa using ht)).ne_head rfl

/-- No node of a level's list is being retired. -/
theorem Upper.unclaimed (hu : Upper s) (h : Inv MAX_LEVELS id s) (hl : Level s i l) (hn : n ∈ l) :
    s.retirementEnqueued n = false := by
  by_contra hf
  have h0 := h.memory.retired n (by simpa using hf)
  have hp := h.memory.published n 0 (by rw [h0]; simp)
  rcases (hl.mem n).1 hn with rfl | rfl | hs
  · exact hp.ne_head rfl
  · exact hp.ne_NIL rfl
  · rw [hu.bottom n i hs] at h0
    cases h0

theorem Upper.resolve_next (hu : Upper s) (h : Inv MAX_LEVELS id s) (hl : Level s i l) (hn : n ∈ l)
    (stale : Bool) : s.resolve stale (s.link n i).target = next s i n := by
  rcases hl.chain.next_of_mem hn with hm | ⟨m, hm, hnext⟩
  · rw [show (s.link n i).target = none from hm, hm]
    rfl
  · rw [show (s.link n i).target = some m from hnext, hnext]
    simp [State.resolve, hu.unclaimed h hl hm]

/-- The list goes on after a node that is not `NIL`. -/
theorem Level.split (hl : Level s i l) (hn : n ∈ l) (hr : rank s n < rank s NIL) :
    ∃ l₁ m l₂, l = l₁ ++ n :: m :: l₂ ∧ next s i n = some m := by
  obtain ⟨l₁, l₂, rfl, -, h2⟩ := hl.chain.tail_of_mem hn
  rcases l₂ with _ | ⟨m, l₂⟩
  · -- nothing comes after `n`, so `NIL` comes before it
    have hne : n ≠ NIL := by
      rintro rfl
      exact lt_irrefl _ hr
    have hmem : NIL ∈ l₁ := by simpa [hne.symm] using (hl.mem NIL).2 (.inr (.inl rfl))
    have := (List.pairwise_append.1 hl.sorted).2.2 NIL hmem n (by simp)
    exact absurd hr (lt_asymm this)
  · exact ⟨l₁, m, l₂, rfl, h2.1⟩

/-- A node that is not tombstoned at a level is on the list of the level below, and not tombstoned
there. -/
theorem Upper.below (hu : Upper s) (hs : s.status n (i + 1) = .linked)
    (hn : (s.link n (i + 1)).tombstoned = false) :
    s.status n i = .linked ∧ (s.link n i).tombstoned = false := by
  have hi := hu.range n (i + 1) (by rw [hs]; simp)
  have hlive : (s.link n i).tombstoned = false := by
    by_contra ht
    rw [hu.marked n i (i + 1) (by simpa using ht) (Nat.lt_succ_self i) hi] at hn
    cases hn
  refine ⟨?_, hlive⟩
  rcases h : s.status n i with _ | _ | _ | _
  · exact absurd h (hu.down n i (by rw [hs]; simp))
  · rfl
  · rw [hu.off n i (.inl h)] at hlive
    cases hlive
  · rw [hu.off n i (.inr h)] at hlive
    cases hlive

end List

section Walk

variable [LinearOrder K]

/-- What a walk of a level keeps. -/
structure Walks (i : ℕ) (s s' : State Tid K) : Prop where
  key : s'.key = s.key
  tombstoned : ∀ n j, (s'.link n j).tombstoned = (s.link n j).tombstoned
  status : ∀ n j, j ≠ i → s'.status n j = s.status n j
  linked : ∀ n, s'.status n i = .linked → s.status n i = .linked
  live : ∀ n, s.status n i = .linked → (s.link n i).tombstoned = false → s'.status n i = .linked
  remaining : i = 0 → s'.upperLevelsRemaining = s.upperLevelsRemaining

variable {s s' r : State Tid K} {w : Walk K} {c : Caller} {m : Mode} {n p curr : Node} {i : ℕ}
  {l₁ l₂ : List Node} {succ : Option Node} {tombstoned : Bool}

omit [LinearOrder K] in
theorem Walks.refl (i : ℕ) (s : State Tid K) : Walks i s s :=
  ⟨rfl, fun _ _ => rfl, fun _ _ _ => rfl, fun _ h => h, fun _ h _ => h, fun _ => rfl⟩

omit [LinearOrder K] in
theorem Walks.trans (h : Walks i s r) (h' : Walks i r s') : Walks i s s' where
  key := h'.key.trans h.key
  tombstoned n j := (h'.tombstoned n j).trans (h.tombstoned n j)
  status n j hj := (h'.status n j hj).trans (h.status n j hj)
  linked n hn := h.linked n (h'.linked n hn)
  live n hs hn := h'.live n (h.live n hs hn) ((h.tombstoned n i).trans hn)
  remaining hi := (h'.remaining hi).trans (h.remaining hi)

omit [LinearOrder K] in
theorem rank_congr (hkey : s'.key = s.key) (n : Node) : rank s' n = rank s n := by
  simp only [rank, hkey]

/-- The node after a predecessor that is not tombstoned goes off the list. -/
theorem Level.unlinks (hl : Level s i (l₁ ++ p :: n :: curr :: l₂)) (hn : Pub s i n)
    (ht : (s.link n i).tombstoned = true) (hp : (s.link p i).tombstoned = false)
    {x : LevelStatus} (hx : x ≠ .linked)
    (hlink : s'.link = (s.setLink p i ⟨some curr, false⟩).link)
    (hstatus : s'.status = (s.setStatus n i x).status) (hkey : s'.key = s.key)
    (hrem : i = 0 → s'.upperLevelsRemaining = s.upperLevelsRemaining) :
    Walks i s s' ∧ Level s' i (l₁ ++ p :: curr :: l₂) ∧ s'.link curr i = s.link curr i := by
  have hnd := hl.nodup
  obtain ⟨_, -, rfl, hpn, hnc, -⟩ := Linked.append_iff.1 hl.chain
  simp only [List.nodup_append, List.nodup_cons, List.mem_cons, not_or] at hnd
  refine ⟨⟨hkey, fun a j => ?_, fun a j hj => ?_, fun a ha => ?_, fun a hs ha => ?_, hrem⟩, ?_,
    ?_⟩
  · rw [hlink, setLink_link]
    split_ifs with h
    · rw [h.1, h.2, hp]
    · rfl
  · rw [hstatus, setStatus_status, if_neg fun h => hj h.2]
  · rw [hstatus, setStatus_status] at ha
    split_ifs at ha
    · exact absurd ha hx
    · exact ha
  · rw [hstatus, setStatus_status, if_neg, hs]
    rintro ⟨rfl, -⟩
    rw [ht] at ha
    cases ha
  · have herase : (l₁ ++ p :: n :: curr :: l₂).erase n = l₁ ++ p :: curr :: l₂ := by
      rw [List.erase_append_right _ fun hm => (hnd.2.2 n hm n (by simp)) rfl,
        List.erase_cons_tail (by simpa using hnd.2.1.1.1), List.erase_cons_head]
    rw [← herase]
    refine hl.unlink (by simp) hpn hn ?_ (fun a => ?_) fun a _ => rank_congr hkey a
    · rw [hnc, show next s' i = next (s.setLink p i ⟨some curr, false⟩) i by
        unfold next
        rw [hlink]]
      exact next_setLink _
    · rw [hstatus, setStatus_status]
      by_cases ha : a = n <;> simp [ha, hx]
  · rw [hlink, setLink_link, if_neg fun h => hnd.2.1.1.2.1 h.1.symm]

variable [DecidableEq Tid] {t : Tid}

variable (MAX_LEVELS) in
/-- The thread's search has loaded the link of `curr`. -/
def Stands (s : State Tid K) (t : Tid) (w : Walk K) (c : Caller) (curr : Node) : Prop :=
  s.pc t = walkOn MAX_LEVELS s w (.search c) curr (next s w.level curr)
    (s.link curr w.level).tombstoned

variable [Inhabited K]

omit [LinearOrder K] [Inhabited K] in
theorem walks_setPc (x : Pc K) : Walks i s (s.setPc t x) :=
  ⟨rfl, fun _ _ => rfl, fun _ _ _ => rfl, fun _ h => h, fun _ h _ => h, fun _ => rfl⟩

omit [DecidableEq Tid] [Inhabited K] in
theorem stands_of_pc (hp : s'.pc t = walkOn MAX_LEVELS r w (.search c) curr (next s w.level curr)
      (s.link curr w.level).tombstoned) (hcurr : s'.link curr w.level = s.link curr w.level)
    (hkey : r.key = s'.key) (htop : r.topLevel = s'.topLevel) :
    Stands MAX_LEVELS s' t w c curr := by
  unfold Stands next at *
  rw [hp, hcurr]
  cases r
  cases s'
  subst hkey htop
  rfl

theorem Goes.of_step (hp : (s.pc t).checked? = none)
    (hs : ∀ stale, step MAX_LEVELS s t (.run stale) = some s') : Goes MAX_LEVELS t s s' :=
  .head hp hs (.refl _)

attribute [local simp] step walkStep compareExchange State.setPc State.setLink State.setStatus
  State.addRemaining resume

theorem Goes.loadHelped {m : Node} (hp : s.pc t = .loadHelped w (.search c) n m)
    (hs : ∀ stale, s.resolve stale (s.link m w.level).target = succ) :
    Goes MAX_LEVELS t s (s.setPc t (if w.level = 0 then
        .testDrained w (.search c) n m succ (s.link m w.level).tombstoned
      else .unlink w (.search c) n m succ (s.link m w.level).tombstoned false)) :=
  .of_step (by rw [hp]; rfl) fun stale => by simp only [step, walkStep, hp, hs stale]; rfl

theorem Goes.testDrained {m : Node} {tombstoned : Bool}
    (hp : s.pc t = .testDrained w (.search c) n m succ tombstoned)
    (hn : s.upperLevelsRemaining n ≤ 0) :
    Goes MAX_LEVELS t s (s.setPc t (.unlink w (.search c) n m succ tombstoned false)) :=
  .of_step (by rw [hp]; rfl) fun _ => by simp [hp, hn]

/-- A tombstoned node of an upper level is unlinked and counted off. -/
theorem Goes.unlink_upper {m : Node} {tombstoned : Bool} (h0 : w.level ≠ 0)
    (hp : s.pc t = .unlink w (.search c) n m succ tombstoned false)
    (hlk : s.link w.pred w.level = ⟨some n, false⟩) :
    Goes MAX_LEVELS t s ((((s.setLink w.pred w.level ⟨some m, false⟩).addRemaining n (-1)).setStatus
      n w.level .counted).setPc t (walkOn MAX_LEVELS s w (.search c) m succ tombstoned)) := by
  refine .head (by rw [hp]; rfl) (r := s.setPc t (.unlink w (.search c) n m succ tombstoned true))
    (fun _ => by simp [hp, hlk]) <|
    .head (by simp; rfl) (r := ((s.setLink w.pred w.level ⟨some m, false⟩).setStatus n w.level
      .unlinked).setPc t (.uncount w (.search c) n m succ tombstoned))
      (fun _ => by simp [hlk, h0]) <|
    .of_step (by simp; rfl) (fun _ => by simp; rfl)

/-- A tombstoned node is unlinked at level 0 and retired. -/
theorem Goes.unlink_bottom {m : Node} {tombstoned : Bool} (h0 : w.level = 0)
    (hp : s.pc t = .unlink w (.search c) n m succ tombstoned false)
    (hlk : s.link w.pred w.level = ⟨some n, false⟩) (hr : s.retirementEnqueued n = false) :
    Goes MAX_LEVELS t s ({ ((s.setLink w.pred w.level ⟨some m, false⟩).setStatus n 0 .unlinked) with
      fullyUnlinked := Function.update s.fullyUnlinked n true
      retirementEnqueued := Function.update s.retirementEnqueued n true
      retired := s.retired ++ [n] }.setPc t
        (walkOn MAX_LEVELS s w (.search c) m succ tombstoned)) := by
  rw [h0] at hlk ⊢
  refine .head (by rw [hp]; rfl) (r := s.setPc t (.unlink w (.search c) n m succ tombstoned true))
    (fun _ => by simp [hp, h0, hlk]) <|
    .head (by simp; rfl) (r := ((s.setLink w.pred 0 ⟨some m, false⟩).setStatus n 0
      .unlinked).setPc t (.storeUnlinked n (.walk w (.search c) m succ tombstoned)))
      (fun _ => by simp [hlk, h0]) <|
    .head (by simp; rfl) (r := { ((s.setLink w.pred 0 ⟨some m, false⟩).setStatus n 0
      .unlinked) with fullyUnlinked := Function.update s.fullyUnlinked n true }.setPc t
        (.claimRetire n (.walk w (.search c) m succ tombstoned))) (fun _ => by simp) <|
    .head (by simp; rfl) (r := { ((s.setLink w.pred 0 ⟨some m, false⟩).setStatus n 0
      .unlinked) with
        fullyUnlinked := Function.update s.fullyUnlinked n true
        retirementEnqueued := Function.update s.retirementEnqueued n true }.setPc t
          (.enqueue n (.walk w (.search c) m succ tombstoned))) (fun _ => by simp [hr]) <|
    .of_step (by simp; rfl) (fun _ => by simp; rfl)

theorem Alone.unlinks (h : Alone MAX_LEVELS t s) {m : Node}
    (hl : Level s w.level (l₁ ++ w.pred :: n :: m :: l₂))
    (hp : s.pc t = .loadHelped w (.search c) n m)
    (hpred : (s.link w.pred w.level).tombstoned = false)
    (hn : (s.link n w.level).tombstoned = true)
    (hdrained : w.level = 0 → s.upperLevelsRemaining n ≤ 0) :
    ∃ s', Goes MAX_LEVELS t s s' ∧ Walks w.level s s' ∧
      Level s' w.level (l₁ ++ w.pred :: m :: l₂) ∧ Stands MAX_LEVELS s' t w c m := by
  obtain ⟨hi, hu, -⟩ := upper_of_run h.run
  have hnd := hl.nodup
  obtain ⟨_, -, rfl, hpn, hnm, -⟩ := Linked.append_iff.1 hl.chain
  have hlk : s.link w.pred w.level = ⟨some n, false⟩ := by
    rw [← hpn, ← hpred]
    rfl
  have hres := fun stale => hu.resolve_next hi hl (n := m) (by simp) stale
  have hpub : Pub s w.level n := by
    refine hi.memory.published n _ fun hs => ?_
    have := hi.memory.tombstoned n _ hn
    rcases (hl.mem n).1 (by simp) with rfl | rfl | hs'
    · exact this.ne_head rfl
    · exact this.ne_NIL rfl
    · rw [hs] at hs'
      cases hs'
  have h1 : Goes MAX_LEVELS t s _ := .loadHelped hp hres
  by_cases h0 : w.level = 0
  · rw [if_pos h0] at h1
    have h2 := h1.trans ((Goes.testDrained (setPc_self _) (hdrained h0)).trans
      (Goes.unlink_bottom h0 (setPc_self _) hlk (hu.unclaimed hi hl (n := n) (by simp))))
    exact ⟨_, h2, And.imp_right (And.imp_right fun hm => stands_of_pc (setPc_self _) hm rfl rfl)
      (hl.unlinks hpub hn hpred (x := .unlinked) (by simp) rfl (by rw [h0]; rfl) rfl fun _ => rfl)⟩
  · rw [if_neg h0] at h1
    have h2 := h1.trans (Goes.unlink_upper h0 (setPc_self _) hlk)
    exact ⟨_, h2, And.imp_right (And.imp_right fun hm => stands_of_pc (setPc_self _) hm rfl rfl)
      (hl.unlinks hpub hn hpred (x := .counted) (by simp) rfl rfl rfl fun h => absurd h h0)⟩

theorem Goes.loadSucc (hp : s.pc t = .loadSucc w (.search c) curr)
    (hs : ∀ stale, s.resolve stale (s.link curr w.level).target = succ) :
    Goes MAX_LEVELS t s (s.setPc t (walkOn MAX_LEVELS s w (.search c) curr succ
      (s.link curr w.level).tombstoned)) :=
  .of_step (by rw [hp]; rfl) fun stale => by simp only [step, walkStep, hp, hs stale]; rfl

theorem Goes.loadFirst (hp : s.pc t = .loadFirst w (.search c))
    (hs : ∀ stale, s.resolve stale (s.link w.pred w.level).target = some curr) :
    Goes MAX_LEVELS t s (s.setPc t (.loadSucc w (.search c) curr)) :=
  .of_step (by rw [hp]; rfl) fun stale => by simp only [step, walkStep, hp, hs stale]; rfl

/-- A node that is not tombstoned stands between the key and the node. -/
def Behind (s : State Tid K) (key : K) (n : Node) : Prop :=
  ∃ x, (x = NIL ∨ s.status x 0 = .linked) ∧ (s.link x 0).tombstoned = false ∧
    ((key : WithTop K) : WithBot (WithTop K)) ≤ rank s x ∧ rank s x < rank s n

/-- Where the walk of a level ends. -/
structure Stop (s : State Tid K) (i : ℕ) (key : K) (pred curr : Node) : Prop where
  level : ∃ l₁ l₂, Level s i (l₁ ++ pred :: curr :: l₂)
  before : rank s pred < (key : WithTop K)
  after : ((key : WithTop K) : WithBot (WithTop K)) ≤ rank s curr
  pred_live : (s.link pred i).tombstoned = false
  curr_live : (s.link curr i).tombstoned = false

omit [DecidableEq Tid] [Inhabited K] in
theorem Behind.walks {key : K} (h : Behind s key n) (hw : Walks i s s') : Behind s' key n := by
  obtain ⟨x, hx, hlive, hle, hlt⟩ := h
  refine ⟨x, hx.imp_right fun hs => ?_, (hw.tombstoned x 0).trans hlive, ?_, ?_⟩
  · by_cases hi : 0 = i
    · subst hi
      exact hw.live x hs hlive
    · rw [hw.status x 0 hi, hs]
  · rwa [rank_congr hw.key]
  · rwa [rank_congr hw.key, rank_congr hw.key]

omit [DecidableEq Tid] [Inhabited K] in
/-- Nothing of the list stands between two nodes that follow each other. -/
theorem Level.adjacent {l₁ l₂ : List Node} {a : Node} (hl : Level s i (l₁ ++ p :: curr :: l₂))
    (ha : a = head ∨ a = NIL ∨ s.status a i = .linked) (hp : rank s p < rank s a) :
    a = curr ∨ a ∈ l₂ ∧ rank s curr < rank s a := by
  have hs := List.pairwise_append.1 hl.sorted
  rcases List.mem_append.1 ((hl.mem a).2 ha) with hm | hm
  · exact absurd hp (lt_asymm (hs.2.2 a hm p (by simp)))
  · rcases List.mem_cons.1 hm with rfl | hm
    · exact absurd hp (lt_irrefl _)
    · rcases List.mem_cons.1 hm with rfl | hm
      · exact .inl rfl
      · exact .inr ⟨hm, List.rel_of_pairwise_cons (List.pairwise_cons.1 hs.2.1).2 hm⟩

theorem Alone.walk_level (l₂ : List Node) : ∀ {s : State Tid K} {w : Walk K} {curr : Node}
    {l₁ : List Node}, Alone MAX_LEVELS t s → Level s w.level (l₁ ++ w.pred :: curr :: l₂) →
    (s.link w.pred w.level).tombstoned = false → rank s w.pred < (w.key : WithTop K) →
    (w.level = 0 → ∀ n, s.status n 0 = .linked → (s.link n 0).tombstoned = true →
      rank s w.pred < rank s n → s.upperLevelsRemaining n ≤ 0 ∨ Behind s w.key n) →
    Stands MAX_LEVELS s t w c curr →
    ∃ s' pred curr', Goes MAX_LEVELS t s s' ∧ Walks w.level s s' ∧
      Stop s' w.level w.key pred curr' ∧
      s'.pc t = finishLevel MAX_LEVELS s' { w with pred } (.search c) curr' ∧
      rank s w.pred ≤ rank s pred := by
  have stops : ∀ {s : State Tid K} {w : Walk K} {curr : Node} {l₁ l₂ : List Node},
      Level s w.level (l₁ ++ w.pred :: curr :: l₂) → (s.link w.pred w.level).tombstoned = false →
      rank s w.pred < (w.key : WithTop K) → Stands MAX_LEVELS s t w c curr →
      (s.link curr w.level).tombstoned = false → ¬ keyBefore s curr w.key = true →
      On s w.level curr →
      ∃ s' pred curr', Goes MAX_LEVELS t s s' ∧ Walks w.level s s' ∧
        Stop s' w.level w.key pred curr' ∧
        s'.pc t = finishLevel MAX_LEVELS s' { w with pred } (.search c) curr' ∧
        rank s w.pred ≤ rank s pred := by
    intro s w curr l₁ l₂ hl hpred hbefore hst hlive hk hon
    refine ⟨s, w.pred, curr, .refl s, .refl _ s, ⟨⟨l₁, l₂, hl⟩, hbefore,
      (succOk_of_not_before hon hk).after, hpred, hlive⟩, ?_, le_rfl⟩
    rw [hst, hlive]
    unfold walkOn
    rw [if_neg (by simp), if_neg hk]
  induction l₂ with
  | nil =>
    intro s w curr l₁ h hl hpred hbefore hdrained hst
    obtain ⟨hi, -, -⟩ := upper_of_run h.run
    obtain rfl : NIL = curr := ((hl.adjacent (.inr (.inl rfl))
      (hbefore.trans (WithBot.coe_lt_coe.2 (WithTop.coe_lt_top _)))).resolve_right (by simp))
    exact stops hl hpred hbefore hst (by rw [hi.nil]) (by simp [keyBefore]) (.inl rfl)
  | cons m l₂ ih => 
    intro s w curr l₁ h hl hpred hbefore hdrained hst
    obtain ⟨hi, hu, -⟩ := upper_of_run h.run
    obtain ⟨_, -, rfl, hpc, hcm, -⟩ := Linked.append_iff.1 hl.chain
    have hlt : rank s w.pred < rank s curr :=
      List.rel_of_pairwise_cons (List.pairwise_append.1 hl.sorted).2.1 List.mem_cons_self
    have hon : On s w.level curr := by
      rcases (hl.mem curr).1 (by simp) with rfl | rfl | hs
      · exact absurd hlt (not_lt_of_ge bot_le)
      · exact .inl rfl
      · exact .inr (hi.memory.published _ _ (by rw [hs]; simp))
    have hmem : m ∈ l₁ ++ w.pred :: curr :: m :: l₂ := by simp
    by_cases ht : (s.link curr w.level).tombstoned = true
    · -- the walk unlinks the node and looks at the next
      have hp : s.pc t = .loadHelped w (.search c) curr m := by
        rw [hst, ht, hcm]
        rfl
      have hs : s.status curr w.level = .linked := by
        rcases (hl.mem curr).1 (by simp) with rfl | rfl | hs
        · exact absurd hlt (not_lt_of_ge bot_le)
        · rw [hi.nil] at ht
          cases ht
        · exact hs
      obtain ⟨s₁, hg, hw, hl', hst'⟩ := h.unlinks hl hp hpred ht fun h0 => by
        refine (hdrained h0 curr (h0 ▸ hs) (h0 ▸ ht) hlt).resolve_right ?_
        rintro ⟨x, hx, -, hle, hxlt⟩
        rcases hl.adjacent (h0 ▸ .inr hx) (hbefore.trans_le hle) with rfl | ⟨-, hx'⟩
        · exact lt_irrefl _ hxlt
        · exact lt_asymm hx' hxlt
      have hrank := rank_congr hw.key
      obtain ⟨s', pred, curr', hg', hw', hstop, hpc', hle⟩ := ih (h.goes hg) hl'
        ((hw.tombstoned _ _).trans hpred) (by rwa [hrank]) (fun h0 n hn htn hr => by
          rw [hrank, hrank] at hr
          rcases hdrained h0 n (h0 ▸ hw.linked n (h0 ▸ hn)) ((hw.tombstoned n 0).symm.trans htn) hr
            with hd | hd
          · exact .inl (by rwa [hw.remaining h0])
          · exact .inr (hd.walks hw)) hst'
      refine ⟨s', pred, curr', hg.trans hg', hw.trans hw', hstop, hpc', ?_⟩
      rwa [hrank, hrank] at hle
    have hlive : (s.link curr w.level).tombstoned = false := by simpa using ht
    by_cases hk : keyBefore s curr w.key = true
    · have hp : s.pc t = .loadSucc { w with pred := curr } (.search c) m := by
        rw [hst, hlive, hcm]
        unfold walkOn
        rw [if_neg (by simp), if_pos hk]
      obtain ⟨hn, hkey⟩ := keyBefore_iff.1 hk
      have hr : rank s curr < (w.key : WithTop K) := by
        rw [rank_of_pub (hon.resolve_left hn)]
        exact WithBot.coe_lt_coe.2 (WithTop.coe_lt_coe.2 hkey)
      have hg : Goes MAX_LEVELS t s _ := .loadSucc hp (hu.resolve_next hi hl hmem)
      have hl' : Level (s.setPc t (walkOn MAX_LEVELS s { w with pred := curr } (.search c) m
          (next s w.level m) (s.link m w.level).tombstoned)) w.level
            ((l₁ ++ [w.pred]) ++ curr :: m :: l₂) := by
        rw [List.append_assoc]
        exact hl.congr (fun _ _ => rfl) (fun _ => Iff.rfl) fun _ _ => rfl
      obtain ⟨s', pred, curr', hg', hw', hstop, hpc', hle⟩ := ih (w := { w with pred := curr })
        (h.goes hg) hl' hlive hr (fun h0 n hs htn hrn => hdrained h0 n hs htn (hlt.trans hrn))
        (stands_of_pc (setPc_self _) rfl rfl rfl)
      exact ⟨s', pred, curr', hg.trans hg', (walks_setPc _).trans hw', hstop, hpc',
        hlt.le.trans hle⟩
    · exact stops hl hpred hbefore hst hlive hk hon

omit [DecidableEq Tid] [Inhabited K] in
theorem Upper.pending_unlinked (hu : Upper s) (hc : ∀ u, (s.pc u).uncounts? = none)
    (hi : i ∈ pending s n) : s.status n i = .linked := by
  obtain ⟨⟨h1, -⟩, hs | hs⟩ := mem_pending.1 hi
  · exact hs
  · obtain ⟨u, hu'⟩ := hu.uncounted n i h1 hs
    rw [hc u] at hu'
    cases hu'

/-- A tombstoned node of level 0 that the search meets has its upper levels drained. -/
theorem Alone.drained (h : Alone MAX_LEVELS t s) (hp : s.pc t = .loadFirst w m)
    (habove : ∀ n j, 0 < j → s.status n j = .linked → (s.link n j).tombstoned = true →
      rank s w.pred < rank s n → Behind s w.key n) (n : Node)
    (ht : (s.link n 0).tombstoned = true) (hr : rank s w.pred < rank s n) :
    s.upperLevelsRemaining n ≤ 0 ∨ Behind s w.key n := by
  obtain ⟨-, hu, -⟩ := upper_of_run h.run
  have hpc : ∀ u, (s.pc u).uncounts? = none ∧ (s.pc u).reserved? = none := fun u => by
    by_cases hut : u = t
    · rw [hut, hp]
      exact ⟨rfl, rfl⟩
    · rw [h.idle u hut]
      exact ⟨rfl, rfl⟩
  by_cases hb : Behind s w.key n
  · exact .inr hb
  have hnone : pending s n = ∅ := Finset.eq_empty_of_forall_notMem fun j hj => by
    obtain ⟨⟨h1, h2⟩, -⟩ := mem_pending.1 hj
    exact hb (habove n j h1 (hu.pending_unlinked (fun u => (hpc u).1) hj)
      (hu.marked n 0 j ht h1 h2) hr)
  refine .inl (le_of_eq ?_)
  rw [(hu.remaining n).unreserved, hnone]
  · rfl
  · rintro ⟨u, hu'⟩
    rw [(hpc u).2] at hu'
    cases hu'

/-- A walk of a level, from its first load on. -/
theorem Alone.walk (h : Alone MAX_LEVELS t s) (hp : s.pc t = .loadFirst w (.search c))
    (hpred : w.pred = head ∨ s.status w.pred w.level = .linked)
    (hlive : (s.link w.pred w.level).tombstoned = false)
    (hbefore : rank s w.pred < (w.key : WithTop K))
    (habove : ∀ n j, w.level < j → s.status n j = .linked → (s.link n j).tombstoned = true →
      rank s w.pred < rank s n → Behind s w.key n) :
    ∃ s' pred curr, Goes MAX_LEVELS t s s' ∧ Walks w.level s s' ∧ Stop s' w.level w.key pred curr ∧
      s'.pc t = finishLevel MAX_LEVELS s' { w with pred } (.search c) curr ∧
      rank s w.pred ≤ rank s pred := by
  obtain ⟨hi, hu, -⟩ := upper_of_run h.run
  obtain ⟨l, hl⟩ := hu.levels w.level
  have hmem : w.pred ∈ l := (hl.mem _).2 (hpred.imp_right .inr)
  obtain ⟨l₁, m, l₂, rfl, hm⟩ := hl.split hmem
    (hbefore.trans (WithBot.coe_lt_coe.2 (WithTop.coe_lt_top _)))
  have hres := hu.resolve_next hi hl hmem
  have h1 : Goes MAX_LEVELS t s _ := .loadFirst hp fun stale => (hres stale).trans hm
  have hs : Walks w.level s (s.setPc t (.loadSucc w (.search c) m)) := walks_setPc _
  have h2 : Goes MAX_LEVELS t (s.setPc t (.loadSucc w (.search c) m)) _ := .loadSucc (setPc_self _)
    (hu.resolve_next hi hl (n := m) (by simp))
  obtain ⟨s', pred, curr, hg, hw, hstop, hpc, hle⟩ :=
    Alone.walk_level (s := State.setPc _ _ _) l₂ (h.goes (h1.trans h2))
      (hl.congr (fun _ _ => rfl) (fun _ => Iff.rfl) fun _ _ => rfl) hlive hbefore
      (fun h0 n _ ht hr => h.drained hp (fun n j hj => habove n j (h0 ▸ hj)) n ht hr)
      (stands_of_pc (setPc_self _) rfl rfl rfl)
  exact ⟨s', pred, curr, h1.trans (h2.trans hg), hs.trans ((walks_setPc _).trans hw), hstop, hpc,
    hle⟩

omit [DecidableEq Tid] [Inhabited K] in
/-- The node of the key that a walk leaves on the list is not tombstoned. -/
theorem Stop.live {key : K} (h : Stop s i key p curr) (hs : s.status n i = .linked)
    (hn : rank s n = (key : WithTop K)) : (s.link n i).tombstoned = false := by
  obtain ⟨l₁, l₂, hl⟩ := h.level
  rcases hl.adjacent (.inr (.inr hs)) (hn ▸ h.before) with rfl | ⟨-, hlt⟩
  · exact h.curr_live
  · exact absurd h.after (not_le_of_gt (hn ▸ hlt))

omit [DecidableEq Tid] [Inhabited K] in
theorem Stop.pred_below {j : ℕ} {key : K} (h : Stop s j key p curr) (hi : Inv MAX_LEVELS id s)
    (hu : Upper s) (hj : j = i + 1) :
    (p = head ∨ s.status p i = .linked) ∧ (s.link p i).tombstoned = false := by
  subst hj
  obtain ⟨l₁, l₂, hl⟩ := h.level
  rcases (hl.mem p).1 (by simp) with rfl | rfl | hs
  · exact ⟨.inl rfl, hi.head_live i⟩
  · exact absurd h.before (not_lt_of_ge (WithBot.coe_le_coe.2 le_top))
  · obtain ⟨hs', hlive⟩ := hu.below hs h.pred_live
    exact ⟨.inr hs', hlive⟩

omit [DecidableEq Tid] [Inhabited K] in
/-- A tombstoned node that a walk leaves on the list stands behind the node it stopped at. -/
theorem Stop.behind {key : K} (h : Stop s i key p curr) (hi : Inv MAX_LEVELS id s) (hu : Upper s)
    (hs : s.status n i = .linked) (ht : (s.link n i).tombstoned = true)
    (hr : rank s p < rank s n) : Behind s key n := by
  obtain ⟨l₁, l₂, hl⟩ := h.level
  have hlive := h.curr_live
  rcases hl.adjacent (.inr (.inr hs)) hr with rfl | ⟨-, hlt⟩
  · rw [ht] at hlive
    cases hlive
  refine ⟨curr, ?_, ?_, h.after, hlt⟩
  · rcases (hl.mem curr).1 (by simp) with rfl | rfl | hs'
    · exact absurd h.after (not_le_of_gt (WithBot.bot_lt_coe _))
    · exact .inl rfl
    · exact .inr (hu.bottom curr i hs')
  · rcases (hl.mem curr).1 (by simp) with rfl | rfl | hs'
    · exact absurd h.after (not_le_of_gt (WithBot.bot_lt_coe _))
    · rw [hi.nil]
    · by_contra h0
      rcases Nat.eq_zero_or_pos i with rfl | hpos
      · exact h0 hlive
      · have ht := hu.marked curr 0 i (by simpa using h0) hpos (hu.range curr i (by rw [hs']; simp))
        rw [ht] at hlive
        cases hlive

/-- The search from a level down, no other thread being under way: it stops at level 0 with no
tombstoned node of its key left there. -/
theorem Alone.search (i : ℕ) : ∀ {s : State Tid K} {w : Walk K}, Alone MAX_LEVELS t s →
    w.level = i → s.pc t = .loadFirst w (.search c) →
    w.pred = head ∨ s.status w.pred w.level = .linked → (s.link w.pred w.level).tombstoned = false →
    rank s w.pred < (w.key : WithTop K) →
    (∀ n j, w.level < j → s.status n j = .linked → (s.link n j).tombstoned = true →
      rank s w.pred < rank s n → Behind s w.key n) →
    ∃ s' w' curr, Goes MAX_LEVELS t s s' ∧ w'.level = 0 ∧ s'.key = s.key ∧
      (∀ n j, (s'.link n j).tombstoned = (s.link n j).tombstoned) ∧ Stop s' 0 w.key w'.pred curr ∧
      s'.pc t = finishLevel MAX_LEVELS s' w' (.search c) curr := by
  induction i with
  | zero =>
    intro s w h hw0 hp hpred hlive hbefore habove
    obtain ⟨s', pred, curr, hg, hw, hstop, hpc, -⟩ := h.walk hp hpred hlive hbefore habove
    exact ⟨s', { w with pred }, curr, hg, hw0, hw.key, hw.tombstoned, hw0 ▸ hstop, hpc⟩
  | succ i ih =>
    intro s w h hwi hp hpred hlive hbefore habove
    obtain ⟨s₁, pred, curr, hg, hw, hstop, hpc, hle⟩ := h.walk hp hpred hlive hbefore habove
    have hrank := rank_congr hw.key
    obtain ⟨hi, hu, -⟩ := upper_of_run (h.goes hg).run
    obtain ⟨hon, hlive'⟩ := hstop.pred_below hi hu hwi
    have habove' : ∀ n j, i < j → s₁.status n j = .linked → (s₁.link n j).tombstoned = true →
        rank s₁ pred < rank s₁ n → Behind s₁ w.key n := by
      intro n j hj hs ht hr
      rcases eq_or_ne j (i + 1) with rfl | hne
      · exact hstop.behind hi hu (hwi ▸ hs) (hwi ▸ ht) hr
      · rw [hw.status n j (hwi ▸ hne)] at hs
        rw [hrank, hrank] at hr
        exact (habove n j (by omega) hs ((hw.tombstoned n j).symm.trans ht)
          (hle.trans_lt hr)).walks hw
    obtain ⟨s', w', curr', hg', h0, hkey, htomb, hstop', hpc'⟩ := ih (w := { w with
        level := i, pred
        preds := Function.update w.preds (i + 1) pred
        succs := Function.update w.succs (i + 1) curr }) (h.goes hg) rfl
      (by rw [hpc, finishLevel]; simp [hwi]) hon hlive' hstop.before habove'
    exact ⟨s', w', curr', hg.trans hg', h0, hkey.trans hw.key,
      fun n j => (htomb n j).trans (hw.tombstoned n j), hstop', hpc'⟩

variable (MAX_LEVELS) in
/-- A `find` that is called and runs while no other call is under way retires the removed nodes of
its key. -/
def Recovers (s : State Tid K) : Prop :=
  (∀ t, s.pc t = .idle) → ∀ t key, ∃ s₁ s', step MAX_LEVELS s t (.find key) = some s₁ ∧
    Goes MAX_LEVELS t s₁ s' ∧ s'.pc t = .idle ∧
    ∀ n, (s.link n 0).tombstoned = true → s.key n = key → n ∈ s'.retired

theorem recovers_of_run (h : (machine Tid K MAX_LEVELS).Run PublishesInOrder s) :
    Recovers MAX_LEVELS s := by
  intro hidle t key
  have hcall : step MAX_LEVELS s t (.find key) =
      some (s.setPc t (startSearch MAX_LEVELS (.start key) .find)) := by simp [step, hidle]
  have h₁ : Alone MAX_LEVELS t (s.setPc t (startSearch MAX_LEVELS (.start key) .find)) := by
    refine ⟨h.step (a := (t, .find key)) ?_ hcall, fun u hu => ?_⟩
    · unfold PublishesInOrder
      rw [hidle t]
      trivial
    · rw [update_pc, if_neg hu, hidle u]
  obtain ⟨hi, hu, -⟩ := upper_of_run h
  have hmax : ∀ n j, MAX_LEVELS < j → s.status n j ≠ .linked := fun n j hj hs =>
    absurd ((pushed_of_run h).reach n j (by rw [hs]; simp)) (by omega)
  obtain ⟨s', w', curr, hg, h0, hkey, htomb, hstop, hpc⟩ := h₁.search MAX_LEVELS rfl (setPc_self _)
    (.inl rfl) (hi.head_live _) (WithBot.bot_lt_coe _) fun n j hj hs _ _ => absurd hs (hmax n j hj)
  have h' := h₁.goes hg
  have hpc' : s'.pc t = .idle := by
    rw [hpc, finishLevel]
    simp [h0, searched]
  have hidle' : ∀ u, s'.pc u = .idle := fun u => by
    by_cases hu : u = t
    · rw [hu, hpc']
    · exact h'.idle u hu
  refine ⟨_, s', hcall, hg, hpc', fun n ht hn => ?_⟩
  obtain ⟨hi', -, -⟩ := upper_of_run h'.run
  have ht' : (s'.link n 0).tombstoned = true := (htomb n 0).trans ht
  have hpub := hi'.memory.tombstoned n 0 ht'
  rcases hs : s'.status n 0 with _ | _ | _ | _
  · exact absurd hs hpub.level
  · have hrank : rank s' n = ((key : WithTop K) : WithBot (WithTop K)) := by
      rw [rank_of_pub hpub, hkey]
      exact congrArg _ (congrArg _ hn)
    exact absurd ht' (by simp [hstop.live hs hrank])
  · refine ((pushed_of_run h'.run).unlinked n hs).resolve_right ?_
    rintro ⟨u, hu⟩
    rw [hidle' u] at hu
    cases hu
  · exact absurd hs (hi'.memory.uncounted n)

end Walk

end MinStd.SkipList
