import MinStd.Proofs.SkipListSteps

/-!
# The skip list as a set

The links of level 0 lead from the head through the nodes linked there, in order of their keys, to
`NIL`, tombstoned nodes included.  A predecessor that is not tombstoned is still on the list, so a
node is linked where its key belongs, and an unlinked node has been tombstoned.  So a key's node is
alive from its link to its mark, and there is one at most.
-/

namespace MinStd.SkipList

variable {Tid K : Type*} {MAX_LEVELS : ℕ} {known : ℕ → ℕ}

def next (s : State Tid K) (i : ℕ) (n : Node) : Option Node := (s.link n i).target

section Level

variable [LinearOrder K]

/-- The list of a level, its sentinels included. -/
structure Level (s : State Tid K) (i : ℕ) (l : List Node) : Prop where
  chain : Linked some (next s i) (some head) l none
  mem : ∀ n, n ∈ l ↔ n = head ∨ n = NIL ∨ s.status n i = .linked
  sorted : l.Pairwise fun a b => rank s a < rank s b

variable {s s' : State Tid K} {i : ℕ} {l : List Node}

theorem Level.congr (h : Level s i l) (hnext : ∀ n ∈ l, next s' i n = next s i n)
    (hstatus : ∀ n, s'.status n i = .linked ↔ s.status n i = .linked)
    (hrank : ∀ n ∈ l, rank s' n = rank s n) : Level s' i l := by
  refine ⟨h.chain.congr hnext, fun n => ?_, ?_⟩
  · rw [h.mem, hstatus]
  · refine h.sorted.imp_of_mem fun ha hb hab => ?_
    rwa [hrank _ ha, hrank _ hb]

theorem Level.nodup (h : Level s i l) : l.Nodup :=
  h.chain.nodup (Option.some_injective _) (by simp)

theorem Level.unlink (h : Level s i l) {pred n : Node} (hpred : pred ∈ l)
    (hn : next s i pred = some n) (hp : Pub s i n)
    (hnext : next s' i = Function.update (next s i) pred (next s i n))
    (hstatus : ∀ m, s'.status m i = .linked ↔ s.status m i = .linked ∧ m ≠ n)
    (hrank : ∀ n ∈ l, rank s' n = rank s n) : Level s' i (l.erase n) := by
  refine ⟨?_, fun m => ?_, ?_⟩
  · rw [hnext]
    exact (h.chain.unlink_after (Option.some_injective _) (by simp) hpred hn).1
  · rw [h.nodup.mem_erase_iff, h.mem, hstatus]
    have := hp.ne_head
    have := hp.ne_NIL
    constructor
    · rintro ⟨hmn, hm | hm | hm⟩
      · exact .inl hm
      · exact .inr (.inl hm)
      · exact .inr (.inr ⟨hm, hmn⟩)
    · rintro (rfl | rfl | ⟨hm, hmn⟩)
      · exact ⟨Ne.symm ‹n ≠ head›, .inl rfl⟩
      · exact ⟨Ne.symm ‹n ≠ NIL›, .inr (.inl rfl)⟩
      · exact ⟨hmn, .inr (.inr hm)⟩
  · refine (h.sorted.sublist List.erase_sublist).imp_of_mem fun ha hb hab => ?_
    rwa [hrank _ (List.mem_of_mem_erase ha), hrank _ (List.mem_of_mem_erase hb)]

theorem Level.insert (h : Level s i l) {pred n succ : Node} (hpred : pred ∈ l) (hn : n ∉ l)
    (hsucc : next s i pred = some succ) (hnsucc : next s i n = some succ)
    (hlt : rank s pred < rank s n) (hlt' : rank s n < rank s succ)
    (hnext : next s' i = Function.update (next s i) pred (some n))
    (hstatus : ∀ m, s'.status m i = .linked ↔ s.status m i = .linked ∨ m = n)
    (hrank : ∀ m, m ∈ l ∨ m = n → rank s' m = rank s m) : ∃ l', Level s' i l' := by
  obtain ⟨l₁, l₂, rfl, hc⟩ := h.chain.insert_after (Option.some_injective _) (by simp) hpred hn
    (hnsucc.trans hsucc.symm)
  obtain ⟨m, -, rfl, h2⟩ := Linked.append_iff.1 h.chain
  rw [hsucc] at h2
  obtain ⟨l₃, rfl, -⟩ := h2.unlink_head (Option.some_injective _) (by simp)
  refine ⟨l₁ ++ pred :: n :: succ :: l₃, ?_, fun m => ?_, ?_⟩
  · rw [hnext]
    exact hc
  · have := h.mem m
    rw [hstatus]
    simp only [List.mem_append, List.mem_cons] at this ⊢
    grind
  · have hs := h.sorted
    have hs' : (l₁ ++ pred :: n :: succ :: l₃).Pairwise fun a b => rank s a < rank s b := by
      simp only [List.pairwise_append, List.pairwise_cons, List.mem_cons, forall_eq_or_imp] at hs ⊢
      obtain ⟨h1, ⟨⟨h2, h3⟩, h4, h5⟩, h6⟩ := hs
      refine ⟨h1, ⟨⟨hlt, h2, h3⟩, ⟨hlt', fun b hb => hlt'.trans (h4 b hb)⟩, h4, h5⟩, fun a ha => ?_⟩
      obtain ⟨h7, h8, h9⟩ := h6 a ha
      exact ⟨h7, h7.trans hlt, h8, h9⟩
    refine hs'.imp_of_mem fun ha hb hab => ?_
    have hm : ∀ m, m ∈ l₁ ++ pred :: n :: succ :: l₃ → m ∈ l₁ ++ pred :: succ :: l₃ ∨ m = n := by
      intro m hm
      simp only [List.mem_append, List.mem_cons] at hm ⊢
      grind
    rwa [hrank _ (hm _ ha), hrank _ (hm _ hb)]

end Level

section Extends

variable {s s' s'' : State Tid K} {n : Node} {i : ℕ}

theorem update_pc [DecidableEq Tid] (s : State Tid K) (t u : Tid) (p : Pc K) :
    (s.setPc t p).pc u = if u = t then p else s.pc u := by
  simp [State.setPc, Function.update_apply]

theorem Extends.trans (h : Extends s s') (h' : Extends s' s'') : Extends s s'' where
  key n hn := (h'.key n (hn.trans_le h.fresh)).trans (h.key n hn)
  topLevel n hn := (h'.topLevel n (hn.trans_le h.fresh)).trans (h.topLevel n hn)
  fresh := h.fresh.trans h'.fresh
  status n i hs := h'.status n i (h.status n i hs)
  off n hs := h'.off n (h.off n hs)
  frozen n hn i ht := by
    have he := h.frozen n hn i ht
    rw [h'.frozen n (hn.trans_le h.fresh) i (by rw [he, ht]), he]

/-- A change of other fields. -/
theorem Extends.same (hkey : s'.key = s.key) (htop : s'.topLevel = s.topLevel)
    (hfresh : s'.fresh = s.fresh) (hstatus : s'.status = s.status) (hlink : s'.link = s.link) :
    Extends s s' := by
  refine ⟨?_, ?_, hfresh.ge, ?_, ?_, ?_⟩ <;> simp [hkey, htop, hstatus, hlink]

theorem setLink_link (m : Node) (j : ℕ) (l : Link) :
    (s.setLink n i l).link m j = if m = n ∧ j = i then l else s.link m j := by
  by_cases hm : m = n
  · subst hm
    by_cases hj : j = i
    · subst hj
      simp [State.setLink]
    · simp [State.setLink, hj]
  · simp [State.setLink, hm]

theorem setStatus_status (m : Node) (j : ℕ) (st : LevelStatus) :
    (s.setStatus n i st).status m j = if m = n ∧ j = i then st else s.status m j := by
  by_cases hm : m = n
  · subst hm
    by_cases hj : j = i
    · subst hj
      simp [State.setStatus]
    · simp [State.setStatus, hj]
  · simp [State.setStatus, hm]

theorem next_setLink (l : Link) :
    next (s.setLink n i l) i = Function.update (next s i) n l.target := by
  funext m
  simp only [next, setLink_link, Function.update_apply]
  by_cases hm : m = n <;> simp [hm]

theorem next_setLink_of_ne {j : ℕ} (hj : j ≠ i) (l : Link) :
    next (s.setLink n i l) j = next s j := by
  funext m
  simp [next, setLink_link, hj]

/-- A store to a link that is not tombstoned. -/
theorem Extends.setLink (h : (s.link n i).tombstoned = false) (l : Link) :
    Extends s (s.setLink n i l) := by
  refine ⟨fun _ _ => rfl, fun _ _ => rfl, le_rfl, fun _ _ h => h, fun _ h => h,
    fun m _ j ht => ?_⟩
  rw [setLink_link]
  split_ifs with hm
  · rw [hm.1, hm.2, h] at ht
    cases ht
  · rfl

theorem Extends.setStatus {x : LevelStatus} (h : x ≠ .unpublished)
    (h0 : i = 0 → s.status n 0 = .unlinked → x = .unlinked) :
    Extends s (s.setStatus n i x) := by
  refine ⟨fun _ _ => rfl, fun _ _ => rfl, le_rfl, fun m j hs => ?_, fun m hs => ?_,
    fun _ _ _ _ => rfl⟩
  · rw [setStatus_status]
    split_ifs
    · exact h
    · exact hs
  · rw [setStatus_status]
    split_ifs with hm
    · obtain ⟨rfl, rfl⟩ := hm
      exact h0 rfl hs
    · exact hs

end Extends

variable [LinearOrder K]

/-- What holds in every reachable state. -/
structure Inv (MAX_LEVELS : ℕ) (known : ℕ → ℕ) (s : State Tid K) : Prop where
  memory : Memory MAX_LEVELS known s
  nil : ∀ i, s.link NIL i = ⟨none, false⟩
  fresh : 2 ≤ s.fresh
  new : ∀ t n, (s.pc t).newNode? = some n → ∀ i, s.status n i = .unpublished
  new_unique : ∀ t u n, (s.pc t).newNode? = some n → (s.pc u).newNode? = some n → t = u
  stored : ∀ t w topLevel n r b, s.pc t = .linkBottom w topLevel n r b →
    s.link n 0 = ⟨some (w.succs 0), false⟩
  bottom : ∃ l, Level s 0 l

omit [LinearOrder K] in
theorem ModeOk.newNode {s : State Tid K} {w : Walk K} {m : Mode} {n : Node}
    (h : ModeOk MAX_LEVELS s w m) (hn : m.newNode? = some n) :
    ∃ topLevel, NewOk s w.key topLevel n := by
  rcases m with (_ | ⟨topLevel, newNode, retries⟩ | _ | _) | _ | _
  · cases hn
  · exact ⟨topLevel, h.1.2 n hn⟩
  · cases hn
  · cases hn
  · cases hn
    exact ⟨_, h.2.1⟩
  · cases hn

theorem ResumeOk.newNode {s : State Tid K} {k : Resume K} {n : Node}
    (h : ResumeOk MAX_LEVELS known s k) (hn : k.newNode? = some n) :
    ∃ key topLevel, NewOk s key topLevel n := by
  rcases k with ⟨w, m, curr, succ, tombstoned⟩ | _
  · exact ⟨w.key, h.2.1.newNode hn⟩
  · cases hn

theorem PcOk.newNode {s : State Tid K} {p : Pc K} {n : Node} (h : PcOk MAX_LEVELS known s p)
    (hn : p.newNode? = some n) : ∃ key topLevel, NewOk s key topLevel n := by
  unfold Pc.newNode? at hn
  split at hn
  · exact ⟨_, h.2.newNode hn⟩
  · exact ⟨_, h.2.1.newNode hn⟩
  · exact ⟨_, h.2.1.newNode hn⟩
  · exact ⟨_, h.2.1.newNode hn⟩
  · exact ⟨_, h.2.1.newNode hn⟩
  · exact ⟨_, h.2.1.newNode hn⟩
  · exact h.2.newNode hn
  · exact h.2.newNode hn
  · exact h.2.newNode hn
  · cases hn
    exact ⟨_, _, h.2.2.2⟩
  · cases hn
    exact ⟨_, _, h.2.2.2⟩
  · cases hn
    exact ⟨_, _, h.2.2.2⟩
  · cases hn
    exact ⟨_, _, h.2.2⟩
  · cases hn

section Inv

variable {s s' : State Tid K} {t : Tid} {n : Node}

namespace Inv

/-- A node being built is not tombstoned. -/
theorem new_link (h : Inv MAX_LEVELS known s) (hn : (s.pc t).newNode? = some n) (i : ℕ) :
    (s.link n i).tombstoned = false := by
  by_contra ht
  have := (h.memory.tombstoned n i (by simpa using ht)).bottom
  exact this (h.new t n hn 0)

/-- A predecessor that is not tombstoned is on the list. -/
theorem pred_mem (h : Inv MAX_LEVELS known s) {l : List Node} (hl : Level s 0 l) {key : K} {m : Node}
    {i : ℕ} (hp : PredOk known s i key n) (hn : s.link n 0 = ⟨some m, false⟩) : n ∈ l := by
  rw [hl.mem]
  rcases hp.zero with rfl | hb
  · exact .inl rfl
  · refine .inr (.inr ?_)
    rcases hs : s.status n 0 with _ | _ | _ | _
    · exact absurd hs hb.level
    · rfl
    · have := h.memory.off n hs
      rw [hn] at this
      cases this
    · exact absurd hs (h.memory.uncounted n)

theorem pred_ne_NIL {key : K} {i : ℕ} (hp : PredOk known s i key n) : n ≠ NIL := by
  rintro rfl
  have := hp.before
  rw [rank, if_neg (by decide), if_pos rfl] at this
  exact absurd (WithBot.coe_lt_coe.1 this) (not_lt_of_ge le_top)

end Inv

theorem Inv.rank_eq (h : Inv MAX_LEVELS known s) {l : List Node} {i : ℕ} (hl : Level s i l)
    (hx : Extends s s') : ∀ n ∈ l, rank s' n = rank s n := by
  intro n hn
  rcases (hl.mem n).1 hn with hn | hn | hn
  · exact rank_extend (i := i) hx (.inl hn)
  · exact rank_extend (i := i) hx (.inr (.inl hn))
  · exact rank_extend hx (.inr (.inr (h.memory.published n i (by rw [hn]; simp))))

/-- A node that is not published at a level is not on its list. -/
theorem Level.notMem {l : List Node} {i : ℕ} (hl : Level s i l) (hn : 2 ≤ n)
    (hs : s.status n i = .unpublished) : n ∉ l := by
  rw [hl.mem]
  rintro (rfl | rfl | hn')
  · exact absurd hn (by decide)
  · exact absurd hn (by decide)
  · rw [hs] at hn'
    cases hn'

variable [DecidableEq Tid]

theorem Effect.extends (h : Inv MAX_LEVELS known s) (he : Effect MAX_LEVELS known s t s') : Extends s s' := by
  have hok := h.memory.pcs t
  cases he with
  | move | callRemove | storeUnlinked | claimed | claim | enqueue | reserve | unreserve =>
    exact .same rfl rfl rfl rfl rfl
  | @construct w topLevel retries hp =>
    refine ⟨fun n hn => ?_, fun n hn => ?_, Nat.le_succ _, fun _ _ h => h, fun _ h => h,
      fun n hn i _ => ?_⟩ <;> simp [State.setPc, State.construct, hn.ne]
  | @aimAll w topLevel n retries hp =>
    refine ⟨fun _ _ => rfl, fun _ _ => rfl, le_rfl, fun _ _ h => h, fun _ h => h,
      fun m _ i ht => ?_⟩
    have hm : m ≠ n := by
      rintro rfl
      rw [h.new_link (by rw [hp]; rfl) i] at ht
      cases ht
    simp [State.setPc, State.aimAll, hm]
  | @aimBottom w topLevel n retries hp =>
    have hx : Extends s (s.setLink n 0 ⟨some (w.succs 0), false⟩) :=
      .setLink (h.new_link (by rw [hp]; rfl) 0) _
    exact hx.trans (.same rfl rfl rfl rfl rfl)
  | @linkBottom w topLevel n retries hp hl =>
    have hst := h.new t n (by rw [hp]; rfl) 0
    have hx : Extends s (s.setLink (w.preds 0) 0 ⟨some n, false⟩) := .setLink (by rw [hl]) _
    have hx' : Extends (s.setLink (w.preds 0) 0 ⟨some n, false⟩) _ :=
      .setStatus (n := n) (i := 0) (x := .linked) (by simp) fun _ h => by
        rw [show s.status n 0 = _ from h] at hst
        cases hst
    exact (hx.trans hx').trans (.same rfl rfl rfl rfl rfl)
  | @unlink w m n curr succ tombstoned hp hl =>
    have hx : Extends s (s.setLink w.pred w.level ⟨some curr, false⟩) := .setLink (by rw [hl]) _
    have hx' : Extends (s.setLink w.pred w.level ⟨some curr, false⟩) _ :=
      .setStatus (n := n) (i := w.level) (x := .unlinked) (by simp) fun _ _ => rfl
    exact (hx.trans hx').trans (.same rfl rfl rfl rfl rfl)
  | @unlinkRemoved w n succ hp hl =>
    have hx : Extends s (s.setLink w.pred 0 ⟨succ, false⟩) := .setLink (by rw [hl]) _
    have hx' : Extends (s.setLink w.pred 0 ⟨succ, false⟩) _ :=
      .setStatus (n := n) (i := 0) (x := .unlinked) (by simp) fun _ _ => rfl
    exact (hx.trans hx').trans (.same rfl rfl rfl rfl rfl)
  | @uncount w m n curr succ tombstoned p hp =>
    rw [hp] at hok
    have hx : Extends s (s.addRemaining n (-1)) := .same rfl rfl rfl rfl rfl
    have hx' : Extends (s.addRemaining n (-1)) _ :=
      .setStatus (n := n) (i := w.level) (x := .counted) (by simp)
        fun h0 _ => absurd h0 hok.2.2.2.2
    exact (hx.trans hx').trans (.same rfl rfl rfl rfl rfl)
  | @aimOwn w i ownNext hp hl =>
    have hx : Extends s (s.setLink i.newNode i.level ⟨some (w.succs i.level), false⟩) :=
      .setLink (by rw [hl]) _
    exact hx.trans (.same rfl rfl rfl rfl rfl)
  | @publish w i hp hl =>
    rw [hp] at hok
    have hx : Extends s (s.setLink (w.preds i.level) i.level ⟨some i.newNode, false⟩) :=
      .setLink (by rw [hl]) _
    have hx' : Extends (s.setLink (w.preds i.level) i.level ⟨some i.newNode, false⟩) _ :=
      .setStatus (n := i.newNode) (i := i.level) (x := .linked) (by simp) fun h0 _ => by
        have := hok.2.level.1
        omega
    exact (hx.trans hx').trans (.same rfl rfl rfl rfl rfl)
  | @softDelete w n level retries current hp hl =>
    have hx : Extends s (s.setLink n level ⟨current, true⟩) := .setLink (by rw [hl]) _
    exact hx.trans (.same rfl rfl rfl rfl rfl)
  | @markBottom w n retries succ hp hl =>
    have hx : Extends s (s.setLink n 0 ⟨succ, true⟩) := .setLink (by rw [hl]) _
    exact hx.trans (.same rfl rfl rfl rfl rfl)

theorem Effect.bottom (h : Inv MAX_LEVELS known s) (he : Effect MAX_LEVELS known s t s') :
    ∃ l, Level s' 0 l := by
  obtain ⟨l, hl⟩ := h.bottom
  have hok := h.memory.pcs t
  have hx := he.extends h
  have hrank := h.rank_eq hl hx
  have hnew : ∀ n, (s.pc t).newNode? = some n → n ∉ l := fun n hn => by
    obtain ⟨key, topLevel, hno⟩ := hok.newNode hn
    exact hl.notMem hno.sentinel (h.new t n hn 0)
  cases he with
  | move | callRemove | storeUnlinked | claimed | claim | enqueue | reserve | unreserve =>
    exact ⟨l, hl.congr (fun _ _ => rfl) (fun _ => Iff.rfl) hrank⟩
  | construct hp =>
    refine ⟨l, hl.congr (fun n hn => ?_) (fun _ => Iff.rfl) hrank⟩
    have hne : n ≠ s.fresh := by
      rintro rfl
      refine hl.notMem h.fresh ?_ hn
      by_contra hs
      exact absurd (h.memory.published _ 0 hs).fresh (lt_irrefl _)
    simp [next, State.setPc, State.construct, hne]
  | @aimAll w topLevel n retries hp =>
    refine ⟨l, hl.congr (fun m hm => ?_) (fun _ => Iff.rfl) hrank⟩
    have hne : m ≠ n := by
      rintro rfl
      exact hnew m (by rw [hp]; rfl) hm
    simp [next, State.setPc, State.aimAll, hne]
  | @aimBottom w topLevel n retries hp =>
    refine ⟨l, hl.congr (fun m hm => ?_) (fun _ => Iff.rfl) hrank⟩
    have hne : m ≠ n := by
      rintro rfl
      exact hnew m (by rw [hp]; rfl) hm
    exact congrFun (next_setLink _) m |>.trans (Function.update_of_ne hne _ _)
  | @linkBottom w topLevel n retries hp hlk =>
    rw [hp] at hok
    obtain ⟨hf, hnf, ht, hno⟩ := hok
    have hn : (s.pc t).newNode? = some n := by rw [hp]; rfl
    have hpr := hf.preds 0 (Nat.zero_le _)
    have hst := h.stored t w topLevel n retries true hp
    have hrn : rank s n = (w.key : WithTop K) := by
      rw [rank, if_neg, if_neg, hno.key]
      · rintro rfl
        exact absurd hno.sentinel (by decide)
      · rintro rfl
        exact absurd hno.sentinel (by decide)
    refine hl.insert (h.pred_mem hl hpr hlk) (hnew n hn) (by rw [next, hlk]) (by rw [next, hst])
      (hrn ▸ hpr.before) (by rw [hrn]; exact hnf) (next_setLink _) (fun m => ?_) fun m hm => ?_
    · change (State.setStatus _ n 0 .linked).status m 0 = _ ↔ _
      rw [setStatus_status]
      by_cases hm : m = n <;> simp [hm, State.setLink]
    · rcases hm with hm | rfl
      · exact hrank m hm
      · rfl
  | @unlink w m n curr succ tombstoned hp hlk =>
    rw [hp] at hok
    obtain ⟨hw, hm, ho, -⟩ := hok
    by_cases h0 : w.level = 0
    · rw [h0] at hlk ho hrank ⊢
      refine ⟨l.erase n, hl.unlink (h.pred_mem hl hw.pred hlk) (by rw [next, hlk]) ho.pub ?_
        (fun m => ?_) hrank⟩
      · rw [show next s 0 n = some curr by rw [next, ho.frozen]]
        exact next_setLink _
      · change (State.setStatus _ n 0 .unlinked).status m 0 = _ ↔ _
        rw [setStatus_status]
        by_cases hm : m = n <;> simp [hm, State.setLink]
    · refine ⟨l, hl.congr (fun m _ => ?_) (fun m => ?_) hrank⟩
      · exact congrFun (next_setLink_of_ne (Ne.symm h0) _) m
      · change (State.setStatus _ n w.level .unlinked).status m 0 = _ ↔ _
        rw [setStatus_status, if_neg fun h => h0 h.2.symm]
        exact Iff.rfl
  | @unlinkRemoved w n succ hp hlk =>
    rw [hp] at hok
    obtain ⟨hw, ht, hm⟩ := hok
    have hpred := h.pred_mem hl hw.pred hlk
    -- what the list's predecessor aims at is on the list, so `succ` is what it aims at
    have hns : s.status n 0 ≠ .unlinked := by
      obtain ⟨l₁, l₂, rfl, -, h2⟩ := hl.chain.tail_of_mem hpred
      rw [show next s 0 w.pred = some n by rw [next, hlk]] at h2
      obtain ⟨l₃, rfl, -⟩ := h2.unlink_head (Option.some_injective _) (by simp)
      rcases (hl.mem n).1 (by simp) with rfl | rfl | hn
      · exact absurd rfl ht.born.ne_head
      · exact absurd rfl ht.born.ne_NIL
      · rw [hn]
        simp
    have hsucc : next s 0 n = succ := by
      rcases succ with _ | c
      · exact absurd (hm.none rfl) hns
      · rw [next, hm.some c rfl]
    refine ⟨l.erase n, hl.unlink hpred (by rw [next, hlk]) ht.born ?_ (fun m => ?_) hrank⟩
    · rw [hsucc]
      exact next_setLink _
    · change (State.setStatus _ n 0 .unlinked).status m 0 = _ ↔ _
      rw [setStatus_status]
      by_cases hm : m = n <;> simp [hm, State.setLink]
  | @uncount w m n curr succ tombstoned p hp =>
    rw [hp] at hok
    refine ⟨l, hl.congr (fun _ _ => rfl) (fun m => ?_) hrank⟩
    change (State.setStatus _ n w.level .counted).status m 0 = _ ↔ _
    rw [setStatus_status, if_neg fun h => hok.2.2.2.2 h.2.symm]
    exact Iff.rfl
  | @aimOwn w i ownNext hp hlk =>
    rw [hp] at hok
    have h0 : 0 ≠ i.level := Nat.ne_of_lt hok.2.level.1
    exact ⟨l, hl.congr (fun m _ => congrFun (next_setLink_of_ne h0 _) m) (fun _ => Iff.rfl) hrank⟩
  | @publish w i hp hlk =>
    rw [hp] at hok
    have h0 : 0 ≠ i.level := Nat.ne_of_lt hok.2.level.1
    refine ⟨l, hl.congr (fun m _ => congrFun (next_setLink_of_ne h0 _) m) (fun m => ?_) hrank⟩
    change (State.setStatus _ i.newNode i.level .linked).status m 0 = _ ↔ _
    rw [setStatus_status, if_neg fun h => h0 h.2]
    exact Iff.rfl
  | @softDelete w n level retries current hp hlk =>
    rw [hp] at hok
    have h0 : 0 ≠ level := Nat.ne_of_lt hok.2.2
    exact ⟨l, hl.congr (fun m _ => congrFun (next_setLink_of_ne h0 _) m) (fun _ => Iff.rfl) hrank⟩
  | @markBottom w n retries succ hp hlk =>
    refine ⟨l, hl.congr (fun m _ => ?_) (fun _ => Iff.rfl) hrank⟩
    have := congrFun (next_setLink (s := s) (n := n) (i := 0) ⟨succ, true⟩) m
    refine this.trans ?_
    by_cases hm : m = n
    · subst hm
      simp [next, hlk]
    · simp [hm]

/-- What a step stores in a link. -/
structure Stored (s s' : State Tid K) (t : Tid) (n : Node) (i : ℕ) : Prop where
  ne_NIL : n ≠ NIL
  target : ∀ m, (s'.link n i).target = some m → On s' i m
  tombstoned : (s'.link n i).tombstoned = true → Pub s 0 n ∧
    ∀ j, i < j → j < s.topLevel n → (s.link n j).tombstoned = true
  owner : n = head ∨ Pub s 0 n ∨ (s.pc t).newNode? = some n ∨ n = s.fresh

theorem Effect.link (h : Inv MAX_LEVELS known s) (he : Effect MAX_LEVELS known s t s') (n : Node) (i : ℕ) :
    s'.link n i = s.link n i ∨ Stored s s' t n i := by
  have hok := h.memory.pcs t
  have hx := he.extends h
  -- the one link stored at `m`, `j`
  have one : ∀ {m : Node} {j : ℕ} {l : Link}, s'.link n i = (s.setLink m j l).link n i →
      (m ≠ NIL → (∀ c, l.target = some c → On s' j c) → (l.tombstoned = true → Pub s 0 m ∧
        ∀ k, j < k → k < s.topLevel m → (s.link m k).tombstoned = true) →
        (m = head ∨ Pub s 0 m ∨ (s.pc t).newNode? = some m ∨ m = s.fresh) →
        s'.link n i = s.link n i ∨ Stored s s' t n i) := by
    intro m j l hl hnil ht htomb hown
    rw [setLink_link] at hl
    split_ifs at hl with hm
    · obtain ⟨rfl, rfl⟩ := hm
      exact .inr ⟨hnil, hl ▸ ht, hl ▸ htomb, hown⟩
    · exact .inl hl
  cases he with
  | move | callRemove | storeUnlinked | claimed | claim | enqueue | reserve | unreserve
  | uncount => exact .inl rfl
  | @construct w topLevel retries hp =>
    by_cases hn : n = s.fresh
    · have hf := h.fresh
      refine .inr ⟨?_, ?_, ?_, .inr (.inr (.inr hn))⟩
      · rintro rfl
        exact absurd (hn ▸ hf) (by decide)
      · simp [State.setPc, State.construct, hn]
      · simp [State.setPc, State.construct, hn]
    · exact .inl (by simp [State.setPc, State.construct, hn])
  | @aimAll w topLevel n' retries hp =>
    rw [hp] at hok
    obtain ⟨hf, -, ht, hno⟩ := hok
    by_cases hn : n = n'
    · subst hn
      by_cases hi : i < topLevel ∨ i = 0
      · refine .inr ⟨?_, fun m hm => ?_, ?_, .inr (.inr (.inl (by rw [hp]; rfl)))⟩
        · rintro rfl
          exact absurd hno.sentinel (by decide)
        · simp only [State.setPc, State.aimAll, Function.update_self, if_pos hi] at hm
          cases hm
          have := ht.2
          exact (hf.succs i (by omega)).on.extend hx
        · simp [State.setPc, State.aimAll, hi]
      · exact .inl (by simp [State.setPc, State.aimAll, hi])
    · exact .inl (by simp [State.setPc, State.aimAll, hn])
  | @aimBottom w topLevel n' retries hp =>
    rw [hp] at hok
    obtain ⟨hf, -, ht, hno⟩ := hok
    refine one rfl ?_ (fun c hc => ?_) (by simp) (.inr (.inr (.inl (by rw [hp]; rfl))))
    · rintro rfl
      exact absurd hno.sentinel (by decide)
    · cases hc
      exact (hf.succs 0 (Nat.zero_le _)).on.extend hx
  | @linkBottom w topLevel n' retries hp hlk =>
    rw [hp] at hok
    obtain ⟨hf, -, ht, hno⟩ := hok
    have hpr := hf.preds 0 (Nat.zero_le _)
    refine one rfl (Inv.pred_ne_NIL hpr) (fun c hc => ?_) (by simp)
      (hpr.zero.imp_right .inl)
    cases hc
    refine .inr ⟨?_, ?_, hno.sentinel, hno.fresh⟩ <;>
    · change (State.setStatus _ n' 0 .linked).status n' 0 ≠ _
      simp [setStatus_status]
  | @unlink w m n' curr succ tombstoned hp hlk =>
    rw [hp] at hok
    obtain ⟨hw, -, ho, hl⟩ := hok
    refine one rfl (Inv.pred_ne_NIL hw.pred) (fun c hc => ?_) (by simp)
      (hw.pred.zero.imp_right .inl)
    cases hc
    exact hl.on.extend hx
  | @unlinkRemoved w n' succ hp hlk =>
    rw [hp] at hok
    obtain ⟨hw, -, hm⟩ := hok
    refine one rfl (Inv.pred_ne_NIL hw.pred) (fun c hc => ?_) (by simp)
      (hw.pred.zero.imp_right .inl)
    exact (h.memory.targets n' 0 c (by rw [hm.some c hc])).extend hx
  | @aimOwn w j ownNext hp hlk =>
    rw [hp] at hok
    obtain ⟨hf, hi⟩ := hok
    refine one rfl hi.born.ne_NIL (fun c hc => ?_) (by simp) (.inr (.inl hi.born))
    cases hc
    have h1 := hi.top.2
    have h2 := hi.level.2
    exact (hf.succs _ (by omega)).on.extend hx
  | @publish w j hp hlk =>
    rw [hp] at hok
    obtain ⟨hf, hi⟩ := hok
    have h1 := hi.top.2
    have h2 := hi.level.2
    have hpr := hf.preds j.level (by omega)
    refine one rfl (Inv.pred_ne_NIL hpr) (fun c hc => ?_) (by simp) (hpr.zero.imp_right .inl)
    cases hc
    refine .inr ⟨?_, (hi.born.extend hx).bottom, hi.born.sentinel, hi.born.fresh⟩
    change (State.setStatus _ j.newNode j.level .linked).status j.newNode j.level ≠ _
    simp [setStatus_status]
  | @softDelete w n' level retries current hp hlk =>
    rw [hp] at hok
    obtain ⟨-, ht, -⟩ := hok
    refine one rfl ht.born.ne_NIL (fun c hc => ?_) (fun _ => ⟨ht.born, ht.marked⟩)
      (.inr (.inl ht.born))
    exact (h.memory.targets n' level c (by rw [hlk]; exact hc)).extend hx
  | @markBottom w n' retries succ hp hlk =>
    rw [hp] at hok
    obtain ⟨-, ht⟩ := hok
    refine one rfl ht.born.ne_NIL (fun c hc => ?_) (fun _ => ⟨ht.born, ht.marked⟩)
      (.inr (.inl ht.born))
    exact (h.memory.targets n' 0 c (by rw [hlk]; exact hc)).extend hx

/-- What a step makes of a node's status at a level. -/
structure Changed (s s' : State Tid K) (t : Tid) (n : Node) (i : ℕ) : Prop where
  pub : Pub s' i n
  bottom : i = 0 → s'.status n i ≠ .counted ∧
    (s'.status n i = .unlinked → (s.link n 0).tombstoned = true)
  owner : Pub s 0 n ∨ (s.pc t).newNode? = some n ∧ (s'.pc t).newNode? = none

theorem Effect.status (h : Inv MAX_LEVELS known s) (he : Effect MAX_LEVELS known s t s') (n : Node) (i : ℕ) :
    s'.status n i = s.status n i ∨ Changed s s' t n i := by
  have hok := h.memory.pcs t
  have hx := he.extends h
  have one : ∀ {m : Node} {j : ℕ} {st : LevelStatus}, s'.status n i =
      (s.setStatus m j st).status n i → (s'.status m j = st → Changed s s' t m j) →
        s'.status n i = s.status n i ∨ Changed s s' t n i := by
    intro m j st hs hc
    rw [setStatus_status] at hs
    split_ifs at hs with hm
    · obtain ⟨rfl, rfl⟩ := hm
      exact .inr (hc hs)
    · exact .inl hs
  cases he with
  | move | callRemove | storeUnlinked | claimed | claim | enqueue | reserve | unreserve
  | construct | aimAll | aimBottom | aimOwn | softDelete | markBottom => exact .inl rfl
  | @linkBottom w topLevel n' retries hp hlk =>
    rw [hp] at hok
    obtain ⟨-, -, -, hno⟩ := hok
    refine one rfl fun hst => ?_
    refine ⟨⟨by rw [hst]; simp, by rw [hst]; simp, hno.sentinel, hno.fresh⟩, fun _ => ?_,
      .inr ⟨by rw [hp]; rfl, ?_⟩⟩
    · rw [hst]
      simp
    · rw [update_pc, if_pos rfl, publishFrom]
      split_ifs <;> rfl
  | @unlink w m n' curr succ tombstoned hp hlk =>
    rw [hp] at hok
    obtain ⟨-, -, ho, -⟩ := hok
    refine one rfl fun hst => ⟨ho.pub.extend hx, fun h0 => ?_, .inl ho.pub.zero⟩
    have := ho.frozen
    rw [h0] at this
    exact ⟨by rw [hst]; simp, fun _ => by rw [this]⟩
  | @unlinkRemoved w n' succ hp hlk =>
    rw [hp] at hok
    obtain ⟨-, ht, hm⟩ := hok
    exact one rfl fun hst => ⟨ht.born.extend hx, fun _ => ⟨by rw [hst]; simp, fun _ =>
      hm.tombstoned⟩, .inl ht.born⟩
  | @uncount w m n' curr succ tombstoned p hp =>
    rw [hp] at hok
    obtain ⟨-, -, ho, -, h0⟩ := hok
    exact one rfl fun hst => ⟨ho.pub.extend hx, fun h => absurd h h0, .inl ho.pub.zero⟩
  | @publish w j hp hlk =>
    rw [hp] at hok
    obtain ⟨-, hi⟩ := hok
    refine one rfl fun hst => ⟨⟨by rw [hst]; simp, (hi.born.extend hx).bottom, hi.born.sentinel,
      hi.born.fresh⟩, fun h => ?_, .inl hi.born⟩
    have := hi.level.1
    omega

end Inv

end MinStd.SkipList
