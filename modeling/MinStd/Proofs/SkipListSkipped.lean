import MinStd.Proofs.SkipListAlone

/-!
# The upper levels of a run, and a level skipped

While no level is published over one that is not, the upper levels are as the counter says and one
`find` retires what was removed (`upper_levels_of_run`).

`insert` gives a level up after `MAX_INSERT_UPPER_LEVEL_RETRIES` failed exchanges and goes on with
the next, so in the end a node may be at level 2 and not at level 1.  Such a node is built here:
each time it is to be published at level 1, one more node is linked in front (`Blocked.round`).
A walk that comes down from level 2 then follows its own link of level 1, which no list holds, and a
node that is unlinked from it, counted off and retired is on the list of level 1 all the while
(`retired_under_link`).
-/

namespace MinStd.SkipList

section Run

variable {Tid K : Type*} [DecidableEq Tid] [LinearOrder K] [Inhabited K] {MAX_LEVELS : ℕ}

end Run

def Pc.idles {K : Type*} : Pc K → Bool
  | .idle => true
  | _ => false

theorem idle_of_idles {K : Type*} {p : Pc K} (h : p.idles = true) : p = .idle := by
  cases p <;> first | rfl | cases h

section Skipped

/-- The head, and after it the nodes linked in front. -/
def place (k : ℕ) : ℕ := if k = 0 then 0 else k + 3

/-- Node 2 has key 301 and node 3 key 300, and node 3 is on no upper level.  In front of them `k`
nodes are linked at two levels, with the keys from 1 on. -/
structure Lined (k : ℕ) (s : State Bool ℕ) : Prop where
  nil : ∀ i < 3, s.link NIL i = ⟨none, false⟩
  top : s.link head 2 = ⟨some NIL, false⟩
  front : ∀ i < 2, ∀ p ≤ k,
    s.link (place p) i = ⟨some (if p < k then place (p + 1) else 3 - i), false⟩
  own : ∀ i < 2, s.link 3 i = ⟨some 2, false⟩
  ownTop : s.link 3 2 = ⟨some NIL, false⟩
  last : ∀ i < 2, s.link 2 i = ⟨some NIL, false⟩
  keys : ∀ p, 1 ≤ p → p ≤ k → s.key (place p) = p
  key2 : s.key 2 = 301
  key3 : s.key 3 = 300
  fresh : s.fresh = k + 4
  tall : s.topLevel 2 = 2
  counted : s.upperLevelsRemaining 2 = 1
  unclaimed : s.retirementEnqueued 2 = false

variable {s s' : State Bool ℕ} {t : Bool} {w : Walk ℕ} {c : Caller} {k : ℕ} {x y : Node} {b : Bool}

abbrev Reached (s : State Bool ℕ) : Prop := (machine Bool ℕ 2).Reachable s

attribute [local simp] step walkStep insertStep removeStep compareExchange State.setPc
  MAX_INSERT_UPPER_LEVEL_RETRIES

theorem Reached.run (t : Bool) (h : Reached s) (hs : step 2 s t (.run false) = some s') :
    Reached s' := h.step (a := (t, .run false)) hs

theorem resolve_false (s : State Bool ℕ) (o : Option Node) : s.resolve false o = o := by
  cases o <;> simp [State.resolve]

attribute [local simp] resolve_false

theorem Reached.loadFirst (h : Reached (s.setPc t (.loadFirst w (.search c))))
    (hl : s.link w.pred w.level = ⟨some x, b⟩) :
    Reached (s.setPc t (.loadSucc w (.search c) x)) :=
  h.run t (by simp [hl])

theorem Reached.loadSucc (h : Reached (s.setPc t (.loadSucc w (.search c) x))) :
    Reached (s.setPc t (walkOn 2 s w (.search c) x (s.link x w.level).target
      (s.link x w.level).tombstoned)) :=
  h.run t (by simp; rfl)

theorem Reached.pass (h : Reached (s.setPc t (.loadSucc w (.search c) x)))
    (hl : s.link x w.level = ⟨some y, false⟩) (hk : keyBefore s x w.key = true) :
    Reached (s.setPc t (.loadSucc { w with pred := x } (.search c) y)) := by
  have h' := h.loadSucc
  rwa [hl, walkOn.eq_def, if_neg (by simp), if_pos hk] at h'

theorem Reached.stop (h : Reached (s.setPc t (.loadSucc w (.search c) x)))
    (hl : (s.link x w.level).tombstoned = false) (hk : keyBefore s x w.key = false) :
    Reached (s.setPc t (finishLevel 2 s w (.search c) x)) := by
  have h' := h.loadSucc
  rwa [hl, walkOn.eq_def, if_neg (by simp), hk, if_neg (by simp)] at h'

theorem Reached.down (h : Reached (s.setPc t (finishLevel 2 s w (.search c) x)))
    {i : ℕ} (hi : w.level = i + 1) : Reached (s.setPc t (.loadFirst { w with
      level := i
      preds := Function.update w.preds (i + 1) w.pred
      succs := Function.update w.succs (i + 1) x } (.search c))) := by
  rw [finishLevel.eq_def] at h
  simpa [hi] using h

theorem Reached.found (h : Reached (s.setPc t (finishLevel 2 s w (.search c) x)))
    (hi : w.level = 0) : Reached (s.setPc t (searched s { w with
      preds := Function.update w.preds 0 w.pred
      succs := Function.update w.succs 0 x } c x)) := by
  rw [finishLevel.eq_def] at h
  simpa [hi] using h

theorem place_ne {p : ℕ} (hp : p ≤ k) : place p ≠ k + 4 := by
  unfold place
  split_ifs <;> omega

theorem place_inj {p q : ℕ} (h : place p = place q) : p = q := by
  unfold place at h
  split_ifs at h <;> omega

theorem place_not (p : ℕ) : place p ≠ 1 ∧ place p ≠ 2 ∧ place p ≠ 3 := by
  unfold place
  split_ifs <;> omega

theorem Lined.before (hs : Lined k s) {key : ℕ} (hk : k < key) {p : ℕ} (hp : 1 ≤ p) (hpk : p ≤ k) :
    keyBefore s (place p) key = true := by
  refine keyBefore_iff.2 ⟨(place_not p).1, ?_⟩
  rw [hs.keys p hp hpk]
  omega

/-- The walk of level 1 passes every node in front. -/
theorem Lined.passes (hs : Lined k s) (hk : k < w.key) (hi : w.level = 1) (p : ℕ) (hp : 1 ≤ p)
    (hpk : p ≤ k) (h : Reached (s.setPc t (.loadSucc w (.search c) (place p)))) :
    Reached (s.setPc t (.loadSucc { w with pred := place k } (.search c) 2)) := by
  induction hn : k - p generalizing w p with
  | zero =>
    obtain rfl : p = k := by omega
    exact h.pass (by rw [hi, hs.front 1 (by decide) p le_rfl, if_neg (lt_irrefl p)])
      (hs.before hk hp le_rfl)
  | succ n ih =>
    have h' := h.pass (y := place (p + 1))
      (by rw [hi, hs.front 1 (by decide) p hpk, if_pos (by omega)]) (hs.before hk hp hpk)
    exact ih (w := { w with pred := place p }) hk hi (p + 1) (by omega) (by omega) h' (by omega)

/-- What a search with a key that comes after those in front finds. -/
structure Finds (k : ℕ) (w : Walk ℕ) : Prop where
  preds0 : w.preds 0 = place k
  preds1 : w.preds 1 = place k
  preds2 : w.preds 2 = head
  succs0 : w.succs 0 = 3
  succs1 : w.succs 1 = 2
  succs2 : w.succs 2 = NIL

theorem Lined.searches (hs : Lined k s) (hk : k < w.key) (hk' : w.key ≤ 300)
    (h : Reached (s.setPc t (startSearch 2 w c))) : ∃ w', w'.key = w.key ∧ Finds k w' ∧
      Reached (s.setPc t (searched s w' c 3)) := by
  have h2 := ((h.loadFirst hs.top).stop (by simp [hs.nil 2]) rfl).down rfl
  have h1 : Reached (s.setPc t (.loadSucc { w with
      level := 1, pred := place k
      preds := Function.update w.preds 2 head
      succs := Function.update w.succs 2 NIL } (.search c) 2)) := by
    have h1 := h2.loadFirst (hs.front 1 (by decide) 0 (Nat.zero_le k))
    split_ifs at h1 with hk0
    · exact hs.passes (w := { w with
        level := 1, pred := head
        preds := Function.update w.preds 2 head
        succs := Function.update w.succs 2 NIL }) hk rfl 1 le_rfl hk0 h1
    · obtain rfl : k = 0 := by omega
      exact h1
  have h1' := h1.stop (by simp [hs.last 1]) (by simp [keyBefore, hs.key2]; omega)
  have h0 := (h1'.down rfl).loadFirst (hs.front 0 (by decide) k le_rfl)
  rw [if_neg (lt_irrefl k)] at h0
  have h' := (h0.stop (by simp [hs.own 0]) (by simp [keyBefore, hs.key3]; omega)).found rfl
  refine ⟨_, ?_, ?_, h'⟩
  · rfl
  · constructor <;> simp

section Insert

variable {i : Insertion} {n : Node} {l r : ℕ}

theorem Reached.aimAll (h : Reached (s.setPc t (.aimAll w l n r))) :
    Reached ((s.aimAll w l n).setPc t (.linkBottom w l n r false)) :=
  h.run t (by simp [State.aimAll])

theorem Reached.linkBottom (h : Reached (s.setPc t (.linkBottom w l n r false)))
    (hl : s.link (w.preds 0) 0 = ⟨some (w.succs 0), false⟩) :
    Reached ((((s.setLink (w.preds 0) 0 ⟨some n, false⟩).setStatus n 0 .linked).record w.key
      true).setPc t (publishFrom w ⟨l, n, 0, 0⟩ 1)) := by
  have h' : Reached (s.setPc t (.linkBottom w l n r true)) := h.run t (by simp [hl])
  exact h'.run t (by simp [hl, State.setLink, State.setStatus, State.record])

theorem Reached.reserve (h : Reached (s.setPc t (.reserve w i))) :
    Reached ((s.addRemaining i.newNode 1).setPc t (.loadOwn w i)) :=
  h.run t (by simp [State.addRemaining])

theorem Reached.loadOwn (h : Reached (s.setPc t (.loadOwn w i)))
    (hl : s.link i.newNode i.level = ⟨some (w.succs i.level), false⟩) :
    Reached (s.setPc t (.publish w i false)) :=
  h.run t (by simp [hl])

theorem Reached.publish (h : Reached (s.setPc t (.publish w i false)))
    (hl : s.link (w.preds i.level) i.level = ⟨some (w.succs i.level), false⟩) :
    Reached (((s.setLink (w.preds i.level) i.level ⟨some i.newNode, false⟩).setStatus i.newNode
      i.level .linked).setPc t (publishFrom w i (i.level + 1))) := by
  have h' : Reached (s.setPc t (.publish w i true)) := h.run t (by simp [hl])
  exact h'.run t (by simp [hl, State.setLink, State.setStatus])

theorem Reached.fails (h : Reached s) (hp : s.pc t = .publish w i false)
    (hl : s.link (w.preds i.level) i.level ≠ ⟨some (w.succs i.level), false⟩) :
    Reached ((s.addRemaining i.newNode (-1)).setPc t
      (if MAX_INSERT_UPPER_LEVEL_RETRIES ≤ i.retries + 1 then publishFrom w i (i.level + 1)
        else startSearch 2 w (.publish { i with retries := i.retries + 1 }))) := by
  have h' : Reached (s.setPc t (.unreserve w i false)) := h.run t (by simp [hp, hl])
  exact h'.run t (by simp [State.addRemaining])

end Insert

/-- One more node is linked in front. -/
structure Adds (k : ℕ) (s s' : State Bool ℕ) : Prop where
  kept : ∀ n i : ℕ, n ≠ k + 4 → n ≠ place k ∨ 2 ≤ i → s'.link n i = s.link n i
  last : ∀ i < 2, s'.link (place k) i = ⟨some (k + 4), false⟩
  new : ∀ i < 2, s'.link (k + 4) i = ⟨some (3 - i), false⟩
  key : s'.key = Function.update s.key (k + 4) (k + 1)
  tall : s'.topLevel 2 = s.topLevel 2
  counted : s'.upperLevelsRemaining 2 = s.upperLevelsRemaining 2
  unclaimed : s'.retirementEnqueued 2 = s.retirementEnqueued 2
  fresh : s'.fresh = k + 5
  idle : s'.pc true = .idle
  others : s'.pc false = s.pc false
  linked : s'.status (k + 4) 1 = .linked

theorem Lined.adds (hs : Lined k s) (hk : k < 256) (hidle : s.pc true = .idle) (h : Reached s) :
    ∃ s', Reached s' ∧ Adds k s s' := by
  have h1 : Reached (s.setPc true (startSearch 2 (.start (k + 1)) (.insert 2 none 0))) :=
    h.step (a := (true, .insert (k + 1) 2)) (by simp [machine, hidle])
  obtain ⟨w, hw, hf, h2⟩ := hs.searches (by simp [Walk.start]) (by simp [Walk.start]; omega) h1
  rw [Walk.start] at hw
  have hno : keyMatches s 3 w.key = false := by
    simp [keyMatches, hs.key3, hw]
    omega
  have h3 : Reached (s.setPc true (.allocate w 2 0)) := by
    rwa [searched.eq_def, hno, if_neg (by simp)] at h2
  have h4 : Reached ((s.construct (k + 4) (k + 1) 2).setPc true (.aimAll w 2 (k + 4) 0)) :=
    h3.step (a := (true, .allocate true)) (by
      simp [machine, allocateStep, State.construct, hs.fresh, hw])
  obtain ⟨r, hr⟩ : ∃ r, r = (s.construct (k + 4) (k + 1) 2).aimAll w 2 (k + 4) := ⟨_, rfl⟩
  have hlink : ∀ n i : ℕ, n ≠ k + 4 → r.link n i = s.link n i := fun n i hn => by
    simp [hr, State.construct, State.aimAll, hn]
  have hlast : ∀ i < 2, r.link (place k) i = ⟨some (3 - i), false⟩ := fun i hi => by
    rw [hlink _ i (place_ne le_rfl), hs.front i hi k le_rfl, if_neg (lt_irrefl k)]
  have hnew : ∀ i < 2, r.link (k + 4) i = ⟨some (3 - i), false⟩ := fun i hi => by
    obtain rfl | rfl : i = 0 ∨ i = 1 := by omega
    · simp [hr, State.construct, State.aimAll, hf.succs0]
    · simp [hr, State.construct, State.aimAll, hf.succs1]
  have h6 := (hr ▸ h4.aimAll).linkBottom (by rw [hf.preds0, hf.succs0, hlast 0 (by decide)])
  rw [hf.preds0, hw, publishFrom, if_pos (Nat.lt_succ_self 1)] at h6
  have h7 := h6.reserve.loadOwn (i := ⟨2, k + 4, 1, 0⟩) (by
    simp [State.addRemaining, State.record, State.setStatus, setLink_link,
      (place_ne (le_refl k)).symm, hnew 1, hf.succs1])
  have h8 := h7.publish (i := ⟨2, k + 4, 1, 0⟩) (by
    simp [State.addRemaining, State.record, State.setStatus, setLink_link, hf.preds1, hf.succs1,
      hlast 1])
  rw [publishFrom, if_neg (lt_irrefl 2), hf.preds1] at h8
  obtain ⟨s', hs', hlink', hkey, htall, hrem, hflag, hfresh, htrue, hfalse, hlinked⟩ :
      ∃ s', Reached s' ∧ (∀ n i : ℕ, s'.link n i =
        if n = place k ∧ i = 1 then ⟨some (k + 4), false⟩
        else if n = place k ∧ i = 0 then ⟨some (k + 4), false⟩ else r.link n i) ∧
      s'.key = r.key ∧ s'.topLevel = r.topLevel ∧
      (∀ n, n ≠ k + 4 → s'.upperLevelsRemaining n = r.upperLevelsRemaining n) ∧
      s'.retirementEnqueued = r.retirementEnqueued ∧ s'.fresh = r.fresh ∧ s'.pc true = .idle ∧
      s'.pc false = r.pc false ∧ s'.status (k + 4) 1 = .linked := by
    refine ⟨_, h8, fun n i => ?_, rfl, rfl, fun n hn => ?_, rfl, rfl, setPc_self _, ?_, ?_⟩
    · exact (setLink_link ..).trans (if_congr Iff.rfl rfl (setLink_link ..))
    · simp [State.setStatus, State.setLink, State.addRemaining, State.record, hn]
    · simp [State.setStatus, State.setLink, State.addRemaining, State.record]
    · simp [State.setStatus]
  have e2 : (2 : ℕ) ≠ k + 4 := by omega
  refine ⟨s', hs', ⟨fun n i hn hi => ?_, fun i hi => ?_, fun i hi => ?_, hkey.trans ?_, ?_, ?_, ?_,
    hfresh.trans ?_, htrue, hfalse.trans ?_, hlinked⟩⟩
  · rw [hlink', if_neg (by omega), if_neg (by omega), hlink n i hn]
  · rw [hlink']
    split_ifs <;> first | rfl | omega
  · have hne : k + 4 ≠ place k := (place_ne le_rfl).symm
    rw [hlink', if_neg (hne ·.1), if_neg (hne ·.1), hnew i hi]
  · rw [hr]
    rfl
  · simp [htall, hr, State.aimAll, State.construct]
  · simp [hrem 2 e2, hr, State.aimAll, State.construct]
  · simp [hflag, hr, State.aimAll, State.construct]
  · rw [hr]
    rfl
  · rw [hr]
    rfl

theorem Adds.lined (ha : Adds k s s') (hs : Lined k s) : Lined (k + 1) s' where
  nil i hi := (ha.kept 1 i (by omega) (.inl (place_not k).1.symm)).trans (hs.nil i hi)
  top := (ha.kept 0 2 (by omega) (.inr le_rfl)).trans hs.top
  front i hi p hp := by
    rcases Nat.lt_or_ge p k with hpk | hpk
    · rw [ha.kept _ i (place_ne hpk.le) (.inl fun h => hpk.ne (place_inj h)),
        hs.front i hi p hpk.le, if_pos hpk, if_pos (by omega)]
    · obtain rfl | rfl : p = k ∨ p = k + 1 := by omega
      · rw [ha.last i hi, if_pos (Nat.lt_succ_self p)]
        rfl
      · rw [if_neg (lt_irrefl _)]
        exact ha.new i hi
  own i hi := (ha.kept 3 i (by omega) (.inl (place_not k).2.2.symm)).trans (hs.own i hi)
  ownTop := (ha.kept 3 2 (by omega) (.inr le_rfl)).trans hs.ownTop
  last i hi := (ha.kept 2 i (by omega) (.inl (place_not k).2.1.symm)).trans (hs.last i hi)
  keys p hp hpk := by
    rw [ha.key]
    obtain rfl | hpk : p = k + 1 ∨ p ≤ k := by omega
    · exact Function.update_self ..
    · rw [Function.update_of_ne (place_ne hpk), hs.keys p hp hpk]
  key2 := by
    rw [ha.key, Function.update_of_ne (by change (2 : ℕ) ≠ k + 4; omega), hs.key2]
  key3 := by
    rw [ha.key, Function.update_of_ne (by change (3 : ℕ) ≠ k + 4; omega), hs.key3]
  fresh := ha.fresh
  tall := ha.tall.trans hs.tall
  counted := ha.counted.trans hs.counted
  unclaimed := ha.unclaimed.trans hs.unclaimed

/-- Where the upper levels of node 3 are to be published. -/
structure Aims (k : ℕ) (w : Walk ℕ) : Prop where
  preds1 : w.preds 1 = place k
  succs1 : w.succs 1 = 2
  preds2 : w.preds 2 = head
  succs2 : w.succs 2 = NIL

/-- The `insert` of node 3 has failed at level 1 as many times as nodes are in front, and tries
again. -/
structure Blocked (k : ℕ) (s : State Bool ℕ) : Prop where
  lined : Lined k s
  idle : s.pc true = .idle
  publishes : ∃ w, s.pc false = .publish w ⟨3, 3, 1, k⟩ false ∧ w.key = 300 ∧ Aims k w

theorem Lined.congr (hs : Lined k s) (hlink : s'.link = s.link)
    (hkey : s'.key = s.key) (htall : s'.topLevel = s.topLevel) (hfresh : s'.fresh = s.fresh)
    (hrem : s'.upperLevelsRemaining 2 = s.upperLevelsRemaining 2)
    (hflag : s'.retirementEnqueued = s.retirementEnqueued) : Lined k s' := by
  constructor <;> simp only [hlink, hkey, htall, hfresh, hrem, hflag]
  exacts [hs.nil, hs.top, hs.front, hs.own, hs.ownTop, hs.last, hs.keys, hs.key2, hs.key3, hs.fresh,
    hs.tall, hs.counted, hs.unclaimed]

/-- A node is linked before the publish, which fails and is tried again. -/
theorem Blocked.round (hs : Blocked k s) (hk : k < 255) (h : Reached s) :
    ∃ s', Reached s' ∧ Blocked (k + 1) s' := by
  obtain ⟨hlined, hidle, w, hp, hw, hf⟩ := hs
  obtain ⟨s₁, h1, ha⟩ := hlined.adds (by omega) hidle h
  have hlined₁ := ha.lined hlined
  have h2 := h1.fails (ha.others.trans hp) (by
    rw [hf.preds1, hf.succs1, hlined₁.front 1 (by decide) k (by omega), if_pos (by omega)]
    simp [place])
  rw [if_neg (by simp; omega)] at h2
  have hlined₂ : Lined (k + 1) (s₁.addRemaining 3 (-1)) :=
    hlined₁.congr rfl rfl rfl rfl (by simp [State.addRemaining]) rfl
  obtain ⟨w', hw', hf', h3⟩ := hlined₂.searches (by rw [hw]; omega) hw.le h2
  have h4 := (Reached.reserve h3).loadOwn (i := ⟨3, 3, 1, k + 1⟩) (by
    rw [hf'.succs1]
    exact hlined₂.own 1 (by decide))
  refine ⟨_, h4, ?_, ?_, ?_⟩
  · exact hlined₂.congr rfl rfl rfl rfl (by simp [State.addRemaining]) rfl
  · simpa [State.setPc, State.addRemaining] using ha.idle
  · exact ⟨w', setPc_self _, hw'.trans hw, hf'.preds1, hf'.succs1, hf'.preds2, hf'.succs2⟩

/-- `Blocked.publishes` for no node in front, to be evaluated. -/
def Pc.publishes : Pc ℕ → Bool
  | .publish w ⟨3, 3, 1, 0⟩ false =>
    w.key = 300 ∧ w.preds 1 = 0 ∧ w.succs 1 = 2 ∧ w.preds 2 = 0 ∧ w.succs 2 = 1
  | _ => false

def runs (t : Bool) (n : ℕ) : List (Bool × Act ℕ) := List.replicate n (t, .run false)

/-- Thread `true` inserts key 301 at two levels, and thread `false` key 300 at three up to the
publish of level 1. -/
def begins : List (Bool × Act ℕ) :=
  (true, .insert 301 2) :: runs true 6 ++ (true, .allocate true) :: runs true 7
    ++ (false, .insert 300 3) :: runs false 6 ++ (false, .allocate true) :: runs false 5

/-- `Lined 0` with every part closed, to be evaluated. -/
def Begun (s : State Bool ℕ) : Prop :=
  (∀ i : ℕ, i < 3 → s.link 1 i = ⟨none, false⟩) ∧ s.link 0 2 = ⟨some 1, false⟩ ∧
  (∀ i : ℕ, i < 2 → s.link 0 i = ⟨some (3 - i), false⟩) ∧
  (∀ i : ℕ, i < 2 → s.link 3 i = ⟨some 2, false⟩) ∧ s.link 3 2 = ⟨some 1, false⟩ ∧
  (∀ i : ℕ, i < 2 → s.link 2 i = ⟨some 1, false⟩) ∧ s.key 2 = 301 ∧ s.key 3 = 300 ∧ s.fresh = 4 ∧
  s.topLevel 2 = 2 ∧ s.upperLevelsRemaining 2 = 1 ∧ s.retirementEnqueued 2 = false

instance : DecidablePred Begun := fun _ => inferInstanceAs (Decidable (_ ∧ _))

theorem blocked_start : ∃ s, Reached s ∧ Blocked 0 s := by
  obtain ⟨s, hs, hb, hidle, hp⟩ :=
    Machine.exists_run (M := machine Bool ℕ 2) (G := fun _ _ => True)
      (P := fun s => Begun s ∧ (s.pc true).idles = true ∧ (s.pc false).publishes = true)
      begins rfl (by decide +kernel)
  obtain ⟨hnil, htop, hfront, hown, hownTop, hlast, h2, h3, hfresh, htall, hcounted,
    hunclaimed⟩ := hb
  refine ⟨s, hs, ⟨hnil, htop, fun i hi p hp => ?_, hown, hownTop, hlast, fun p h1 h2 => ?_, h2, h3,
    hfresh, htall, hcounted, hunclaimed⟩, idle_of_idles hidle, ?_⟩
  · obtain rfl : p = 0 := by omega
    exact hfront i hi
  · omega
  · unfold Pc.publishes at hp
    split at hp
    · rename_i w hw
      simp only [decide_eq_true_eq] at hp
      obtain ⟨hk, h1, h2, h3, h4⟩ := hp
      exact ⟨w, hw, hk, h1, h2, h3, h4⟩
    · cases hp

theorem blocked_rounds : ∃ s, Reached s ∧ Blocked 255 s := by
  obtain ⟨s, hs, h0⟩ := blocked_start
  have hround : ∀ k s, Reached s → (k ≤ 255 → Blocked k s) →
      ∃ s', Reached s' ∧ (k + 1 ≤ 255 → Blocked (k + 1) s') := fun k s hs hb => by
    rcases Nat.lt_or_ge k 255 with hk | hk
    · obtain ⟨s', hs', h'⟩ := (hb hk.le).round hk hs
      exact ⟨s', hs', fun _ => h'⟩
    · exact ⟨s, hs, fun h => absurd h (by omega)⟩
  obtain ⟨s', hs', h⟩ := Machine.Run.rounds hround 255 hs fun _ => h0
  exact ⟨s', hs', h le_rfl⟩

/-- Node 3 is linked at level 2 and at no level 1, where `pred` precedes node 2. -/
structure Skipped (pred : Node) (s : State Bool ℕ) : Prop where
  nil : ∀ i < 3, s.link NIL i = ⟨none, false⟩
  top : s.link head 2 = ⟨some 3, false⟩
  own : ∀ i < 2, s.link 3 i = ⟨some 2, false⟩
  ownTop : s.link 3 2 = ⟨some NIL, false⟩
  key2 : s.key 2 = 301
  key3 : s.key 3 = 300
  tall : s.topLevel 2 = 2
  counted : s.upperLevelsRemaining 2 = 1
  unclaimed : s.retirementEnqueued 2 = false
  pred_ne : pred ≠ 2 ∧ pred ≠ 3
  before : s.link pred 1 = ⟨some 2, false⟩
  linked : s.status pred 1 = .linked
  idle : s.pc true = .idle

/-- The last exchange fails and level 2 is published. -/
theorem Blocked.skips (hs : Blocked 255 s) (h : Reached s) : ∃ s', Reached s' ∧
    Skipped (place 256) s' ∧ ∀ i < 2, s'.link 2 i = ⟨some NIL, false⟩ := by
  obtain ⟨hlined, hidle, w, hp, hw, hf⟩ := hs
  obtain ⟨s₁, h1, ha⟩ := hlined.adds (by omega) hidle h
  have hl := ha.lined hlined
  have h2 := h1.fails (ha.others.trans hp) (by
    rw [hf.preds1, hf.succs1, hl.front 1 (by decide) 255 (by omega), if_pos (by omega)]
    simp [place])
  rw [if_pos (by simp), publishFrom, if_pos (by decide)] at h2
  have h3 := h2.reserve.loadOwn (i := ⟨3, 3, 2, 0⟩) (hl.ownTop.trans (by rw [hf.succs2]))
  have h4 := h3.publish (i := ⟨3, 3, 2, 0⟩) (by
    rw [hf.preds2, hf.succs2]
    exact hl.top)
  rw [publishFrom, if_neg (by decide), hf.preds2] at h4
  obtain ⟨s', hs', hlink, hkey, htall, hrem, hflag, hst, hidle'⟩ : ∃ s', Reached s' ∧
      (∀ n j, s'.link n j = if n = head ∧ j = 2 then ⟨some 3, false⟩ else s₁.link n j) ∧
      s'.key = s₁.key ∧ s'.topLevel = s₁.topLevel ∧ s'.upperLevelsRemaining 2 = 1 ∧
      s'.retirementEnqueued = s₁.retirementEnqueued ∧ s'.status (place 256) 1 = .linked ∧
      s'.pc true = .idle := by
    refine ⟨_, h4, fun n j => setLink_link .., rfl, rfl, ?_, rfl, ?_, ?_⟩
    · simp [State.addRemaining, State.setStatus, State.setLink, hl.counted]
    · simpa [State.setStatus, State.setLink, State.addRemaining, place] using ha.linked
    · simpa [State.setStatus, State.setLink, State.addRemaining] using ha.idle
  have hkeep : ∀ n j : ℕ, n ≠ 0 ∨ j < 2 → s'.link n j = s₁.link n j := fun n j hj => by
    rw [hlink, if_neg fun h => hj.elim (· h.1) (by omega)]
  refine ⟨s', hs', ⟨fun i hi => ?_, ?_, fun i hi => ?_, ?_, ?_, ?_, ?_, hrem, ?_, by decide, ?_,
    hst, hidle'⟩, fun i hi => ?_⟩
  · exact (hkeep 1 i (by omega)).trans (hl.nil i hi)
  · rw [hlink, if_pos ⟨rfl, rfl⟩]
  · exact (hkeep 3 i (by omega)).trans (hl.own i hi)
  · exact (hkeep 3 2 (by omega)).trans hl.ownTop
  · rw [hkey, hl.key2]
  · rw [hkey, hl.key3]
  · rw [htall, hl.tall]
  · rw [hflag, hl.unclaimed]
  · rw [hkeep _ 1 (by omega), hl.front 1 (by decide) 256 le_rfl, if_neg (by decide)]
  · exact (hkeep 2 i (by omega)).trans (hl.last i hi)

section Remove

variable {l r : ℕ} {n : Node} {o : Option Node} {pred : Node}

/-- The search for node 2 comes to level 1 at node 3. -/
theorem Skipped.descends (hs : Skipped pred s)
    (h : Reached (s.setPc t (startSearch 2 (.start 301) c))) : ∃ w, w.key = 301 ∧ w.level = 1 ∧
      w.pred = 3 ∧ Reached (s.setPc t (.loadSucc w (.search c) 2)) := by
  have h2 := (h.loadFirst hs.top).pass hs.ownTop (by simp [keyBefore, hs.key3, Walk.start, NIL])
  have h2' := h2.stop (by simp [hs.nil 2]) (by simp [keyBefore])
  have h1 := (h2'.down rfl).loadFirst (hs.own 1 (by decide))
  exact ⟨_, rfl, rfl, rfl, h1⟩

theorem Reached.markLevel (h : Reached (s.setPc t (.markLoad w n l)))
    (hl : s.link n l = ⟨o, false⟩) :
    Reached ((s.setLink n l ⟨o, true⟩).setPc t (markFrom w n (l - 1))) := by
  have h1 : Reached (s.setPc t (.softDeleteLoad w n l 0)) := h.run t (by simp [hl])
  have h2 : Reached (s.setPc t (.softDeleteCas w n l 0 o)) := h1.run t (by simp [hl])
  have h3 : Reached ((s.setLink n l ⟨o, true⟩).setPc t (.recheckMark w n l 0)) :=
    h2.run t (by simp [hl, State.setLink])
  exact h3.run t (by simp [State.setLink, MAX_REMOVE_MARK_RETRIES_PER_LEVEL])

theorem Reached.markBottom (h : Reached (s.setPc t (.loadBottom w n r)))
    (hl : s.link n 0 = ⟨o, false⟩) : Reached (({ (s.setLink n 0 ⟨o, true⟩).record w.key false with
      marks := Function.update s.marks t (s.marks t + 1) } : State Bool ℕ).setPc t
        (.checkBottom w n r true)) := by
  have h1 : Reached (s.setPc t (.markBottom w n r o false)) := h.run t (by simp [hl])
  have h2 : Reached (s.setPc t (.markBottom w n r o true)) := h1.run t (by simp [hl])
  exact h2.run t (by simp [hl, State.setLink, State.record])

theorem Reached.notDrained (h : Reached (s.setPc t (.checkBottom w n r true)))
    (hr : 0 < s.upperLevelsRemaining n) : Reached (s.setPc t .idle) := by
  have h1 : Reached (s.setPc t (.drainedRemoved w n (s.link n 0).target)) := h.run t (by simp)
  exact h1.run t (by simp [not_le.2 hr])

theorem Skipped.congr (hs : Skipped pred s)
    (hlink : ∀ m j, m ≠ 2 → s'.link m j = s.link m j) (hkey : s'.key = s.key)
    (htall : s'.topLevel = s.topLevel) (hrem : s'.upperLevelsRemaining = s.upperLevelsRemaining)
    (hflag : s'.retirementEnqueued = s.retirementEnqueued) (hst : s'.status = s.status)
    (hidle : s'.pc true = .idle) : Skipped pred s' where
  nil i hi := (hlink NIL i (by decide)).trans (hs.nil i hi)
  top := (hlink head 2 (by decide)).trans hs.top
  own i hi := (hlink 3 i (by decide)).trans (hs.own i hi)
  ownTop := (hlink 3 2 (by decide)).trans hs.ownTop
  key2 := hkey ▸ hs.key2
  key3 := hkey ▸ hs.key3
  tall := htall ▸ hs.tall
  counted := hrem ▸ hs.counted
  unclaimed := hflag ▸ hs.unclaimed
  pred_ne := hs.pred_ne
  before := (hlink pred 1 hs.pred_ne.1).trans hs.before
  linked := hst ▸ hs.linked
  idle := hidle

/-- `remove` marks node 2, which stays in its lists. -/
theorem Skipped.removes (hs : Skipped pred s) (h2 : ∀ i < 2, s.link 2 i = ⟨some NIL, false⟩)
    (h : Reached s) :
    ∃ s', Reached s' ∧ Skipped pred s' ∧ ∀ i < 2, s'.link 2 i = ⟨some NIL, true⟩ := by
  obtain ⟨m, hm⟩ : ∃ m, m = Function.update s.marks true 0 := ⟨_, rfl⟩
  have h1 : Reached (({ s with marks := m } : State Bool ℕ).setPc true
      (startSearch 2 (.start 301) .remove)) :=
    h.step (a := (true, .remove 301)) (by simp [machine, hs.idle, hm])
  have hsm : Skipped pred ({ s with marks := m } : State Bool ℕ) :=
    hs.congr (fun _ _ _ => rfl) rfl rfl rfl rfl rfl hs.idle
  obtain ⟨w, hw, hi, hp, h3⟩ := hsm.descends h1
  have h4 := (h3.stop (by simp [hi, h2 1]) (by simp [keyBefore, hs.key2, hw])).down hi
  have h5 := (h4.loadFirst (x := 2) (b := false) (by simp [hp, hs.own 0])).stop (by simp [h2 0])
    (by simp [keyBefore, hs.key2, hw])
  obtain ⟨w', hw', hs0, h6⟩ : ∃ w', w'.key = 301 ∧ w'.succs 0 = 2 ∧
      Reached (({ s with marks := m } : State Bool ℕ).setPc true
        (searched { s with marks := m } w' .remove 2)) := ⟨_, hw, by simp, h5.found rfl⟩
  have h7 : Reached (({ s with marks := m } : State Bool ℕ).setPc true (.markLoad w' 2 1)) := by
    simpa [searched, keyMatches, hs.key2, hw', hs0, hs.tall, markFrom, NIL] using h6
  have h8 := (h7.markLevel (h2 1 (by decide))).markBottom
    ((setLink_link ..).trans (h2 0 (by decide)))
  obtain ⟨s', hs', hlink, hs2⟩ : ∃ s', Reached s' ∧ (∀ n j, s'.link n j =
      if n = 2 ∧ j = 0 then ⟨some NIL, true⟩ else if n = 2 ∧ j = 1 then ⟨some NIL, true⟩
      else s.link n j) ∧ ((∀ n j, n ≠ 2 → s'.link n j = s.link n j) → Skipped pred s') :=
    ⟨_, h8.notDrained (hs.counted ▸ Int.one_pos),
      fun n j => (setLink_link ..).trans (if_congr Iff.rfl rfl (setLink_link ..)),
      fun hlink => hs.congr hlink rfl rfl rfl rfl rfl (setPc_self _)⟩
  refine ⟨s', hs', hs2 fun n j hn => ?_, fun i hi => ?_⟩
  · rw [hlink, if_neg (hn ·.1), if_neg (hn ·.1)]
  · obtain rfl | rfl : i = 0 ∨ i = 1 := by omega
    · rw [hlink, if_pos ⟨rfl, rfl⟩]
    · rw [hlink, if_neg (by decide), if_pos ⟨rfl, rfl⟩]

theorem Reached.help (h : Reached (s.setPc t (.loadSucc w (.search c) n)))
    (hl : s.link n w.level = ⟨some x, true⟩) :
    Reached (s.setPc t (.loadHelped w (.search c) n x)) := by
  have h' := h.loadSucc
  rwa [hl, walkOn.eq_def, if_pos rfl] at h'

theorem Reached.goes (h : Reached s) (hg : Goes 2 t s s') : Reached s' :=
  hg.reachable ⟨_, false, rfl⟩ h

/-- The walk unlinks the last node of an upper level and goes down. -/
theorem Reached.unlinkUpper {i : ℕ} (h : Reached (s.setPc t (.loadHelped w (.search c) n NIL)))
    (hi : w.level = i + 1) (hl : s.link w.pred w.level = ⟨some n, false⟩)
    (hx : s.link NIL w.level = ⟨none, false⟩) : ∃ (r : State Bool ℕ) (w' : Walk ℕ),
      Reached (r.setPc t (.loadFirst w' (.search c))) ∧ w'.level = i ∧ w'.pred = w.pred ∧
      r.link = (s.setLink w.pred w.level ⟨some NIL, false⟩).link ∧
      r.upperLevelsRemaining n = s.upperLevelsRemaining n - 1 ∧
      r.retirementEnqueued = s.retirementEnqueued ∧
      ∀ m j, m ≠ n → r.status m j = s.status m j := by
  have h0 : w.level ≠ 0 := by omega
  have h1 := h.goes (Goes.loadHelped (setPc_self _) fun _ => show _ = none by simp [hx]; rfl)
  rw [if_neg h0, show (State.setPc s t _).link NIL w.level = _ from hx] at h1
  have h2 := h1.goes (Goes.unlink_upper h0 (setPc_self _) hl)
  rw [walkOn, if_neg (by simp), if_neg (by simp [keyBefore]), finishLevel] at h2
  simp only [h0, if_false] at h2
  refine ⟨_, _, h2, by simp [hi], rfl, rfl, ?_, rfl, fun m j hm => ?_⟩
  · simp [State.setStatus, State.addRemaining]
    rfl
  · exact congrFun (Function.update_of_ne hm ..) j

/-- The walk of the bottom level unlinks and retires a node whose counter is down. -/
theorem Reached.retires (h : Reached (s.setPc t (.loadHelped w (.search c) n NIL)))
    (h0 : w.level = 0) (hl : s.link w.pred 0 = ⟨some n, false⟩) (hx : s.link NIL 0 = ⟨none, false⟩)
    (hr : s.upperLevelsRemaining n ≤ 0) (hf : s.retirementEnqueued n = false) :
    ∃ s', Reached s' ∧ n ∈ s'.retired ∧
      s'.link = (s.setLink w.pred 0 ⟨some NIL, false⟩).link ∧
      ∀ m i, m ≠ n → s'.status m i = s.status m i := by
  have h1 := h.goes (Goes.loadHelped (setPc_self _) fun _ => show _ = none by simp [h0, hx]; rfl)
  rw [if_pos h0] at h1
  have h2 := (h1.goes (Goes.testDrained (setPc_self _) hr)).goes
    (Goes.unlink_bottom h0 (setPc_self _) (h0 ▸ hl) hf)
  refine ⟨_, h2, ?_, by rw [h0]; rfl, fun m i hm => ?_⟩
  · exact List.mem_append_right _ (List.mem_singleton_self n)
  · exact congrFun (Function.update_of_ne hm ..) i

/-- A search for its key retires node 2, to which a link at level 1 still points. -/
theorem Skipped.finds (hs : Skipped pred s) (h2 : ∀ i < 2, s.link 2 i = ⟨some NIL, true⟩)
    (h : Reached s) : ∃ s', Reached s' ∧ 2 ∈ s'.retired ∧ s'.link pred 1 = ⟨some 2, false⟩ ∧
      s'.status pred 1 = .linked := by
  have h1 : Reached (s.setPc true (startSearch 2 (.start 301) .find)) :=
    h.step (a := (true, .find 301)) (by simp [machine, hs.idle])
  obtain ⟨w, hw, hi, hp, h3⟩ := hs.descends h1
  have hwlink : s.link w.pred w.level = ⟨some 2, false⟩ := by rw [hp, hi, hs.own 1 (by decide)]
  obtain ⟨r, w', h4, hw0, hwp, hlink, hrem, hflag, hst⟩ :=
    (h3.help (by rw [hi, h2 1 (by decide)])).unlinkUpper hi hwlink
      (by rw [hi, hs.nil 1 (by decide)])
  have hlink' : ∀ n j, r.link n j = if n = 3 ∧ j = 1 then ⟨some NIL, false⟩ else s.link n j :=
    fun n j => by rw [hlink, hp, hi, setLink_link]
  have hkeep : ∀ n, r.link n 0 = s.link n 0 := fun n => by rw [hlink', if_neg (by simp)]
  have h5 := h4.loadFirst (x := 2) (b := false)
    (by rw [hw0, hwp, hp, hkeep, hs.own 0 (by decide)])
  obtain ⟨s', hs', hn, hlink₂, hst₂⟩ := (h5.help (by rw [hw0, hkeep, h2 0 (by decide)])).retires hw0
    (by rw [hwp, hp, hkeep, hs.own 0 (by decide)]) (by rw [hkeep, hs.nil 0 (by decide)])
    (by rw [hrem, hs.counted]; rfl) (by rw [hflag, hs.unclaimed])
  refine ⟨s', hs', hn, ?_, ?_⟩
  · rw [hlink₂, setLink_link, if_neg (by simp), hlink', if_neg (hs.pred_ne.2 ·.1), hs.before]
  · rw [hst₂ pred 1 hs.pred_ne.1, hst pred 1 hs.pred_ne.1, hs.linked]

end Remove

end Skipped

end MinStd.SkipList
