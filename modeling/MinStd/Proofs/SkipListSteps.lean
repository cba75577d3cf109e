import MinStd.SkipList
import Mathlib.Order.WithBot

/-!
# What a step of the skip list can do

A thread's registers hold nodes that were published before: a predecessor at level 0, with a
smaller key, and a successor at the level it was met on.  A link once tombstoned never changes, so
a node stepped over still aims at the node the walk went on to.  `Effect` lists the changes one
step can make.
-/

namespace MinStd.SkipList

variable {Tid K : Type*} {MAX_LEVELS : ℕ} {known : ℕ → ℕ}

/-- The node is linked at the level, or was. -/
structure Pub (s : State Tid K) (i : ℕ) (n : Node) : Prop where
  level : s.status n i ≠ .unpublished
  bottom : s.status n 0 ≠ .unpublished
  sentinel : 2 ≤ n
  fresh : n < s.fresh

/-- A node a walk of the level may meet. -/
def On (s : State Tid K) (i : ℕ) (n : Node) : Prop := n = NIL ∨ Pub s i n

/-- The order of the nodes of a level: the head comes before every key, `NIL` after. -/
def rank (s : State Tid K) (n : Node) : WithBot (WithTop K) :=
  if n = head then ⊥ else if n = NIL then (⊤ : WithTop K) else (s.key n : WithTop K)

section Ok

variable [LinearOrder K] (known)

/-- A predecessor at the level `i`: it is known to be published at the level `known i`. -/
structure PredOk (s : State Tid K) (i : ℕ) (key : K) (n : Node) : Prop where
  born : n = head ∨ Pub s (known i) n
  before : rank s n < (key : WithTop K)

structure SuccOk (s : State Tid K) (i : ℕ) (key : K) (n : Node) : Prop where
  on : On s i n
  after : ((key : WithTop K) : WithBot (WithTop K)) ≤ rank s n

variable (MAX_LEVELS)

/-- The walk's predecessor, and what the search found above. -/
structure WalkOk (s : State Tid K) (w : Walk K) : Prop where
  pred : PredOk known s w.level w.key w.pred
  preds : ∀ i, w.level < i → i ≤ MAX_LEVELS → PredOk known s i w.key (w.preds i)
  succs : ∀ i, w.level < i → i ≤ MAX_LEVELS → SuccOk s i w.key (w.succs i)

/-- What a finished search found. -/
structure FoundOk (s : State Tid K) (w : Walk K) : Prop where
  preds : ∀ i ≤ MAX_LEVELS, PredOk known s i w.key (w.preds i)
  succs : ∀ i ≤ MAX_LEVELS, SuccOk s i w.key (w.succs i)

/-- The search found no node with its key. -/
def NotFound (s : State Tid K) (w : Walk K) : Prop :=
  ((w.key : WithTop K) : WithBot (WithTop K)) < rank s (w.succs 0)

variable {MAX_LEVELS}

/-- A node built by this call and not linked yet. -/
structure NewOk (s : State Tid K) (key : K) (topLevel : ℕ) (n : Node) : Prop where
  key : s.key n = key
  topLevel : s.topLevel n = topLevel
  sentinel : 2 ≤ n
  fresh : n < s.fresh

variable (MAX_LEVELS)

def TopOk (topLevel : ℕ) : Prop := 1 ≤ topLevel ∧ topLevel ≤ MAX_LEVELS + 1

structure InsertionOk (s : State Tid K) (key : K) (i : Insertion) : Prop where
  new : NewOk s key i.topLevel i.newNode
  top : TopOk MAX_LEVELS i.topLevel
  born : Pub s 0 i.newNode
  level : 1 ≤ i.level ∧ i.level < i.topLevel

/-- The node a `remove` found, tombstoned above the level. -/
structure TargetOk (s : State Tid K) (key : K) (level : ℕ) (n : Node) : Prop where
  key : s.key n = key
  born : Pub s 0 n
  marked : ∀ i, level < i → i < s.topLevel n → (s.link n i).tombstoned = true

def CallerOk (s : State Tid K) (key : K) : Caller → Prop
  | .find | .remove => True
  | .insert topLevel newNode _ =>
    TopOk MAX_LEVELS topLevel ∧ ∀ n ∈ newNode, NewOk s key topLevel n
  | .publish i => InsertionOk MAX_LEVELS s key i

def ModeOk (s : State Tid K) (w : Walk K) : Mode → Prop
  | .search c => CallerOk MAX_LEVELS s w.key c ∧ w.level ≤ MAX_LEVELS
  | .insertAssist topLevel newNode _ _ _ =>
    TopOk MAX_LEVELS topLevel ∧ NewOk s w.key topLevel newNode ∧ w.level = 0
  | .removeAssist node _ _ _ => TargetOk s w.key 0 node ∧ w.level = 0

/-- Where a node is published by where it was met. -/
structure Known (s : State Tid K) : Prop where
  here : ∀ i n, Pub s i n → Pub s (known i) n
  down : ∀ i n, Pub s (known (i + 1)) n → Pub s (known i) n

/-- A loaded link of `curr`, at the level `i`. -/
structure LoadedOk (s : State Tid K) (i : ℕ) (curr : Node) (succ : Option Node)
    (tombstoned : Bool) : Prop where
  on : On s i curr
  next : ∀ c ∈ succ, On s i c
  frozen : tombstoned = true → Pub s i curr ∧ ∀ c ∈ succ, s.link curr i = ⟨some c, true⟩

/-- A tombstoned node the walk stepped over. -/
structure OverOk (s : State Tid K) (i : ℕ) (tombstonedNode curr : Node) : Prop where
  pub : Pub s i tombstonedNode
  frozen : s.link tombstonedNode i = ⟨some curr, true⟩

def ResumeOk (s : State Tid K) : Resume K → Prop
  | .walk w m curr succ tombstoned => WalkOk MAX_LEVELS known s w ∧ ModeOk MAX_LEVELS s w m
    ∧ LoadedOk s w.level curr succ tombstoned
  | .removed => True

/-- The link of a node its `remove` has marked. -/
structure MarkedOk (s : State Tid K) (node : Node) (succ : Option Node) : Prop where
  tombstoned : (s.link node 0).tombstoned = true
  some : ∀ c ∈ succ, s.link node 0 = ⟨some c, true⟩
  none : succ = none → s.status node 0 = .unlinked

/-- What a thread's registers hold. -/
def PcOk (s : State Tid K) : Pc K → Prop
  | .idle => True
  | .loadFirst w m => WalkOk MAX_LEVELS known s w ∧ ModeOk MAX_LEVELS s w m
  | .loadSucc w m curr => WalkOk MAX_LEVELS known s w ∧ ModeOk MAX_LEVELS s w m ∧ On s w.level curr
  | .loadHelped w m tombstonedNode curr => WalkOk MAX_LEVELS known s w ∧ ModeOk MAX_LEVELS s w m
    ∧ OverOk s w.level tombstonedNode curr ∧ On s w.level curr
  | .testDrained w m tombstonedNode curr succ tombstoned
  | .unlink w m tombstonedNode curr succ tombstoned _ =>
    WalkOk MAX_LEVELS known s w ∧ ModeOk MAX_LEVELS s w m ∧ OverOk s w.level tombstonedNode curr
    ∧ LoadedOk s w.level curr succ tombstoned
  | .uncount w m tombstonedNode curr succ tombstoned =>
    WalkOk MAX_LEVELS known s w ∧ ModeOk MAX_LEVELS s w m ∧ OverOk s w.level tombstonedNode curr
    ∧ LoadedOk s w.level curr succ tombstoned ∧ w.level ≠ 0
  | .storeUnlinked node k | .claimRetire node k | .enqueue node k =>
    s.status node 0 = .unlinked ∧ ResumeOk MAX_LEVELS known s k
  | .allocate w topLevel _ =>
    FoundOk MAX_LEVELS known s w ∧ NotFound s w ∧ TopOk MAX_LEVELS topLevel
  | .aimAll w topLevel newNode _ | .aimBottom w topLevel newNode _
  | .linkBottom w topLevel newNode _ _ => FoundOk MAX_LEVELS known s w ∧ NotFound s w
    ∧ TopOk MAX_LEVELS topLevel ∧ NewOk s w.key topLevel newNode
  | .testPred w topLevel newNode _ => FoundOk MAX_LEVELS known s w ∧ TopOk MAX_LEVELS topLevel
    ∧ NewOk s w.key topLevel newNode
  | .reserve w i | .loadOwn w i | .aimOwn w i _ _ | .publish w i _ | .unreserve w i _ =>
    FoundOk MAX_LEVELS known s w ∧ InsertionOk MAX_LEVELS s w.key i
  | .markLoad w node level | .softDeleteLoad w node level _ | .softDeleteCas w node level _ _
  | .recheckMark w node level _ =>
    FoundOk MAX_LEVELS known s w ∧ TargetOk s w.key level node ∧ 1 ≤ level
  | .loadBottom w node _ | .markBottom w node _ _ _ =>
    WalkOk MAX_LEVELS known s { w with level := 0 } ∧ TargetOk s w.key 0 node
  | .checkBottom w node _ success =>
    WalkOk MAX_LEVELS known s { w with level := 0 } ∧ TargetOk s w.key 0 node
    ∧ (success = true → (s.link node 0).tombstoned = true)
  | .drainedRemoved w node succ | .unlinkRemoved w node succ _ =>
    WalkOk MAX_LEVELS known s { w with level := 0 } ∧ TargetOk s w.key 0 node ∧ MarkedOk s node succ

end Ok

/-- A later state: published nodes and tombstoned links stay. -/
structure Extends (s s' : State Tid K) : Prop where
  key : ∀ n < s.fresh, s'.key n = s.key n
  topLevel : ∀ n < s.fresh, s'.topLevel n = s.topLevel n
  fresh : s.fresh ≤ s'.fresh
  status : ∀ n i, s.status n i ≠ .unpublished → s'.status n i ≠ .unpublished
  off : ∀ n, s.status n 0 = .unlinked → s'.status n 0 = .unlinked
  frozen : ∀ n < s.fresh, ∀ i, (s.link n i).tombstoned = true → s'.link n i = s.link n i

section Extends

variable {s s' : State Tid K} {i : ℕ} {key : K} {n : Node}

theorem Pub.extend (h : Pub s i n) (hx : Extends s s') : Pub s' i n :=
  ⟨hx.status n i h.level, hx.status n 0 h.bottom, h.sentinel, h.fresh.trans_le hx.fresh⟩

theorem On.extend (h : On s i n) (hx : Extends s s') : On s' i n := h.imp_right (·.extend hx)

theorem Pub.zero (h : Pub s i n) : Pub s 0 n := ⟨h.bottom, h.bottom, h.sentinel, h.fresh⟩

theorem Pub.ne_head (h : Pub s i n) : n ≠ head := by
  rintro rfl
  exact absurd h.sentinel (by decide)

theorem Pub.ne_NIL (h : Pub s i n) : n ≠ NIL := by
  rintro rfl
  exact absurd h.sentinel (by decide)

theorem OverOk.extend {curr : Node} (h : OverOk s i n curr) (hx : Extends s s') :
    OverOk s' i n curr :=
  ⟨h.pub.extend hx, by rw [hx.frozen n h.pub.fresh i (by rw [h.frozen]), h.frozen]⟩

theorem LoadedOk.extend {succ : Option Node} {tombstoned : Bool}
    (h : LoadedOk s i n succ tombstoned) (hx : Extends s s') : LoadedOk s' i n succ tombstoned := by
  refine ⟨h.on.extend hx, fun c hc => (h.next c hc).extend hx, fun ht => ?_⟩
  obtain ⟨hp, hf⟩ := h.frozen ht
  refine ⟨hp.extend hx, fun c hc => ?_⟩
  rw [hx.frozen n hp.fresh i (by rw [hf c hc]), hf c hc]

theorem NewOk.extend {topLevel : ℕ} (h : NewOk s key topLevel n) (hx : Extends s s') :
    NewOk s' key topLevel n :=
  ⟨(hx.key n h.fresh).trans h.key, (hx.topLevel n h.fresh).trans h.topLevel, h.sentinel,
    h.fresh.trans_le hx.fresh⟩

theorem InsertionOk.extend {i : Insertion} (h : InsertionOk MAX_LEVELS s key i)
    (hx : Extends s s') : InsertionOk MAX_LEVELS s' key i :=
  ⟨h.new.extend hx, h.top, h.born.extend hx, h.level⟩

theorem TargetOk.extend (h : TargetOk s key i n) (hx : Extends s s') : TargetOk s' key i n := by
  refine ⟨(hx.key n h.born.fresh).trans h.key, h.born.extend hx, fun j hj ht => ?_⟩
  have := h.marked j hj (hx.topLevel n h.born.fresh ▸ ht)
  rw [hx.frozen n h.born.fresh j this, this]

theorem MarkedOk.extend {succ : Option Node} (h : MarkedOk s n succ) (hn : n < s.fresh)
    (hx : Extends s s') : MarkedOk s' n succ := by
  have he := hx.frozen n hn 0 h.tombstoned
  exact ⟨he ▸ h.tombstoned, fun c hc => he ▸ h.some c hc, fun hs => hx.off n (h.none hs)⟩

theorem rank_of_pub (h : Pub s i n) : rank s n = (s.key n : WithTop K) := by
  rw [rank, if_neg h.ne_head, if_neg h.ne_NIL]

theorem rank_extend (hx : Extends s s') (hn : n = head ∨ On s i n) : rank s' n = rank s n := by
  rcases hn with rfl | rfl | hn
  · rfl
  · rfl
  · rw [rank_of_pub hn, rank_of_pub (hn.extend hx), hx.key n hn.fresh]

theorem CallerOk.extend {c : Caller} (h : CallerOk MAX_LEVELS s key c) (hx : Extends s s') :
    CallerOk MAX_LEVELS s' key c := by
  cases c with
  | find | remove => trivial
  | insert topLevel newNode retries => exact ⟨h.1, fun n hn => (h.2 n hn).extend hx⟩
  | publish i => exact InsertionOk.extend h hx

theorem ModeOk.extend {w : Walk K} {m : Mode} (h : ModeOk MAX_LEVELS s w m) (hx : Extends s s') :
    ModeOk MAX_LEVELS s' w m := by
  cases m with
  | search c => exact ⟨h.1.extend hx, h.2⟩
  | insertAssist topLevel newNode retries softDeleted failures =>
    exact ⟨h.1, h.2.1.extend hx, h.2.2⟩
  | removeAssist node retries softDeleted failures => exact ⟨h.1.extend hx, h.2⟩

variable [LinearOrder K]

theorem PredOk.extend (h : PredOk known s i key n) (hx : Extends s s') : PredOk known s' i key n :=
  ⟨h.born.imp_right (·.extend hx), rank_extend hx (h.born.imp_right .inr) ▸ h.before⟩

theorem SuccOk.extend (h : SuccOk s i key n) (hx : Extends s s') : SuccOk s' i key n :=
  ⟨h.on.extend hx, rank_extend hx (.inr h.on) ▸ h.after⟩

theorem WalkOk.extend {w : Walk K} (h : WalkOk MAX_LEVELS known s w) (hx : Extends s s') :
    WalkOk MAX_LEVELS known s' w :=
  ⟨h.pred.extend hx, fun i h1 h2 => (h.preds i h1 h2).extend hx,
    fun i h1 h2 => (h.succs i h1 h2).extend hx⟩

theorem FoundOk.extend {w : Walk K} (h : FoundOk MAX_LEVELS known s w) (hx : Extends s s') :
    FoundOk MAX_LEVELS known s' w :=
  ⟨fun i hi => (h.preds i hi).extend hx, fun i hi => (h.succs i hi).extend hx⟩

theorem NotFound.extend {w : Walk K} (h : NotFound s w) (hf : FoundOk MAX_LEVELS known s w)
    (hx : Extends s s') : NotFound s' w := by
  rw [NotFound, rank_extend hx (.inr (hf.succs 0 (Nat.zero_le _)).on)]
  exact h

theorem ResumeOk.extend {k : Resume K} (h : ResumeOk MAX_LEVELS known s k) (hx : Extends s s') :
    ResumeOk MAX_LEVELS known s' k := by
  cases k with
  | walk w m curr succ tombstoned => exact ⟨h.1.extend hx, h.2.1.extend hx, h.2.2.extend hx⟩
  | removed => trivial

theorem PcOk.extend {p : Pc K} (h : PcOk MAX_LEVELS known s p) (hx : Extends s s') :
    PcOk MAX_LEVELS known s' p := by
  unfold PcOk at h ⊢
  split at h
  · trivial
  · exact ⟨h.1.extend hx, h.2.extend hx⟩
  · exact ⟨h.1.extend hx, h.2.1.extend hx, h.2.2.extend hx⟩
  · exact ⟨h.1.extend hx, h.2.1.extend hx, h.2.2.1.extend hx, h.2.2.2.extend hx⟩
  · exact ⟨h.1.extend hx, h.2.1.extend hx, h.2.2.1.extend hx, h.2.2.2.extend hx⟩
  · exact ⟨h.1.extend hx, h.2.1.extend hx, h.2.2.1.extend hx, h.2.2.2.extend hx⟩
  · exact ⟨h.1.extend hx, h.2.1.extend hx, h.2.2.1.extend hx, h.2.2.2.1.extend hx, h.2.2.2.2⟩
  · exact ⟨hx.off _ h.1, h.2.extend hx⟩
  · exact ⟨hx.off _ h.1, h.2.extend hx⟩
  · exact ⟨hx.off _ h.1, h.2.extend hx⟩
  · exact ⟨h.1.extend hx, h.2.1.extend h.1 hx, h.2.2⟩
  · exact ⟨h.1.extend hx, h.2.1.extend h.1 hx, h.2.2.1, h.2.2.2.extend hx⟩
  · exact ⟨h.1.extend hx, h.2.1.extend h.1 hx, h.2.2.1, h.2.2.2.extend hx⟩
  · exact ⟨h.1.extend hx, h.2.1.extend h.1 hx, h.2.2.1, h.2.2.2.extend hx⟩
  · exact ⟨h.1.extend hx, h.2.1, h.2.2.extend hx⟩
  · exact ⟨h.1.extend hx, h.2.extend hx⟩
  · exact ⟨h.1.extend hx, h.2.extend hx⟩
  · exact ⟨h.1.extend hx, h.2.extend hx⟩
  · exact ⟨h.1.extend hx, h.2.extend hx⟩
  · exact ⟨h.1.extend hx, h.2.extend hx⟩
  · exact ⟨h.1.extend hx, h.2.1.extend hx, h.2.2⟩
  · exact ⟨h.1.extend hx, h.2.1.extend hx, h.2.2⟩
  · exact ⟨h.1.extend hx, h.2.1.extend hx, h.2.2⟩
  · exact ⟨h.1.extend hx, h.2.1.extend hx, h.2.2⟩
  · exact ⟨h.1.extend hx, h.2.extend hx⟩
  · exact ⟨h.1.extend hx, h.2.extend hx⟩
  · refine ⟨h.1.extend hx, h.2.1.extend hx, fun hs => ?_⟩
    rw [hx.frozen _ h.2.1.born.fresh 0 (h.2.2 hs)]
    exact h.2.2 hs
  · exact ⟨h.1.extend hx, h.2.1.extend hx, h.2.2.extend h.2.1.born.fresh hx⟩
  · exact ⟨h.1.extend hx, h.2.1.extend hx, h.2.2.extend h.2.1.born.fresh hx⟩

end Extends

/-- The thread holds at most the node it inserts. -/
def Pc.plain : Pc K → Bool
  | .unlink _ _ _ _ _ _ _ | .uncount _ _ _ _ _ _ | .storeUnlinked _ _ | .claimRetire _ _
  | .enqueue _ _ | .linkBottom _ _ _ _ _ | .loadOwn _ _ | .aimOwn _ _ _ _ | .publish _ _ _
  | .unreserve _ _ _ | .unlinkRemoved _ _ _ _ => false
  | _ => true

/-- The thread holds no node it unlinks, retires or publishes. -/
structure Free (p : Pc K) : Prop where
  reserved : p.reserved? = none
  checked : p.checked? = none
  uncounts : p.uncounts? = none
  drained : p.drained? = none
  retiring : p.retiring? = none
  link : ∀ w topLevel newNode retries loaded, p ≠ .linkBottom w topLevel newNode retries loaded
  publish : ∀ w i loaded, p ≠ .publish w i loaded

theorem free_of_plain {p : Pc K} (h : p.plain = true) : Free p := by
  cases p
  case unlink | uncount | storeUnlinked | claimRetire | enqueue | linkBottom | loadOwn | aimOwn
    | publish | unreserve | unlinkRemoved => cases h
  all_goals exact ⟨rfl, rfl, rfl, rfl, rfl, by simp, by simp⟩

/-- A place a walk may go on to. -/
structure Plain (new : Option Node) (inserting : Option (Node × ℕ)) (unmarked : Bool) (p : Pc K) : Prop where
  new : p.newNode? = none ∨ p.newNode? = new
  inserting : p.inserting? = none ∨ p.inserting? = inserting
  unmarked : p.unmarked = true → unmarked = true
  plain : p.plain = true

theorem plain_idle {new : Option Node} {ins : Option (Node × ℕ)} {u : Bool} : Plain new ins u (.idle : Pc K) :=
  ⟨.inl rfl, .inl rfl, by simp [Pc.unmarked], rfl⟩

theorem plain_startSearch {w : Walk K} {c : Caller} {new : Option Node} {ins : Option (Node × ℕ)} {u : Bool}
    (hn : c.newNode? = none ∨ c.newNode? = new)
    (hi : (Mode.search c).inserting? = none ∨ (Mode.search c).inserting? = ins)
    (hu : (Mode.search c).unmarked = true → u = true) :
    Plain new ins u (startSearch MAX_LEVELS w c) := ⟨hn, hi, hu, rfl⟩

theorem plain_markFrom {w : Walk K} {node : Node} {level : ℕ} {new : Option Node} {ins : Option (Node × ℕ)} :
    Plain new ins true (markFrom w node level) := by
  unfold markFrom
  split_ifs <;> exact ⟨.inl rfl, .inl rfl, fun _ => rfl, rfl⟩

section Walk

variable [LinearOrder K] {s : State Tid K} {w : Walk K} {m : Mode} {curr : Node}
  {succ : Option Node} {tombstoned : Bool}

theorem plain_searched {c : Caller} :
    Plain c.newNode? (Mode.search c).inserting? (Mode.search c).unmarked (searched s w c curr) := by
  unfold searched
  split
  · exact plain_idle
  · split_ifs
    · exact plain_idle
    · exact ⟨.inl rfl, .inl rfl, by simp [Pc.unmarked], rfl⟩
  · split_ifs
    · exact plain_idle
    · exact ⟨.inr rfl, .inl rfl, by simp [Pc.unmarked], rfl⟩
  · exact ⟨.inl rfl, .inr rfl, by simp [Pc.unmarked], rfl⟩
  · split_ifs
    · exact plain_markFrom
    · exact plain_idle

theorem plain_finishLevel :
    Plain m.newNode? m.inserting? m.unmarked (finishLevel MAX_LEVELS s w m curr) := by
  unfold finishLevel
  rcases m with c | ⟨topLevel, newNode, retries, softDeleted, failures⟩ |
    ⟨node, retries, softDeleted, failures⟩
  · dsimp only
    split_ifs
    · exact plain_searched
    · exact ⟨.inr rfl, .inr rfl, id, rfl⟩
  · dsimp only
    split_ifs
    · exact plain_idle
    · exact ⟨.inr rfl, .inl rfl, by simp [Pc.unmarked], rfl⟩
  · dsimp only
    split_ifs
    · exact plain_idle
    · exact plain_startSearch (.inl rfl) (.inl rfl) fun _ => rfl
    · exact ⟨.inl rfl, .inl rfl, fun _ => rfl, rfl⟩

theorem plain_lost : Plain m.newNode? m.inserting? m.unmarked (lost MAX_LEVELS s w m) := by
  unfold lost
  rcases m with c | ⟨topLevel, newNode, retries, softDeleted, failures⟩ |
    ⟨node, retries, softDeleted, failures⟩
  · exact plain_finishLevel
  · exact plain_startSearch (.inr rfl) (.inl rfl) (by simp [Mode.unmarked])
  · exact plain_startSearch (.inl rfl) (.inl rfl) fun _ => rfl

theorem Mode.seen_holds (m : Mode) (b : Bool) : (m.seen b).newNode? = m.newNode? ∧
    (m.seen b).inserting? = m.inserting? ∧ (m.seen b).unmarked = m.unmarked := by
  cases m <;> exact ⟨rfl, rfl, rfl⟩

theorem plain_walkOn :
    Plain m.newNode? m.inserting? m.unmarked (walkOn MAX_LEVELS s w m curr succ tombstoned) := by
  unfold walkOn
  obtain ⟨hn, hi, hu⟩ := m.seen_holds (keyMatches s curr w.key)
  split_ifs
  · rcases succ with _ | next
    · exact plain_lost
    · exact ⟨.inr hn, .inr hi, fun h => hu ▸ h, rfl⟩
  · rcases succ with _ | next
    · exact plain_lost
    · exact ⟨.inr rfl, .inr rfl, id, rfl⟩
  · exact plain_finishLevel

theorem plain_resume {k : Resume K} :
    Plain k.newNode? k.inserting? k.unmarked (resume MAX_LEVELS s k) := by
  rcases k with ⟨w, m, curr, succ, tombstoned⟩ | _
  · exact plain_walkOn
  · exact plain_idle

theorem plain_notDrained : Plain m.newNode? m.inserting? m.unmarked
    (notDrained MAX_LEVELS s w m curr succ tombstoned) := by
  unfold notDrained
  rcases m with c | ⟨topLevel, newNode, retries, softDeleted, failures⟩ |
    ⟨node, retries, softDeleted, failures⟩
  · exact plain_walkOn
  · dsimp only
    split_ifs
    · exact plain_startSearch (.inr rfl) (.inl rfl) (by simp [Mode.unmarked])
    · exact plain_walkOn (m := .insertAssist topLevel newNode retries softDeleted (failures + 1))
  · dsimp only
    split_ifs
    · exact plain_idle
    · exact plain_walkOn (m := .removeAssist node retries softDeleted (failures + 1))

theorem PredOk.zero {i : ℕ} {key : K} {n : Node} (h : PredOk known s i key n) :
    n = head ∨ Pub s 0 n := h.born.imp_right (·.zero)

theorem predOk_head {i : ℕ} {key : K} : PredOk known s i key head := ⟨.inl rfl, WithBot.bot_lt_coe _⟩

theorem startSearch_ok {c : Caller} (hc : CallerOk MAX_LEVELS s w.key c) :
    PcOk MAX_LEVELS known s (startSearch MAX_LEVELS w c) :=
  ⟨⟨predOk_head, fun _ h1 h2 => absurd h2 (Nat.not_le.2 h1),
    fun _ h1 h2 => absurd h2 (Nat.not_le.2 h1)⟩, hc, le_rfl⟩

theorem FoundOk.walk (hf : FoundOk MAX_LEVELS known s w) :
    WalkOk MAX_LEVELS known s { w with level := 0, pred := w.preds 0 } :=
  ⟨hf.preds 0 (Nat.zero_le _), fun i _ hi => hf.preds i hi, fun i _ hi => hf.succs i hi⟩

theorem markFrom_ok {node : Node} {level : ℕ} (hf : FoundOk MAX_LEVELS known s w)
    (ht : TargetOk s w.key level node) : PcOk MAX_LEVELS known s (markFrom w node level) := by
  unfold markFrom
  split_ifs with h
  · exact ⟨hf, ht, h⟩
  · obtain rfl : level = 0 := by omega
    exact ⟨hf.walk, ht⟩

theorem publishFrom_ok {i : Insertion} {level : ℕ} (hf : FoundOk MAX_LEVELS known s w)
    (hn : NewOk s w.key i.topLevel i.newNode) (ht : TopOk MAX_LEVELS i.topLevel)
    (hb : Pub s 0 i.newNode) (hl : 1 ≤ level) : PcOk MAX_LEVELS known s (publishFrom w i level) := by
  unfold publishFrom
  split_ifs with h
  · exact ⟨hf, hn, ht, hb, hl, h⟩
  · trivial

theorem keyMatches_iff {key : K} : keyMatches s curr key = true ↔ curr ≠ NIL ∧ s.key curr = key := by
  simp [keyMatches]

theorem keyBefore_iff {key : K} : keyBefore s curr key = true ↔ curr ≠ NIL ∧ s.key curr < key := by
  simp [keyBefore]

theorem succOk_of_not_before {i : ℕ} {key : K} (hon : On s i curr)
    (hk : ¬ keyBefore s curr key = true) : SuccOk s i key curr := by
  refine ⟨hon, ?_⟩
  rcases hon with rfl | hp
  · exact WithBot.coe_le_coe.2 le_top
  · rw [rank_of_pub hp]
    exact WithBot.coe_le_coe.2 (WithTop.coe_le_coe.2
      (not_lt.1 fun h => hk (keyBefore_iff.2 ⟨hp.ne_NIL, h⟩)))

theorem notFound_of_not_matches {i : ℕ} {key : K} (h : SuccOk s i key curr)
    (hm : ¬ keyMatches s curr key = true) :
    ((key : WithTop K) : WithBot (WithTop K)) < rank s curr := by
  refine lt_of_le_of_ne h.after fun he => ?_
  rcases h.on with rfl | hp
  · exact absurd (WithBot.coe_injective he) (WithTop.coe_ne_top)
  · rw [rank_of_pub hp] at he
    exact hm (keyMatches_iff.2 ⟨hp.ne_NIL, (WithTop.coe_injective (WithBot.coe_injective he)).symm⟩)

theorem searched_ok {c : Caller} (hf : FoundOk MAX_LEVELS known s w) (hc : CallerOk MAX_LEVELS s w.key c)
    (hcurr : w.succs 0 = curr) : PcOk MAX_LEVELS known s (searched s w c curr) := by
  subst hcurr
  unfold searched
  split
  · trivial
  · split_ifs with hm
    · trivial
    · exact ⟨hf, notFound_of_not_matches (hf.succs 0 (Nat.zero_le _)) hm, hc.1⟩
  · split_ifs with hm
    · trivial
    · exact ⟨hf, notFound_of_not_matches (hf.succs 0 (Nat.zero_le _)) hm, hc.1, hc.2 _ rfl⟩
  · exact ⟨hf, hc⟩
  · split_ifs with hm
    · obtain ⟨hn, hkey⟩ := keyMatches_iff.1 hm
      refine markFrom_ok hf ⟨hkey, (hf.succs 0 (Nat.zero_le _)).on.resolve_left hn, fun i h1 h2 => ?_⟩
      omega
    · trivial

theorem finishLevel_ok (hkn : Known known s) (hw : WalkOk MAX_LEVELS known s w)
    (hm : ModeOk MAX_LEVELS s w m) (hon : On s w.level curr) (hk : ¬ keyBefore s curr w.key = true) :
    PcOk MAX_LEVELS known s (finishLevel MAX_LEVELS s w m curr) := by
  have hsucc := succOk_of_not_before hon hk
  have hpreds : ∀ i, w.level ≤ i → i ≤ MAX_LEVELS →
      PredOk known s i w.key (Function.update w.preds w.level w.pred i) := fun i h1 h2 => by
    by_cases hi : i = w.level
    · subst hi
      simpa using hw.pred
    · simpa [hi] using hw.preds i (by omega) h2
  have hsuccs : ∀ i, w.level ≤ i → i ≤ MAX_LEVELS →
      SuccOk s i w.key (Function.update w.succs w.level curr i) := fun i h1 h2 => by
    by_cases hi : i = w.level
    · subst hi
      simpa using hsucc
    · simpa [hi] using hw.succs i (by omega) h2
  unfold finishLevel
  rcases m with c | ⟨topLevel, newNode, retries, softDeleted, failures⟩ |
    ⟨node, retries, softDeleted, failures⟩
  · dsimp only
    split_ifs with h0
    · refine searched_ok ⟨fun i hi => hpreds i (by omega) hi, fun i hi => hsuccs i (by omega) hi⟩
        hm.1 ?_
      simp [h0]
    · have hpred : PredOk known s (w.level - 1) w.key w.pred := by
        refine ⟨hw.pred.born.imp_right fun hp => hkn.down _ _ ?_, hw.pred.before⟩
        rwa [Nat.sub_add_cancel (Nat.pos_of_ne_zero h0)]
      refine ⟨⟨hpred, fun i h1 h2 => ?_, fun i h1 h2 => ?_⟩, hm.1, ?_⟩
      · dsimp only at h1
        exact hpreds i (by omega) h2
      · dsimp only at h1
        exact hsuccs i (by omega) h2
      · have := hm.2
        dsimp only
        omega
  · obtain ⟨ht, hn, h0⟩ := hm
    dsimp only
    split_ifs with h
    · trivial
    · refine ⟨⟨fun i hi => hpreds i (by omega) hi, fun i hi => hsuccs i (by omega) hi⟩, ?_, ht, hn⟩
      have := notFound_of_not_matches hsucc (fun hm => h (.inl hm))
      simpa [NotFound, h0] using this
  · obtain ⟨ht, h0⟩ := hm
    dsimp only
    split_ifs with h h'
    · trivial
    · exact startSearch_ok trivial
    · refine ⟨⟨h0 ▸ hw.pred, fun i hi h => hw.preds i (h0 ▸ hi) h, fun i hi h => ?_⟩, ht⟩
      exact hw.succs i (h0 ▸ hi) h

theorem lost_ok (hkn : Known known s) (hw : WalkOk MAX_LEVELS known s w) (hm : ModeOk MAX_LEVELS s w m) :
    PcOk MAX_LEVELS known s (lost MAX_LEVELS s w m) := by
  unfold lost
  rcases m with c | ⟨topLevel, newNode, retries, softDeleted, failures⟩ |
    ⟨node, retries, softDeleted, failures⟩
  · exact finishLevel_ok hkn hw hm (.inl rfl) (by simp [keyBefore])
  · obtain ⟨ht, hn, -⟩ := hm
    refine startSearch_ok ⟨ht, fun n h => ?_⟩
    cases h
    exact hn
  · exact startSearch_ok trivial

omit [LinearOrder K] in
theorem Mode.seen_ok {b : Bool} (hm : ModeOk MAX_LEVELS s w m) :
    ModeOk MAX_LEVELS s w (m.seen b) := by
  cases m <;> exact hm

omit [LinearOrder K] in
theorem ModeOk.move (hm : ModeOk MAX_LEVELS s w m) (n : Node) :
    ModeOk MAX_LEVELS s { w with pred := n } m := by
  cases m <;> exact hm

theorem walkOn_ok (hkn : Known known s) (hw : WalkOk MAX_LEVELS known s w) (hm : ModeOk MAX_LEVELS s w m)
    (hl : LoadedOk s w.level curr succ tombstoned) :
    PcOk MAX_LEVELS known s (walkOn MAX_LEVELS s w m curr succ tombstoned) := by
  unfold walkOn
  split_ifs with ht hk
  · obtain ⟨hp, hf⟩ := hl.frozen ht
    rcases succ with _ | next
    · exact lost_ok hkn hw hm
    · exact ⟨hw, Mode.seen_ok hm, ⟨hp, hf next rfl⟩, hl.next next rfl⟩
  · obtain ⟨hn, hlt⟩ := keyBefore_iff.1 hk
    have hp := hl.on.resolve_left hn
    have hrank : rank s curr < (w.key : WithTop K) := by
      rw [rank_of_pub hp]
      exact WithBot.coe_lt_coe.2 (WithTop.coe_lt_coe.2 hlt)
    have hw' : WalkOk MAX_LEVELS known s { w with pred := curr } :=
      ⟨⟨.inr (hkn.here _ _ hp), hrank⟩, hw.preds, hw.succs⟩
    rcases succ with _ | next
    · exact lost_ok hkn hw' (hm.move curr)
    · exact ⟨hw', hm.move curr, hl.next next rfl⟩
  · exact finishLevel_ok hkn hw hm hl.on hk

theorem resume_ok {k : Resume K} (hkn : Known known s) (hk : ResumeOk MAX_LEVELS known s k) :
    PcOk MAX_LEVELS known s (resume MAX_LEVELS s k) := by
  rcases k with ⟨w, m, curr, succ, tombstoned⟩ | _
  · exact walkOn_ok hkn hk.1 hk.2.1 hk.2.2
  · trivial

theorem notDrained_ok (hkn : Known known s) (hw : WalkOk MAX_LEVELS known s w) (hm : ModeOk MAX_LEVELS s w m)
    (hl : LoadedOk s w.level curr succ tombstoned) :
    PcOk MAX_LEVELS known s (notDrained MAX_LEVELS s w m curr succ tombstoned) := by
  unfold notDrained
  rcases m with c | ⟨topLevel, newNode, retries, softDeleted, failures⟩ |
    ⟨node, retries, softDeleted, failures⟩
  · exact walkOn_ok hkn hw hm hl
  · dsimp only
    split_ifs
    · obtain ⟨ht, hn, -⟩ := hm
      refine startSearch_ok ⟨ht, fun n h => ?_⟩
      cases h
      exact hn
    · exact walkOn_ok hkn hw hm hl
  · dsimp only
    split_ifs
    · trivial
    · exact walkOn_ok hkn hw hm hl

end Walk

/-- Links lead to published nodes; only published nodes are tombstoned, unlinked and retired. -/
structure Memory [LinearOrder K] (MAX_LEVELS : ℕ) (known : ℕ → ℕ) (s : State Tid K) : Prop where
  pcs : ∀ t, PcOk MAX_LEVELS known s (s.pc t)
  targets : ∀ n i m, (s.link n i).target = some m → On s i m
  published : ∀ n i, s.status n i ≠ .unpublished → Pub s i n
  tombstoned : ∀ n i, (s.link n i).tombstoned = true → Pub s 0 n
  off : ∀ n, s.status n 0 = .unlinked → (s.link n 0).tombstoned = true
  uncounted : ∀ n, s.status n 0 ≠ .counted
  retired : ∀ n, s.retirementEnqueued n = true → s.status n 0 = .unlinked
  aims : ∀ n, s.status n 0 = .linked →
    ∃ m, (s.link n 0).target = some m ∧ s.status m 0 ≠ .unlinked

section Loads

variable [LinearOrder K] {s : State Tid K} {stale : Bool} {n m : Node} {i : ℕ}

omit [LinearOrder K] in
theorem resolve_some {o : Option Node} (h : s.resolve stale o = some m) : o = some m := by
  unfold State.resolve at h
  split at h
  · cases h
  · split_ifs at h
    exact h

omit [LinearOrder K] in
theorem resolve_none {o : Option Node} (h : s.resolve stale o = none) :
    o = none ∨ ∃ m, o = some m ∧ s.retirementEnqueued m = true := by
  unfold State.resolve at h
  split at h
  · exact .inl rfl
  · rename_i m
    split_ifs at h with hs
    exact .inr ⟨m, rfl, hs.2⟩

theorem Memory.load (h : Memory MAX_LEVELS known s) (hm : s.resolve stale (s.link n i).target = some m) :
    On s i m := h.targets n i m (resolve_some hm)

theorem Memory.loaded (h : Memory MAX_LEVELS known s) (hn : On s i n) :
    LoadedOk s i n (s.resolve stale (s.link n i).target) (s.link n i).tombstoned := by
  refine ⟨hn, fun c hc => h.load hc, fun ht => ⟨hn.resolve_left ?_, fun c hc => ?_⟩⟩
  · rintro rfl
    exact (h.tombstoned _ i ht).ne_NIL rfl
  · have := resolve_some hc
    rw [← this, ← ht]

/-- The successor of a marked node is null only where the node is off the list. -/
theorem Memory.marked (h : Memory MAX_LEVELS known s) (hn : Pub s 0 n)
    (ht : (s.link n 0).tombstoned = true) :
    MarkedOk s n (s.resolve stale (s.link n 0).target) := by
  refine ⟨ht, fun c hc => ?_, fun hnone => ?_⟩
  · rw [← resolve_some hc, ← ht]
  · rcases h0 : s.status n 0 with _ | _ | _ | _
    · exact absurd h0 hn.level
    · obtain ⟨m, hm, hne⟩ := h.aims n h0
      rcases resolve_none hnone with hnull | ⟨m', hm', hr⟩
      · rw [hm] at hnull
        cases hnull
      · rw [hm] at hm'
        cases hm'
        exact absurd (h.retired m hr) hne
    · rfl
    · exact absurd h0 (h.uncounted n)

end Loads

/-- A thread's new place, where only its registers change. -/
structure Moves [LinearOrder K] (MAX_LEVELS : ℕ) (known : ℕ → ℕ) (s : State Tid K)
    (p p' : Pc K) : Prop where
  ok : PcOk MAX_LEVELS known s p'
  new : p'.newNode? = none ∨ p'.newNode? = p.newNode?
  inserting : p'.inserting? = none ∨ p'.inserting? = p.inserting?
  unmarked : p'.unmarked = true → p.unmarked = true
  reserved : p'.reserved? = p.reserved?
  checked : ∀ n, p'.checked? = some n → p.checked? = some n ∨
    ∃ i, 1 ≤ i ∧ i < s.topLevel n ∧ (s.link n i).tombstoned = false
  uncounts : p'.uncounts? = none ∧ p.uncounts? = none
  drained : ∀ n, p'.drained? = some n → p.drained? = some n ∨
    s.upperLevelsRemaining n ≤ 0 ∧ (s.link n 0).tombstoned = true
  retiring : p'.retiring? = none ∧ p.retiring? = none
  link : ∀ w topLevel n r b, p' = .linkBottom w topLevel n r b →
    ∃ b', p = .linkBottom w topLevel n r b'
  publish : ∀ w i b, p' = .publish w i b → (∃ b', p = .publish w i b') ∨
    (s.link i.newNode i.level).target = some (w.succs i.level)

/-- What one step of thread `t` can do. -/
inductive Effect [LinearOrder K] [DecidableEq Tid] (MAX_LEVELS : ℕ) (known : ℕ → ℕ)
    (s : State Tid K) (t : Tid) :
    State Tid K → Prop
  | move {p : Pc K} : Moves MAX_LEVELS known s (s.pc t) p → Effect MAX_LEVELS known s t (s.setPc t p)
  | callRemove {key} : s.pc t = .idle →
    Effect MAX_LEVELS known s t (({ s with marks := Function.update s.marks t 0 } : State Tid K).setPc t
      (startSearch MAX_LEVELS (.start key) .remove))
  | construct {w topLevel retries} : s.pc t = .allocate w topLevel retries →
    Effect MAX_LEVELS known s t ((s.construct s.fresh w.key topLevel).setPc t
      (.aimAll w topLevel s.fresh retries))
  | aimAll {w topLevel n retries} : s.pc t = .aimAll w topLevel n retries →
    Effect MAX_LEVELS known s t ((s.aimAll w topLevel n).setPc t (.linkBottom w topLevel n retries false))
  | aimBottom {w topLevel n retries} : s.pc t = .aimBottom w topLevel n retries →
    Effect MAX_LEVELS known s t ((s.setLink n 0 ⟨some (w.succs 0), false⟩).setPc t
      (.linkBottom w topLevel n retries false))
  | linkBottom {w topLevel n retries} : s.pc t = .linkBottom w topLevel n retries true →
    s.link (w.preds 0) 0 = ⟨some (w.succs 0), false⟩ →
    Effect MAX_LEVELS known s t ((((s.setLink (w.preds 0) 0 ⟨some n, false⟩).setStatus n 0
      .linked).record w.key true).setPc t (publishFrom w ⟨topLevel, n, 0, 0⟩ 1))
  | unlink {w m n curr succ tombstoned} : s.pc t = .unlink w m n curr succ tombstoned true →
    s.link w.pred w.level = ⟨some n, false⟩ →
    Effect MAX_LEVELS known s t (((s.setLink w.pred w.level ⟨some curr, false⟩).setStatus n w.level
      .unlinked).setPc t (if w.level = 0 then .storeUnlinked n (.walk w m curr succ tombstoned)
        else .uncount w m n curr succ tombstoned))
  | unlinkRemoved {w n succ} : s.pc t = .unlinkRemoved w n succ true →
    s.link w.pred 0 = ⟨some n, false⟩ →
    Effect MAX_LEVELS known s t (((s.setLink w.pred 0 ⟨succ, false⟩).setStatus n 0 .unlinked).setPc t
      (.storeUnlinked n .removed))
  | uncount {w m n curr succ tombstoned p} : s.pc t = .uncount w m n curr succ tombstoned →
    PcOk MAX_LEVELS known s p → Plain m.newNode? m.inserting? m.unmarked p →
    Effect MAX_LEVELS known s t (((s.addRemaining n (-1)).setStatus n w.level .counted).setPc t p)
  | storeUnlinked {n k} : s.pc t = .storeUnlinked n k →
    Effect MAX_LEVELS known s t (({ s with fullyUnlinked := Function.update s.fullyUnlinked n true } :
      State Tid K).setPc t (.claimRetire n k))
  | claimed {n k p} : s.pc t = .claimRetire n k → s.retirementEnqueued n = true →
    PcOk MAX_LEVELS known s p → Plain k.newNode? k.inserting? k.unmarked p →
    Effect MAX_LEVELS known s t (s.setPc t p)
  | claim {n k} : s.pc t = .claimRetire n k → s.retirementEnqueued n = false →
    Effect MAX_LEVELS known s t (({ s with
      retirementEnqueued := Function.update s.retirementEnqueued n true } : State Tid K).setPc t
        (.enqueue n k))
  | enqueue {n k p} : s.pc t = .enqueue n k → PcOk MAX_LEVELS known s p →
    Plain k.newNode? k.inserting? k.unmarked p →
    Effect MAX_LEVELS known s t (({ s with retired := s.retired ++ [n] } : State Tid K).setPc t p)
  | reserve {w i} : s.pc t = .reserve w i →
    Effect MAX_LEVELS known s t ((s.addRemaining i.newNode 1).setPc t (.loadOwn w i))
  | aimOwn {w i ownNext} : s.pc t = .aimOwn w i ownNext true →
    s.link i.newNode i.level = ⟨ownNext, false⟩ →
    Effect MAX_LEVELS known s t ((s.setLink i.newNode i.level ⟨some (w.succs i.level), false⟩).setPc t
      (.publish w i false))
  | publish {w i} : s.pc t = .publish w i true →
    s.link (w.preds i.level) i.level = ⟨some (w.succs i.level), false⟩ →
    Effect MAX_LEVELS known s t (((s.setLink (w.preds i.level) i.level ⟨some i.newNode, false⟩).setStatus
      i.newNode i.level .linked).setPc t (publishFrom w i (i.level + 1)))
  | unreserve {w i abandon p level} : s.pc t = .unreserve w i abandon → i.level ≤ level →
    PcOk MAX_LEVELS known s p → Plain none (some (i.newNode, level)) false p →
    Effect MAX_LEVELS known s t ((s.addRemaining i.newNode (-1)).setPc t p)
  | softDelete {w n level retries current} : s.pc t = .softDeleteCas w n level retries current →
    s.link n level = ⟨current, false⟩ →
    Effect MAX_LEVELS known s t ((s.setLink n level ⟨current, true⟩).setPc t
      (.recheckMark w n level retries))
  | markBottom {w n retries succ} : s.pc t = .markBottom w n retries succ true →
    s.link n 0 = ⟨succ, false⟩ →
    Effect MAX_LEVELS known s t (({ (s.setLink n 0 ⟨succ, true⟩).record w.key false with
      marks := Function.update s.marks t (s.marks t + 1) } : State Tid K).setPc t
        (.checkBottom w n retries true))

section Effect

variable [LinearOrder K] [DecidableEq Tid] {s s' : State Tid K} {t : Tid} {stale : Bool}

omit [DecidableEq Tid] in
/-- A walk goes on, with the mode the thread had. -/
theorem Plain.moves {p p' : Pc K} (hok : PcOk MAX_LEVELS known s p')
    (h : Plain p.newNode? p.inserting? p.unmarked p')
    (hp : p.reserved? = none ∧ p.uncounts? = none ∧ p.retiring? = none) :
    Moves MAX_LEVELS known s p p' := by
  obtain ⟨hr, hc, hu, hd, hrt, hl, hpu⟩ := free_of_plain h.plain
  refine ⟨hok, h.new, h.inserting, h.unmarked, hr.trans hp.1.symm, ?_, ⟨hu, hp.2.1⟩, ?_,
    ⟨hrt, hp.2.2⟩, fun w topLevel n r b hp => absurd hp (hl _ _ _ _ _),
    fun w i b hp => absurd hp (hpu _ _ _)⟩
  · simp [hc]
  · simp [hd]

omit [LinearOrder K] in
theorem holds_of_reserved {p : Pc K} {n : Node} (h : p.reserved? = some n) :
    p.newNode? = none ∧ p.unmarked = false ∧ p.uncounts? = none ∧ p.drained? = none
      ∧ p.retiring? = none
      ∧ ∀ w topLevel newNode retries loaded, p ≠ .linkBottom w topLevel newNode retries loaded := by
  cases p <;> cases h <;> exact ⟨rfl, rfl, rfl, rfl, rfl, by simp⟩

omit [DecidableEq Tid] in
/-- An `insert` goes on with its reservation. -/
theorem moves_reserved {p p' : Pc K} {n : Node} (hok : PcOk MAX_LEVELS known s p')
    (hp : p.reserved? = some n) (hp' : p'.reserved? = some n)
    (hi : p'.inserting? = p.inserting?)
    (hc : p'.checked? = none ∨ p'.checked? = p.checked? ∨
      ∃ i, 1 ≤ i ∧ i < s.topLevel n ∧ (s.link n i).tombstoned = false)
    (hpu : ∀ w i b, p' = .publish w i b → (∃ b', p = .publish w i b') ∨
      (s.link i.newNode i.level).target = some (w.succs i.level)) :
    Moves MAX_LEVELS known s p p' := by
  obtain ⟨-, -, hu, hd, hr, -⟩ := holds_of_reserved hp
  obtain ⟨hn', hm', hu', hd', hr', hl'⟩ := holds_of_reserved hp'
  refine ⟨hok, .inl hn', .inr hi, by simp [hm'], hp'.trans hp.symm, fun m hm => ?_, ⟨hu', hu⟩,
    by simp [hd'], ⟨hr', hr⟩, fun w topLevel n r b h => absurd h (hl' _ _ _ _ _), hpu⟩
  rcases hc with hc | hc | hc
  · rw [hc] at hm
    cases hm
  · exact .inl (hc ▸ hm)
  · have : p'.checked? = none ∨ p'.checked? = p'.reserved? := by
      cases p' <;> simp [Pc.checked?, Pc.reserved?]
    rw [hm, hp'] at this
    cases this.resolve_left (by simp)
    exact .inr hc

omit [LinearOrder K] [DecidableEq Tid] in
/-- That a predecessor is published at level 0 is known of every one. -/
theorem known_zero : Known (fun _ => 0) s := ⟨fun _ _ h => h.zero, fun _ _ h => h⟩

theorem walkStep_effect (hkn : Known known s) (hm : Memory MAX_LEVELS known s)
    (hs : walkStep MAX_LEVELS s t stale (s.pc t) = some s') : Effect MAX_LEVELS known s t s' := by
  have hok := hm.pcs t
  unfold walkStep at hs
  split at hs <;> rename_i hp <;> try rw [hp] at hok
  case h_1 w m =>
    cases hs
    refine .move ?_
    rw [hp]
    split
    · exact plain_lost.moves (lost_ok hkn hok.1 hok.2) ⟨rfl, rfl, rfl⟩
    · rename_i curr hcurr
      exact Plain.moves ⟨hok.1, hok.2, hm.load hcurr⟩ ⟨.inr rfl, .inr rfl, id, rfl⟩ ⟨rfl, rfl, rfl⟩
  case h_2 w m curr =>
    cases hs
    refine .move ?_
    rw [hp]
    exact plain_walkOn.moves (walkOn_ok hkn hok.1 hok.2.1 (hm.loaded hok.2.2)) ⟨rfl, rfl, rfl⟩
  case h_3 w m n curr =>
    cases hs
    obtain ⟨hw, hmo, ho, hon⟩ := hok
    refine .move ?_
    rw [hp]
    split_ifs with h0
    · exact Plain.moves ⟨hw, hmo, ho, hm.loaded hon⟩ ⟨.inr rfl, .inr rfl, id, rfl⟩ ⟨rfl, rfl, rfl⟩
    · exact ⟨⟨hw, hmo, ho, hm.loaded hon⟩, .inr rfl, .inr rfl, id, rfl, by simp [Pc.checked?],
        ⟨rfl, rfl⟩, by simp [Pc.drained?, h0], ⟨rfl, rfl⟩, by simp, by simp⟩
  case h_4 w m n curr succ tombstoned =>
    cases hs
    obtain ⟨hw, hmo, ho, hl⟩ := hok
    refine .move ?_
    rw [hp]
    split_ifs with hd
    · refine ⟨⟨hw, hmo, ho, hl⟩, .inr rfl, .inr rfl, id, rfl, by simp [Pc.checked?], ⟨rfl, rfl⟩,
        fun n' hn' => ?_, ⟨rfl, rfl⟩, by simp, by simp⟩
      simp only [Pc.drained?] at hn'
      split_ifs at hn' with h0
      cases hn'
      have := ho.frozen
      rw [h0] at this
      exact .inr ⟨hd, by rw [this]⟩
    · exact plain_notDrained.moves (notDrained_ok hkn hw hmo hl) ⟨rfl, rfl, rfl⟩
  case h_5 w m n curr succ tombstoned loaded =>
    cases hs
    obtain ⟨hw, hmo, ho, hl⟩ := hok
    unfold compareExchange
    by_cases he : s.link w.pred w.level = ⟨some n, false⟩
    · rw [if_pos he]
      cases loaded
      swap
      · exact .unlink hp he
      refine .move ?_
      rw [hp]
      exact ⟨⟨hw, hmo, ho, hl⟩, .inr rfl, .inr rfl, id, rfl, by simp [Pc.checked?], ⟨rfl, rfl⟩,
        fun n' hn' => .inl hn', ⟨rfl, rfl⟩, by simp, by simp⟩
    · rw [if_neg he]
      refine .move ?_
      rw [hp]
      exact plain_walkOn.moves (walkOn_ok hkn hw hmo hl) ⟨rfl, rfl, rfl⟩
  case h_6 w m n curr succ tombstoned =>
    cases hs
    exact .uncount hp (walkOn_ok hkn hok.1 hok.2.1 hok.2.2.2.1) plain_walkOn
  case h_7 n k =>
    cases hs
    exact .storeUnlinked hp
  case h_8 n k =>
    split_ifs at hs with hr <;> cases hs
    · exact .claimed hp hr (resume_ok hkn hok.2) plain_resume
    · exact .claim hp (by simpa using hr)
  case h_9 n k =>
    cases hs
    exact .enqueue hp (resume_ok hkn hok.2) plain_resume
  case h_10 => cases hs

theorem insertStep_effect (hm : Memory MAX_LEVELS known s)
    (hs : insertStep MAX_LEVELS s t stale (s.pc t) = some s') : Effect MAX_LEVELS known s t s' := by
  have hok := hm.pcs t
  unfold insertStep at hs
  split at hs <;> rename_i hp <;> try rw [hp] at hok
  case h_1 w topLevel n retries =>
    cases hs
    exact .aimAll hp
  case h_2 w topLevel n retries =>
    cases hs
    exact .aimBottom hp
  case h_3 w topLevel n retries loaded =>
    cases hs
    unfold compareExchange
    split_ifs with he hld hmax
    · subst hld
      exact .linkBottom hp he
    · refine .move ?_
      rw [hp]
      refine ⟨hok, .inr rfl, .inl rfl, by simp [Pc.unmarked], rfl, by simp [Pc.checked?],
        ⟨rfl, rfl⟩, by simp [Pc.drained?], ⟨rfl, rfl⟩, fun w' topLevel' n' r' b' h => ?_, by simp⟩
      cases h
      exact ⟨_, rfl⟩
    · exact .move (plain_idle.moves trivial (by rw [hp]; exact ⟨rfl, rfl, rfl⟩))
    · refine .move ?_
      rw [hp]
      exact Plain.moves ⟨hok.1, hok.2.2⟩ ⟨.inr rfl, .inl rfl, by simp [Pc.unmarked], rfl⟩
        ⟨rfl, rfl, rfl⟩
  case h_4 w topLevel n retries =>
    cases hs
    obtain ⟨hf, ht, hn⟩ := hok
    refine .move ?_
    rw [hp]
    split_ifs
    · refine Plain.moves (startSearch_ok ⟨ht, fun n' h => ?_⟩)
        (plain_startSearch (.inr rfl) (.inl rfl) (by simp [Mode.unmarked])) ⟨rfl, rfl, rfl⟩
      cases h
      exact hn
    · exact Plain.moves ⟨hf.walk, ht, hn, rfl⟩
        ⟨.inr rfl, .inl rfl, by simp [Pc.unmarked, Mode.unmarked], rfl⟩ ⟨rfl, rfl, rfl⟩
  case h_5 w i =>
    cases hs
    exact .reserve hp
  case h_6 w i =>
    cases hs
    obtain ⟨hf, hi⟩ := hok
    have hch : (s.link i.newNode i.level).tombstoned = false →
        ∃ j, 1 ≤ j ∧ j < s.topLevel i.newNode ∧ (s.link i.newNode j).tombstoned = false :=
      fun h => ⟨i.level, hi.level.1, hi.new.topLevel ▸ hi.level.2, h⟩
    refine .move ?_
    rw [hp]
    split_ifs with ht ha
    · exact moves_reserved ⟨hf, hi⟩ rfl rfl rfl (.inl rfl) (by simp)
    · refine moves_reserved ⟨hf, hi⟩ rfl rfl rfl (.inr (.inr (hch (by simpa using ht))))
        fun w' i' b' h => ?_
      cases h
      exact .inr (resolve_some ha)
    · exact moves_reserved ⟨hf, hi⟩ rfl rfl rfl (.inr (.inr (hch (by simpa using ht)))) (by simp)
  case h_7 w i ownNext loaded =>
    cases hs
    unfold compareExchange
    split_ifs with he hld
    · subst hld
      exact .aimOwn hp he
    · refine .move ?_
      rw [hp]
      exact moves_reserved hok rfl rfl rfl (.inr (.inl rfl)) (by simp)
    · refine .move ?_
      rw [hp]
      exact moves_reserved hok rfl rfl rfl (.inl rfl) (by simp)
  case h_8 w i loaded =>
    cases hs
    unfold compareExchange
    split_ifs with he hld
    · subst hld
      exact .publish hp he
    · refine .move ?_
      rw [hp]
      refine moves_reserved hok rfl rfl rfl (.inr (.inl rfl)) fun w' i' b' h => ?_
      cases h
      exact .inl ⟨_, rfl⟩
    · refine .move ?_
      rw [hp]
      exact moves_reserved hok rfl rfl rfl (.inl rfl) (by simp)
  case h_9 w i abandon =>
    cases hs
    obtain ⟨hf, hi⟩ := hok
    split_ifs
    · exact .unreserve hp le_rfl trivial plain_idle
    · refine .unreserve hp (Nat.le_succ _) (publishFrom_ok hf hi.new hi.top hi.born (by omega)) ?_
      unfold publishFrom
      split_ifs
      · exact ⟨.inl rfl, .inr rfl, by simp [Pc.unmarked], rfl⟩
      · exact plain_idle
    · exact .unreserve hp le_rfl (startSearch_ok ⟨hi.new, hi.top, hi.born, hi.level⟩)
        (plain_startSearch (.inl rfl) (.inr rfl) (by simp [Mode.unmarked]))
  case h_10 => cases hs

omit [LinearOrder K] [DecidableEq Tid] in
/-- The next level down, its link being tombstoned. -/
theorem TargetOk.down {key : K} {n : Node} {level : ℕ} (h : TargetOk s key level n)
    (ht : (s.link n level).tombstoned = true) : TargetOk s key (level - 1) n := by
  refine ⟨h.key, h.born, fun i hi hi' => ?_⟩
  by_cases he : i = level
  · exact he ▸ ht
  · exact h.marked i (by omega) hi'

theorem removeStep_effect (hm : Memory MAX_LEVELS known s)
    (hs : removeStep MAX_LEVELS s t stale (s.pc t) = some s') : Effect MAX_LEVELS known s t s' := by
  have hok := hm.pcs t
  -- a step to another place of the marking
  have marking : ∀ {p p' : Pc K}, PcOk MAX_LEVELS known s p' → p'.newNode? = none →
      p'.inserting? = none → p.unmarked = true → p'.plain = true → p.plain = true →
      Moves MAX_LEVELS known s p p' := by
    intro p p' h hn hi hu hpl' hpl
    obtain ⟨hr, -, hc, -, hrt, -, -⟩ := free_of_plain hpl
    exact Plain.moves h ⟨.inl hn, .inl hi, fun _ => hu, hpl'⟩ ⟨hr, hc, hrt⟩
  unfold removeStep at hs
  split at hs <;> rename_i hp <;> try rw [hp] at hok
  case h_1 w n level =>
    cases hs
    refine .move ?_
    rw [hp]
    split_ifs with ht
    · exact Plain.moves (markFrom_ok hok.1 (hok.2.1.down ht)) plain_markFrom ⟨rfl, rfl, rfl⟩
    · exact marking hok rfl rfl rfl rfl rfl
  case h_2 w n level retries =>
    cases hs
    refine .move ?_
    rw [hp]
    split_ifs <;> exact marking hok rfl rfl rfl rfl rfl
  case h_3 w n level retries current =>
    split_ifs at hs with he <;> cases hs
    · exact .softDelete hp he
    · refine .move ?_
      rw [hp]
      exact marking hok rfl rfl rfl rfl rfl
  case h_4 w n level retries =>
    cases hs
    refine .move ?_
    rw [hp]
    split_ifs with hr ht
    · exact Plain.moves (startSearch_ok trivial)
        (plain_startSearch (.inl rfl) (.inl rfl) fun _ => rfl) ⟨rfl, rfl, rfl⟩
    · exact Plain.moves (markFrom_ok hok.1 (hok.2.1.down ht)) plain_markFrom ⟨rfl, rfl, rfl⟩
    · exact marking hok rfl rfl rfl rfl rfl
  case h_5 w n retries =>
    cases hs
    refine .move ?_
    rw [hp]
    exact marking hok rfl rfl rfl rfl rfl
  case h_6 w n retries succ loaded =>
    cases hs
    unfold compareExchange
    split_ifs with he hld
    · subst hld
      exact .markBottom hp he
    · refine .move ?_
      rw [hp]
      exact marking hok rfl rfl rfl rfl rfl
    · refine .move ?_
      rw [hp]
      exact marking ⟨hok.1, hok.2, by simp⟩ rfl rfl rfl rfl rfl
  case h_7 w n retries success =>
    cases hs
    obtain ⟨hpr, htg, hsu⟩ := hok
    refine .move ?_
    rw [hp]
    split_ifs with h1 h2 h3
    · exact Plain.moves ⟨hpr, htg, hm.marked htg.born (hsu h1)⟩
        ⟨.inl rfl, .inl rfl, by simp [Pc.unmarked], rfl⟩ ⟨rfl, rfl, rfl⟩
    · exact plain_idle.moves trivial ⟨rfl, rfl, rfl⟩
    · exact plain_idle.moves trivial ⟨rfl, rfl, rfl⟩
    · exact Plain.moves ⟨hpr, htg, rfl⟩
        ⟨.inl rfl, .inl rfl, fun _ => by simpa [Pc.unmarked] using h1, rfl⟩ ⟨rfl, rfl, rfl⟩
  case h_8 w n succ =>
    cases hs
    obtain ⟨hpr, htg, hmk⟩ := hok
    refine .move ?_
    rw [hp]
    split_ifs with hd
    · refine ⟨⟨hpr, htg, hmk⟩, .inl rfl, .inl rfl, by simp [Pc.unmarked], rfl, by simp [Pc.checked?],
        ⟨rfl, rfl⟩, fun n' hn' => ?_, ⟨rfl, rfl⟩, by simp, by simp⟩
      cases hn'
      exact .inr ⟨hd, hmk.tombstoned⟩
    · exact plain_idle.moves trivial ⟨rfl, rfl, rfl⟩
  case h_9 w n succ loaded =>
    cases hs
    unfold compareExchange
    split_ifs with he hld
    · subst hld
      exact .unlinkRemoved hp he
    · refine .move ?_
      rw [hp]
      exact ⟨hok, .inl rfl, .inl rfl, by simp [Pc.unmarked], rfl, by simp [Pc.checked?], ⟨rfl, rfl⟩,
        fun n' hn' => .inl hn', ⟨rfl, rfl⟩, by simp, by simp⟩
    · exact .move (plain_idle.moves trivial (by rw [hp]; exact ⟨rfl, rfl, rfl⟩))
  case h_10 => cases hs

theorem step_effect [Inhabited K] (hkn : Known known s) (hm : Memory MAX_LEVELS known s) {a : Act K}
    (hs : step MAX_LEVELS s t a = some s') : Effect MAX_LEVELS known s t s' := by
  unfold step at hs
  split at hs
  case h_1 key hp =>
    cases hs
    refine .move ?_
    rw [hp]
    exact Plain.moves (startSearch_ok trivial)
      (plain_startSearch (.inl rfl) (.inl rfl) (by simp [Mode.unmarked])) ⟨rfl, rfl, rfl⟩
  case h_2 key topLevel hp =>
    split_ifs at hs with ht
    cases hs
    refine .move ?_
    rw [hp]
    exact Plain.moves (startSearch_ok ⟨ht, by simp⟩)
      (plain_startSearch (.inl rfl) (.inl rfl) (by simp [Mode.unmarked])) ⟨rfl, rfl, rfl⟩
  case h_3 key hp =>
    cases hs
    exact .callRemove hp
  case h_4 ok w topLevel retries hp =>
    cases hs
    unfold allocateStep
    split_ifs
    · exact .construct hp
    · exact .move (plain_idle.moves trivial (by rw [hp]; exact ⟨rfl, rfl, rfl⟩))
  case h_5 stale p =>
    simp only [Option.or_eq_some_iff] at hs
    rcases hs with hs | ⟨-, hs | ⟨-, hs⟩⟩
    · exact walkStep_effect hkn hm hs
    · exact insertStep_effect hm hs
    · exact removeStep_effect hm hs
  case h_6 => cases hs

end Effect

end MinStd.SkipList
