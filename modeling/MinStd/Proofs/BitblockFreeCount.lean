import MinStd.Proofs.BitblockClaims
import Mathlib.Algebra.BigOperators.Finprod
import Mathlib.Order.Interval.Finset.Nat

/-!
# The count of free elements

The count of a block and the elements it has been counted down for, and not yet up again, make up
the block (`Counted`).  A release clears its bits before it counts its elements up, so another call
may take them and count them down first, and then the two together may be more than the block has.
In a run in which nobody does (`InOrder`) all that is counted down for is apart (`Ordered`), inside
the block, and so is what a call counts down next: the count never wraps.
-/

namespace MinStd

open Function

/-- A sum in which one term has changed. -/
theorem finsum_change {τ : Type*} [DecidableEq τ] {f g : τ → ℕ} {t : τ}
    (hf : (support f).Finite) (h : ∀ u, u ≠ t → g u = f u) :
    (∑ᶠ u, g u) + f t = (∑ᶠ u, f u) + g t := by
  set S := insert t hf.toFinset with hS
  have hfS : support f ⊆ ↑S := by
    intro u hu
    simp only [hS, Finset.coe_insert, Set.Finite.coe_toFinset]
    exact .inr hu
  have hgS : support g ⊆ ↑S := by
    intro u hu
    rcases eq_or_ne u t with rfl | hut
    · simp [hS]
    · refine hfS ?_
      rw [mem_support] at hu ⊢
      rwa [← h u hut]
  have hrest : ∑ u ∈ S.erase t, g u = ∑ u ∈ S.erase t, f u :=
    Finset.sum_congr rfl fun u hu => h u (Finset.ne_of_mem_erase hu)
  have ht : t ∈ S := Finset.mem_insert_self ..
  rw [finsum_eq_sum_of_support_subset f hfS, finsum_eq_sum_of_support_subset g hgS,
    ← Finset.add_sum_erase S f ht, ← Finset.add_sum_erase S g ht, hrest]
  omega

end MinStd

namespace MinStd.BitblockResource

open Function BitblockSet

variable {τ : Type*} {P : Params}

/-- Where elements that are counted down for are: on their way out, or on their way back. -/
inductive Way
  | out
  | back
  deriving DecidableEq

/-- The elements a call has counted down for and not handed out, or is giving back and has not
counted up. -/
def Pc.entry (P : Params) (t : τ) : Pc τ → Option (Way × Claim τ)
  | .storeHint _ block index R => some (.out, ⟨block, index, R.numElements P, t⟩)
  | .finalize _ block index R => some (.out, ⟨block, index, R.numElements P, t⟩)
  | .storeCoreHint block index R => some (.out, ⟨block, index, R.numElements P, t⟩)
  | .handOut block index R => some (.out, ⟨block, index, R.numElements P, t⟩)
  | .releasing c _ => some (.back, c)
  | .addFree c _ => some (.back, c)
  | _ => none

/-- The claims have no element in common, by their ends. -/
def Misses (c c' : Claim τ) : Prop :=
  c.block = c'.block →
    c.index + c.numElements ≤ c'.index ∨ c'.index + c'.numElements ≤ c.index

/-- No call counts down for elements some of which another is giving back and has not counted up. -/
def InOrder (P : Params) (s : State τ) : Action τ → Prop
  | .run t _ _ =>
    match s.pc t with
    | .subFree _ block index R => ∀ u, ∀ e ∈ (s.pc u).entry P u, e.1 = .back →
      Misses ⟨block, index, R.numElements P, t⟩ e.2
    | _ => True
  | _ => True

/-- The elements of block `b` among those of a call. -/
def Pc.counted (P : Params) (b : ℕ) (t : τ) (p : Pc τ) : ℕ :=
  match p.entry P t with
  | some (_, c) => if c.block = b then c.numElements else 0
  | none => 0

/-- The elements of block `b` in the allocations. -/
def liveElements (s : State τ) (b : ℕ) : ℕ :=
  (s.live.map fun a => if a.claim.block = b then a.claim.numElements else 0).sum

/-- The elements of block `b` counted down for and not yet up again. -/
noncomputable def outstanding (P : Params) (s : State τ) (b : ℕ) : ℕ :=
  liveElements s b + ∑ᶠ t, (s.pc t).counted P b t

section Entries

variable {s s' : State τ} {t u : τ} {p : Pc τ} {b : ℕ} {R : Request} {w : Where} {c : Claim τ}

@[simp] theorem entry_enterOther (offset : ℕ) :
    (enterOther P R offset : Pc τ).entry P t = none := by
  unfold enterOther
  split_ifs <;> rfl

@[simp] theorem entry_enterChain : (enterChain P R : Pc τ).entry P t = none := by
  unfold enterChain
  split_ifs
  · exact entry_enterOther 1
  · rfl

@[simp] theorem entry_miss (next : Option ℕ) : (miss P w next R : Pc τ).entry P t = none := by
  unfold miss
  split <;> first | rfl | exact entry_enterChain | exact entry_enterOther _

@[simp] theorem entry_enterReserve (current : ℕ) :
    (enterReserve P current R : Pc τ).entry P t = none := by
  unfold enterReserve
  split_ifs
  · rfl
  · exact entry_enterOther 1

@[simp] theorem entry_enterBlock {block : ℕ} : (enterBlock P s w block R).entry P t = none := by
  unfold enterBlock
  split_ifs
  · exact entry_miss _
  · rfl

theorem block_of_entry {g : Way} (h : p.entry P t = some (g, c)) : c.block ∈ p.blocks := by
  unfold Pc.entry at h
  split at h <;> cases h <;> exact List.mem_cons_self

theorem claim_of_entry (sets : ℕ → BitblockSet.State τ) (h : p.entry P t = some (.out, c)) :
    c ∈ p.claim? P t sets := by
  unfold Pc.entry at h
  split at h <;> cases h <;> rfl

theorem counted_of_entry {g : Way} (h : p.entry P t = some (g, c)) :
    p.counted P b t = if c.block = b then c.numElements else 0 := by
  unfold Pc.counted
  rw [h]

theorem counted_of_none (h : p.entry P t = none) : p.counted P b t = 0 := by
  unfold Pc.counted
  rw [h]

/-- What the step of `t` does to the counts and to what is counted down for. -/
inductive Counts [DecidableEq τ] (P : Params) (s s' : State τ) (a : Action τ) (t : τ) : Prop
  | nothing : (s'.pc t).entry P t = (s.pc t).entry P t → s'.made = s.made →
      s'.freeCount = s.freeCount → s'.live = s.live → Counts P s s' a t
  | down {w : Where} {block index : ℕ} {R : Request} {spurious : Bool} {space : Option ℕ} :
      a = .run t spurious space → s.pc t = .subFree w block index R →
      (s'.pc t).entry P t = some (.out, ⟨block, index, R.numElements P, t⟩) → s'.made = s.made →
      s'.freeCount = update s.freeCount block
        ((s.freeCount block + COUNTS - R.numElements P) % COUNTS) →
      s'.live = s.live → Counts P s s' a t
  | handOut {c : Claim τ} {x : Allocation τ} : (s.pc t).entry P t = some (.out, c) →
      (s'.pc t).entry P t = none → s'.made = s.made → s'.freeCount = s.freeCount →
      x.claim = c → s'.live = x :: s.live → Counts P s s' a t
  | make {block : ℕ} : (s.pc t).entry P t = none → (s'.pc t).entry P t = none → block ∉ s.made →
      s'.made = block :: s.made → s'.freeCount = update s.freeCount block P.ELEMENTS_PER_BLOCK →
      s'.live = s.live → Counts P s s' a t
  | up {c : Claim τ} {coreId : ℕ} : s.pc t = .addFree c coreId → (s'.pc t).entry P t = none →
      s'.made = s.made →
      s'.freeCount = update s.freeCount c.block ((s.freeCount c.block + c.numElements) % COUNTS) →
      s'.live = s.live → Counts P s s' a t
  | back {x : Allocation τ} : (s.pc t).entry P t = none → x ∈ s.live →
      (s'.pc t).entry P t = some (.back, x.claim) → s'.made = s.made →
      s'.freeCount = s.freeCount → s'.live = s.live.erase x → Counts P s s' a t

variable [DecidableEq τ] {a : Action τ}

/-- A step of `t` is its own, and counts as one of these. -/
def Step (P : Params) (s s' : State τ) (a : Action τ) (t : τ) : Prop :=
  (∀ u, u ≠ t → s'.pc u = s.pc u) ∧ Counts P s s' a t

theorem step_nothing {q : Pc τ} (hp : s.pc t = q) (hpc : s'.pc = update s.pc t p)
    (hsame : p.entry P t = q.entry P t) (hmade : s'.made = s.made)
    (hcount : s'.freeCount = s.freeCount) (hlive : s'.live = s.live) : Step P s s' a t := by
  refine ⟨fun u hu => by rw [hpc, update_of_ne hu], .nothing ?_ hmade hcount hlive⟩
  rw [hpc, update_self, hp, hsame]

theorem step_stepSearch {spurious : Bool} (hs : stepSearch P s t spurious = some s') :
    Step P s s' a t := by
  unfold BitblockResource.stepSearch at hs
  split at hs <;> rename_i hp
  · -- loadCoreHint
    split at hs <;> obtain rfl := Option.some.inj hs
    · refine step_nothing hp rfl ?_ rfl rfl rfl
      split_ifs
      · exact entry_enterBlock
      · rfl
    · exact step_nothing hp rfl rfl rfl rfl rfl
  · -- loadArenaHint
    split at hs <;> obtain rfl := Option.some.inj hs
    · exact step_nothing hp rfl entry_enterBlock rfl rfl rfl
    · exact step_nothing hp rfl entry_enterChain rfl rfl rfl
  · -- loadFirst
    split at hs <;> obtain rfl := Option.some.inj hs <;>
      exact step_nothing hp rfl rfl rfl rfl rfl
  · -- reloadFirst
    split at hs
    · obtain rfl := Option.some.inj hs
      exact step_nothing hp rfl rfl rfl rfl rfl
    · cases hs
  · -- loadOther
    split at hs <;> obtain rfl := Option.some.inj hs
    · exact step_nothing hp rfl rfl rfl rfl rfl
    · exact step_nothing hp rfl (entry_enterOther _) rfl rfl rfl
  · -- loadFree
    split_ifs at hs <;> obtain rfl := Option.some.inj hs
    · exact step_nothing hp rfl (entry_miss _) rfl rfl rfl
    · exact step_nothing hp rfl rfl rfl rfl rfl
  · -- scan
    split at hs
    · obtain rfl := Option.some.inj hs
      exact step_nothing hp rfl rfl rfl rfl rfl
    · obtain rfl := Option.some.inj hs
      exact step_nothing hp rfl (entry_miss _) rfl rfl rfl
    · obtain ⟨z, -, rfl⟩ := Option.map_eq_some_iff.1 hs
      exact step_nothing (t := t) rfl (update_eq_self t s.pc).symm rfl rfl rfl rfl
  · cases hs

theorem step_stepFound {spurious : Bool} {space : Option ℕ} (ha : a = .run t spurious space)
    (hs : stepFound P s t = some s') : Step P s s' a t := by
  unfold BitblockResource.stepFound at hs
  split at hs <;> rename_i hp
  · -- subFree
    obtain rfl := Option.some.inj hs
    refine ⟨fun u hu => update_of_ne hu .., .down ha hp ?_ rfl rfl rfl⟩
    show (update s.pc t _ t).entry P t = _
    rw [update_self]
    rfl
  · obtain rfl := Option.some.inj hs
    exact step_nothing hp rfl rfl rfl rfl rfl
  · obtain rfl := Option.some.inj hs
    exact step_nothing hp rfl rfl rfl rfl rfl
  · obtain rfl := Option.some.inj hs
    exact step_nothing hp rfl rfl rfl rfl rfl
  · -- finalize
    obtain rfl := Option.some.inj hs
    refine step_nothing hp rfl ?_ rfl rfl rfl
    split_ifs <;> rfl
  · obtain rfl := Option.some.inj hs
    exact step_nothing hp rfl rfl rfl rfl rfl
  · -- handOut
    rename_i block index R
    obtain rfl := Option.some.inj hs
    refine ⟨fun u hu => update_of_ne hu .., .handOut (x := allocation P t block index R)
      (c := ⟨block, index, R.numElements P, t⟩) (by rw [hp]; rfl) ?_ rfl rfl rfl rfl⟩
    show (update s.pc t _ t).entry P t = _
    rw [update_self]
    rfl
  · cases hs

theorem step_stepAdd {spurious : Bool} {space : Option ℕ}
    (hs : stepAdd P s t spurious space = some s') : Step P s s' a t := by
  unfold BitblockResource.stepAdd at hs
  split at hs <;> rename_i hp
  · -- reserveLoad
    obtain rfl := Option.some.inj hs
    exact step_nothing hp rfl (entry_enterReserve _) rfl rfl rfl
  · -- reserveSwap
    split_ifs at hs <;> obtain rfl := Option.some.inj hs
    · exact step_nothing hp rfl rfl rfl rfl rfl
    · exact step_nothing hp rfl (entry_enterReserve _) rfl rfl rfl
  · -- upstream
    split at hs
    · obtain rfl := Option.some.inj hs
      exact step_nothing hp rfl rfl rfl rfl rfl
    · split_ifs at hs with hfresh
      obtain rfl := Option.some.inj hs
      refine ⟨fun u hu => update_of_ne hu .., .make (by rw [hp]; rfl) ?_ (not_made_of_fresh hfresh)
        rfl rfl rfl⟩
      show (update s.pc t _ t).entry P t = _
      rw [update_self]
      rfl
  · -- releaseReservation
    obtain rfl := Option.some.inj hs
    exact step_nothing hp rfl (entry_enterOther _) rfl rfl rfl
  · obtain rfl := Option.some.inj hs
    exact step_nothing hp rfl rfl rfl rfl rfl
  · split_ifs at hs <;> obtain rfl := Option.some.inj hs <;>
      exact step_nothing hp rfl rfl rfl rfl rfl
  · cases hs

theorem step_stepFree {spurious : Bool} (hs : stepFree P s t spurious = some s') :
    Step P s s' a t := by
  unfold BitblockResource.stepFree at hs
  split at hs <;> rename_i hp
  · -- releasing
    split at hs
    · obtain rfl := Option.some.inj hs
      exact step_nothing hp rfl rfl rfl rfl rfl
    · obtain ⟨z, -, rfl⟩ := Option.map_eq_some_iff.1 hs
      exact step_nothing (t := t) rfl (update_eq_self t s.pc).symm rfl rfl rfl rfl
  · -- addFree
    obtain rfl := Option.some.inj hs
    refine ⟨fun u hu => update_of_ne hu .., .up hp ?_ rfl rfl rfl⟩
    show (update s.pc t _ t).entry P t = _
    rw [update_self]
    rfl
  · obtain rfl := Option.some.inj hs
    exact step_nothing hp rfl rfl rfl rfl rfl
  · obtain rfl := Option.some.inj hs
    exact step_nothing hp rfl rfl rfl rfl rfl
  · cases hs

theorem step_cases (hC : Claims P s) (hs : step P s a = some s') : ∃ t, Step P s s' a t := by
  cases a with
  | allocate t R =>
    refine ⟨t, ?_⟩
    simp only [BitblockResource.step] at hs
    split_ifs at hs with hp <;> obtain rfl := Option.some.inj hs <;>
      exact step_nothing hp rfl rfl rfl rfl rfl
  | deallocate t a coreId =>
    refine ⟨t, ?_⟩
    simp only [BitblockResource.step] at hs
    split_ifs at hs with hp
    obtain ⟨hp, ha⟩ := hp
    obtain rfl := Option.some.inj hs
    rw [(hC.formed a ha).fromHeader]
    refine ⟨fun u hu => update_of_ne hu .., .back (by rw [hp]; rfl) ha ?_ rfl rfl rfl⟩
    show (update s.pc t _ t).entry P t = _
    rw [update_self]
    rfl
  | deallocateNull t =>
    refine ⟨t, ?_⟩
    simp only [BitblockResource.step] at hs
    split_ifs at hs with hp
    obtain rfl := Option.some.inj hs
    exact step_nothing hp rfl rfl rfl rfl rfl
  | write a x value =>
    simp only [BitblockResource.step] at hs
    split_ifs at hs
    obtain rfl := Option.some.inj hs
    exact ⟨a.claim.owner, fun _ _ => rfl, .nothing rfl rfl rfl rfl⟩
  | run t spurious space =>
    refine ⟨t, ?_⟩
    rcases stepRun_cases hs with ⟨hp, rfl⟩ | hs | hs | hs | hs
    · rcases hp with ⟨R, hp⟩ | hp <;> exact step_nothing hp rfl rfl rfl rfl rfl
    · exact step_stepSearch hs
    · exact step_stepFound rfl hs
    · exact step_stepAdd hs
    · exact step_stepFree hs

end Entries

/-! ### What is counted down for is apart -/

section Apart

variable {s s' : State τ} {t u : τ} {b : ℕ} {c c' : Claim τ}

theorem Misses.apart (h : Misses c c') : Apart c c' := by
  rintro heq k ⟨h1, h2⟩ ⟨h3, h4⟩
  rcases h heq with hle | hle <;> omega

/-- What is given back and not counted up is inside its block, and apart from what else is counted
down for. -/
structure Ordered (P : Params) (s : State τ) : Prop where
  inside : ∀ t c, (s.pc t).entry P t = some (.back, c) →
    c.index + c.numElements ≤ P.ELEMENTS_PER_BLOCK
  live : ∀ t c, (s.pc t).entry P t = some (.back, c) → ∀ a ∈ s.live, Apart c a.claim
  others : ∀ t c, (s.pc t).entry P t = some (.back, c) →
    ∀ u g c', u ≠ t → (s.pc u).entry P u = some (g, c') → Apart c c'

/-- A step after which the entry of `t` is gone, or is as it was. -/
theorem Ordered.keep (h : Ordered P s) (hothers : ∀ u, u ≠ t → s'.pc u = s.pc u)
    (hmine : (s'.pc t).entry P t = none ∨ (s'.pc t).entry P t = (s.pc t).entry P t)
    (hlive : ∀ u c, (s'.pc u).entry P u = some (.back, c) → ∀ a ∈ s'.live, Apart c a.claim) :
    Ordered P s' := by
  have before : ∀ {u e}, (s'.pc u).entry P u = some e → (s.pc u).entry P u = some e := by
    intro u e he
    rcases eq_or_ne u t with rfl | hu
    · rcases hmine with hnone | hsame
      · rw [hnone] at he
        cases he
      · rwa [hsame] at he
    · rwa [hothers u hu] at he
  exact ⟨fun u c hc => h.inside u c (before hc), hlive, fun u c hc v g c' hne hc' =>
    h.others u c (before hc) v g c' hne (before hc')⟩

variable [DecidableEq τ]

theorem Ordered.step {a : Action τ} (h : Ordered P s) (hC : Claims P s) (hin : InOrder P s a)
    (hstep : Step P s s' a t) : Ordered P s' := by
  obtain ⟨hothers, hcounts⟩ := hstep
  have old : ∀ {u e}, u ≠ t → (s'.pc u).entry P u = some e → (s.pc u).entry P u = some e :=
    fun hu he => by rwa [hothers _ hu] at he
  cases hcounts with
  | nothing hsame hmade hcount hlive =>
    refine h.keep hothers (.inr hsame) fun u c hc => ?_
    rw [hlive]
    refine h.live u c ?_
    rcases eq_or_ne u t with rfl | hu
    · rwa [hsame] at hc
    · exact old hu hc
  | @down w block index R spurious space ha hp hnew hmade hcount hlive =>
    subst ha
    simp only [InOrder, hp] at hin
    have hu : ∀ {u c}, (s'.pc u).entry P u = some (.back, c) → u ≠ t := by
      rintro u c hc rfl
      rw [hnew] at hc
      cases hc
    refine ⟨fun u c hc => h.inside u c (old (hu hc) hc), fun u c hc => ?_,
      fun u c hc v g c' hne hc' => ?_⟩
    · rw [hlive]
      exact h.live u c (old (hu hc) hc)
    · rcases eq_or_ne v t with rfl | hv
      · rw [hnew] at hc'
        cases hc'
        exact (hin u _ (old (hu hc) hc) rfl).apart.symm
      · exact h.others u c (old (hu hc) hc) v g c' hne (old hv hc')
  | @handOut c₀ a' hold hnew hmade hcount hclaim hlive =>
    refine h.keep hothers (.inl hnew) fun u c hc a ha => ?_
    have hu : u ≠ t := by
      rintro rfl
      rw [hnew] at hc
      cases hc
    rw [hlive] at ha
    rcases List.mem_cons.1 ha with rfl | ha
    · rw [hclaim]
      exact h.others u c (old hu hc) t .out c₀ hu.symm hold
    · exact h.live u c (old hu hc) a ha
  | make hold hnew hfresh hmade hcount hlive =>
    refine h.keep hothers (.inl hnew) fun u c hc => ?_
    rw [hlive]
    refine h.live u c (old ?_ hc)
    rintro rfl
    rw [hnew] at hc
    cases hc
  | up hp hnew hmade hcount hlive =>
    refine h.keep hothers (.inl hnew) fun u c hc => ?_
    rw [hlive]
    refine h.live u c (old ?_ hc)
    rintro rfl
    rw [hnew] at hc
    cases hc
  | @back a' hold ha hnew hmade hcount hlive =>
    have mine : ∀ {c}, (s'.pc t).entry P t = some (.back, c) → c = a'.claim := by
      intro c hc
      rw [hnew] at hc
      cases hc
      rfl
    -- what the allocation was apart from, its return is apart from
    have apart : ∀ u g c', u ≠ t → (s'.pc u).entry P u = some (g, c') → Apart a'.claim c' := by
      intro u g c' hu hc'
      cases g with
      | out => exact (hC.pendingApart u c' (claim_of_entry _ (old hu hc')) a' ha).symm
      | back => exact (h.live u c' (old hu hc') a' ha).symm
    refine ⟨fun u c hc => ?_, fun u c hc a₁ ha₁ => ?_, fun u c hc v g c' hne hc' => ?_⟩
    · rcases eq_or_ne u t with rfl | hu
      · rw [mine hc]
        exact (hC.live a' ha).fits
      · exact h.inside u c (old hu hc)
    · rw [hlive] at ha₁
      rcases eq_or_ne u t with rfl | hu
      · rw [mine hc]
        exact (List.pairwise_cons.1 (hC.perm ha)).1 a₁ ha₁
      · exact h.live u c (old hu hc) a₁ (List.mem_of_mem_erase ha₁)
    · rcases eq_or_ne u t with rfl | hu
      · rw [mine hc]
        exact apart v g c' hne hc'
      · rcases eq_or_ne v t with rfl | hv
        · rw [hnew] at hc'
          cases hc'
          exact h.live u c (old hu hc) a' ha
        · exact h.others u c (old hu hc) v g c' hne (old hv hc')

/-- The elements of block `b` in a claim. -/
def Claim.elements (b : ℕ) (c : Claim τ) : Finset ℕ :=
  if c.block = b then Finset.Ico c.index (c.index + c.numElements) else ∅

omit [DecidableEq τ] in
theorem card_elements : (c.elements b).card = if c.block = b then c.numElements else 0 := by
  unfold Claim.elements
  split_ifs
  · rw [Nat.card_Ico, Nat.add_sub_cancel_left]
  · rfl

omit [DecidableEq τ] in
theorem Apart.disjoint (h : Apart c c') : Disjoint (c.elements b) (c'.elements b) := by
  unfold Claim.elements
  split_ifs with hb hb'
  · refine Finset.disjoint_left.2 fun k hk hk' => ?_
    exact h (hb.trans hb'.symm) k (Finset.mem_Ico.1 hk) (Finset.mem_Ico.1 hk')
  · exact Finset.disjoint_empty_right _
  · exact Finset.disjoint_empty_left _
  · exact Finset.disjoint_empty_left _

omit [DecidableEq τ] in
theorem elements_subset (h : c.index + c.numElements ≤ P.ELEMENTS_PER_BLOCK) :
    c.elements b ⊆ Finset.range P.ELEMENTS_PER_BLOCK := by
  unfold Claim.elements
  split_ifs
  · intro k hk
    have := Finset.mem_Ico.1 hk
    exact Finset.mem_range.2 (by omega)
  · exact Finset.empty_subset _

/-- The elements of block `b` in a call's entry. -/
def Pc.elements (P : Params) (b : ℕ) (t : τ) (p : Pc τ) : Finset ℕ :=
  match p.entry P t with
  | some (_, c) => c.elements b
  | none => ∅

omit [DecidableEq τ] in
theorem card_pc_elements {p : Pc τ} : (p.elements P b t).card = p.counted P b t := by
  unfold Pc.elements Pc.counted
  split
  · exact card_elements
  · rfl

omit [DecidableEq τ] in
theorem mem_pc_elements {p : Pc τ} {k : ℕ} (h : k ∈ p.elements P b t) :
    ∃ g c, p.entry P t = some (g, c) ∧ k ∈ c.elements b := by
  unfold Pc.elements at h
  split at h
  · exact ⟨_, _, ‹_›, h⟩
  · cases h

theorem Claims.entry_apart (hC : Claims P s) (h : Ordered P s) {g g' : Way} (hne : u ≠ t)
    (hc : (s.pc t).entry P t = some (g, c)) (hc' : (s.pc u).entry P u = some (g', c')) :
    Apart c c' := by
  cases g with
  | back => exact h.others t c hc u g' c' hne hc'
  | out =>
    cases g' with
    | back => exact (h.others u c' hc' t .out c hne.symm hc).symm
    | out =>
      have hcl := claim_of_entry s.sets hc
      have hcl' := claim_of_entry s.sets hc'
      refine hC.apart_of_ne (hC.pending t c hcl) (hC.pending u c' hcl') ?_
      rw [owner_of_claim hcl, owner_of_claim hcl']
      exact hne.symm

theorem Claims.entry_inside (hC : Claims P s) (h : Ordered P s) {g : Way}
    (hc : (s.pc t).entry P t = some (g, c)) :
    c.index + c.numElements ≤ P.ELEMENTS_PER_BLOCK := by
  cases g with
  | back => exact h.inside t c hc
  | out => exact (hC.pending t c (claim_of_entry _ hc)).fits

theorem Claims.entry_live (hC : Claims P s) (h : Ordered P s) {g : Way}
    (hc : (s.pc t).entry P t = some (g, c)) {a : Allocation τ} (ha : a ∈ s.live) :
    Apart c a.claim := by
  cases g with
  | back => exact h.live t c hc a ha
  | out => exact hC.pendingApart t c (claim_of_entry _ hc) a ha

/-- The elements of the allocations, each in one of them. -/
theorem Claims.card_live (hC : Claims P s) (b : ℕ) :
    (s.live.toFinset.biUnion fun a => a.claim.elements b).card = liveElements s b := by
  have hnodup : s.live.Nodup := by
    refine hC.apart.imp_of_mem fun {a a'} ha _ hapart heq => ?_
    have hpos := (hC.live a ha).pos
    subst heq
    exact hapart rfl a.claim.index ⟨le_rfl, by omega⟩ ⟨le_rfl, by omega⟩
  have hdisjoint : ∀ a ∈ s.live, ∀ a' ∈ s.live, a ≠ a' →
      Disjoint (a.claim.elements b) (a'.claim.elements b) := by
    intro a ha a' ha' hne
    have hmem : a' ∈ s.live.erase a := (List.mem_erase_of_ne hne.symm).2 ha'
    exact ((List.pairwise_cons.1 (hC.perm ha)).1 a' hmem).disjoint
  rw [Finset.card_biUnion fun a ha a' ha' hne => hdisjoint a (List.mem_toFinset.1 ha) a'
    (List.mem_toFinset.1 ha') hne]
  unfold liveElements
  rw [← List.sum_toFinset _ hnodup]
  exact Finset.sum_congr rfl fun a _ => card_elements

/-- What is counted down for, and more elements apart from it, are no more than the block has. -/
theorem Ordered.outstanding_add_le (h : Ordered P s) (hC : Claims P s)
    (hbusy : {t | s.pc t ≠ .idle}.Finite) (hfits : c.index + c.numElements ≤ P.ELEMENTS_PER_BLOCK)
    (hlive : ∀ a ∈ s.live, Apart c a.claim)
    (hentries : ∀ u g c', (s.pc u).entry P u = some (g, c') → Apart c c') :
    outstanding P s c.block + c.numElements ≤ P.ELEMENTS_PER_BLOCK := by
  set b := c.block with hb
  set L := s.live.toFinset.biUnion fun a => a.claim.elements b with hL
  set T := hbusy.toFinset.biUnion fun u => (s.pc u).elements P b u with hT
  have hcardT : T.card = ∑ᶠ u, (s.pc u).counted P b u := by
    rw [hT, Finset.card_biUnion fun u _ v _ huv => ?_]
    · rw [finsum_eq_sum_of_support_subset (s := hbusy.toFinset) _ fun u hu => ?_]
      · exact Finset.sum_congr rfl fun u _ => card_pc_elements
      · rw [Set.Finite.coe_toFinset]
        rintro (hidle : s.pc u = .idle)
        refine hu (counted_of_none ?_)
        rw [hidle]
        rfl
    · refine Finset.disjoint_left.2 fun k hk hk' => ?_
      obtain ⟨g, c₁, h1, hk⟩ := mem_pc_elements hk
      obtain ⟨g', c₂, h2, hk'⟩ := mem_pc_elements hk'
      exact Finset.disjoint_left.1 (hC.entry_apart h huv.symm h1 h2).disjoint hk hk'
  have hLT : Disjoint L T := by
    refine Finset.disjoint_left.2 fun k hk hk' => ?_
    obtain ⟨a, ha, hk⟩ := Finset.mem_biUnion.1 hk
    obtain ⟨u, -, hk'⟩ := Finset.mem_biUnion.1 hk'
    obtain ⟨g, c₁, h1, hk'⟩ := mem_pc_elements hk'
    exact Finset.disjoint_left.1 (hC.entry_live h h1 (List.mem_toFinset.1 ha)).disjoint hk' hk
  have hmore : Disjoint (L ∪ T) (c.elements b) := by
    refine Finset.disjoint_left.2 fun k hk hkc => ?_
    rcases Finset.mem_union.1 hk with hk | hk
    · obtain ⟨a, ha, hk⟩ := Finset.mem_biUnion.1 hk
      exact Finset.disjoint_left.1 (hlive a (List.mem_toFinset.1 ha)).disjoint hkc hk
    · obtain ⟨u, -, hk⟩ := Finset.mem_biUnion.1 hk
      obtain ⟨g, c₁, h1, hk⟩ := mem_pc_elements hk
      exact Finset.disjoint_left.1 (hentries u g c₁ h1).disjoint hkc hk
  have hin : (L ∪ T) ∪ c.elements b ⊆ Finset.range P.ELEMENTS_PER_BLOCK := by
    refine Finset.union_subset (Finset.union_subset ?_ ?_) (elements_subset hfits)
    · exact Finset.biUnion_subset.2 fun a ha =>
        elements_subset (hC.live a (List.mem_toFinset.1 ha)).fits
    · refine Finset.biUnion_subset.2 fun u _ k hk => ?_
      obtain ⟨g, c₁, h1, hk⟩ := mem_pc_elements hk
      exact elements_subset (hC.entry_inside h h1) hk
  have hcard := Finset.card_le_card hin
  rw [Finset.card_union_of_disjoint hmore, Finset.card_union_of_disjoint hLT, hL,
    hC.card_live, hcardT, card_elements, if_pos hb.symm, Finset.card_range] at hcard
  exact hcard

end Apart

/-! ### The count and what is counted down for -/

structure Counted (P : Params) (s : State τ) : Prop where
  busy : {t | s.pc t ≠ .idle}.Finite
  balance : ∀ b ∈ s.made, s.freeCount b + outstanding P s b = P.ELEMENTS_PER_BLOCK

section Counted

variable {s s' : State τ} {t : τ} {b : ℕ} {R : Request} {w : Where} {c : Claim τ}

theorem Counted.support (h : Counted P s) (b : ℕ) :
    (support fun u => (s.pc u).counted P b u).Finite := by
  refine h.busy.subset fun u hu hidle => hu ?_
  refine counted_of_none ?_
  rw [hidle]
  rfl

theorem liveElements_of_not_made (h : ∀ a ∈ s.live, a.claim.block ≠ b) : liveElements s b = 0 := by
  unfold liveElements
  rw [List.sum_eq_zero_iff]
  intro n hn
  obtain ⟨a, ha, rfl⟩ := List.mem_map.1 hn
  exact if_neg (h a ha)

/-- What a call counts down for is not counted down for yet. -/
theorem Counted.sub (h : Counted P s) {block n : ℕ} (hb : block ∈ s.made)
    (hle : outstanding P s block + n ≤ P.ELEMENTS_PER_BLOCK) :
    (s.freeCount block + COUNTS - n) % COUNTS + n = s.freeCount block := by
  have hbal := h.balance block hb
  have hlt := P.elements_lt
  rw [show s.freeCount block + COUNTS - n = s.freeCount block - n + COUNTS by omega,
    Nat.add_mod_right, Nat.mod_eq_of_lt (by omega)]
  omega

/-- What a call counts up has been counted down for. -/
theorem Counted.add (h : Counted P s) {coreId : ℕ} (hb : c.block ∈ s.made)
    (hp : s.pc t = .addFree c coreId) :
    s.freeCount c.block + c.numElements ≤ P.ELEMENTS_PER_BLOCK := by
  have hbal := h.balance c.block hb
  have hle : (s.pc t).counted P c.block t ≤ ∑ᶠ u, (s.pc u).counted P c.block u :=
    single_le_finsum t (h.support c.block) fun _ => Nat.zero_le _
  have hmine : (s.pc t).counted P c.block t = c.numElements := by
    rw [hp]
    exact if_pos rfl
  unfold outstanding at hbal
  omega

variable [DecidableEq τ]

/-- What a step of `t` changes of a block's count it changes of what is counted down for. -/
theorem Counted.change (h : Counted P s) (hpc : ∀ u, u ≠ t → s'.pc u = s.pc u)
    (hb : ∀ b ∈ s'.made, b ∈ s.made ∧
        s'.freeCount b + liveElements s' b + (s'.pc t).counted P b t
          = s.freeCount b + liveElements s b + (s.pc t).counted P b t
      ∨ s'.freeCount b = P.ELEMENTS_PER_BLOCK ∧ outstanding P s' b = 0) :
    Counted P s' := by
  refine ⟨(h.busy.insert t).subset fun u hu => ?_, fun b hmade => ?_⟩
  · rcases eq_or_ne u t with rfl | hut
    · exact .inl rfl
    · refine .inr ?_
      show s.pc u ≠ .idle
      rwa [← hpc u hut]
  · rcases hb b hmade with ⟨hold, hsum⟩ | ⟨hcount, hnone⟩
    · have hchange := finsum_change (g := fun u => (s'.pc u).counted P b u) (t := t) (h.support b)
        fun u hu => by rw [hpc u hu]
      have hbal := h.balance b hold
      unfold outstanding at hbal ⊢
      omega
    · rw [hcount, hnone, Nat.add_zero]

/-- A call that counts down in order finds its elements among those not counted down for. -/
theorem Counted.down (h : Counted P s) (hC : Claims P s) (ho : Ordered P s) {block index : ℕ}
    (hp : s.pc t = .subFree w block index R) {spurious : Bool} {space : Option ℕ}
    (hin : InOrder P s (.run t spurious space)) :
    outstanding P s block + R.numElements P ≤ P.ELEMENTS_PER_BLOCK := by
  have hcl : (⟨block, index, R.numElements P, t⟩ : Claim τ) ∈ (s.pc t).claim? P t s.sets := by
    rw [hp]
    rfl
  have hok := hC.pending t _ hcl
  simp only [InOrder, hp] at hin
  refine ho.outstanding_add_le hC h.busy hok.fits (hC.pendingApart t _ hcl) fun u g c' hc' => ?_
  cases g with
  | back => exact (hin u _ hc' rfl).apart
  | out =>
    have hcl' := claim_of_entry s.sets hc'
    refine hC.apart_of_ne hok (hC.pending u c' hcl') ?_
    rw [owner_of_claim hcl']
    rintro rfl
    rw [hp] at hc'
    cases hc'

theorem Counted.step {a : Action τ} (h : Counted P s) (hS : Sound P s) (ho : Ordered P s)
    (hin : InOrder P s a) (hstep : Step P s s' a t) : Counted P s' := by
  have hC := hS.claims
  have hmine := hS.blocks.pointers.pc
  obtain ⟨hothers, hcounts⟩ := hstep
  cases hcounts with
  | nothing hsame hmade hcount hlive =>
    refine h.change hothers fun b hb => .inl ⟨hmade ▸ hb, ?_⟩
    unfold liveElements Pc.counted
    rw [hcount, hlive, hsame]
  | @down w block index R spurious space ha hp hnew hmade hcount hlive =>
    subst ha
    have hb : block ∈ s.made := by
      refine hmine t block ?_
      rw [hp]
      exact List.mem_cons_self
    have hsub := h.sub hb (h.down hC ho hp hin)
    have hnone : (s.pc t).entry P t = none := by
      rw [hp]
      rfl
    refine h.change hothers fun b hb => .inl ⟨hmade ▸ hb, ?_⟩
    rw [counted_of_entry hnew, counted_of_none hnone, hcount]
    dsimp only
    unfold liveElements
    rw [hlive]
    rcases eq_or_ne block b with rfl | hne
    · rw [update_self, if_pos rfl]
      omega
    · rw [update_of_ne hne.symm, if_neg hne]
  | @handOut c a' hold hnew hmade hcount hclaim hlive =>
    refine h.change hothers fun b hb => .inl ⟨hmade ▸ hb, ?_⟩
    rw [counted_of_none hnew, counted_of_entry hold, hcount]
    unfold liveElements
    rw [hlive, List.map_cons, List.sum_cons, hclaim]
    omega
  | @make block hold hnew hfresh hmade hcount hlive =>
    refine h.change hothers fun b hb => ?_
    rcases eq_or_ne b block with rfl | hne
    · have hnone : liveElements s b = 0 := liveElements_of_not_made fun a ha heq =>
        hfresh (heq ▸ (hC.live a ha).made)
      have hpcs : ∀ u, (s'.pc u).counted P b u = 0 := by
        intro u
        rcases eq_or_ne u t with rfl | hu
        · exact counted_of_none hnew
        · rcases he : (s'.pc u).entry P u with _ | ⟨g, c⟩
          · exact counted_of_none he
          · rw [counted_of_entry he]
            refine if_neg fun heq => hfresh (hmine u b ?_)
            rw [hothers u hu] at he
            exact heq ▸ block_of_entry he
      refine .inr ⟨by rw [hcount, update_self], ?_⟩
      unfold outstanding liveElements
      rw [hlive, finsum_congr hpcs, finsum_zero, Nat.add_zero]
      exact hnone
    · rw [hmade] at hb
      refine .inl ⟨(List.mem_cons.1 hb).resolve_left hne, ?_⟩
      rw [counted_of_none hnew, counted_of_none hold, hcount, update_of_ne hne]
      unfold liveElements
      rw [hlive]
  | @up c coreId hp hnew hmade hcount hlive =>
    have hb : c.block ∈ s.made := by
      refine hmine t c.block ?_
      rw [hp]
      exact List.mem_cons_self
    have hadd := h.add hb hp
    have hlt := P.elements_lt
    have hold : (s.pc t).entry P t = some (.back, c) := by
      rw [hp]
      rfl
    refine h.change hothers fun b hb => .inl ⟨hmade ▸ hb, ?_⟩
    rw [counted_of_none hnew, counted_of_entry hold, hcount, Nat.mod_eq_of_lt (by omega)]
    unfold liveElements
    rw [hlive]
    rcases eq_or_ne c.block b with rfl | hne
    · rw [update_self, if_pos rfl]
      omega
    · rw [update_of_ne hne.symm, if_neg hne]
  | @back a' hold ha hnew hmade hcount hlive =>
    refine h.change hothers fun b hb => .inl ⟨hmade ▸ hb, ?_⟩
    rw [counted_of_entry hnew, counted_of_none hold, hcount]
    unfold liveElements
    rw [hlive, ((List.perm_cons_erase ha).map _).sum_eq, List.map_cons, List.sum_cons]
    omega

omit [DecidableEq τ] in
theorem entry_start (h : Start P s) (t : τ) : (s.pc t).entry P t = none := by
  rw [(built_start h).idle]
  rfl

omit [DecidableEq τ] in
theorem counted_start (h : Start P s) : Counted P s := by
  have hb := built_start h
  refine ⟨?_, fun b hmade => ?_⟩
  · rw [hb.idle]
    simp
  · have hlive : liveElements s b = 0 := liveElements_of_not_made (by simp [hb.live])
    unfold outstanding
    rw [hb.count b hmade, hlive, finsum_congr fun u => counted_of_none (entry_start h u),
      finsum_zero, Nat.add_zero, Nat.add_zero]

omit [DecidableEq τ] in
theorem ordered_start (h : Start P s) : Ordered P s := by
  have none : ∀ {t e}, (s.pc t).entry P t ≠ some e := fun {t e} he => by
    rw [entry_start h t] at he
    cases he
  exact ⟨fun _ _ hc => absurd hc none, fun _ _ hc => absurd hc none, fun _ _ hc => absurd hc none⟩

theorem counted_of_run (h : (machine P).Run (InOrder P) s) : Counted P s ∧ Ordered P s := by
  refine Machine.run_induction (I := fun s => Counted P s ∧ Ordered P s)
    (fun _ h0 => ⟨counted_start h0, ordered_start h0⟩)
    (fun s s' a hr ih hin hs => ?_) h
  have hS := reachable_sound hr.reachable
  obtain ⟨t, hstep⟩ := step_cases hS.claims hs
  exact ⟨ih.1.step hS ih.2 hin hstep, ih.2.step hS.claims hin hstep⟩

/-! ### The result -/

/-- The counts are within their blocks; going up they do not wrap, nor going down in order. -/
structure CountsInRange (P : Params) (s : State τ) : Prop where
  le : ∀ b ∈ s.made, s.freeCount b ≤ P.ELEMENTS_PER_BLOCK
  add : ∀ t c coreId, s.pc t = .addFree c coreId →
    s.freeCount c.block + c.numElements ≤ P.ELEMENTS_PER_BLOCK
  sub : ∀ t w block index R, s.pc t = .subFree w block index R → ∀ spurious space,
    InOrder P s (.run t spurious space) → R.numElements P ≤ s.freeCount block

/-- In every run in which no call counts down for elements whose release is still to be counted up,
`free_count_` stays between zero and `ELEMENTS_PER_BLOCK` and never wraps. -/
theorem free_count_of_run (P : Params) {s : State τ} (h : (machine P).Run (InOrder P) s) :
    CountsInRange P s := by
  obtain ⟨hcounted, ho⟩ := counted_of_run h
  have hS := reachable_sound h.reachable
  have hmine := hS.blocks.pointers.pc
  refine ⟨fun b hb => ?_, fun t c coreId hp => ?_,
    fun t w block index R hp spurious space hin => ?_⟩
  · have hbal := hcounted.balance b hb
    omega
  · refine hcounted.add (hmine t c.block ?_) hp
    rw [hp]
    exact List.mem_cons_self
  · have hb : block ∈ s.made := by
      refine hmine t block ?_
      rw [hp]
      exact List.mem_cons_self
    have hbal := hcounted.balance block hb
    have hle := hcounted.down hS.claims ho hp hin
    omega

end Counted

instance (c c' : Claim τ) : Decidable (Misses c c') := inferInstanceAs (Decidable (_ → _))

instance [Fintype τ] (s : State τ) (a : Action τ) : Decidable (InOrder P s a) := by
  cases a with
  | run t spurious space =>
    unfold InOrder
    dsimp only
    split <;> infer_instance
  | _ => exact instDecidableTrue

/-- A resource of one arena with a block of 256 elements. -/
def oneBlock : Params := ⟨16, 256, 1, 1, 1, by decide, by decide, by decide, by decide, by decide,
  by decide, by decide, by decide⟩

/-- Thread `t` asks for sixteen elements and takes `n` steps. -/
def askSixteen (t : Fin 3) (n : ℕ) : List (Action (Fin 3)) :=
  .allocate t ⟨240, 8, 0⟩ :: List.replicate n (.run t false none)

/-- A thread counts its elements down while another has given some back and not counted them up. -/
theorem free_count_of_run_shared : ∃ s : State (Fin 3),
    s.pc 0 = .addFree ⟨64, 0, 16, 0⟩ 0 ∧ s.freeCount 64 = 224 ∧ CountsInRange oneBlock s := by
  have hrun : ∃ s : State (Fin 3), (machine oneBlock).Run (InOrder oneBlock) s
      ∧ s.pc 0 = .addFree ⟨64, 0, 16, 0⟩ 0 ∧ s.freeCount 64 = 224 :=
    Machine.exists_run (s := construct oneBlock (fun _ => some 64) oneBlock.numberOfArenas)
      (List.flatten [askSixteen 0 15, askSixteen 1 8, .deallocate 0 ⟨336, 240, ⟨64, 0, 16, 0⟩⟩ 0
        :: List.replicate 4 (.run 0 false none), List.replicate 4 (.run 1 false none)])
      ⟨fun _ => some 64, by decide, rfl⟩ (by decide +kernel)
  obtain ⟨s, hs, hp, hcount⟩ := hrun
  exact ⟨s, hp, hcount, free_count_of_run oneBlock hs⟩

/-- Two threads have seen sixteen elements free.  One takes the sixteen whose release has not yet
been counted, the other the sixteen that were free, and the count wraps. -/
theorem free_count_wraps : ∃ s : State (Fin 3), (machine oneBlock).Reachable s
    ∧ 64 ∈ s.made ∧ s.freeCount 64 = 2 ^ 32 - 16
    ∧ oneBlock.ELEMENTS_PER_BLOCK < s.freeCount 64 := by
  refine Machine.exists_run (s := construct oneBlock (fun _ => some 64) oneBlock.numberOfArenas)
    (List.flatten [[15, 12, 12, 12, 14, 14, 14, 14, 12, 12, 12, 12, 14, 14, 14].flatMap
      (askSixteen 0), .deallocate 0 ⟨3920, 240, ⟨64, 224, 16, 0⟩⟩ 0
      :: List.replicate 4 (.run 0 false none), askSixteen 1 2, askSixteen 2 14,
      List.replicate 12 (.run 1 false none)]) ⟨fun _ => some 64, by decide, rfl⟩ ?_
  decide +kernel

end MinStd.BitblockResource
