import MinStd.Chain
import MinStd.Proofs.BitblockClaims
import Mathlib.Order.Interval.Finset.Nat

/-!
# The bitblock resource run by one thread

Alone, a thread's count of free elements differs from the number of clear bits only while it is
between its access to the set and its access to the count (`debt`), and each arena's blocks are the
chain from its first block (`Chains`).  So a request is refused only after every block of every arena
has been found without a run for it, and the cap or upstream has kept a block from being added
(`Progress`).
-/

namespace MinStd.BitblockSet

open Function

variable {τ : Type*} {Z : Size} {z z' : State τ} {t : τ} {n start : ℕ}

instance (z : State τ) : DecidablePred z.Bit := fun b =>
  inferInstanceAs (Decidable ((z.bits.words (b / BITS_PER_WORD)).getMsbD (b % BITS_PER_WORD) = true))

/-- The number of clear bits. -/
def clearBits (Z : Size) (z : State τ) : ℕ :=
  ((Finset.range Z.SIZE_IN_BITS).filter fun b => ¬ z.Bit b).card

theorem clearBits_congr (h : ∀ b, z'.Bit b ↔ z.Bit b) : clearBits Z z' = clearBits Z z := by
  unfold clearBits
  congr 1
  exact Finset.filter_congr fun b _ => (h b).not

theorem clearBits_le : clearBits Z z ≤ Z.SIZE_IN_BITS := by
  have hle := Finset.card_filter_le (Finset.range Z.SIZE_IN_BITS) fun b => ¬ z.Bit b
  rwa [Finset.card_range] at hle

/-- Bits that are set leave so many fewer clear. -/
theorem clearBits_add (hfits : start + n ≤ Z.SIZE_IN_BITS)
    (hclear : ∀ b, InRange start n b → ¬ z.Bit b)
    (hbit : ∀ b, z'.Bit b ↔ z.Bit b ∨ InRange start n b) :
    clearBits Z z' + n = clearBits Z z := by
  have hsplit : (Finset.range Z.SIZE_IN_BITS).filter (fun b => ¬ z.Bit b)
      = (Finset.range Z.SIZE_IN_BITS).filter (fun b => ¬ z'.Bit b) ∪ Finset.Ico start (start + n) := by
    ext b
    simp only [Finset.mem_union, Finset.mem_filter, Finset.mem_range, Finset.mem_Ico, hbit, not_or]
    constructor
    · rintro ⟨hlt, hb⟩
      by_cases hr : InRange start n b
      · exact .inr hr
      · exact .inl ⟨hlt, hb, hr⟩
    · rintro (⟨hlt, hb, -⟩ | hr)
      · exact ⟨hlt, hb⟩
      · exact ⟨by omega, hclear b hr⟩
  have hdisjoint : Disjoint ((Finset.range Z.SIZE_IN_BITS).filter fun b => ¬ z'.Bit b)
      (Finset.Ico start (start + n)) := by
    refine Finset.disjoint_left.2 fun b hb hr => ?_
    exact (Finset.mem_filter.1 hb).2 ((hbit b).2 (.inr (Finset.mem_Ico.1 hr)))
  unfold clearBits
  rw [hsplit, Finset.card_union_of_disjoint hdisjoint, Nat.card_Ico, Nat.add_sub_cancel_left]

theorem FreeRun.le_clearBits (h : FreeRun Z z n start) : n ≤ clearBits Z z := by
  have hsub : Finset.Ico start (start + n)
      ⊆ (Finset.range Z.SIZE_IN_BITS).filter fun b => ¬ z.Bit b := by
    intro b hb
    rw [Finset.mem_Ico] at hb
    have hfits := h.fits
    exact Finset.mem_filter.2 ⟨Finset.mem_range.2 (by omega), h.clear b hb⟩
  have hcard := Finset.card_le_card hsub
  rwa [Nat.card_Ico, Nat.add_sub_cancel_left] at hcard

theorem clearBits_takes [DecidableEq τ] (h : Takes Z z z' t n start) :
    clearBits Z z' + n = clearBits Z z :=
  clearBits_add h.free.fits h.free.clear h.bit

theorem clearBits_clears (hfits : start + n ≤ Z.SIZE_IN_BITS) (h : Clears z z' t n start) :
    clearBits Z z + n = clearBits Z z' := by
  refine clearBits_add hfits (fun b hb hbit => ((h.bit b).1 hbit).2 hb) fun b => ?_
  rw [h.bit]
  constructor
  · intro hb
    by_cases hr : InRange start n b
    · exact .inr hr
    · exact .inl ⟨hb, hr⟩
  · rintro (hb | hr)
    · exact hb.1
    · exact h.set b hr

theorem Releasing.fits {p : Pc} (hp : Releasing start n p) (hok : PcOk Z p) :
    start + n ≤ Z.SIZE_IN_BITS := by
  cases p with
  | releaseHint a m =>
    obtain ⟨rfl, rfl⟩ := hp
    exact hok.fits
  | releaseOne a =>
    obtain ⟨rfl, rfl⟩ := hp
    exact hok.fits
  | releaseLoad a m =>
    obtain ⟨rfl, rfl⟩ := hp
    exact hok.1.fits
  | releaseSwap a m _ =>
    obtain ⟨rfl, rfl⟩ := hp
    exact hok.1.fits
  | _ => exact hp.elim

/-- A scan for `n` bits starts past no word. -/
theorem scanAt_contiguous (hn : 1 ≤ n) (hle : n ≤ 16) (offset : ℕ) :
    ScanAt Z z n (acquireFirstAvailableContiguous n offset) := by
  unfold acquireFirstAvailableContiguous acquireFirstAvailable
  split_ifs with h hone
  · omega
  · exact ⟨hone.symm, hn⟩
  · exact ⟨rfl, hn⟩

end MinStd.BitblockSet

namespace MinStd.BitblockResource

open Function BitblockSet

variable {τ : Type*} {P : Params}

/-! ### What a lone thread knows -/

/-- What the count of a block has above the number of clear bits. -/
def Pc.debt (P : Params) (t : τ) (sets : ℕ → BitblockSet.State τ) (b : ℕ) : Pc τ → ℤ
  | .scan _ block R => if block = b ∧ ((sets block).pc t).taken? ≠ none then R.numElements P else 0
  | .subFree _ block _ R => if block = b then R.numElements P else 0
  | .releasing c _ => if c.block = b ∧ (sets b).pc t = .ret .success then -c.numElements else 0
  | .addFree c _ => if c.block = b then -c.numElements else 0
  | _ => 0

/-- The block a thread is about to push. -/
def Pc.pushing : Pc τ → Option ℕ
  | .firstForPush block _ => some block
  | .pushSwap block _ _ => some block
  | _ => none

/-- The blocks of each arena are the chain from its first block, but for one being pushed. -/
structure Chains (P : Params) (s : State τ) (pushing : Option ℕ) : Prop where
  arena : ∀ b ∈ s.made, s.arenaIndex b < P.numberOfArenas
  chain : ∀ k, ∃ l, Linked some s.nextBlock (s.firstBlock k) l none
    ∧ ∀ b, b ∈ l ↔ b ∈ s.made ∧ s.arenaIndex b = k ∧ some b ≠ pushing

/-- Block `b` has no run for the request. -/
def NoRun (P : Params) (s : State τ) (R : Request) (b : ℕ) : Prop :=
  ∀ start, ¬ FreeRun P.setSize (s.sets b) (R.numElements P) start

/-- No block of arena `k` has a run for the request. -/
def ArenaFull (P : Params) (s : State τ) (R : Request) (k : ℕ) : Prop :=
  ∀ b ∈ s.made, s.arenaIndex b = k → NoRun P s R b

/-- A walk of arena `k` has come to block `b`. -/
def WalkedTo (P : Params) (s : State τ) (R : Request) (k b : ℕ) : Prop :=
  ∃ l₁ l₂, Linked some s.nextBlock (s.firstBlock k) (l₁ ++ b :: l₂) none
    ∧ ∀ c ∈ l₁, NoRun P s R c

/-- No block can be added for the call. -/
def NoGrowth (P : Params) (s : State τ) (t : τ) : Prop :=
  P.MAX_NUMBER_OF_BLOCKS ≤ s.totalBlocks ∨ s.upstreamEmpty t = true

/-- No block can be added, and the arenas before the one `offset` after the request's own are full. -/
def Before (P : Params) (s : State τ) (t : τ) (R : Request) (offset : ℕ) : Prop :=
  NoGrowth P s t ∧ ∀ j < offset, ArenaFull P s R (R.otherArena P j)

/-- What a search has found out when it comes to a block. -/
def Walked (P : Params) (s : State τ) (t : τ) (R : Request) (b : ℕ) : Where → Prop
  | .coreHint => True
  | .arenaHint => True
  | .chain => WalkedTo P s R (R.arenaInUse P) b
  | .other offset => Before P s t R offset ∧ WalkedTo P s R (R.otherArena P offset) b

/-- The request is for one to sixteen elements. -/
def Small (P : Params) (R : Request) : Prop := 1 ≤ R.numElements P ∧ R.numElements P ≤ 16

/-- What a lone thread has found out. -/
def Progress (P : Params) (s : State τ) (t : τ) : Pc τ → Prop
  | .loadFree w b R => Small P R → Walked P s t R b w
  | .scan w b R => Small P R → ((s.sets b).pc t).taken? ≠ none
      ∨ ScanAt P.setSize (s.sets b) (R.numElements P) ((s.sets b).pc t) ∧ Walked P s t R b w
  | .reserveLoad R => Small P R → ArenaFull P s R (R.arenaInUse P)
  | .reserveSwap _ R => Small P R → ArenaFull P s R (R.arenaInUse P)
  | .upstream R => Small P R → ArenaFull P s R (R.arenaInUse P)
  | .releaseReservation R => s.upstreamEmpty t = true
      ∧ (Small P R → ArenaFull P s R (R.arenaInUse P))
  | .firstForPush block R => s.arenaIndex block = R.arenaInUse P
  | .pushSwap block expected R => s.arenaIndex block = R.arenaInUse P ∧ s.nextBlock block = expected
  | .loadOther R offset => Small P R → Before P s t R offset
  | .refuse R => R.alignment ≤ HEADER_SIZE → Small P R → Before P s t R P.numberOfArenas
  | _ => True

/-- The state of a resource only thread `t` has used. -/
structure Solo (P : Params) (s : State τ) (t : τ) : Prop where
  others : ∀ u, u ≠ t → s.pc u = .idle
  count : ∀ b ∈ s.made, (s.freeCount b : ℤ)
    = clearBits P.setSize (s.sets b) + (s.pc t).debt P t s.sets b
  chains : Chains P s (s.pc t).pushing
  progress : Progress P s t (s.pc t)

section Solo

variable {s s' : State τ} {t : τ} {p : Pc τ} {b k : ℕ} {R : Request} {w : Where}

theorem otherArena_zero : R.otherArena P 0 = R.arenaInUse P :=
  Nat.mod_eq_of_lt (arenaInUse_lt R)

/-- Every arena is some way after the request's own. -/
theorem exists_otherArena (hk : k < P.numberOfArenas) :
    ∃ j < P.numberOfArenas, R.otherArena P j = k := by
  have hown := arenaInUse_lt (P := P) R
  refine ⟨(k + (P.numberOfArenas - R.arenaInUse P)) % P.numberOfArenas, Nat.mod_lt _ (by omega), ?_⟩
  unfold Request.otherArena
  rw [Nat.add_mod_mod, show R.arenaInUse P + (k + (P.numberOfArenas - R.arenaInUse P))
    = k + P.numberOfArenas by omega, Nat.add_mod_right, Nat.mod_eq_of_lt hk]

theorem Before.one (h : ArenaFull P s R (R.arenaInUse P)) (hg : NoGrowth P s t) :
    Before P s t R 1 := by
  refine ⟨hg, fun j hj => ?_⟩
  obtain rfl : j = 0 := by omega
  rwa [otherArena_zero]

theorem Before.succ {offset : ℕ} (h : Before P s t R offset)
    (hfull : ArenaFull P s R (R.otherArena P offset)) : Before P s t R (offset + 1) := by
  refine ⟨h.1, fun j hj => ?_⟩
  rcases Nat.lt_succ_iff_lt_or_eq.1 hj with hj | rfl
  · exact h.2 j hj
  · exact hfull

theorem progress_enterOther {offset : ℕ} (h : Small P R → Before P s t R offset) :
    Progress P s t (enterOther P R offset) := by
  unfold enterOther
  split_ifs with hlt hn
  · intro _ hsmall
    unfold Small at hsmall
    omega
  · exact h
  · exact fun _ hsmall => ⟨(h hsmall).1, fun j _ => (h hsmall).2 j (by omega)⟩

theorem progress_enterChain : Progress P s t (enterChain P R) := by
  unfold enterChain
  split_ifs with hn
  · refine progress_enterOther fun hsmall => ?_
    unfold Small at hsmall
    omega
  · trivial

/-- A walk at the end of its chain has seen the whole arena. -/
theorem Chains.full (h : Chains P s none) {l : List ℕ}
    (hl : Linked some s.nextBlock (s.firstBlock k) l none) (hno : ∀ c ∈ l, NoRun P s R c) :
    ArenaFull P s R k := by
  intro b hb hk
  obtain ⟨l', hl', hmem⟩ := h.chain k
  have heq := Linked.unique (Option.some_injective ℕ) (fun _ => Option.some_ne_none _) hl hl'
  exact hno b (heq ▸ (hmem b).2 ⟨hb, hk, Option.some_ne_none b⟩)

theorem Chains.walkedTo_first (h : Chains P s none) (hfirst : s.firstBlock k = some b) :
    WalkedTo P s R k b := by
  obtain ⟨l, hl, -⟩ := h.chain k
  rw [hfirst] at hl
  obtain ⟨l', rfl, -⟩ := Linked.unlink_head (Option.some_injective ℕ) hl
    fun _ => Option.some_ne_none _
  refine ⟨[], l', ?_, fun c hc => (List.not_mem_nil hc).elim⟩
  rw [hfirst]
  exact hl

theorem Chains.full_of_none (h : Chains P s none) (hfirst : s.firstBlock k = none) :
    ArenaFull P s R k :=
  h.full (l := []) hfirst fun _ hc => (List.not_mem_nil hc).elim

/-- A walk goes on past a block without a run. -/
theorem WalkedTo.next (h : WalkedTo P s R k b) (hno : NoRun P s R b) {b' : ℕ}
    (hnext : s.nextBlock b = some b') : WalkedTo P s R k b' := by
  obtain ⟨l₁, l₂, hl, hall⟩ := h
  obtain ⟨m, h1, rfl, h2⟩ := Linked.append_iff.1 hl
  rw [hnext] at h2
  obtain ⟨l₃, rfl, -⟩ := Linked.unlink_head (Option.some_injective ℕ) h2
    fun _ => Option.some_ne_none _
  refine ⟨l₁ ++ [b], l₃, by rwa [List.append_assoc], fun c hc => ?_⟩
  rcases List.mem_append.1 hc with hc | hc
  · exact hall c hc
  · rwa [List.mem_singleton.1 hc]

theorem WalkedTo.last (h : WalkedTo P s R k b) (hC : Chains P s none) (hno : NoRun P s R b)
    (hnext : s.nextBlock b = none) : ArenaFull P s R k := by
  obtain ⟨l₁, l₂, hl, hall⟩ := h
  obtain ⟨m, h1, rfl, h2⟩ := Linked.append_iff.1 hl
  rw [hnext] at h2
  have hnil : l₂ = [] := by
    cases l₂ with
    | nil => rfl
    | cons _ l₂ => exact absurd h2.1 (Option.some_ne_none _).symm
  subst hnil
  refine hC.full hl fun c hc => ?_
  rcases List.mem_append.1 hc with hc | hc
  · exact hall c hc
  · rwa [List.mem_singleton.1 hc]

/-- A block had no run for the request. -/
theorem progress_miss (hC : Chains P s none)
    (h : Small P R → Walked P s t R b w ∧ NoRun P s R b) :
    Progress P s t (miss P w (s.nextBlock b) R) := by
  cases hnext : s.nextBlock b with
  | none =>
    cases w with
    | coreHint => trivial
    | arenaHint => exact progress_enterChain
    | chain => exact fun hsmall => (h hsmall).1.last hC (h hsmall).2 hnext
    | other offset =>
      exact progress_enterOther fun hsmall =>
        (h hsmall).1.1.succ ((h hsmall).1.2.last hC (h hsmall).2 hnext)
  | some b' =>
    cases w with
    | coreHint => trivial
    | arenaHint => exact progress_enterChain
    | chain => exact fun hsmall => (h hsmall).1.next (h hsmall).2 hnext
    | other offset => exact fun hsmall => ⟨(h hsmall).1.1, (h hsmall).1.2.next (h hsmall).2 hnext⟩

/-- A hint leads to a block. -/
theorem progress_enterBlock (hw : w = .coreHint ∨ w = .arenaHint) :
    Progress P s t (enterBlock P s w b R) := by
  unfold enterBlock
  rcases hw with rfl | rfl
  · split_ifs
    · trivial
    · exact fun _ => trivial
  · split_ifs
    · exact progress_enterChain
    · exact fun _ => trivial

/-! ### Steps of a lone thread -/

theorem Chains.keep {q : Option ℕ} (h : Chains P s q) (hmade : s'.made = s.made)
    (hnext : s'.nextBlock = s.nextBlock) (harena : s'.arenaIndex = s.arenaIndex)
    (hfirst : s'.firstBlock = s.firstBlock) : Chains P s' q := by
  refine ⟨?_, ?_⟩
  · rw [hmade, harena]
    exact h.arena
  · rw [hmade, harena, hnext, hfirst]
    exact h.chain

/-- The bits tell whether there is a run. -/
theorem NoRun.setSet {z : BitblockSet.State τ} {c : ℕ} (h : NoRun P s R c)
    (hbit : ∀ k, z.Bit k ↔ (s.sets b).Bit k) : NoRun P (s.setSet b z) R c := by
  intro start hrun
  refine h start ⟨hrun.fits, hrun.single, fun k hk hset => hrun.clear k hk ?_⟩
  show (update s.sets b z c).Bit k
  rcases eq_or_ne c b with rfl | hc
  · rw [update_self]
    exact (hbit k).2 hset
  · rwa [update_of_ne hc]

theorem Walked.setSet {z : BitblockSet.State τ} {c : ℕ} (h : Walked P s t R c w)
    (hbit : ∀ k, z.Bit k ↔ (s.sets b).Bit k) : Walked P (s.setSet b z) t R c w := by
  have walkedTo : ∀ {k}, WalkedTo P s R k c → WalkedTo P (s.setSet b z) R k c :=
    fun ⟨l₁, l₂, hl, hall⟩ => ⟨l₁, l₂, hl, fun d hd => (hall d hd).setSet hbit⟩
  cases w with
  | coreHint => trivial
  | arenaHint => trivial
  | chain => exact walkedTo h
  | other offset =>
    exact ⟨⟨h.1.1, fun j hj d hd hk => (h.1.2 j hj d hd hk).setSet hbit⟩, walkedTo h.2⟩

theorem progress_enterReserve (h : Small P R → ArenaFull P s R (R.arenaInUse P)) :
    Progress P s t (enterReserve P s.totalBlocks R) := by
  unfold enterReserve
  split_ifs with hlt
  · exact h
  · exact progress_enterOther fun hsmall => .one (h hsmall) (.inl (not_lt.1 hlt))

variable [DecidableEq τ]

/-- A step that leaves the blocks and the sets. -/
theorem Solo.recount (h : Solo P s t) (hmade : s'.made = s.made) (hnext : s'.nextBlock = s.nextBlock)
    (harena : s'.arenaIndex = s.arenaIndex) (hfirst : s'.firstBlock = s.firstBlock)
    (hsets : s'.sets = s.sets) (hpc : s'.pc = update s.pc t p) (hpush : p.pushing = (s.pc t).pushing)
    (hcount : ∀ b ∈ s.made, (s'.freeCount b : ℤ) - p.debt P t s.sets b
      = s.freeCount b - (s.pc t).debt P t s.sets b)
    (hprog : Progress P s' t p) : Solo P s' t := by
  have hmine : s'.pc t = p := by rw [hpc, update_self]
  refine ⟨fun u hu => ?_, fun b hb => ?_, ?_, ?_⟩
  · rw [hpc, update_of_ne hu]
    exact h.others u hu
  · rw [hmade] at hb
    have hold := h.count b hb
    have hnew := hcount b hb
    rw [hmine, hsets]
    omega
  · rw [hmine, hpush]
    exact h.chains.keep hmade hnext harena hfirst
  · rw [hmine]
    exact hprog

theorem Solo.goOn (h : Solo P s t) (hmade : s'.made = s.made) (hnext : s'.nextBlock = s.nextBlock)
    (harena : s'.arenaIndex = s.arenaIndex) (hfirst : s'.firstBlock = s.firstBlock)
    (hsets : s'.sets = s.sets) (hfree : s'.freeCount = s.freeCount) (hpc : s'.pc = update s.pc t p)
    (hpush : p.pushing = (s.pc t).pushing)
    (hdebt : ∀ b, p.debt P t s.sets b = (s.pc t).debt P t s.sets b)
    (hprog : Progress P s' t p) : Solo P s' t :=
  h.recount hmade hnext harena hfirst hsets hpc hpush (fun b _ => by rw [hfree, hdebt]) hprog

/-- A step that leaves the sets and the counts alone and owes what it owed. -/
theorem Solo.pass {q : Pc τ} (h : Solo P s t) (hp : s.pc t = q) (hmade : s'.made = s.made)
    (hnext : s'.nextBlock = s.nextBlock) (harena : s'.arenaIndex = s.arenaIndex)
    (hfirst : s'.firstBlock = s.firstBlock) (hsets : s'.sets = s.sets)
    (hfree : s'.freeCount = s.freeCount) (hpc : s'.pc = update s.pc t p)
    (hpush : p.pushing = q.pushing) (hdebt : ∀ b, p.debt P t s.sets b = q.debt P t s.sets b)
    (hprog : Progress P s' t p) : Solo P s' t := by
  subst hp
  exact h.goOn hmade hnext harena hfirst hsets hfree hpc hpush hdebt hprog

/-- A step in the set of one block. -/
theorem Solo.setStep (h : Solo P s t) {z : BitblockSet.State τ}
    (hthere : (clearBits P.setSize z : ℤ) + p.debt P t (update s.sets b z) b
      = clearBits P.setSize (s.sets b) + (s.pc t).debt P t s.sets b)
    (helse : ∀ b', b' ≠ b → p.debt P t (update s.sets b z) b' = (s.pc t).debt P t s.sets b')
    (hpush : p.pushing = (s.pc t).pushing) (hprog : Progress P (s.setSet b z) t p) :
    Solo P ((s.setSet b z).setPc t p) t := by
  have hmine : ((s.setSet b z).setPc t p).pc t = p := update_self ..
  refine ⟨fun u hu => (update_of_ne hu _ _).trans (h.others u hu), fun b' hb => ?_, ?_, ?_⟩
  · have hold := h.count b' hb
    rw [hmine]
    show (s.freeCount b' : ℤ) = clearBits P.setSize (update s.sets b z b')
      + p.debt P t (update s.sets b z) b'
    rcases eq_or_ne b' b with rfl | hne
    · rw [update_self]
      omega
    · rw [update_of_ne hne, helse b' hne]
      exact hold
  · rw [hmine, hpush]
    exact h.chains.keep rfl rfl rfl rfl
  · rw [hmine]
    exact hprog

omit [DecidableEq τ] in
theorem plain_of_enterOther (offset : ℕ) (sets : ℕ → BitblockSet.State τ) :
    (enterOther P R offset : Pc τ).pushing = none
      ∧ (enterOther P R offset : Pc τ).debt P t sets b = 0 := by
  unfold enterOther
  split_ifs <;> exact ⟨rfl, rfl⟩

omit [DecidableEq τ] in
theorem plain_of_enterChain (sets : ℕ → BitblockSet.State τ) :
    (enterChain P R : Pc τ).pushing = none ∧ (enterChain P R : Pc τ).debt P t sets b = 0 := by
  unfold enterChain
  split_ifs
  · exact plain_of_enterOther 1 sets
  · exact ⟨rfl, rfl⟩

omit [DecidableEq τ] in
theorem plain_of_miss (next : Option ℕ) (sets : ℕ → BitblockSet.State τ) :
    (miss P w next R : Pc τ).pushing = none ∧ (miss P w next R : Pc τ).debt P t sets b = 0 := by
  unfold miss
  split <;> first
    | exact plain_of_enterChain sets
    | exact plain_of_enterOther _ sets
    | exact ⟨rfl, rfl⟩

omit [DecidableEq τ] in
theorem plain_of_enterBlock {block : ℕ} (sets : ℕ → BitblockSet.State τ) :
    (enterBlock P s w block R).pushing = none
      ∧ (enterBlock P s w block R).debt P t sets b = 0 := by
  unfold enterBlock
  split_ifs
  · exact plain_of_miss _ sets
  · exact ⟨rfl, rfl⟩

omit [DecidableEq τ] in
theorem plain_of_enterReserve (current : ℕ) (sets : ℕ → BitblockSet.State τ) :
    (enterReserve P current R : Pc τ).pushing = none
      ∧ (enterReserve P current R : Pc τ).debt P t sets b = 0 := by
  unfold enterReserve
  split_ifs
  · exact ⟨rfl, rfl⟩
  · exact plain_of_enterOther 1 sets

theorem Solo.moveTo (h : Solo P s t) (hpush : (s.pc t).pushing = none)
    (hdebt : ∀ b, (s.pc t).debt P t s.sets b = 0)
    (hplain : ∀ b, p.pushing = none ∧ p.debt P t s.sets b = 0) (hprog : Progress P s t p) :
    Solo P (s.setPc t p) t :=
  h.goOn rfl rfl rfl rfl rfl rfl rfl ((hplain 0).1.trans hpush.symm)
    (fun b => (hplain b).2.trans (hdebt b).symm) hprog

/-- A step of a search inside the set of its block. -/
theorem Solo.stepScan (h : Solo P s t) (hC : Claims P s) {z : BitblockSet.State τ} {spurious : Bool}
    (hp : s.pc t = .scan w b R) (hsome : ∀ i, (s.sets b).pc t ≠ .found i)
    (hz : BitblockSet.stepRun P.setSize (s.sets b) t spurious = some z) :
    Solo P (s.setSet b z) t := by
  have hsearch := hC.setPc t b
  have hprog := h.progress
  rw [hp] at hsearch hprog
  replace hsearch : Searching (R.numElements P) ((s.sets b).pc t) := by simpa [SetPcOk] using hsearch
  -- what the bits and the scan's place are afterwards
  have hafter : (clearBits P.setSize z : ℤ)
        + (if (z.pc t).taken? ≠ none then (R.numElements P : ℤ) else 0)
      = clearBits P.setSize (s.sets b)
        + (if ((s.sets b).pc t).taken? ≠ none then (R.numElements P : ℤ) else 0)
      ∧ Progress P (s.setSet b z) t (.scan w b R) := by
    have hshow : (Progress P (s.setSet b z) t (.scan w b R)) ↔ (Small P R → (z.pc t).taken? ≠ none
        ∨ ScanAt P.setSize z (R.numElements P) (z.pc t) ∧ Walked P (s.setSet b z) t R b w) := by
      show (Small P R → ((update s.sets b z b).pc t).taken? ≠ none ∨ ScanAt P.setSize
        (update s.sets b z b) _ ((update s.sets b z b).pc t) ∧ _) ↔ _
      rw [update_self]
    rw [hshow]
    rcases hsearch with hscan | ⟨index, hadv | hfound⟩
    · have hold := taken_of_scanning hscan
      rcases scan_step ((hC.inv b).pc _) hscan (hsome none) hz with ⟨hl, hscan'⟩ | ⟨start, ht, hpc⟩
      · have hnew := taken_of_scanning hscan'
        rw [hold, hnew, clearBits_congr hl.bit]
        refine ⟨rfl, fun hsmall => .inr ?_⟩
        obtain ⟨hat, hwalked⟩ := (hprog hsmall).resolve_left fun hne => hne hold
        rcases scanAt_step hat (hsome none) hz with ⟨-, hat'⟩ | htaken
        · exact ⟨hat', hwalked.setSet hl.bit⟩
        · exact absurd hnew htaken
      · have hclear := clearBits_takes ht
        have hnew : (z.pc t).taken? ≠ none := by
          rw [hpc]
          exact Option.some_ne_none _
        rw [if_pos hnew, if_neg (not_not.2 hold)]
        exact ⟨by omega, fun _ => .inl hnew⟩
    · obtain ⟨hl, hpc⟩ := advance_step hadv hz
      rw [clearBits_congr hl.bit, hpc, hadv]
      exact ⟨rfl, fun _ => .inl (Option.some_ne_none _)⟩
    · exact absurd hfound (hsome _)
  obtain ⟨hcount, hprog'⟩ := hafter
  have hgoal := h.setStep (b := b) (z := z) (p := .scan w b R) ?_ (fun b' hb' => ?_)
    (by rw [hp]) hprog'
  · rwa [setPc_of_eq (s := s.setSet b z) hp] at hgoal
  · rw [hp]
    simpa [Pc.debt] using hcount
  · rw [hp]
    simp [Pc.debt, hb'.symm]

theorem Solo.stepSearch {spurious : Bool} (h : Solo P s t) (hB : Blocks P s) (hC : Claims P s)
    (hs : stepSearch P s t spurious = some s') : Solo P s' t := by
  have hprog := h.progress
  have hchains := h.chains
  have hmine := hB.pointers.pc t
  unfold BitblockResource.stepSearch at hs
  split at hs <;> rename_i hp
  · -- loadCoreHint
    split at hs <;> obtain rfl := Option.some.inj hs <;>
      refine h.moveTo (by rw [hp]; rfl) (by rw [hp]; exact fun _ => rfl) (fun b => ?_) ?_
    · split_ifs
      · exact plain_of_enterBlock _
      · exact ⟨rfl, rfl⟩
    · split_ifs
      · exact progress_enterBlock (.inl rfl)
      · trivial
    · exact ⟨rfl, rfl⟩
    · trivial
  · -- loadArenaHint
    split at hs <;> obtain rfl := Option.some.inj hs <;>
      refine h.moveTo (by rw [hp]; rfl) (by rw [hp]; exact fun _ => rfl) (fun b => ?_) ?_
    · exact plain_of_enterBlock _
    · exact progress_enterBlock (.inr rfl)
    · exact plain_of_enterChain _
    · exact progress_enterChain
  · -- loadFirst
    rw [hp] at hchains
    split at hs <;> rename_i hfirst <;> obtain rfl := Option.some.inj hs <;>
      refine h.moveTo (by rw [hp]; rfl) (by rw [hp]; exact fun _ => rfl) (fun b => ⟨rfl, rfl⟩) ?_
    · exact fun _ => hchains.walkedTo_first hfirst
    · exact fun _ => hchains.full_of_none hfirst
  · -- reloadFirst
    rw [hp] at hchains
    split at hs
    · rename_i hfirst
      obtain rfl := Option.some.inj hs
      refine h.moveTo (by rw [hp]; rfl) (by rw [hp]; exact fun _ => rfl) (fun b => ⟨rfl, rfl⟩) ?_
      exact fun _ => hchains.walkedTo_first hfirst
    · cases hs
  · -- loadOther
    rw [hp] at hprog hchains
    split at hs <;> rename_i hfirst <;> obtain rfl := Option.some.inj hs <;>
      refine h.moveTo (by rw [hp]; rfl) (by rw [hp]; exact fun _ => rfl) (fun b => ?_) ?_
    · exact ⟨rfl, rfl⟩
    · exact fun hsmall => ⟨hprog hsmall, hchains.walkedTo_first hfirst⟩
    · exact plain_of_enterOther _ _
    · exact progress_enterOther fun hsmall => (hprog hsmall).succ (hchains.full_of_none hfirst)
  · -- loadFree
    rename_i w block R
    rw [hp] at hprog hchains hmine
    have hcount := h.count block (hmine block List.mem_cons_self)
    rw [hp] at hcount
    simp only [Pc.debt, add_zero] at hcount
    split_ifs at hs with hless <;> obtain rfl := Option.some.inj hs
    · refine h.moveTo (by rw [hp]; rfl) (by rw [hp]; exact fun _ => rfl)
        (fun b => plain_of_miss _ _)
        (progress_miss hchains fun hsmall => ⟨hprog hsmall, fun start hrun => ?_⟩)
      have hle := hrun.le_clearBits
      omega
    · have htaken := taken_of_scanning (searching_contiguous (R.numElements P) R.coreId)
      have hpc : ((update s.sets block ((s.sets block).setPc t
          (acquireFirstAvailableContiguous (R.numElements P) R.coreId)) block).pc t)
          = acquireFirstAvailableContiguous (R.numElements P) R.coreId := by
        rw [update_self, pc_setPc]
      have hdebt : ∀ b, (Pc.scan w block R).debt P t (update s.sets block ((s.sets block).setPc t
          (acquireFirstAvailableContiguous (R.numElements P) R.coreId))) b
          = (s.pc t).debt P t s.sets b := by
        intro b
        rw [hp]
        simp only [Pc.debt, hpc, htaken, ne_eq, not_true, and_false, if_false]
      refine h.setStep (by rw [hdebt]; rfl) (fun b _ => hdebt b) (by rw [hp]; rfl) fun hsmall =>
        .inr ⟨?_, (hprog hsmall).setSet fun _ => Iff.rfl⟩
      show ScanAt P.setSize _ _ ((update s.sets block _ block).pc t)
      rw [hpc]
      exact scanAt_contiguous hsmall.1 hsmall.2 _
  · -- scan
    rename_i w block R
    split at hs <;> rename_i hfound
    · rename_i index
      obtain rfl := Option.some.inj hs
      have hdebt : ∀ sets b, (Pc.subFree w block index R).debt P t sets b
          = (s.pc t).debt P t s.sets b := by
        intro sets b
        rw [hp]
        simp [Pc.debt, hfound, Pc.taken?]
      exact h.setStep (by rw [hdebt]; rfl) (fun b _ => hdebt _ b) (by rw [hp]; rfl) trivial
    · obtain rfl := Option.some.inj hs
      have hdebt : ∀ sets b, (miss P w (s.nextBlock block) R : Pc τ).debt P t sets b
          = (s.pc t).debt P t s.sets b := by
        intro sets b
        rw [(plain_of_miss _ sets).2, hp]
        simp [Pc.debt, hfound, Pc.taken?]
      rw [hp] at hprog hchains
      refine h.setStep (by rw [hdebt]; rfl) (fun b _ => hdebt _ b)
        (by rw [(plain_of_miss _ s.sets (b := 0) (t := t)).1, hp]; rfl)
        (progress_miss (s := s.setSet block _) (hchains.keep rfl rfl rfl rfl) fun hsmall => ?_)
      obtain ⟨hat, hwalked⟩ := (hprog hsmall).resolve_left fun hne => hne (by rw [hfound]; rfl)
      rw [hfound] at hat
      exact ⟨hwalked.setSet fun _ => Iff.rfl, NoRun.setSet hat fun _ => Iff.rfl⟩
    · rename_i hsome
      obtain ⟨z, hz, rfl⟩ := Option.map_eq_some_iff.1 hs
      refine h.stepScan hC hp (fun i hi => ?_) hz
      cases i with
      | none => exact hfound hi
      | some index => exact hsome index hi
  · cases hs

theorem Solo.stepFound (h : Solo P s t) (hB : Blocks P s) (hs : stepFound P s t = some s') :
    Solo P s' t := by
  have hmine := hB.pointers.pc t
  unfold BitblockResource.stepFound at hs
  split at hs <;> rename_i hp
  · -- subFree
    rename_i w block index R
    have hcount := h.count block (by rw [hp] at hmine; exact hmine block List.mem_cons_self)
    rw [hp] at hcount
    simp only [Pc.debt, if_true] at hcount
    obtain rfl := Option.some.inj hs
    refine h.recount rfl rfl rfl rfl rfl rfl (by rw [hp]; rfl) (fun b _ => ?_) trivial
    rw [hp]
    show ((update s.freeCount block _ b : ℕ) : ℤ) - 0 = s.freeCount b - if block = b then _ else 0
    rcases eq_or_ne b block with rfl | hb
    · have hle : clearBits P.setSize (s.sets b) ≤ P.ELEMENTS_PER_BLOCK := clearBits_le
      have hlt := P.elements_lt
      have hsum : s.freeCount b + COUNTS - R.numElements P
          = clearBits P.setSize (s.sets b) + COUNTS := by omega
      rw [update_self, if_pos rfl, hsum, Nat.add_mod_right, Nat.mod_eq_of_lt (hle.trans_lt hlt)]
      omega
    · rw [update_of_ne hb, if_neg hb.symm]
  · obtain rfl := Option.some.inj hs
    exact h.pass hp rfl rfl rfl rfl rfl rfl rfl rfl (fun _ => rfl) trivial
  · obtain rfl := Option.some.inj hs
    exact h.pass hp rfl rfl rfl rfl rfl rfl rfl rfl (fun _ => rfl) trivial
  · obtain rfl := Option.some.inj hs
    exact h.pass hp rfl rfl rfl rfl rfl rfl rfl rfl (fun _ => rfl) trivial
  · -- finalize
    obtain rfl := Option.some.inj hs
    split_ifs <;> exact h.pass hp rfl rfl rfl rfl rfl rfl rfl rfl (fun _ => rfl) trivial
  · obtain rfl := Option.some.inj hs
    exact h.pass hp rfl rfl rfl rfl rfl rfl rfl rfl (fun _ => rfl) trivial
  · obtain rfl := Option.some.inj hs
    exact h.pass hp rfl rfl rfl rfl rfl rfl rfl rfl (fun _ => rfl) trivial
  · cases hs

omit [DecidableEq τ] in
theorem clearBits_newSet : clearBits P.setSize (newSet P.setSize : BitblockSet.State τ)
    = P.ELEMENTS_PER_BLOCK := by
  unfold clearBits
  rw [Finset.filter_true_of_mem fun b hb => not_bit_start ⟨rfl, rfl, rfl⟩ (Finset.mem_range.1 hb),
    Finset.card_range]
  rfl

/-- A new block is not yet in its arena's chain. -/
theorem Solo.makeBlock (h : Solo P s t) (hp : s.pc t = .upstream R) (hfresh : s.Fresh P b) :
    Solo P ({ s.makeBlock P b (R.arenaInUse P) with
      reserving := s.reserving.erase t }.setPc t (.firstForPush b R)) t := by
  have hnew := not_made_of_fresh hfresh
  have hne : ∀ c ∈ s.made, c ≠ b := fun c hc heq => hnew (heq ▸ hc)
  have hchains := h.chains
  have hmine : ({ s.makeBlock P b (R.arenaInUse P) with
      reserving := s.reserving.erase t }.setPc t (.firstForPush b R)).pc t = .firstForPush b R :=
    update_self ..
  refine ⟨fun u hu => (update_of_ne hu _ _).trans (h.others u hu), fun c hc => ?_, ?_, ?_⟩
  · rw [hmine]
    show ((update s.freeCount b P.ELEMENTS_PER_BLOCK c : ℕ) : ℤ)
      = clearBits P.setSize (update s.sets b (newSet P.setSize) c) + 0
    rcases List.mem_cons.1 hc with rfl | hc
    · rw [update_self, update_self, clearBits_newSet, add_zero]
    · have hcount := h.count c hc
      rw [hp] at hcount
      rw [update_of_ne (hne c hc), update_of_ne (hne c hc)]
      exact hcount
  · rw [hmine]
    rw [hp] at hchains
    refine ⟨fun c hc => ?_, fun k => ?_⟩
    · show update s.arenaIndex b (R.arenaInUse P) c < _
      rcases List.mem_cons.1 hc with rfl | hc
      · rw [update_self]
        exact arenaInUse_lt R
      · rw [update_of_ne (hne c hc)]
        exact hchains.arena c hc
    · obtain ⟨l, hl, hmem⟩ := hchains.chain k
      have hb : b ∉ l := fun hb => hnew ((hmem b).1 hb).1
      refine ⟨l, hl.update hb none, fun c => ?_⟩
      show c ∈ l ↔ c ∈ b :: s.made ∧ update s.arenaIndex b (R.arenaInUse P) c = k
        ∧ some c ≠ some b
      rcases eq_or_ne c b with rfl | hc
      · exact iff_of_false hb fun hc => hc.2.2 rfl
      · rw [update_of_ne hc, hmem, List.mem_cons, or_iff_right hc]
        simp [hc, Pc.pushing]
  · rw [hmine]
    exact update_self b _ s.arenaIndex

omit [DecidableEq τ] in
/-- A block about to be pushed is aimed at the chain. -/
theorem Chains.aim (h : Chains P s (some b)) (x : Option ℕ) :
    Chains P { s with nextBlock := update s.nextBlock b x } (some b) := by
  refine ⟨h.arena, fun k => ?_⟩
  obtain ⟨l, hl, hmem⟩ := h.chain k
  exact ⟨l, hl.update (fun hb => ((hmem b).1 hb).2.2 rfl) x, hmem⟩

omit [DecidableEq τ] in
/-- A block is pushed. -/
theorem Chains.push (h : Chains P s (some b)) (hb : b ∈ s.made)
    (hnext : s.nextBlock b = s.firstBlock (s.arenaIndex b)) :
    Chains P { s with firstBlock := update s.firstBlock (s.arenaIndex b) (some b) } none := by
  refine ⟨h.arena, fun k => ?_⟩
  obtain ⟨l, hl, hmem⟩ := h.chain k
  show ∃ l, Linked some s.nextBlock (update s.firstBlock (s.arenaIndex b) (some b) k) l none ∧ _
  rcases eq_or_ne k (s.arenaIndex b) with rfl | hk
  · rw [update_self]
    refine ⟨b :: l, hl.push hnext, fun c => ?_⟩
    rw [List.mem_cons, hmem]
    rcases eq_or_ne c b with rfl | hc
    · exact iff_of_true (.inl rfl) ⟨hb, rfl, Option.some_ne_none c⟩
    · simp [hc]
  · rw [update_of_ne hk]
    refine ⟨l, hl, fun c => ?_⟩
    rw [hmem]
    rcases eq_or_ne c b with rfl | hc
    · exact iff_of_false (fun hc => hc.2.2 rfl) fun hc => hk hc.2.1.symm
    · simp [hc]

/-- A step of pushing a block. -/
theorem Solo.link {q : Pc τ} (h : Solo P s t) (hp : s.pc t = q) (hmade : s'.made = s.made)
    (hsets : s'.sets = s.sets) (hfree : s'.freeCount = s.freeCount) (hpc : s'.pc = update s.pc t p)
    (hdebt : ∀ b, p.debt P t s.sets b = q.debt P t s.sets b)
    (hchains : Chains P s' p.pushing) (hprog : Progress P s' t p) : Solo P s' t := by
  have hmine : s'.pc t = p := by rw [hpc, update_self]
  refine ⟨fun u hu => ?_, fun b hb => ?_, ?_, ?_⟩
  · rw [hpc, update_of_ne hu]
    exact h.others u hu
  · rw [hmade] at hb
    rw [hmine, hsets, hfree, hdebt, ← hp]
    exact h.count b hb
  · rwa [hmine]
  · rwa [hmine]

theorem Solo.stepAdd {spurious : Bool} {space : Option ℕ} (h : Solo P s t) (hB : Blocks P s)
    (hs : stepAdd P s t spurious space = some s') : Solo P s' t := by
  have hprog := h.progress
  have hchains := h.chains
  have hmine := hB.pointers.pc t
  unfold BitblockResource.stepAdd at hs
  split at hs <;> rename_i hp
  · rw [hp] at hprog
    obtain rfl := Option.some.inj hs
    exact h.moveTo (by rw [hp]; rfl) (by rw [hp]; exact fun _ => rfl)
      (fun _ => plain_of_enterReserve _ _) (progress_enterReserve hprog)
  · rw [hp] at hprog
    split_ifs at hs <;> obtain rfl := Option.some.inj hs
    · exact h.pass hp rfl rfl rfl rfl rfl rfl rfl rfl (fun _ => rfl) hprog
    · exact h.moveTo (by rw [hp]; rfl) (by rw [hp]; exact fun _ => rfl)
        (fun _ => plain_of_enterReserve _ _) (progress_enterReserve hprog)
  · -- upstream
    split at hs
    · rw [hp] at hprog
      obtain rfl := Option.some.inj hs
      exact h.pass hp rfl rfl rfl rfl rfl rfl rfl rfl (fun _ => rfl)
        ⟨update_self t _ s.upstreamEmpty, hprog⟩
    · split_ifs at hs with hfresh
      obtain rfl := Option.some.inj hs
      exact h.makeBlock hp hfresh
  · -- releaseReservation
    rename_i R
    rw [hp] at hprog
    obtain rfl := Option.some.inj hs
    have hplain := fun b => plain_of_enterOther (P := P) (R := R) (b := b) (t := t) 1 s.sets
    exact h.pass hp rfl rfl rfl rfl rfl rfl rfl (hplain 0).1 (fun b => (hplain b).2)
      (progress_enterOther fun hsmall => .one (hprog.2 hsmall) (.inr hprog.1))
  · -- firstForPush
    rename_i block R
    rw [hp] at hprog hchains
    obtain rfl := Option.some.inj hs
    exact h.link hp rfl rfl rfl rfl (fun _ => rfl) ((hchains.aim _).keep rfl rfl rfl rfl)
      ⟨hprog, update_self block _ s.nextBlock⟩
  · -- pushSwap
    rename_i block expected R
    rw [hp] at hprog hchains hmine
    obtain ⟨harena, hnext⟩ := hprog
    split_ifs at hs with hsame <;> obtain rfl := Option.some.inj hs
    · rw [← harena] at hsame ⊢
      have hpushed := hchains.push (hmine block List.mem_cons_self) (hnext.trans hsame.symm)
      exact h.link hp rfl rfl rfl rfl (fun _ => rfl) (hpushed.keep rfl rfl rfl rfl) trivial
    · exact h.link hp rfl rfl rfl rfl (fun _ => rfl) ((hchains.aim _).keep rfl rfl rfl rfl)
        ⟨harena, update_self block _ s.nextBlock⟩
  · cases hs

/-- A step of a release inside the set of its block. -/
theorem Solo.stepRelease (h : Solo P s t) (hC : Claims P s) {z : BitblockSet.State τ}
    {spurious : Bool} {c : Claim τ} {coreId : ℕ} (hp : s.pc t = .releasing c coreId)
    (hret : ∀ r, (s.sets c.block).pc t ≠ .ret r)
    (hz : BitblockSet.stepRun P.setSize (s.sets c.block) t spurious = some z) :
    Solo P (s.setSet c.block z) t := by
  have hset := hC.setPc t c.block
  have hheld := hC.held t
  have hok := (hC.inv c.block).pc t
  rw [hp] at hset hheld
  have hrel : Releasing c.index c.numElements ((s.sets c.block).pc t) := by
    simp only [SetPcOk, if_true] at hset
    exact hset.resolve_right (hret _)
  have hdebt : ∀ b, (s.pc t).debt P t s.sets b = 0 := fun b => by
    rw [hp]
    refine if_neg ?_
    rintro ⟨heq, hr⟩
    rw [← heq] at hr
    exact hret _ hr
  have hafter : (clearBits P.setSize z : ℤ) + (if z.pc t = .ret .success then -(c.numElements : ℤ) else 0)
      = clearBits P.setSize (s.sets c.block) := by
    rcases release_step (hC.inv c.block) hheld hrel hz with ⟨hl, hrel'⟩ | ⟨hcl, hpc⟩
    · rw [clearBits_congr hl.bit, if_neg fun hr => ?_, add_zero]
      rw [hr] at hrel'
      exact hrel'
    · have hclear := clearBits_clears (hrel.fits hok) hcl
      rw [if_pos hpc]
      omega
  have hgoal := h.setStep (b := c.block) (z := z) (p := .releasing c coreId) ?_ (fun b hb => ?_)
    (by rw [hp]) trivial
  · rwa [setPc_of_eq (s := s.setSet c.block z) hp] at hgoal
  · rw [hdebt, add_zero, ← hafter]
    simp [Pc.debt]
  · rw [hdebt]
    simp [Pc.debt, hb.symm]

theorem Solo.stepFree {spurious : Bool} (h : Solo P s t) (hB : Blocks P s) (hC : Claims P s)
    (hs : stepFree P s t spurious = some s') : Solo P s' t := by
  have hmine := hB.pointers.pc t
  have hset := hC.setPc t
  unfold BitblockResource.stepFree at hs
  split at hs <;> rename_i hp
  · -- releasing
    rename_i c coreId
    split at hs <;> rename_i hret
    · rename_i r
      rw [hp] at hset
      have hr : (s.sets c.block).pc t = .ret .success := by
        have hthere := hset c.block
        simp only [SetPcOk, if_true] at hthere
        refine hthere.resolve_left fun hrel => ?_
        rw [hret] at hrel
        exact hrel
      have hdebt : ∀ sets b, (Pc.addFree c coreId).debt P t sets b = (s.pc t).debt P t s.sets b := by
        intro sets b
        rw [hp]
        by_cases hb : c.block = b
        · subst hb
          simp [Pc.debt, hr]
        · simp [Pc.debt, hb]
      obtain rfl := Option.some.inj hs
      exact h.setStep (by rw [hdebt]; rfl) (fun b _ => hdebt _ b) (by rw [hp]; rfl) trivial
    · obtain ⟨z, hz, rfl⟩ := Option.map_eq_some_iff.1 hs
      exact h.stepRelease hC hp (fun r hr => hret r hr) hz
  · -- addFree
    rename_i c coreId
    have hcount := h.count c.block (by rw [hp] at hmine; exact hmine _ List.mem_cons_self)
    rw [hp] at hcount
    simp only [Pc.debt, if_true] at hcount
    obtain rfl := Option.some.inj hs
    refine h.recount rfl rfl rfl rfl rfl rfl (by rw [hp]; rfl) (fun b _ => ?_) trivial
    rw [hp]
    show ((update s.freeCount c.block _ b : ℕ) : ℤ) - 0 = s.freeCount b - if c.block = b then _ else 0
    rcases eq_or_ne b c.block with rfl | hb
    · have hle : clearBits P.setSize (s.sets c.block) ≤ P.ELEMENTS_PER_BLOCK := clearBits_le
      have hlt := P.elements_lt
      rw [update_self, if_pos rfl, Nat.mod_eq_of_lt (by omega)]
      omega
    · rw [update_of_ne hb, if_neg hb.symm]
  · obtain rfl := Option.some.inj hs
    exact h.pass hp rfl rfl rfl rfl rfl rfl rfl rfl (fun _ => rfl) trivial
  · obtain rfl := Option.some.inj hs
    exact h.pass hp rfl rfl rfl rfl rfl rfl rfl rfl (fun _ => rfl) trivial
  · cases hs

theorem Solo.run {spurious : Bool} {space : Option ℕ} (h : Solo P s t) (hsound : Sound P s)
    (hs : stepRun P s t spurious space = some s') : Solo P s' t := by
  have hB := hsound.blocks
  have hC := hsound.claims
  rcases stepRun_cases hs with ⟨hp, rfl⟩ | hs | hs | hs | hs
  · rcases hp with ⟨R, hp⟩ | hp <;>
      exact h.moveTo (by rw [hp]; rfl) (by rw [hp]; exact fun _ => rfl) (fun _ => ⟨rfl, rfl⟩) trivial
  · exact h.stepSearch hB hC hs
  · exact h.stepFound hB hs
  · exact h.stepAdd hB hs
  · exact h.stepFree hB hC hs

/-- A release is called on the elements of an allocation. -/
theorem Solo.deallocate (h : Solo P s t) (hC : Claims P s) {a : Allocation τ} {coreId : ℕ}
    (ha : a ∈ s.live) (hp : s.pc t = .idle) :
    Solo P (({ s with live := s.live.erase a }.setSet a.claim.block
      (release P (s.sets a.claim.block) t a.claim)).setPc t (.releasing a.claim coreId)) t := by
  have hdebt : ∀ b, (s.pc t).debt P t s.sets b = 0 := fun b => by
    rw [hp]
    rfl
  have hforget : Solo P { s with live := s.live.erase a } t :=
    ⟨h.others, h.count, h.chains.keep rfl rfl rfl rfl, by show Progress P _ t (s.pc t); rw [hp]; trivial⟩
  unfold release
  rw [if_pos (hC.live a ha).valid]
  refine hforget.setStep ?_ (fun b hb => ?_) (by show _ = (s.pc t).pushing; rw [hp]; rfl) trivial
  · show (clearBits P.setSize (s.sets a.claim.block) : ℤ) + _ = _ + (s.pc t).debt P t s.sets _
    rw [hdebt]
    simp [Pc.debt, pc_setPc]
  · show _ = (s.pc t).debt P t s.sets b
    rw [hdebt]
    simp [Pc.debt, hb.symm]

theorem Solo.step {a : Action τ} (h : Solo P s t) (hsound : Sound P s) (hby : a.By t)
    (hs : step P s a = some s') : Solo P s' t := by
  cases a with
  | allocate u R =>
    obtain rfl : u = t := hby
    simp only [BitblockResource.step] at hs
    split_ifs at hs with hp hrefused <;> obtain rfl := Option.some.inj hs
    · refine h.pass hp rfl rfl rfl rfl rfl rfl rfl rfl (fun _ => rfl)
        fun hle hsmall => ?_
      unfold Small at hsmall
      omega
    · exact h.pass hp rfl rfl rfl rfl rfl rfl rfl rfl (fun _ => rfl) trivial
  | deallocate u a coreId =>
    obtain rfl : u = t := hby
    simp only [BitblockResource.step] at hs
    split_ifs at hs with hp
    obtain rfl := Option.some.inj hs
    rw [(hsound.claims.formed a hp.2).fromHeader]
    exact h.deallocate hsound.claims hp.2 hp.1
  | deallocateNull u =>
    obtain rfl : u = t := hby
    simp only [BitblockResource.step] at hs
    split_ifs at hs with hp
    obtain rfl := Option.some.inj hs
    exact h.moveTo (by rw [hp]; rfl) (by rw [hp]; exact fun _ => rfl) (fun _ => ⟨rfl, rfl⟩) trivial
  | write a x value =>
    simp only [BitblockResource.step] at hs
    split_ifs at hs
    obtain rfl := Option.some.inj hs
    exact ⟨h.others, h.count, h.chains.keep rfl rfl rfl rfl, h.progress⟩
  | run u spurious space =>
    obtain rfl : u = t := hby
    exact h.run hsound hs

omit [DecidableEq τ] in
theorem solo_start (h : Start P s) (t : τ) : Solo P s t := by
  have hb := built_start h
  have hidle : ∀ u, s.pc u = .idle := fun u => by rw [hb.idle]
  refine ⟨fun u _ => hidle u, fun b hmade => ?_, ⟨hb.arena, fun k => ?_⟩, ?_⟩
  · rw [hb.count b hmade, hidle, hb.sets, clearBits_newSet]
    exact (add_zero _).symm
  · rw [hidle, hb.next]
    cases hfirst : s.firstBlock k with
    | none =>
      refine ⟨[], rfl, fun b => iff_of_false List.not_mem_nil fun hmem => ?_⟩
      rw [(hb.first k b).2 ⟨hmem.1, hmem.2.1⟩] at hfirst
      cases hfirst
    | some c =>
      refine ⟨[c], ⟨rfl, rfl⟩, fun b => ?_⟩
      rw [List.mem_singleton]
      constructor
      · rintro rfl
        exact ⟨((hb.first k b).1 hfirst).1, ((hb.first k b).1 hfirst).2, Option.some_ne_none b⟩
      · rintro ⟨hmade, hk, -⟩
        exact Option.some.inj (((hb.first k b).2 ⟨hmade, hk⟩).symm.trans hfirst)
  · rw [hidle]
    trivial

theorem solo_of_run (h : (machine (τ := τ) P).Run (fun _ a => a.By t) s) : Solo P s t :=
  Machine.run_induction (fun _ h0 => solo_start h0 t)
    (fun _ _ _ hr ih hby hs => ih.step (reachable_sound hr.reachable) hby hs) h

end Solo

end MinStd.BitblockResource
