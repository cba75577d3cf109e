import MinStd.Proofs.SingleBlockMemory

/-!
# The lists of freed blocks and the callers' hands

Where every unlink starts from a listed block, the lists are what their ghosts say: a block's link
is written by the one thread that unlinked it or set its flag, or as the predecessor of an unlink,
and a listed block has no such owner.  A block off its list aims where it did when it was unlinked,
at a block listed then, so along such links the times of the unlinks grow.
-/

namespace MinStd.SingleBlockResource

variable {Tid : Type*} [DecidableEq Tid]

/-- A store another thread's block waits for: its address and what it will aim at. -/
def Pc.aims? : Pc → Option (Block × Block)
  | .pushStore b _ (.block c) _ => some (b, c)
  | _ => none

/-- The block aims at `c`, or its owner is about to aim it there. -/
def Aims (s : State Tid) (b c : Block) : Prop :=
  s.nextDeallocated b = .block c ∨ ∃ t, (s.pc t).aims? = some (b, c)

def Listed (s : State Tid) (b : Block) : Prop := ∃ k, b ∈ s.lists k

/-- With the times of the blocks' last unlinks: a block off its list aims at a listed block or at
one unlinked later. -/
def Ordered (s : State Tid) (unlinkedAt : Block → ℕ) (now : ℕ) : Prop :=
  (∀ b, unlinkedAt b ≤ now) ∧
    ∀ b c, Aims s b c → ¬ Listed s b → Listed s c ∨ unlinkedAt b < unlinkedAt c

structure Lists (s : State Tid) : Prop where
  chain : ∀ k, Linked .block s.nextDeallocated (s.head k) (s.lists k) .endOfListMarker
  listed : ∀ k, ∀ b ∈ s.lists k, s.onFreeList b = true ∧ s.created b ∧ home s b = k
  owned : ∀ t b, (s.pc t).owned? = some b → s.onFreeList b = true ∧ ¬ Listed s b
  owned_unique : ∀ t u b, (s.pc t).owned? = some b → (s.pc u).owned? = some b → t = u
  stored : ∀ t b bin head k, s.pc t = .pushCas b bin head k → s.nextDeallocated b = head
  ordered : ∃ unlinkedAt now, Ordered s unlinkedAt now

/-- A block in hand is in use and in one hand. -/
structure Callers (s : State Tid) : Prop where
  held : ∀ t b, (s.pc t).held? = some b → s.inUse b = true ∧ s.callers b = 0
  held_unique : ∀ t u b, (s.pc t).held? = some b → (s.pc u).held? = some b → t = u
  callers : ∀ b, s.callers b ≤ 1 ∧ (0 < s.callers b → s.inUse b = true)

theorem block_injective : Function.Injective Ptr.block := fun _ _ h => Ptr.block.inj h

theorem block_ne_marker (b : Block) : Ptr.block b ≠ .endOfListMarker := Ptr.noConfusion

theorem Pc.owned_of_aims {p : Pc} {b c : Block} (h : p.aims? = some (b, c)) :
    p.owned? = some b := by
  unfold Pc.aims? at h
  split at h <;> cases h
  rfl

namespace Callers

variable {s s' : State Tid} {t : Tid}

/-- A step that hands out no block. -/
theorem frame (h : Callers s) {p : Pc} (hinUse : s'.inUse = s.inUse)
    (hcallers : s'.callers = s.callers) (hpc : ∀ u, s'.pc u = if u = t then p else s.pc u)
    (hheld : p.held? = none ∨ p.held? = (s.pc t).held?) : Callers s' := by
  have hold : ∀ u b, (s'.pc u).held? = some b → (s.pc u).held? = some b := fun u b hu => by
    rw [hpc] at hu
    split_ifs at hu with hut
    · subst hut
      rcases hheld with e | e
      · rw [e] at hu; cases hu
      · rwa [e] at hu
    · exact hu
  refine ⟨fun u b hu => ?_, fun u v b hu hv => h.held_unique u v b (hold u b hu) (hold v b hv), ?_⟩
  · rw [hinUse, hcallers]
    exact h.held u b (hold u b hu)
  · rw [hinUse, hcallers]
    exact h.callers

/-- A step of `t` on block `b`, which is in no other hand. -/
theorem handle (h : Callers s) {p : Pc} {b : Block} (hfree : ∀ u, u ≠ t → (s.pc u).held? ≠ some b)
    (hinUse : ∀ c, c ≠ b → s'.inUse c = s.inUse c)
    (hcallers : ∀ c, c ≠ b → s'.callers c = s.callers c)
    (hpc : ∀ u, s'.pc u = if u = t then p else s.pc u)
    (hheld : p.held? = none ∨ p.held? = some b ∧ s'.inUse b = true ∧ s'.callers b = 0)
    (hb : s'.callers b ≤ 1 ∧ (0 < s'.callers b → s'.inUse b = true)) : Callers s' := by
  have hold : ∀ u c, (s'.pc u).held? = some c →
      u = t ∧ c = b ∧ s'.inUse b = true ∧ s'.callers b = 0
        ∨ u ≠ t ∧ c ≠ b ∧ (s.pc u).held? = some c := fun u c hu => by
    rw [hpc] at hu
    split_ifs at hu with hut
    · rcases hheld with e | ⟨e, h2⟩
      · rw [e] at hu; cases hu
      · rw [e] at hu; cases hu
        exact .inl ⟨hut, rfl, h2⟩
    · exact .inr ⟨hut, fun e => hfree u hut (e ▸ hu), hu⟩
  refine ⟨fun u c hu => ?_, fun u v c hu hv => ?_, fun c => ?_⟩
  · rcases hold u c hu with ⟨-, rfl, h2⟩ | ⟨-, hc, hu⟩
    · exact h2
    · rw [hinUse c hc, hcallers c hc]
      exact h.held u c hu
  · rcases hold u c hu with ⟨rfl, hc, -⟩ | ⟨-, hc, hu⟩ <;>
      rcases hold v c hv with ⟨rfl, hc', -⟩ | ⟨-, hc', hv⟩
    · rfl
    · exact absurd hc hc'
    · exact absurd hc' hc
    · exact h.held_unique u v c hu hv
  · by_cases hc : c = b
    · exact hc ▸ hb
    · rw [hinUse c hc, hcallers c hc]
      exact h.callers c

theorem step (h : Callers s) (hm : Memory s) (he : Effect s t s') : Callers s' := by
  have hot : ∀ b, (s.pc t).held? = some b → ∀ u, u ≠ t → (s.pc u).held? ≠ some b :=
    fun b hb u hu hub => hu (h.held_unique u t b hub hb)
  cases he with
  | move hm => exact h.frame rfl rfl (update_pc s t · _) hm.held
  | @claim r previous current next hp hu =>
    have h0 : s.callers current = 0 := by
      by_contra hc
      have := (h.callers current).2 (Nat.pos_of_ne_zero hc)
      rw [hu] at this
      cases this
    refine h.handle (b := current) (fun u _ hub => ?_) (fun c hc => ?_) (fun _ _ => rfl)
      (update_pc _ t · _) (.inr ⟨rfl, ?_, h0⟩) ?_
    · have := (h.held u current hub).1
      rw [hu] at this
      cases this
    · simp [State.setPc, State.setInUse, hc]
    · simp [State.setPc, State.setInUse]
    · simp [State.setPc, State.setInUse, h0]
  | @setRequested r b hp =>
    have hb : (s.pc t).held? = some b := by rw [hp]; rfl
    obtain ⟨hu, h0⟩ := h.held t b hb
    refine h.handle (b := b) (hot b hb) (fun _ _ => rfl) (fun c hc => ?_) (update_pc _ t · _)
      (.inl rfl) ?_
    · simp [State.setPc, State.setCallers, hc]
    · simpa [State.setPc, State.setCallers, h0] using hu
  | @unlink r previous current next hp hl =>
    cases previous <;> exact h.frame rfl rfl (update_pc _ t · _) (.inl rfl)
  | clearFlag hp => exact h.frame rfl rfl (update_pc _ t · _) (.inl rfl)
  | takeFlag hp hf => exact h.frame rfl rfl (update_pc _ t · _) (.inl rfl)
  | pushStore hp => exact h.frame rfl rfl (update_pc _ t · _) (.inl rfl)
  | @pushCas b bin head k hp hh =>
    exact h.frame rfl rfl (update_pc _ t · _) (.inl (by cases k <;> rfl))
  | moveTail hp hn => exact h.frame rfl rfl (update_pc _ t · _) (.inl rfl)
  | @initHeader r header following hp =>
    have hfresh := (hm.carved t header (by rw [hp]; rfl)).1
    have h0 : s.callers header = 0 := by
      by_contra hc
      have := hm.callers header (Nat.pos_of_ne_zero hc)
      rw [hfresh] at this
      cases this
    refine h.handle (b := header) (fun u _ hub => ?_) (fun c hc => ?_) (fun c hc => ?_)
      (update_pc _ t · _) (.inl rfl) ?_
    · have hc := (hm.pcs u).held_created hub
      rw [hfresh] at hc
      cases hc
    · simp [State.setPc, State.setCallers, State.initBlock, hc]
    · simp [State.setPc, State.setCallers, State.initBlock, hc]
    · simp [State.setPc, State.setCallers, State.initBlock, h0]
  | @release b bytes hp hu =>
    have hb : (s.pc t).held? = some b := by rw [hp]; rfl
    have h0 := (h.held t b hb).2
    refine h.handle (b := b) (hot b hb) (fun c hc => ?_) (fun _ _ => rfl) (update_pc _ t · _)
      (.inl rfl) ?_
    · simp [State.setPc, State.setInUse, hc]
    · simp [State.setPc, State.setInUse, h0]
  | countDeallocation hp => exact h.frame rfl rfl (update_pc _ t · _) (.inl rfl)
  | @deallocate b bytes hp hc =>
    have h1 := h.callers b
    have h0 : s.callers b - 1 = 0 := by omega
    refine h.handle (b := b) (fun u _ hub => ?_) (fun _ _ => rfl) (fun c hcb => ?_)
      (update_pc _ t · _) (.inr ⟨rfl, h1.2 hc, ?_⟩) ?_
    · have := (h.held u b hub).2
      omega
    · simp [State.setPc, State.setCallers, hcb]
    · simp [State.setPc, State.setCallers, h0]
    · simp [State.setPc, State.setCallers, h0]

end Callers

namespace Lists

variable {s s' : State Tid} {t : Tid}

omit [DecidableEq Tid] in
theorem head_listed (h : Lists s) {k : ℕ} {c : Block} (hc : s.head k = .block c) :
    Listed s c := by
  have hk := h.chain k
  rw [hc] at hk
  obtain ⟨l, hl, -⟩ := hk.unlink_head block_injective block_ne_marker
  exact ⟨k, by simp [hl]⟩

omit [DecidableEq Tid] in
theorem nodup (h : Lists s) (k : ℕ) : (s.lists k).Nodup :=
  (h.chain k).nodup block_injective block_ne_marker

/-- A step that leaves links, lists and flags. -/
theorem frame (h : Lists s) {p : Pc} (hnext : s'.nextDeallocated = s.nextDeallocated)
    (hhead : s'.head = s.head) (hlists : s'.lists = s.lists)
    (hflag : s'.onFreeList = s.onFreeList)
    (hhome : ∀ b, s.created b → s'.created b ∧ home s' b = home s b)
    (hpc : ∀ u, s'.pc u = if u = t then p else s.pc u)
    (howned : p.owned? = none ∨ p.owned? = (s.pc t).owned?)
    (hreload : ∀ b bin head k, p = .pushStore b bin head k → head = s.head bin)
    (hstore : ∀ b bin head k, p ≠ .pushCas b bin head k) : Lists s' := by
  have hold : ∀ u b, (s'.pc u).owned? = some b → (s.pc u).owned? = some b := fun u b hu => by
    rw [hpc] at hu
    split_ifs at hu with hut
    · subst hut
      rcases howned with e | e
      · rw [e] at hu; cases hu
      · rwa [e] at hu
    · exact hu
  refine ⟨fun k => ?_, fun k b hb => ?_, fun u b hu => ?_,
    fun u v b hu hv => h.owned_unique u v b (hold u b hu) (hold v b hv),
    fun u b bin head k hu => ?_, ?_⟩
  · rw [hnext, hhead, hlists]
    exact h.chain k
  · rw [hlists] at hb
    obtain ⟨h1, h2, h3⟩ := h.listed k b hb
    exact ⟨hflag ▸ h1, (hhome b h2).1, (hhome b h2).2.trans h3⟩
  · rw [hflag, Listed, hlists]
    exact h.owned u b (hold u b hu)
  · rw [hpc] at hu
    split_ifs at hu
    · exact absurd hu (hstore _ _ _ _)
    · exact hnext ▸ h.stored u b bin head k hu
  · obtain ⟨τ, now, hτ, ho⟩ := h.ordered
    refine ⟨τ, now, hτ, fun b c ha hb => ?_⟩
    simp only [Aims, Listed, hnext, hlists] at ha hb ⊢
    rcases ha with ha | ⟨u, hu⟩
    · exact ho b c (.inl ha) hb
    · rw [hpc] at hu
      split_ifs at hu
      · unfold Pc.aims? at hu
        split at hu <;> cases hu
        exact .inl (h.head_listed (hreload _ _ _ _ rfl).symm)
      · exact ho b c (.inr ⟨u, hu⟩) hb

/-- Where `t` now waits for no store, what is about to aim where was so before. -/
theorem aims_of_setPc {p : Pc} {b c : Block} (hpc : s'.pc = s.pc) (hp : p.aims? = none)
    (h : ∃ u, ((s'.setPc t p).pc u).aims? = some (b, c)) : ∃ u, (s.pc u).aims? = some (b, c) := by
  obtain ⟨u, hu⟩ := h
  refine ⟨u, ?_⟩
  rw [update_pc, hpc] at hu
  split_ifs at hu
  · rw [hp] at hu
    cases hu
  · exact hu

omit [DecidableEq Tid] in
/-- The chains after an unlink. -/
theorem chain_unlink (h : Lists s) {bin : ℕ} {previous : Option Block} {current : Block}
    (hl : s.linkTo bin previous = .block current) (hprev : ∀ b ∈ previous, b ∈ s.lists bin)
    (k : ℕ) : Linked .block (s.setLinkTo bin previous (s.nextDeallocated current)).nextDeallocated
      ((s.setLinkTo bin previous (s.nextDeallocated current)).head k)
      (Function.update s.lists bin ((s.lists bin).erase current) k) .endOfListMarker := by
  have hk := h.chain k
  rcases previous with _ | previous
  · by_cases hkb : k = bin
    · subst hkb
      change s.head k = .block current at hl
      rw [hl] at hk
      obtain ⟨l, hl', hk'⟩ := hk.unlink_head block_injective block_ne_marker
      simpa [State.setLinkTo, State.setHead, hl'] using hk'
    · simpa [State.setLinkTo, State.setHead, hkb] using hk
  · have hp := hprev previous rfl
    by_cases hkb : k = bin
    · subst hkb
      simpa [State.setLinkTo, State.setNext] using
        (hk.unlink_after block_injective block_ne_marker hp hl).1
    · have hpk : previous ∉ s.lists k := fun hm =>
        hkb ((h.listed k _ hm).2.2.symm.trans (h.listed bin _ hp).2.2)
      simpa [State.setLinkTo, State.setNext, hkb] using hk.update hpk _

omit [DecidableEq Tid] in
/-- What the unlinked block aims at stays listed. -/
theorem next_listed (h : Lists s) {k : ℕ} {b c : Block} (hb : b ∈ s.lists k)
    (hc : s.nextDeallocated b = .block c) : c ∈ s.lists k ∧ c ≠ b := by
  obtain ⟨l₁, l₂, he, -, h2⟩ := (h.chain k).tail_of_mem hb
  rw [hc] at h2
  obtain ⟨l, rfl, -⟩ := h2.unlink_head block_injective block_ne_marker
  have := h.nodup k
  rw [he] at this ⊢
  refine ⟨by simp, fun e => ?_⟩
  subst e
  simp [List.nodup_append] at this

omit [DecidableEq Tid] in
theorem link_listed (h : Lists s) {bin : ℕ} {previous : Option Block} {current : Block}
    (hl : s.linkTo bin previous = .block current) (hprev : ∀ b ∈ previous, b ∈ s.lists bin) :
    current ∈ s.lists bin ∧ current ∉ previous := by
  rcases previous with _ | previous
  · have hk := h.chain bin
    change s.head bin = .block current at hl
    rw [hl] at hk
    obtain ⟨l, hl', -⟩ := hk.unlink_head block_injective block_ne_marker
    exact ⟨by simp [hl'], by simp⟩
  · have := h.next_listed (hprev previous rfl) hl
    exact ⟨this.1, by simpa using this.2.symm⟩

theorem unlink (h : Lists s) {r : Request} {previous : Option Block} {current : Block}
    (hp : s.pc t = .unlink r previous current (s.nextDeallocated current))
    (hl : s.linkTo r.bin previous = .block current)
    (hprev : ∀ b ∈ previous, b ∈ s.lists r.bin) :
    Lists (((s.setLinkTo r.bin previous (s.nextDeallocated current)).setList r.bin
      ((s.lists r.bin).erase current)).setPc t
        (.clearFlag r previous current (s.nextDeallocated current))) := by
  obtain ⟨hcur, hcp⟩ := h.link_listed hl hprev
  -- off the lists now: `current`, and what was off them before
  have hmem : ∀ k b, b ∈ Function.update s.lists r.bin ((s.lists r.bin).erase current) k ↔
      b ∈ s.lists k ∧ b ≠ current := fun k b => by
    by_cases hk : k = r.bin
    · subst hk
      rw [Function.update_self, (h.nodup _).mem_erase_iff, and_comm]
    · rw [Function.update_of_ne hk]
      refine ⟨fun hb => ⟨hb, ?_⟩, And.left⟩
      rintro rfl
      exact hk ((h.listed k b hb).2.2.symm.trans (h.listed _ b hcur).2.2)
  have hlisted : ∀ b, (∃ k, b ∈ Function.update s.lists r.bin ((s.lists r.bin).erase current) k)
      ↔ Listed s b ∧ b ≠ current := fun b => by
    simp only [hmem, Listed, exists_and_right]
  have howned : ∀ u, (s.pc u).owned? ≠ some current := fun u hu =>
    (h.owned u current hu).2 ⟨_, hcur⟩
  refine ⟨fun k => ?_, fun k b hb => ?_, fun u b hu => ?_, fun u v b hu hv => ?_,
    fun u b bin head k hu => ?_, ?_⟩
  · simpa only [State.setPc, State.setList, setLinkTo_lists] using h.chain_unlink hl hprev k
  · simp only [State.setPc, State.setList, setLinkTo_lists, hmem] at hb
    simpa [home, State.setPc, State.setList] using h.listed k b hb.1
  · rw [update_pc] at hu
    simp only [State.setPc, State.setList, Listed, setLinkTo_onFreeList, setLinkTo_lists, hlisted]
    split_ifs at hu
    · cases hu
      exact ⟨(h.listed _ _ hcur).1, fun hc => hc.2 rfl⟩
    · rw [State.setList, setLinkTo_pc] at hu
      exact ⟨(h.owned u b hu).1, fun hc => (h.owned u b hu).2 hc.1⟩
  · rw [update_pc] at hu hv
    simp only [State.setList, setLinkTo_pc] at hu hv
    split_ifs at hu hv with h1 h2 h2
    · rw [h1, h2]
    · cases hu
      exact absurd hv (howned v)
    · cases hv
      exact absurd hu (howned u)
    · exact h.owned_unique u v b hu hv
  · rw [update_pc] at hu
    simp only [State.setList, setLinkTo_pc] at hu
    split_ifs at hu
    have hb := h.owned u b (by rw [hu]; rfl)
    simp only [State.setPc, State.setList]
    rw [setLinkTo_next _ _ _ _ fun hm => hb.2 ⟨_, hprev b hm⟩]
    exact h.stored u b bin head k hu
  · obtain ⟨τ, now, hτ, ho⟩ := h.ordered
    refine ⟨Function.update τ current (now + 1), now + 1, fun b => ?_, fun b c ha hb => ?_⟩
    · by_cases hb : b = current
      · subst hb
        simp
      · simpa [hb] using Nat.le_succ_of_le (hτ b)
    · simp only [State.setPc, State.setList, Listed, setLinkTo_lists, hlisted, not_and,
        not_not] at hb ⊢
      have ha' : Aims s b c := by
        refine ha.imp (fun ha => ?_) (aims_of_setPc (setLinkTo_pc _ _ _ _) rfl)
        rwa [← setLinkTo_next s r.bin previous (s.nextDeallocated current) fun hm => ?_]
        exact hcp (hb ⟨_, hprev b hm⟩ ▸ hm)
      by_cases hbc : b = current
      · subst hbc
        rcases ha' with ha' | ⟨u, hu⟩
        · have := h.next_listed hcur ha'
          exact .inl ⟨⟨_, this.1⟩, this.2⟩
        · exact absurd (Pc.owned_of_aims hu) (howned u)
      · have hbl : ¬ Listed s b := fun hm => hbc (hb hm)
        rw [Function.update_of_ne hbc]
        by_cases hcc : c = current
        · subst hcc
          rw [Function.update_self]
          exact .inr (Nat.lt_succ_of_le (hτ b))
        · rw [Function.update_of_ne hcc]
          exact (ho b c ha' hbl).imp_left fun hm => ⟨hm, hcc⟩

theorem clearFlag (h : Lists s) {r : Request} {previous : Option Block} {current : Block}
    {next : Ptr} (hp : s.pc t = .clearFlag r previous current next) :
    Lists ((s.setFlag current false).setPc t (.recheck r previous current next)) := by
  have hown : (s.pc t).owned? = some current := by rw [hp]; rfl
  have hother : ∀ u b, u ≠ t → (s.pc u).owned? = some b → b ≠ current := by
    rintro u b hu hb rfl
    exact hu (h.owned_unique u t b hb hown)
  refine ⟨h.chain, fun k b hb => ?_, fun u b hu => ?_, fun u v b hu hv => ?_,
    fun u b bin head k hu => ?_, ?_⟩
  · have hbc : b ≠ current := fun e => (h.owned t _ hown).2 ⟨k, e ▸ hb⟩
    simpa [home, State.setPc, State.setFlag, hbc] using h.listed k b hb
  · rw [update_pc] at hu
    split_ifs at hu with hut
    · cases hu
    · simpa [Listed, State.setPc, State.setFlag, hother u b hut hu] using h.owned u b hu
  · rw [update_pc] at hu hv
    split_ifs at hu hv
    · cases hu
    · cases hu
    · cases hv
    · exact h.owned_unique u v b hu hv
  · rw [update_pc] at hu
    split_ifs at hu
    exact h.stored u b bin head k hu
  · obtain ⟨τ, now, hτ, ho⟩ := h.ordered
    refine ⟨τ, now, hτ, fun b c ha hb => ho b c ?_ hb⟩
    exact ha.imp_right (aims_of_setPc rfl rfl)

theorem takeFlag (h : Lists s) {b : Block} {bin : ℕ} {k : Cont} (hf : s.onFreeList b = false) :
    Lists ((s.setFlag b true).setPc t (.pushLoad b bin k)) := by
  have hnone : ∀ u, (s.pc u).owned? ≠ some b := fun u hu => by
    have := (h.owned u b hu).1
    rw [hf] at this
    cases this
  refine ⟨h.chain, fun j c hc => ?_, fun u c hu => ?_, fun u v c hu hv => ?_,
    fun u c bin head k hu => ?_, ?_⟩
  · have := h.listed j c hc
    by_cases hcb : c = b
    · subst hcb
      simpa [home, State.setPc, State.setFlag] using this.2
    · simpa [home, State.setPc, State.setFlag, hcb] using this
  · rw [update_pc] at hu
    split_ifs at hu with hut
    · cases hu
      refine ⟨by simp [State.setPc, State.setFlag], ?_⟩
      rintro ⟨j, hj⟩
      have := (h.listed j b hj).1
      rw [hf] at this
      cases this
    · have hcb : c ≠ b := fun e => hnone u (e ▸ hu)
      simpa [Listed, State.setPc, State.setFlag, hcb] using h.owned u c hu
  · rw [update_pc] at hu hv
    split_ifs at hu hv with h1 h2 h2
    · rw [h1, h2]
    · cases hu
      exact absurd hv (hnone v)
    · cases hv
      exact absurd hu (hnone u)
    · exact h.owned_unique u v c hu hv
  · rw [update_pc] at hu
    split_ifs at hu
    exact h.stored u c bin head k hu
  · obtain ⟨τ, now, hτ, ho⟩ := h.ordered
    refine ⟨τ, now, hτ, fun c d ha hc => ho c d ?_ hc⟩
    exact ha.imp_right (aims_of_setPc rfl rfl)

theorem pushStore (h : Lists s) {b : Block} {bin : ℕ} {head : Ptr} {k : Cont}
    (hp : s.pc t = .pushStore b bin head k) :
    Lists ((s.setNext b head).setPc t (.pushCas b bin head k)) := by
  have hown : (s.pc t).owned? = some b := by rw [hp]; rfl
  have hoff := (h.owned t b hown).2
  refine ⟨fun j => (h.chain j).update (fun hm => hoff ⟨j, hm⟩) _, h.listed, fun u c hu => ?_,
    fun u v c hu hv => ?_, fun u c bin' head' k' hu => ?_, ?_⟩
  · rw [update_pc] at hu
    split_ifs at hu
    · cases hu
      exact h.owned t b hown
    · exact h.owned u c hu
  · rw [update_pc] at hu hv
    split_ifs at hu hv with h1 h2 h2
    · rw [h1, h2]
    · cases hu
      exact absurd (h.owned_unique t v b hown hv) (Ne.symm h2)
    · cases hv
      exact absurd (h.owned_unique t u b hown hu) (Ne.symm h1)
    · exact h.owned_unique u v c hu hv
  · rw [update_pc] at hu
    split_ifs at hu with hut
    · cases hu
      simp [State.setPc, State.setNext]
    · have hcb : c ≠ b := by
        rintro rfl
        exact hut (h.owned_unique u t c (by rw [show s.pc u = _ from hu]; rfl) hown)
      simpa [State.setPc, State.setNext, hcb] using h.stored u c bin' head' k' hu
  · obtain ⟨τ, now, hτ, ho⟩ := h.ordered
    refine ⟨τ, now, hτ, fun c d ha hc => ho c d ?_ hc⟩
    rcases ha with ha | ha
    · by_cases hcb : c = b
      · subst hcb
        simp only [State.setPc, State.setNext, Function.update_self] at ha
        exact .inr ⟨t, by rw [hp, ha]; rfl⟩
      · exact .inl (by simpa [State.setPc, State.setNext, hcb] using ha)
    · exact .inr (aims_of_setPc rfl rfl ha)

theorem pushCas (h : Lists s) {b : Block} {bin : ℕ} {k : Cont}
    (hp : s.pc t = .pushCas b bin (s.head bin) k) (hc : s.created b) (hb : home s b = bin) :
    Lists (((s.setHead bin (.block b)).setList bin (b :: s.lists bin)).setPc t (afterPush k)) := by
  have hown : (s.pc t).owned? = some b := by rw [hp]; rfl
  have hmem : ∀ j c, c ∈ Function.update s.lists bin (b :: s.lists bin) j →
      c = b ∧ j = bin ∨ c ∈ s.lists j := fun j c hm => by
    by_cases hj : j = bin
    · subst hj
      simpa using hm
    · exact .inr (by simpa [hj] using hm)
  have hlisted : ∀ c, Listed s c → ∃ j, c ∈ Function.update s.lists bin (b :: s.lists bin) j := by
    rintro c ⟨j, hj⟩
    refine ⟨j, ?_⟩
    by_cases hjb : j = bin
    · subst hjb
      simp [hj]
    · simpa [hjb] using hj
  have hpc : ∀ u c, ((if u = t then afterPush k else s.pc u) : Pc).owned? = some c →
      (s.pc u).owned? = some c ∧ c ≠ b := fun u c hu => by
    split_ifs at hu with hut
    · cases k <;> cases hu
    · refine ⟨hu, ?_⟩
      rintro rfl
      exact hut (h.owned_unique u t c hu hown)
  refine ⟨fun j => ?_, fun j c hm => ?_, fun u c hu => ?_, fun u v c hu hv => ?_,
    fun u c bin' head' k' hu => ?_, ?_⟩
  · by_cases hj : j = bin
    · subst hj
      simpa [State.setPc, State.setList, State.setHead] using
        (h.chain j).push (h.stored t b j _ k hp)
    · simpa [State.setPc, State.setList, State.setHead, hj] using h.chain j
  · rcases hmem j c hm with ⟨rfl, rfl⟩ | hm
    · exact ⟨(h.owned t c hown).1, hc, hb⟩
    · exact h.listed j c hm
  · rw [update_pc] at hu
    obtain ⟨hu, hcb⟩ := hpc u c hu
    refine ⟨(h.owned u c hu).1, ?_⟩
    rintro ⟨j, hj⟩
    rcases hmem j c hj with ⟨e, -⟩ | hj
    · exact hcb e
    · exact (h.owned u c hu).2 ⟨j, hj⟩
  · rw [update_pc] at hu hv
    exact h.owned_unique u v c (hpc u c hu).1 (hpc v c hv).1
  · rw [update_pc] at hu
    split_ifs at hu
    · cases k <;> cases hu
    · exact h.stored u c bin' head' k' hu
  · obtain ⟨τ, now, hτ, ho⟩ := h.ordered
    refine ⟨τ, now, hτ, fun c d ha hcl => ?_⟩
    refine (ho c d ?_ fun hm => hcl (hlisted c hm)).imp_left (hlisted d)
    exact ha.imp_right (aims_of_setPc rfl (by cases k <;> rfl))

theorem initHeader (h : Lists s) (hm : Memory s) {r : Request} {header following : ℕ}
    (hp : s.pc t = .initHeader r header following) :
    Lists (((({ s with totalAllocations := s.totalAllocations + 1 } : State Tid).initBlock r
      header following).setCallers header (s.callers header + 1)).setPc t .idle) := by
  have hfresh := (hm.carved t header (by rw [hp]; rfl)).1
  have hne : ∀ b, s.created b → b ≠ header := by
    rintro b hb rfl
    rw [hfresh] at hb
    cases hb
  have hown : ∀ u b, (s.pc u).owned? = some b → b ≠ header := fun u b hu =>
    hne b ((hm.pcs u).owned_created hu)
  have hpc : ∀ u c, ((if u = t then .idle else s.pc u) : Pc).owned? = some c →
      (s.pc u).owned? = some c := fun u c hu => by
    split_ifs at hu
    · cases hu
    · exact hu
  refine ⟨fun j => ?_, fun j c hc => ?_, fun u c hu => ?_, fun u v c hu hv => ?_,
    fun u c bin head k hu => ?_, ?_⟩
  · exact (h.chain j).update (fun hj => hne _ (h.listed j _ hj).2.1 rfl) _
  · have := h.listed j c hc
    simpa [home, State.setPc, State.setCallers, State.initBlock, hne c this.2.1] using this
  · rw [update_pc] at hu
    have hu := hpc u c hu
    simpa [Listed, State.setPc, State.setCallers, State.initBlock, hown u c hu] using
      h.owned u c hu
  · rw [update_pc] at hu hv
    exact h.owned_unique u v c (hpc u c hu) (hpc v c hv)
  · rw [update_pc] at hu
    split_ifs at hu
    have hu : s.pc u = .pushCas c bin head k := hu
    simpa [State.setPc, State.setCallers, State.initBlock, hown u c (by rw [hu]; rfl)] using
      h.stored u c bin head k hu
  · obtain ⟨τ, now, hτ, ho⟩ := h.ordered
    refine ⟨τ, now, hτ, fun c d ha hcl => ho c d ?_ hcl⟩
    rcases ha with ha | ha
    · by_cases hch : c = header
      · subst hch
        simp [State.setPc, State.setCallers, State.initBlock] at ha
      · exact .inl (by simpa [State.setPc, State.setCallers, State.initBlock, hch] using ha)
    · exact .inr (aims_of_setPc rfl rfl ha)

theorem step (h : Lists s) (hm : Memory s) {a : Act} (hg : UnlinksListed s (t, a))
    (he : Effect s t s') : Lists s' := by
  have hpcs := hm.pcs t
  cases he with
  | move hm =>
    exact h.frame rfl rfl rfl rfl (fun b hb => ⟨hb, rfl⟩) (update_pc s t · _) hm.owned hm.reload
      hm.store
  | claim hp hu =>
    exact h.frame rfl rfl rfl rfl (fun b hb => ⟨hb, rfl⟩) (update_pc _ t · _) (.inl rfl) (by simp)
      (by simp)
  | @setRequested r b hp =>
    rw [hp] at hpcs
    refine h.frame rfl rfl rfl rfl (fun c hc => ⟨hc, ?_⟩) (update_pc _ t · _) (.inl rfl) (by simp)
      (by simp)
    by_cases hcb : c = b
    · subst hcb
      simpa [home, Request.bin, State.setPc, State.setCallers] using hpcs.2.symm
    · simp [home, State.setPc, State.setCallers, hcb]
  | @unlink r previous current next hp hl =>
    simp only [UnlinksListed, hp] at hg
    obtain ⟨hprev, rfl⟩ := hg hl
    exact h.unlink hp hl hprev
  | clearFlag hp => exact h.clearFlag hp
  | takeFlag hp hf => exact h.takeFlag hf
  | pushStore hp => exact h.pushStore hp
  | @pushCas b bin head k hp hh =>
    subst hh
    rw [hp] at hpcs
    exact h.pushCas hp hpcs.1.created hpcs.1.home
  | moveTail hp hn =>
    exact h.frame rfl rfl rfl rfl (fun b hb => ⟨hb, rfl⟩) (update_pc _ t · _) (.inl rfl) (by simp)
      (by simp)
  | initHeader hp => exact h.initHeader hm hp
  | release hp hu =>
    exact h.frame rfl rfl rfl rfl (fun b hb => ⟨hb, rfl⟩) (update_pc _ t · _) (.inl rfl) (by simp)
      (by simp)
  | countDeallocation hp =>
    exact h.frame rfl rfl rfl rfl (fun b hb => ⟨hb, rfl⟩) (update_pc _ t · _) (.inl rfl) (by simp)
      (by simp)
  | deallocate hp hc =>
    exact h.frame rfl rfl rfl rfl (fun b hb => ⟨hb, rfl⟩) (update_pc _ t · _) (.inl rfl) (by simp)
      (by simp)

end Lists

end MinStd.SingleBlockResource
