import MinStd.EpochReclaimer
import Mathlib.Tactic

/-!
# What a passed reclaim scan knows

A slot's snapshot never exceeds the epoch in which any thread now on the slot entered: only the
thread that took the depth from 0 records, and it loaded its epoch before anyone else joined.  So a
scan for `reclaimEpoch` that passes a slot leaves nobody there who entered by that epoch, except
the caller itself, and whoever enters later enters past it (`Inv.at_pc`), so long as no scan takes
its exemption while another thread is on the slot.
-/

namespace MinStd.EpochReclaimer

variable {Tid : Type*} {NUM_SLOTS : ℕ}

/-- Nobody is on a slot below `i` who entered by the epoch `r`, but `t` on the slot it exempts. -/
def ClearedBelow (s : State Tid) (t : Tid) (exempt r i : ℕ) : Prop :=
  r + EPOCH_RECLAIM_LAG ≤ s.globalEpoch ∧
    ∀ u, ∀ j < i, u ∈ s.insiders j → (u = t → j ≠ exempt) → r < s.entryEpoch u

def ScanInv (s : State Tid) (t : Tid) (exempt i : ℕ) : Check → Prop
  | .advance _ _ => True
  | .reclaim r => ClearedBelow s t exempt r i

/-- What holds where thread `t` is. -/
def AtPc (NUM_SLOTS : ℕ) (s : State Tid) (t : Tid) : Pc → Prop
  | .idle | .reading _ | .endLoad _ | .endCas _ _ => True
  | .advanceLoad _ _ _ | .advanceCas _ _ _ _ | .reclaimLoad _ _ => True
  | .loadEpoch slot => slot < NUM_SLOTS
  | .beginReadSection slot epoch => slot < NUM_SLOTS ∧ epoch ≤ s.globalEpoch
  | .storeEpoch slot epoch => ∀ u ∈ s.insiders slot, epoch ≤ s.entryEpoch u
  | .scanDepth _ exempt c i => ScanInv s t exempt i c ∧ i = exempt
  | .scanActive _ exempt c i | .scanSnapshot _ exempt c i => ScanInv s t exempt i c
  | .reclaiming _ exempt r => ClearedBelow s t exempt r NUM_SLOTS

/-- The invariant of the runs in which no scan takes its exemption while another thread is on the
slot. -/
structure Inv (NUM_SLOTS : ℕ) (s : State Tid) : Prop where
  depth : ∀ i, s.readerDepth i = (s.insiders i).card
  mem : ∀ t i, t ∈ s.insiders i ↔ (s.pc t).section? = some i
  lt : ∀ t i, t ∈ s.insiders i → i < NUM_SLOTS
  entry_le : ∀ t, s.entryEpoch t ≤ s.globalEpoch
  entered_lt : ∀ t i, t ∈ s.insiders i → s.enteredAt t < s.clock
  epoch_le : ∀ i, s.readerEpoch i ≤ s.globalEpoch
  snap_le : ∀ i, ∀ u ∈ s.insiders i, s.readerEpoch i ≤ s.entryEpoch u
  at_pc : ∀ t, AtPc NUM_SLOTS s t (s.pc t)

theorem inv_start : Inv NUM_SLOTS (State.start : State Tid) where
  depth _ := rfl
  mem t i := by simp [State.start, Pc.section?]
  lt t i h := by simp [State.start] at h
  entry_le t := by simp [State.start]
  entered_lt t i h := by simp [State.start] at h
  epoch_le i := by simp [State.start]
  snap_le i u h := by simp [State.start] at h
  at_pc t := by simp [State.start, AtPc]

section Frame

variable {s s' : State Tid} {t : Tid}

theorem ClearedBelow.mono {exempt r i : ℕ} (h : ClearedBelow s t exempt r i)
    (hg : s.globalEpoch ≤ s'.globalEpoch)
    (hin : ∀ u j, u ∈ s'.insiders j →
      u ∈ s.insiders j ∧ s'.entryEpoch u = s.entryEpoch u ∨ s'.entryEpoch u = s.globalEpoch) :
    ClearedBelow s' t exempt r i := by
  refine ⟨h.1.trans hg, fun u j hj hm hu => ?_⟩
  rcases hin u j hm with ⟨hm', he⟩ | he
  · rw [he]; exact h.2 u j hj hm' hu
  · have := h.1
    unfold EPOCH_RECLAIM_LAG at this
    omega

/-- What holds where a thread is survives a step of another: epochs grow, and whoever is new on a
slot entered in the current epoch. -/
theorem AtPc.mono {p : Pc} (h : AtPc NUM_SLOTS s t p) (hg : s.globalEpoch ≤ s'.globalEpoch)
    (hin : ∀ u j, u ∈ s'.insiders j →
      u ∈ s.insiders j ∧ s'.entryEpoch u = s.entryEpoch u ∨ s'.entryEpoch u = s.globalEpoch)
    (hstore : ∀ slot epoch, p = .storeEpoch slot epoch →
      ∀ u ∈ s'.insiders slot, epoch ≤ s'.entryEpoch u) :
    AtPc NUM_SLOTS s' t p := by
  have hscan : ∀ exempt i c, ScanInv s t exempt i c → ScanInv s' t exempt i c := by
    intro exempt i c hc
    cases c with
    | advance => trivial
    | reclaim r => exact ClearedBelow.mono hc hg hin
  cases p with
  | idle | reading | endLoad | endCas | advanceLoad | advanceCas | reclaimLoad => trivial
  | loadEpoch => exact h
  | beginReadSection slot epoch => exact ⟨h.1, h.2.trans hg⟩
  | storeEpoch slot epoch => exact hstore slot epoch rfl
  | scanDepth own exempt c i => exact ⟨hscan _ _ _ h.1, h.2⟩
  | scanActive own exempt c i | scanSnapshot own exempt c i => exact hscan _ _ _ h
  | reclaiming own exempt r => exact ClearedBelow.mono h hg hin

end Frame

namespace Inv

variable {s : State Tid} {t : Tid}

theorem not_mem_of_section (h : Inv NUM_SLOTS s) (ht : (s.pc t).section? = none) (i : ℕ) :
    t ∉ s.insiders i := by
  rw [h.mem, ht]; simp

/-- A scan passes a slot it finds empty, or holding at most its own caller, or behind a snapshot
past the epoch it reclaims. -/
theorem scan_pass {c : Check} {exempt i : ℕ} (hc : ScanInv s t exempt i c)
    (hpass : ∀ r, c = .reclaim r → ∀ u, u ∈ s.insiders i → (u = t → i ≠ exempt) →
      r < s.entryEpoch u) : ScanInv s t exempt (i + 1) c := by
  cases c with
  | advance => trivial
  | reclaim r =>
    refine ⟨hc.1, fun u j hj hm hu => ?_⟩
    rcases Nat.lt_succ_iff_lt_or_eq.1 hj with hj | rfl
    · exact hc.2 u j hj hm hu
    · exact hpass r rfl u hm hu

theorem scanAt_spec (NUM_SLOTS : ℕ) (own : Option ℕ) {exempt i : ℕ} {c : Check}
    (hc : ScanInv s t exempt i c) :
    AtPc NUM_SLOTS s t (scanAt NUM_SLOTS own exempt c i)
      ∧ (scanAt NUM_SLOTS own exempt c i).section? = own := by
  unfold scanAt
  split_ifs with hi he
  · exact ⟨⟨hc, he⟩, rfl⟩
  · exact ⟨hc, rfl⟩
  · cases c with
    | advance => exact ⟨trivial, rfl⟩
    | reclaim r =>
      exact ⟨⟨hc.1, fun u j hj => hc.2 u j (hj.trans_le (not_lt.1 hi))⟩, rfl⟩

theorem finished_spec (NUM_SLOTS : ℕ) (own : Option ℕ) :
    AtPc NUM_SLOTS s t (finished own) ∧ (finished own).section? = own := by
  cases own <;> exact ⟨trivial, rfl⟩

theorem afterAdvance_spec (NUM_SLOTS : ℕ) (own : Option ℕ) (exempt : ℕ) (reclaims : Bool) :
    AtPc NUM_SLOTS s t (afterAdvance own exempt reclaims)
      ∧ (afterAdvance own exempt reclaims).section? = own := by
  cases reclaims
  · exact finished_spec NUM_SLOTS own
  · exact ⟨trivial, rfl⟩

theorem scanStop_spec (NUM_SLOTS : ℕ) (own : Option ℕ) (exempt : ℕ) (c : Check) :
    AtPc NUM_SLOTS s t (scanStop own exempt c) ∧ (scanStop own exempt c).section? = own := by
  cases c with
  | advance _ reclaims => exact afterAdvance_spec NUM_SLOTS own exempt reclaims
  | reclaim => exact finished_spec NUM_SLOTS own

/-- The exempt slot at depth 1 holds the caller alone. -/
theorem eq_of_depth_le (h : Inv NUM_SLOTS s) {exempt : ℕ} (ht : t ∈ s.insiders exempt)
    (hd : s.readerDepth exempt ≤ 1) {u : Tid} (hu : u ∈ s.insiders exempt) : u = t := by
  rw [h.depth] at hd
  exact Finset.card_le_one.1 hd u hu t ht

theorem not_mem_of_depth (h : Inv NUM_SLOTS s) {i : ℕ} (hd : s.readerDepth i = 0) {u : Tid} :
    u ∉ s.insiders i := by
  rw [h.depth, Finset.card_eq_zero] at hd
  rw [hd]; simp

theorem depth_ne_zero (h : Inv NUM_SLOTS s) {i : ℕ} {u : Tid} (hu : u ∈ s.insiders i) :
    s.readerDepth i ≠ 0 := fun hd => h.not_mem_of_depth hd hu

theorem lt_entry_of_snapshot (h : Inv NUM_SLOTS s) {r i : ℕ}
    (hs : (Check.reclaim r).stops (s.readerEpoch i) = false) {u : Tid} (hu : u ∈ s.insiders i) :
    r < s.entryEpoch u := by
  have := h.snap_le i u hu
  simp only [Check.stops, decide_eq_false_iff_not, not_le] at hs
  omega

theorem advance (h : Inv NUM_SLOTS s) (g : ℕ) (hg : s.globalEpoch ≤ g) :
    Inv NUM_SLOTS { s with globalEpoch := g } where
  depth := h.depth
  mem := h.mem
  lt := h.lt
  entry_le u := (h.entry_le u).trans hg
  entered_lt := h.entered_lt
  epoch_le i := (h.epoch_le i).trans hg
  snap_le := h.snap_le
  at_pc u := (h.at_pc u).mono hg (fun v j hj => .inl ⟨hj, rfl⟩) fun sl e hp => by
    have := h.at_pc u
    rwa [show s.pc u = _ from hp] at this

theorem tick (h : Inv NUM_SLOTS s) :
    Inv NUM_SLOTS { s with clock := s.clock + 1 } where
  depth := h.depth
  mem := h.mem
  lt := h.lt
  entry_le := h.entry_le
  entered_lt u i hu := (h.entered_lt u i hu).trans (Nat.lt_succ_self _)
  epoch_le := h.epoch_le
  snap_le := h.snap_le
  at_pc u := by
    have := h.at_pc u
    revert this
    cases s.pc u <;> exact id

variable [DecidableEq Tid]

/-- A step that moves only the thread. -/
theorem setPc (h : Inv NUM_SLOTS s) {p : Pc} (hsec : p.section? = (s.pc t).section?)
    (hp : AtPc NUM_SLOTS s t p) : Inv NUM_SLOTS (s.setPc t p) where
  depth := h.depth
  mem u i := by
    by_cases hu : u = t
    · subst hu; simp [State.setPc, hsec, h.mem]
    · simp [State.setPc, hu, h.mem]
  lt := h.lt
  entry_le := h.entry_le
  entered_lt u i hu := (h.entered_lt u i hu).trans (Nat.lt_succ_self _)
  epoch_le := h.epoch_le
  snap_le := h.snap_le
  at_pc u := by
    by_cases hu : u = t
    · subst hu
      simp only [State.setPc, Function.update_self]
      cases p <;> exact hp
    · have hu' := h.at_pc u
      simp only [State.setPc, Function.update_of_ne hu]
      revert hu'
      cases s.pc u <;> exact id

theorem enter (h : Inv NUM_SLOTS s) {slot epoch : ℕ} (hpc : s.pc t = .beginReadSection slot epoch) :
    Inv NUM_SLOTS ((s.enterSlot t slot).setPc t
      (if s.readerDepth slot = 0 then .storeEpoch slot epoch else .reading slot)) := by
  have hat := h.at_pc t
  rw [hpc] at hat
  obtain ⟨hslot, hle⟩ := hat
  have hout : ∀ i, t ∉ s.insiders i := h.not_mem_of_section (by rw [hpc]; rfl)
  have hmem : ∀ u i, u ∈ (s.enterSlot t slot).insiders i ↔
      u ∈ s.insiders i ∨ u = t ∧ i = slot := by
    intro u i
    by_cases hi : i = slot
    · subst hi; simp [State.enterSlot, or_comm]
    · simp [State.enterSlot, hi]
  have hentry : ∀ u ≠ t, (s.enterSlot t slot).entryEpoch u = s.entryEpoch u := by
    intro u hu; simp [State.enterSlot, hu]
  have hself : (s.enterSlot t slot).entryEpoch t = s.globalEpoch := by simp [State.enterSlot]
  refine ⟨fun i => ?_, fun u i => ?_, fun u i hu => ?_, fun u => ?_, fun u i hu => ?_, h.epoch_le,
    fun i u hu => ?_, fun u => ?_⟩
  · by_cases hi : i = slot
    · subst hi; simp [State.setPc, State.enterSlot, h.depth, Finset.card_insert_of_notMem (hout _)]
    · simp [State.setPc, State.enterSlot, hi, h.depth]
  · refine (hmem u i).trans ?_
    by_cases hu : u = t
    · subst hu
      have : (if s.readerDepth slot = 0 then Pc.storeEpoch slot epoch
          else .reading slot).section? = some slot := by split <;> rfl
      simp only [State.setPc, Function.update_self, this, hout, false_or, true_and,
        Option.some.injEq]
      exact eq_comm
    · simp [State.setPc, State.enterSlot, hu, h.mem]
  · rcases (hmem u i).1 hu with hu | ⟨-, rfl⟩
    · exact h.lt u i hu
    · exact hslot
  · by_cases hu : u = t
    · subst hu; exact hself.le
    · exact (hentry u hu).le.trans (h.entry_le u)
  · by_cases hut : u = t
    · subst hut; simp [State.setPc, State.enterSlot]
    · have hu' : u ∈ s.insiders i := by
        rcases (hmem u i).1 hu with hu | ⟨rfl, -⟩
        · exact hu
        · exact absurd rfl hut
      have := h.entered_lt u i hu'
      simp only [State.setPc, State.enterSlot, Function.update_of_ne hut]
      omega
  · by_cases hut : u = t
    · subst hut; exact (h.epoch_le i).trans hself.ge
    · rcases (hmem u i).1 hu with hu | ⟨rfl, -⟩
      · exact (h.snap_le i u hu).trans (hentry u hut).ge
      · exact absurd rfl hut
  · by_cases hu : u = t
    · subst hu
      simp only [State.setPc, Function.update_self]
      split
      · rename_i h0
        -- the depth was 0, so the thread is alone on the slot
        intro v hv
        rw [h.depth, Finset.card_eq_zero] at h0
        rcases (hmem v slot).1 hv with hv | ⟨rfl, -⟩
        · rw [h0] at hv; simp at hv
        · exact hle.trans hself.ge
      · trivial
    · simp only [State.setPc, Function.update_of_ne hu]
      refine (h.at_pc u).mono le_rfl (fun v j hj => ?_) fun sl e hp v hv => ?_
      · rcases (hmem v j).1 hj with hj | ⟨rfl, -⟩
        · by_cases hvt : v = t
          · exact absurd (hvt ▸ hj) (hout j)
          · exact .inl ⟨hj, hentry v hvt⟩
        · exact .inr hself
      · have hst := h.at_pc u
        rw [show s.pc u = _ from hp] at hst
        have heu := hst u ((h.mem u sl).2 (by rw [show s.pc u = _ from hp]; rfl))
        rcases (hmem v sl).1 hv with hv | ⟨rfl, -⟩
        · by_cases hvt : v = t
          · exact absurd (hvt ▸ hv) (hout sl)
          · exact (hst v hv).trans (hentry v hvt).ge
        · exact (heu.trans (h.entry_le u)).trans hself.ge

theorem storeEpoch (h : Inv NUM_SLOTS s) {slot epoch : ℕ} (hpc : s.pc t = .storeEpoch slot epoch) :
    Inv NUM_SLOTS ((s.storeEpoch slot epoch).setPc t (.reading slot)) := by
  have hat := h.at_pc t
  rw [hpc] at hat
  have hself : t ∈ s.insiders slot := (h.mem t slot).2 (by rw [hpc]; rfl)
  have hs : Inv NUM_SLOTS (s.storeEpoch slot epoch) := by
    refine ⟨h.depth, h.mem, h.lt, h.entry_le, h.entered_lt, fun i => ?_, fun i u hu => ?_,
      fun u => (h.at_pc u).mono le_rfl (fun v j hj => .inl ⟨hj, rfl⟩) fun sl e hp => ?_⟩
    · by_cases hi : i = slot
      · subst hi
        simpa [State.storeEpoch] using (hat t hself).trans (h.entry_le t)
      · simpa [State.storeEpoch, hi] using h.epoch_le i
    · by_cases hi : i = slot
      · subst hi; simpa [State.storeEpoch] using hat u hu
      · simpa [State.storeEpoch, hi] using h.snap_le i u hu
    · have := h.at_pc u
      rwa [show s.pc u = _ from hp] at this
  exact hs.setPc (by simp [State.storeEpoch, hpc, Pc.section?]) trivial

theorem leaveSlot (h : Inv NUM_SLOTS s) {slot depth : ℕ} (hpc : s.pc t = .endCas slot depth)
    (hd : s.readerDepth slot = depth) :
    Inv NUM_SLOTS ((s.leaveSlot t slot depth).setPc t .idle) := by
  have hself : t ∈ s.insiders slot := (h.mem t slot).2 (by rw [hpc]; rfl)
  have hmem : ∀ u i, u ∈ (s.leaveSlot t slot depth).insiders i ↔ u ∈ s.insiders i ∧ u ≠ t := by
    intro u i
    by_cases hi : i = slot
    · subst hi; simp [State.leaveSlot, and_comm]
    · have : t ∉ s.insiders i := by
        rw [h.mem, hpc]
        simpa [Pc.section?] using Ne.symm hi
      simp only [State.leaveSlot, Function.update_of_ne hi]
      exact ⟨fun hu => ⟨hu, fun e => this (e ▸ hu)⟩, And.left⟩
  refine ⟨fun i => ?_, fun u i => ?_, fun u i hu => h.lt u i ((hmem u i).1 hu).1, h.entry_le,
    fun u i hu => (h.entered_lt u i ((hmem u i).1 hu).1).trans (Nat.lt_succ_self _), h.epoch_le,
    fun i u hu => h.snap_le i u ((hmem u i).1 hu).1, fun u => ?_⟩
  · by_cases hi : i = slot
    · subst hi
      simp [State.setPc, State.leaveSlot, ← hd, h.depth, Finset.card_erase_of_mem hself]
    · simp [State.setPc, State.leaveSlot, hi, h.depth]
  · refine (hmem u i).trans ?_
    by_cases hu : u = t
    · subst hu; simp [State.setPc, Pc.section?]
    · simp [State.setPc, State.leaveSlot, hu, h.mem]
  · by_cases hu : u = t
    · subst hu; simp [State.setPc, AtPc]
    · simp only [State.setPc, Function.update_of_ne hu]
      refine (h.at_pc u).mono le_rfl (fun v j hj => .inl ⟨((hmem v j).1 hj).1, rfl⟩)
        fun sl e hp v hv => ?_
      have := h.at_pc u
      rw [show s.pc u = _ from hp] at this
      exact this v ((hmem v sl).1 hv).1

theorem scanNext (h : Inv NUM_SLOTS s) {p : Pc} {own : Option ℕ} {exempt i : ℕ} {c : Check}
    (hpc : s.pc t = p) (hsec : p.section? = own) (hc : ScanInv s t exempt i c) :
    Inv NUM_SLOTS (s.setPc t (scanAt NUM_SLOTS own exempt c i)) := by
  obtain ⟨h1, h2⟩ := scanAt_spec NUM_SLOTS own hc
  exact h.setPc (by rw [h2, hpc, hsec]) h1

end Inv

variable [DecidableEq Tid]

theorem Inv.step {s s' : State Tid} {t : Tid} {a : Act} (h : Inv NUM_SLOTS s)
    (hg : ExemptsNoOther s t a) (hs : step NUM_SLOTS s t a = some s') : Inv NUM_SLOTS s' := by
  have hat := h.at_pc t
  have hsec := h.mem t
  unfold EpochReclaimer.step at hs
  split at hs <;> rename_i hpc <;> try simp only [hpc] at hat hsec
  all_goals try simp only [Option.some.injEq] at hs
  · rename_i slot
    split_ifs at hs with hlt
    cases hs
    exact h.setPc (by rw [hpc]; rfl) hlt
  · subst hs
    exact h.setPc (by rw [hpc]; rfl) trivial
  · subst hs
    exact h.setPc (by rw [hpc]; rfl) trivial
  · subst hs
    exact h.setPc (by rw [hpc]; rfl) ⟨hat, le_rfl⟩
  · subst hs
    exact h.enter hpc
  · subst hs
    exact h.storeEpoch hpc
  · subst hs
    exact h.setPc (by rw [hpc]; rfl) trivial
  · subst hs
    exact h.setPc (by rw [hpc]; rfl) trivial
  · subst hs
    exact h.setPc (by rw [hpc]; rfl) trivial
  · subst hs
    exact h.scanNext hpc rfl trivial
  · rename_i own exempt c i
    subst hs
    obtain ⟨hc, rfl⟩ := hat
    split_ifs with hd
    · have hsole : s.readerDepth i ≤ 1 → ∀ u ∈ s.insiders i, u = t := by
        simpa only [ExemptsNoOther, hpc] using hg
      exact h.scanNext hpc rfl (Inv.scan_pass hc fun r _ u hm hu =>
        absurd rfl (hu (hsole hd u hm)))
    · exact h.setPc (by rw [hpc]; rfl) hc
  · rename_i own exempt c i
    subst hs
    split_ifs with hd
    · exact h.scanNext hpc rfl (Inv.scan_pass hat fun r _ u hm _ =>
        absurd hm (h.not_mem_of_depth hd))
    · exact h.setPc (by rw [hpc]; rfl) hat
  · rename_i own exempt c i
    subst hs
    split_ifs with hd
    · obtain ⟨h1, h2⟩ := Inv.scanStop_spec NUM_SLOTS (s := s) (t := t) own exempt c
      exact h.setPc (h2.trans (by rw [hpc]; rfl)) h1
    · refine h.scanNext hpc rfl (Inv.scan_pass hat fun r hr u hm _ => ?_)
      subst hr
      exact h.lt_entry_of_snapshot (by simpa using hd) hm
  · rename_i own exempt epoch reclaims
    subst hs
    obtain ⟨h1, h2⟩ := Inv.afterAdvance_spec NUM_SLOTS (t := t)
      (s := { s with globalEpoch := if s.globalEpoch = epoch then epoch + 1 else s.globalEpoch })
      own exempt reclaims
    exact (h.advance _ (by split_ifs <;> omega)).setPc (h2.trans (by simp only [hpc]; rfl)) h1
  · rename_i own exempt
    subst hs
    split_ifs with hlag
    · obtain ⟨h1, h2⟩ := Inv.finished_spec NUM_SLOTS (s := s) (t := t) own
      exact h.setPc (h2.trans (by rw [hpc]; rfl)) h1
    · exact h.scanNext hpc rfl ⟨by omega, fun _ _ hj => absurd hj (Nat.not_lt_zero _)⟩
  · rename_i own exempt r
    subst hs
    obtain ⟨h1, h2⟩ := Inv.finished_spec NUM_SLOTS (s := s) (t := t) own
    exact h.setPc (h2.trans (by rw [hpc]; rfl)) h1
  · rename_i slot
    subst hs
    have hself : t ∈ s.insiders slot := (hsec slot).2 rfl
    rw [if_neg (h.depth_ne_zero hself)]
    exact h.setPc (by rw [hpc]; rfl) trivial
  · rename_i slot depth
    have hself : t ∈ s.insiders slot := (hsec slot).2 rfl
    rw [if_neg (h.depth_ne_zero hself)] at hs
    split_ifs at hs with hd
    · cases hs
      exact h.leaveSlot hpc hd
    · cases hs
      exact h.setPc (by rw [hpc]; rfl) trivial
  · cases hs

section OwnSlot

/-- The section a caller of the reclaimer is in, and the slot it exempts. -/
def Pc.call? : Pc → Option (Option ℕ × ℕ)
  | .advanceLoad own exempt _ | .scanDepth own exempt _ _ | .scanActive own exempt _ _
  | .scanSnapshot own exempt _ _ | .advanceCas own exempt _ _ | .reclaimLoad own exempt
  | .reclaiming own exempt _ => some (own, exempt)
  | _ => none

/-- The slot exempted is the one the caller reads on. -/
def OwnExempt (s : State Tid) : Prop :=
  ∀ t own exempt, (s.pc t).call? = some (own, exempt) → own = some exempt

variable {s s' : State Tid} {t : Tid} {a : Act}

theorem OwnExempt.step (h : OwnExempt s) (hg : ExemptsOwn s t a)
    (hs : EpochReclaimer.step NUM_SLOTS s t a = some s') : OwnExempt s' := by
  have hset : ∀ {s₁ : State Tid} {p : Pc}, s₁.pc = s.pc →
      (∀ own exempt, p.call? = some (own, exempt) → own = some exempt) →
      OwnExempt (s₁.setPc t p) := by
    intro s₁ p hpc hp u own exempt hu
    by_cases hut : u = t
    · subst hut
      simp only [State.setPc, Function.update_self] at hu
      exact hp own exempt hu
    · simp only [State.setPc, Function.update_of_ne hut, hpc] at hu
      exact h u own exempt hu
  have hfin : ∀ own : Option ℕ, (finished own).call? = none := by
    rintro (_ | slot) <;> rfl
  have hafter : ∀ own exempt b x, (afterAdvance own exempt b).call? = some x → x = (own, exempt) := by
    intro own exempt b x hx
    cases b
    · rw [show afterAdvance own exempt false = finished own from rfl, hfin] at hx
      cases hx
    · exact (Option.some.inj hx).symm
  have hscan : ∀ own exempt c i x, (scanAt NUM_SLOTS own exempt c i).call? = some x →
      x = (own, exempt) := by
    intro own exempt c i x hx
    unfold scanAt at hx
    split_ifs at hx
    · exact (Option.some.inj hx).symm
    · exact (Option.some.inj hx).symm
    · cases c <;> exact (Option.some.inj hx).symm
  have hstop : ∀ own exempt c x, (scanStop own exempt c).call? = some x → x = (own, exempt) := by
    intro own exempt c x hx
    cases c with
    | advance _ b => exact hafter own exempt b x hx
    | reclaim r =>
      rw [show scanStop own exempt (.reclaim r) = finished own from rfl, hfin] at hx
      cases hx
  have hkeep : ∀ {own : Option ℕ} {exempt : ℕ}, (s.pc t).call? = some (own, exempt) →
      ∀ {p : Pc}, (∀ x, p.call? = some x → x = (own, exempt)) →
      ∀ own' exempt', p.call? = some (own', exempt') → own' = some exempt' := by
    intro own exempt hcall p hp own' exempt' hp'
    obtain ⟨rfl, rfl⟩ := Prod.mk.inj (hp _ hp')
    exact h t _ _ hcall
  have hnone : ∀ {p : Pc}, p.call? = none → ∀ own exempt, p.call? = some (own, exempt) →
      own = some exempt := by
    intro p hp own exempt hp'
    rw [hp] at hp'
    cases hp'
  unfold EpochReclaimer.step at hs
  split at hs <;> rename_i hpc <;> try simp only [hpc] at hkeep
  all_goals try simp only [Option.some.injEq] at hs
  all_goals try simp only [ExemptsOwn, hpc] at hg
  · split_ifs at hs
    cases hs
    exact hset rfl (hnone rfl)
  · cases hg
  · cases hg
  · exact hs ▸ hset rfl (hnone rfl)
  · subst hs
    refine hset rfl (hnone ?_)
    split_ifs <;> rfl
  · exact hs ▸ hset rfl (hnone rfl)
  · rename_i slot exempt
    cases hg
    subst hs
    refine hset rfl ?_
    rintro own exempt' ⟨⟩
    rfl
  · rename_i slot exempt
    cases hg
    subst hs
    refine hset rfl ?_
    rintro own exempt' ⟨⟩
    rfl
  · exact hs ▸ hset rfl (hnone rfl)
  · exact hs ▸ hset rfl (hkeep rfl (hscan _ _ _ _))
  · subst hs
    refine hset rfl (hkeep rfl ?_)
    split_ifs
    · exact hscan _ _ _ _
    · exact fun x hx => (Option.some.inj hx).symm
  · subst hs
    refine hset rfl (hkeep rfl ?_)
    split_ifs
    · exact hscan _ _ _ _
    · exact fun x hx => (Option.some.inj hx).symm
  · subst hs
    refine hset rfl (hkeep rfl ?_)
    split_ifs
    · exact hstop _ _ _
    · exact hscan _ _ _ _
  · exact hs ▸ hset rfl (hkeep rfl (hafter _ _ _))
  · subst hs
    split_ifs
    · exact hset rfl (hnone (hfin _))
    · exact hset rfl (hkeep rfl (hscan _ _ _ _))
  · exact hs ▸ hset rfl (hnone (hfin _))
  · subst hs
    refine hset rfl (hnone ?_)
    split_ifs <;> rfl
  · split_ifs at hs <;> cases hs <;> exact hset rfl (hnone rfl)
  · cases hs

omit [DecidableEq Tid] in
theorem ownExempt_start : OwnExempt (State.start : State Tid) := by
  rintro t own exempt ⟨⟩

omit [DecidableEq Tid] in
/-- A caller that exempts the slot it reads on and finds it at depth 1 is alone there. -/
theorem OwnExempt.exemptsNoOther (h : OwnExempt s) (hI : Inv NUM_SLOTS s) :
    ExemptsNoOther s t a := by
  unfold ExemptsNoOther
  split
  · split
    · rename_i own exempt c i hpc
      intro hd u hu
      have hat := hI.at_pc t
      rw [hpc] at hat
      obtain rfl := hat.2
      have hself : t ∈ s.insiders i := (hI.mem t i).2 (by rw [hpc]; exact h t own i (by rw [hpc]; rfl))
      exact hI.eq_of_depth_le hself hd hu
    · trivial
  · trivial

end OwnSlot

/-- Whoever is on a slot after a step was there before it, or its section begins with the step. -/
theorem step_insiders {s s' : State Tid} {t : Tid} {a : Act}
    (hs : step NUM_SLOTS s t a = some s') :
    s'.clock = s.clock + 1 ∧ ∀ u i, u ∈ s'.insiders i →
      u ∈ s.insiders i ∧ s'.enteredAt u = s.enteredAt u ∧ s'.entryEpoch u = s.entryEpoch u
        ∨ s'.enteredAt u = s.clock := by
  unfold EpochReclaimer.step at hs
  split at hs
  case h_5 slot epoch hpc =>
    cases hs
    refine ⟨rfl, fun u i hu => ?_⟩
    by_cases hut : u = t
    · subst hut; exact .inr (by simp [State.setPc, State.enterSlot])
    · refine .inl ⟨?_, by simp [State.setPc, State.enterSlot, hut],
        by simp [State.setPc, State.enterSlot, hut]⟩
      by_cases hi : i = slot
      · subst hi; simpa [State.setPc, State.enterSlot, hut] using hu
      · simpa [State.setPc, State.enterSlot, hi] using hu
  case h_18 slot depth hpc =>
    split_ifs at hs <;> cases hs
    · refine ⟨rfl, fun u i hu => .inl ⟨?_, rfl, rfl⟩⟩
      by_cases hi : i = slot
      · subst hi
        simp only [State.setPc, State.leaveSlot, Function.update_self] at hu
        exact Finset.mem_of_mem_erase hu
      · simpa [State.setPc, State.leaveSlot, hi] using hu
    all_goals exact ⟨rfl, fun u i hu => .inl ⟨hu, rfl, rfl⟩⟩
  case h_1 => split_ifs at hs; cases hs; exact ⟨rfl, fun u i hu => .inl ⟨hu, rfl, rfl⟩⟩
  case h_19 => cases hs
  all_goals cases hs; exact ⟨rfl, fun u i hu => .inl ⟨hu, rfl, rfl⟩⟩

section Words

/-- The depths and the global epoch fit their words. -/
def InWords (s : State Tid) : Prop := s.globalEpoch < 2 ^ 64 ∧ ∀ i, s.readerDepth i < 2 ^ 32

omit [DecidableEq Tid] in
theorem inWords_start : InWords (State.start : State Tid) :=
  ⟨Nat.one_lt_two_pow (by decide), fun _ => Nat.two_pow_pos 32⟩

omit [DecidableEq Tid] in
theorem InWords.wrap_eq {s : State Tid} (h : InWords s) : s.wrap = s := by
  have hdepth : (fun i => s.readerDepth i % 2 ^ 32) = s.readerDepth :=
    funext fun i => Nat.mod_eq_of_lt (h.2 i)
  simp only [State.wrap, Nat.mod_eq_of_lt h.1, hdepth]

/-- A step adds one to at most one depth, or to the global epoch. -/
theorem InWords.step {s s' : State Tid} {t : Tid} {a : Act} (h : InWords s)
    (hfit : CountersFit s t a) (hs : step NUM_SLOTS s t a = some s') : InWords s' := by
  unfold EpochReclaimer.step at hs
  split at hs
  case h_5 slot epoch hpc =>
    cases hs
    simp only [CountersFit, hpc] at hfit
    refine ⟨h.1, fun i => ?_⟩
    by_cases hi : i = slot
    · subst hi; simpa [State.setPc, State.enterSlot] using hfit
    · simpa [State.setPc, State.enterSlot, hi] using h.2 i
  case h_14 own exempt epoch reclaims hpc =>
    cases hs
    simp only [CountersFit, hpc] at hfit
    refine ⟨?_, h.2⟩
    simp only [State.setPc]
    split_ifs with he
    · exact he ▸ hfit
    · exact h.1
  case h_18 slot depth hpc =>
    split_ifs at hs with hd <;> cases hs
    · refine ⟨h.1, fun i => ?_⟩
      by_cases hi : i = slot
      · subst hi
        have := h.2 i
        simp only [State.setPc, State.leaveSlot, Function.update_self, ← hd]
        omega
      · simpa [State.setPc, State.leaveSlot, hi] using h.2 i
    all_goals exact h
  case h_1 => split_ifs at hs; cases hs; exact h
  case h_19 => cases hs
  all_goals cases hs; exact h

end Words

end MinStd.EpochReclaimer
