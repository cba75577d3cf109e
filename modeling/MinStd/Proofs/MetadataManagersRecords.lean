import MinStd.Proofs.MetadataManagersSteps

/-!
# Records are taken, given back and trimmed
-/

namespace MinStd.MetadataManagers

open Function ArenaRegions

variable {τ : Type*} [DecidableEq τ] {A : Arena} {s s' : State τ} {t u : τ} {x y : Pc} {i m w : ℕ}
  {z : Place τ}

/-! ### The count and the callers -/

section Records

omit [DecidableEq τ]

/-- The place of one record changes, and it stays counted. -/
theorem Inv.counted_update (h : Inv s) (hi : s.place i ≠ .region) (hz : z ≠ .region) (j : ℕ) :
    update s.place i z j ≠ .region ↔ j < s.currentMetadataRecordCount := by
  rw [← h.counted]
  by_cases hj : j = i
  · rw [hj, update_self]
    exact iff_of_true hz hi
  · rw [update_of_ne hj]

/-- The place of a record changes that no caller has before or after. -/
theorem Inv.callers_update (h : Inv s) (hi : s.place i ≠ .out) (hz : z ≠ .out) (j : ℕ) :
    update s.place i z j = .out ∧ s.callers j = 1
      ∨ update s.place i z j ≠ .out ∧ s.callers j = 0 := by
  by_cases hj : j = i
  · subst hj
    rw [update_self]
    rcases h.callers j with ⟨hc, -⟩ | ⟨-, hc⟩
    · exact absurd hc hi
    · exact .inr ⟨hz, hc⟩
  · rw [update_of_ne hj]
    exact h.callers j

/-- The record goes to a caller. -/
theorem Inv.callers_give (h : Inv s) (hi : s.place i ≠ .out) (j : ℕ) :
    update s.place i .out j = .out ∧ update s.callers i (s.callers i + 1) j = 1
      ∨ update s.place i .out j ≠ .out ∧ update s.callers i (s.callers i + 1) j = 0 := by
  by_cases hj : j = i
  · subst hj
    rw [update_self, update_self]
    rcases h.callers j with ⟨hc, -⟩ | ⟨-, hc⟩
    · exact absurd hc hi
    · exact .inl ⟨rfl, by rw [hc]⟩
  · rw [update_of_ne hj, update_of_ne hj]
    exact h.callers j

end Records

/-! ### Records change hands -/

/-- A popped record is returned. -/
theorem Inv.return_popped (h : Inv s) (hpc : s.pc t = .popClear i) :
    Inv (((s.setLink i none).give i).setPc t .idle) := by
  have hplace : s.place i = .hand t := by
    have hok := h.pc t
    rwa [hpc] at hok
  have hslot : (s.pc t).slot? = some (managerFor i) := by rw [hpc]; rfl
  have hout : s.place i ≠ .out := by rw [hplace]; simp
  refine h.record_step (z := .out) rfl rfl (fun j hj => update_of_ne hj _ _) rfl rfl rfl rfl
    (by rw [hplace]; simp) (by simp) (fun u hu => ?_) (by simp) (fun j hj => ?_) (by rw [hpc]; rfl)
    rfl (h.counted_update (by rw [hplace]; simp) (by simp)) (slots_take h.slots hslot rfl hout)
    (h.callers_give hout) trivial
  · rw [hplace] at hu
    rcases hu with hu | hu <;> cases hu
    rfl
  · rw [hpc] at hj
    exact (Option.some.inj hj).symm

/-- The record `count` is counted. -/
theorem Inv.grow (h : Inv s) (hpc : s.pc t = .growCas s.currentMetadataRecordCount) :
    Inv ({ s with
      currentMetadataRecordCount := s.currentMetadataRecordCount + 1
      place := update s.place s.currentMetadataRecordCount (.growing t) }.setPc t
        (.growRecheck s.currentMetadataRecordCount)) := by
  generalize hc : s.currentMetadataRecordCount = count at hpc ⊢
  have hregion : s.place count = .region := by
    by_contra hne
    exact absurd ((h.counted count).1 hne) (by omega)
  have hslot : (s.pc t).slot? = some (managerFor count) := by rw [hpc]; rfl
  refine h.record_step (i := count) (z := .growing t) rfl rfl (fun _ _ => rfl) rfl rfl rfl rfl
    (by rw [hregion]; simp) (by simp) (fun u hu => ?_) (fun u hu => ?_) (fun j hj => ?_)
    (by rw [hpc]; rfl) rfl (fun j => ?_) (slots_same h.slots hslot.symm (by rw [hregion]; simp)
      (by simp)) (h.callers_update (by rw [hregion]; simp) (by simp)) (update_self _ _ _)
  · rw [hregion] at hu
    rcases hu with hu | hu <;> cases hu
  · rcases hu with hu | hu <;> cases hu
    exact ⟨rfl, rfl⟩
  · rw [hpc] at hj
    cases hj
  · show update s.place count (.growing t) j ≠ .region ↔ j < count + 1
    by_cases hj : j = count
    · rw [hj, update_self]
      simp
    · rw [update_of_ne hj, h.counted, hc]
      omega

/-- A grown record is returned. -/
theorem Inv.return_grown (h : Inv s) (hpc : s.pc t = .growRecheck i) :
    Inv ((s.give i).setPc t .idle) := by
  have hplace : s.place i = .growing t := by
    have hok := h.pc t
    rwa [hpc] at hok
  have hslot : (s.pc t).slot? = some (managerFor i) := by rw [hpc]; rfl
  have hout : s.place i ≠ .out := by rw [hplace]; simp
  refine h.record_step (z := .out) rfl rfl (fun _ _ => rfl) rfl rfl rfl rfl
    (by rw [hplace]; simp) (by simp) (fun u hu => ?_) (by simp) (fun j hj => ?_) (by rw [hpc]; rfl)
    rfl (h.counted_update (by rw [hplace]; simp) (by simp)) (slots_take h.slots hslot rfl hout)
    (h.callers_give hout) trivial
  · rw [hplace] at hu
    rcases hu with hu | hu <;> cases hu
    rfl
  · rw [hpc] at hj
    exact (Option.some.inj hj).symm

/-- The topmost record is taken off again. -/
theorem Inv.undo (h : Inv s) (hpc : s.pc t = .growUndo i)
    (htop : s.currentMetadataRecordCount = i + 1) :
    Inv ({ s with
      currentMetadataRecordCount := i
      place := update s.place i .region }.setPc t (.release (managerFor i) .done)) := by
  have hplace : s.place i = .growing t := by
    have hok := h.pc t
    rwa [hpc] at hok
  have hslot : (s.pc t).slot? = some (managerFor i) := by rw [hpc]; rfl
  refine h.record_step (z := .region) rfl rfl (fun _ _ => rfl) rfl rfl rfl rfl
    (by rw [hplace]; simp) (by simp) (fun u hu => ?_) (by simp) (fun j hj => ?_) (by rw [hpc]; rfl)
    rfl (fun j => ?_) (slots_same h.slots hslot.symm (by rw [hplace]; simp) (by simp))
    (h.callers_update (by rw [hplace]; simp) (by simp)) trivial
  · rw [hplace] at hu
    rcases hu with hu | hu <;> cases hu
    rfl
  · rw [hpc] at hj
    exact (Option.some.inj hj).symm
  · show update s.place i .region j ≠ .region ↔ j < i
    by_cases hj : j = i
    · rw [hj, update_self]
      simp
    · rw [update_of_ne hj, h.counted, htop]
      omega

/-- A push stores its link. -/
theorem Inv.store_link (h : Inv s) {head : Head} (hpc : s.pc t = .pushStore i head) :
    Inv ((s.setLink i head.top).setPc t (.pushCas i head)) := by
  have hplace : s.place i = .hand t := by
    have hok := h.pc t
    rwa [hpc] at hok
  have hslot : (s.pc t).slot? = some (managerFor i) := by rw [hpc]; rfl
  have hself : s.place = update s.place i (.hand t) := by rw [← hplace, update_eq_self]
  have hout : s.place i ≠ .out := by rw [hplace]; simp
  refine h.record_step (z := .hand t) rfl hself (fun j hj => update_of_ne hj _ _) rfl rfl rfl rfl
    (by rw [hplace]; simp) (by simp) (fun u hu => ?_) (fun u hu => ?_) (fun j hj => ?_)
    (by rw [hpc]; rfl) rfl h.counted (slots_same h.slots hslot.symm hout (by simp)) h.callers
    ⟨hplace, update_self _ _ _⟩
  · rw [hplace] at hu
    rcases hu with hu | hu <;> cases hu
    rfl
  · rcases hu with hu | hu <;> cases hu
    exact ⟨rfl, rfl⟩
  · rw [hpc] at hj
    exact (Option.some.inj hj).symm

/-- A caller gives a record back. -/
theorem Inv.recycle (h : Inv s) (hpc : s.pc t = .idle) (hi : 0 < s.callers i) :
    Inv ({ s with
      place := update s.place i (.hand t)
      callers := update s.callers i (s.callers i - 1) }.setPc t (.pushLoad i)) := by
  have hout : s.place i = .out ∧ s.callers i = 1 := by
    rcases h.callers i with hc | ⟨-, hc⟩
    · exact hc
    · omega
  obtain ⟨hplace, hone⟩ := hout
  refine h.record_step (z := .hand t) rfl rfl (fun _ _ => rfl) rfl rfl rfl rfl
    (by rw [hplace]; simp) (by simp) (fun u hu => ?_) (fun u hu => ?_) (fun j hj => ?_)
    (by rw [hpc]; rfl) rfl (h.counted_update (by rw [hplace]; simp) (by simp))
    (slots_give h.slots (by rw [hpc]; rfl) rfl hplace (by simp)) (fun j => ?_) (update_self _ _ _)
  · rw [hplace] at hu
    rcases hu with hu | hu <;> cases hu
  · rcases hu with hu | hu <;> cases hu
    exact ⟨rfl, rfl⟩
  · rw [hpc] at hj
    cases hj
  · show update s.place i (.hand t) j = _ ∧ update s.callers i _ j = 1
      ∨ update s.place i (.hand t) j ≠ _ ∧ update s.callers i _ j = 0
    by_cases hj : j = i
    · subst hj
      rw [update_self, update_self, hone]
      exact .inr ⟨by simp, rfl⟩
    · rw [update_of_ne hj, update_of_ne hj]
      exact h.callers j

/-! ### Trims -/

/-- A trim takes a manager of which nobody has a slot. -/
theorem Inv.trim_claim (h : Inv s) {count : ℕ} (hpc : s.pc t = .trimClaim count)
    (hword : s.stateAndActiveCount (managerFor (count - 1)) = 0) :
    Inv ((s.setManager (managerFor (count - 1)) TRIMMING_MASK).setPc t (.trimCheck count)) := by
  refine h.manager (fun u _ hu => ?_) (update_self _ _ _) (fun m' hm => (Option.some.inj hm).symm)
    (fun m' hm => by rw [hpc] at hm; cases hm) (fun _ => rfl) (by rw [hpc]; rfl)
    (by rw [hpc]; rfl) (.inl ⟨rfl, fun b hb => ?_⟩) fun m' hm => ?_
  · have htrim := h.trimming hu
    rw [hword] at htrim
    cases htrim
  · have hslots := h.slots (managerFor (count - 1))
    rw [hword] at hslots
    rw [slot_update_pc] at hb
    rcases hslots with ⟨hzero, -⟩ | ⟨hcount, -⟩
    · cases hzero
    · rcases hb with ⟨-, hb⟩ | ⟨-, hb⟩
      · cases hb
      · exact hcount.eq_zero_iff.1 rfl b hb
  · rw [hpc]
    exact Iff.rfl

omit [DecidableEq τ] in
theorem Inv.no_slot (h : Inv s) (hword : s.stateAndActiveCount m = TRIMMING_MASK) (b : τ ⊕ ℕ) :
    ¬ Slot s.pc s.place m b := by
  intro hb
  have hle := ((h.slots m).counted hb).2
  rw [hword] at hle
  exact absurd hle (by decide)

/-- A manager is open again. -/
theorem Inv.trim_open (h : Inv s) (hpc : s.pc t = .trimOpen m) :
    Inv ((s.setManager m 0).setPc t .trimLoad) := by
  have hword : s.stateAndActiveCount m = TRIMMING_MASK := h.trimming (u := t) (by rw [hpc]; rfl)
  refine h.manager (fun u hu hm => hu (h.trims u t m hm (by rw [hpc]; rfl))) trivial
    (fun m' hm => by cases hm) (fun m' hm => by rw [hpc] at hm; exact (Option.some.inj hm).symm)
    (fun hw => by cases hw) (by rw [hpc]; rfl) (by rw [hpc]; rfl)
    (.inr ⟨.empty fun b hb => ?_, Nat.zero_le _⟩) fun m' hm => ?_
  · rw [slot_update_pc] at hb
    rcases hb with ⟨-, hb⟩ | ⟨-, hb⟩
    · cases hb
    · exact h.no_slot hword b hb
  · rw [hpc]
    exact Iff.rfl

omit [DecidableEq τ] in
/-- The records of a manager of which nobody has a slot are free or not counted. -/
theorem Inv.trimmed (h : Inv s) {count : ℕ} (hcount : s.currentMetadataRecordCount = count)
    (hword : s.stateAndActiveCount (managerFor (count - 1)) = TRIMMING_MASK)
    (hi : managerFor (count - 1) * METADATA_RECORDS_PER_BLOCK ≤ i) :
    s.place i = .region ∨ s.place i = .free ∧ managerFor i = managerFor (count - 1) := by
  by_cases hregion : s.place i = .region
  · exact .inl hregion
  have hmanager : managerFor i = managerFor (count - 1) := by
    have hlt := (h.counted i).1 hregion
    unfold managerFor METADATA_RECORDS_PER_BLOCK at hi ⊢
    omega
  have hcall : ∀ u, ¬ (s.place i = .hand u ∨ s.place i = .growing u) := fun u hu =>
    h.no_slot hword (.inl u) (hmanager ▸ Pc.slot?_of_record? (h.mine u i hu))
  rcases hp : s.place i with _ | u | u | _ | _
  · exact .inl rfl
  · exact absurd (.inr hp) (hcall u)
  · exact absurd (.inl hp) (hcall u)
  · exact absurd ⟨hp, hmanager⟩ (h.no_slot hword (.inr i))
  · exact .inr ⟨rfl, hmanager⟩

/-- The records of the last manager are taken off. -/
theorem Inv.trim_shrink (h : Inv s) {count : ℕ} (hpc : s.pc t = .trimShrink count)
    (hcount : s.currentMetadataRecordCount = count) :
    Inv ({ s with
      currentMetadataRecordCount := managerFor (count - 1) * METADATA_RECORDS_PER_BLOCK
      place := fun i => if managerFor (count - 1) * METADATA_RECORDS_PER_BLOCK ≤ i then .region
        else s.place i
      contents := update s.contents (managerFor (count - 1)) [] }.setPc t
        (.trimClear (managerFor (count - 1)))) := by
  have hword : s.stateAndActiveCount (managerFor (count - 1)) = TRIMMING_MASK :=
    h.trimming (u := t) (by rw [hpc]; rfl)
  have hle : managerFor (count - 1) * METADATA_RECORDS_PER_BLOCK ≤ count := by
    unfold managerFor METADATA_RECORDS_PER_BLOCK
    omega
  have hlow : ∀ i, ¬ managerFor (count - 1) * METADATA_RECORDS_PER_BLOCK ≤ i →
      managerFor i ≠ managerFor (count - 1) := by
    intro i hi
    unfold managerFor METADATA_RECORDS_PER_BLOCK at hi ⊢
    omega
  have htrimmed := fun i => h.trimmed (i := i) hcount hword
  have htrims : (s.pc t).trims? = some (managerFor (count - 1)) := by
    rw [hpc]
    rfl
  have hhas : (s.pc t).slot? = none ∧ (s.pc t).record? = none := by
    rw [hpc]
    exact ⟨rfl, rfl⟩
  generalize managerFor (count - 1) * METADATA_RECORDS_PER_BLOCK = new at hle hlow htrimmed ⊢
  generalize managerFor (count - 1) = m at *
  -- a place stays, or the record was free
  have hcases : ∀ i, i < new ∧ (if new ≤ i then .region else s.place i) = s.place i ∨
      new ≤ i ∧ (if new ≤ i then .region else s.place i) = .region
        ∧ (s.place i = .region ∨ s.place i = .free ∧ managerFor i = m) := by
    intro i
    by_cases hi : new ≤ i
    · exact .inr ⟨hi, if_pos hi, htrimmed i hi⟩
    · exact .inl ⟨not_le.1 hi, if_neg hi⟩
  have hout : ∀ i, (if new ≤ i then .region else s.place i) = .out ↔ s.place i = .out := by
    intro i
    rcases hcases i with ⟨-, hp⟩ | ⟨-, hp, hfree | ⟨hfree, -⟩⟩ <;> rw [hp]
    · rw [hfree]
    · rw [hfree]
      simp
  have hcall : ∀ i u, s.place i = .hand u ∨ s.place i = .growing u →
      (if new ≤ i then .region else s.place i) = s.place i := by
    intro i u hu
    rcases hcases i with ⟨-, hp⟩ | ⟨-, -, hfree | ⟨hfree, -⟩⟩
    · exact hp
    · rw [hfree] at hu
      rcases hu with hu | hu <;> cases hu
    · rw [hfree] at hu
      rcases hu with hu | hu <;> cases hu
  have hnone : Pc.trims? (.trimClear m) = (s.pc t).trims? := htrims.symm
  have hslot : Pc.slot? (.trimClear m) = (s.pc t).slot? := hhas.1.symm
  have hrecord : Pc.record? (.trimClear m) = (s.pc t).record? := hhas.2.symm
  refine ⟨fun i => ?_, fun u i hi => ?_, fun m' => (h.slots m').congr fun b => ?_,
    fun u v m' hu hv => h.trims u v m' ((same_update hnone u).symm.trans hu)
      ((same_update hnone v).symm.trans hv),
    fun m' hm => (h.closed m' hm).imp fun u hu => (same_update hnone u).trans hu, h.tag,
    fun m' hm => ?_, fun m' i => ?_, fun i => ?_,
    ok_update h.pc rfl ⟨hword, update_self _ _ _⟩ fun u hu => ⟨fun i hi => ⟨hcall i u hi, rfl⟩,
      fun m' _ => ⟨le_rfl, fun _ => ⟨rfl, fun _ _ => rfl⟩⟩,
      fun m' hm => ⟨rfl, update_of_ne ?_ _ _⟩⟩⟩
  · show (if new ≤ i then .region else s.place i) ≠ .region ↔ i < new
    rcases hcases i with ⟨hi, hp⟩ | ⟨hi, hp, -⟩ <;> rw [hp]
    · rw [h.counted, hcount]
      omega
    · exact iff_of_false (not_not.2 rfl) (not_lt.2 hi)
  · change (if new ≤ i then .region else s.place i) = _
      ∨ (if new ≤ i then .region else s.place i) = _ at hi
    refine (same_update hrecord u).trans (h.mine u i ?_)
    rcases hcases i with ⟨-, hp⟩ | ⟨-, hp, -⟩ <;> rw [hp] at hi
    · exact hi
    · rcases hi with hi | hi <;> cases hi
  · rcases b with u | i
    · show (update s.pc t _ u).slot? = some m' ↔ _
      rw [same_update hslot]
      exact Iff.rfl
    · exact and_congr_left' (hout i)
  · have hmm : m' ≠ m := by
      rintro rfl
      refine hm t ?_
      show (update s.pc t _ t).clears? = _
      rw [update_self]
      rfl
    show Linked some s.nextFreeHeader _ (update s.contents m [] m') none
    rw [update_of_ne hmm]
    refine h.chain m' fun u hu => ?_
    by_cases hut : u = t
    · rw [hut, hpc] at hu
      cases hu
    · refine hm u ?_
      show (update s.pc t _ u).clears? = _
      rw [update_of_ne hut]
      exact hu
  · show i ∈ update s.contents m [] m' ↔ (if new ≤ i then .region else s.place i) = _ ∧ _
    by_cases hmm : m' = m
    · subst hmm
      rw [update_self]
      refine iff_of_false List.not_mem_nil fun hi => ?_
      rcases hcases i with ⟨hlt, -⟩ | ⟨-, hp, -⟩
      · exact hlow i (not_le.2 hlt) hi.2
      · rw [hp] at hi
        cases hi.1
    · rw [update_of_ne hmm, h.free]
      rcases hcases i with ⟨-, hp⟩ | ⟨-, hp, hfree | ⟨hfree, hmanager⟩⟩ <;> rw [hp]
      · rw [hfree]
      · refine iff_of_false (fun hi => hmm (hi.2.symm.trans hmanager)) fun hi => ?_
        cases hi.1
  · show (if new ≤ i then .region else s.place i) = _ ∧ _
      ∨ (if new ≤ i then .region else s.place i) ≠ _ ∧ _
    rw [ne_eq, hout]
    exact h.callers i
  · rintro rfl
    exact hu (h.trims u t _ hm htrims)

/-- The list of the manager is emptied. -/
theorem Inv.trim_clear (h : Inv s) (hpc : s.pc t = .trimClear m) :
    Inv ({ s with
      localFreeHead := update s.localFreeHead m ⟨none, 0⟩
      changes := update s.changes m 0 }.setPc t (.trimOpen m)) := by
  have hok := h.pc t
  rw [hpc] at hok
  obtain ⟨hword, hempty⟩ := hok
  have htrims : (s.pc t).trims? = some m := by
    rw [hpc]
    rfl
  have hhas : (s.pc t).slot? = none ∧ (s.pc t).record? = none := by
    rw [hpc]
    exact ⟨rfl, rfl⟩
  have hnone : Pc.trims? (.trimOpen m) = (s.pc t).trims? := htrims.symm
  have hslot : Pc.slot? (.trimOpen m) = (s.pc t).slot? := hhas.1.symm
  have hrecord : Pc.record? (.trimOpen m) = (s.pc t).record? := hhas.2.symm
  exact { h with
    mine := fun u i hi => (same_update hrecord u).trans (h.mine u i hi)
    slots := fun m' => (h.slots m').congr fun b => by
      rcases b with u | i
      · show (update s.pc t _ u).slot? = some m' ↔ _
        rw [same_update hslot]
        exact Iff.rfl
      · exact Iff.rfl
    trims := fun u v m' hu hv => h.trims u v m' ((same_update hnone u).symm.trans hu)
      ((same_update hnone v).symm.trans hv)
    closed := fun m' hm => (h.closed m' hm).imp fun u hu => (same_update hnone u).trans hu
    tag := fun m' => by
      show (update s.localFreeHead m _ m').tag = update s.changes m 0 m' % TAGS
      by_cases hmm : m' = m
      · subst hmm
        rw [update_self, update_self]
        rfl
      · rw [update_of_ne hmm, update_of_ne hmm]
        exact h.tag m'
    chain := fun m' hm => by
      show Linked some s.nextFreeHeader (update s.localFreeHead m _ m').top (s.contents m') none
      by_cases hmm : m' = m
      · subst hmm
        rw [update_self, hempty]
        rfl
      · rw [update_of_ne hmm]
        refine h.chain m' fun u hu => ?_
        by_cases hut : u = t
        · rw [hut, hpc] at hu
          exact hmm (Option.some.inj hu).symm
        · refine hm u ?_
          show (update s.pc t _ u).clears? = _
          rw [update_of_ne hut]
          exact hu
    pc := ok_update h.pc rfl hword fun u hu => {
      record := fun _ _ => ⟨rfl, rfl⟩
      heads := fun m' hm => by
        have hmm : m' ≠ m := by
          rintro rfl
          exact h.no_slot hword (.inl u) hm
        show _ ≤ update s.changes m 0 m' ∧ (update s.changes m 0 m' = _ →
          update s.localFreeHead m _ m' = _ ∧ _)
        rw [update_of_ne hmm, update_of_ne hmm]
        exact ⟨le_rfl, fun _ => ⟨rfl, fun _ _ => rfl⟩⟩
      trims := fun _ _ => ⟨rfl, rfl⟩ } }

end MinStd.MetadataManagers
