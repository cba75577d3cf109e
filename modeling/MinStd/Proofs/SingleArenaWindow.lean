import MinStd.Proofs.SingleArenaBatch

/-!
# Maintenance windows

A window ends because each of its loops makes something smaller: the pending list of the shard, the
frontier, the count of the records.
-/

namespace MinStd.SingleArena

open Function SizeClasses
open ArenaRegions (BlockState AllocationState Header packFrontier unpackFrontier unpackPredecessor
  managerFor NO_PREDECESSOR METADATA_RECORDS_PER_BLOCK Tower frontierOf predOf wordOf)

variable {R : Resource} {s s' s'' : State} {tiles rest tiles' : List (ℕ × ℕ)}
  {place place' place'' : ℕ → Place} {i j p q n m k shard : ℕ} {x : Record} {y z : Place}
  {l batch shards : List ℕ} {r : Request}

/-! ### A window -/

/-- What maintenance leaves. -/
structure Leaves (R : Resource) (s : State) (place : ℕ → Place) (s' : State)
    (tiles' : List (ℕ × ℕ)) (place' : ℕ → Place) : Prop where
  inv : Inv R s' tiles' place'
  keeps : Keeps s place s' place'
  stolen : ∀ i, place' i ≠ .stolen

theorem Inv.leaves (h : Inv R s tiles place) (hno : ∀ i, place i ≠ .stolen) :
    Leaves R s place s tiles place := ⟨h, .refl s place, hno⟩

theorem Leaves.trans (h : Leaves R s place s' tiles place')
    (h' : Leaves R s' place' s'' tiles' place'') : Leaves R s place s'' tiles' place'' :=
  ⟨h'.inv, h.keeps.trans h'.keeps, h'.stolen⟩

/-- The pending lists of the shards have been worked off. -/
structure Emptied (s s' : State) (shards : List ℕ) : Prop where
  pending : ∀ r, s'.pending r = if r ∈ shards then [] else s.pending r
  pendingCount : ∀ r, s'.pendingCount r
    = if r ∈ shards then s.pendingCount r - (s.pending r).length else s.pendingCount r
  maintenanceWindowOpen : s'.maintenanceWindowOpen = s.maintenanceWindowOpen
  frontierReclaimInProgress : s'.frontierReclaimInProgress = s.frontierReclaimInProgress

theorem Still.emptied (h : Still s s') : Emptied s s' [] :=
  ⟨fun r => by simp [h.pending], fun r => by simp [h.pendingCount], h.maintenanceWindowOpen,
    h.frontierReclaimInProgress⟩

theorem Emptied.trans {shards' : List ℕ} (h : Emptied s s' shards) (h' : Emptied s' s'' shards') :
    Emptied s s'' (shards ++ shards') := by
  refine ⟨fun r => ?_, fun r => ?_, h'.maintenanceWindowOpen.trans h.maintenanceWindowOpen,
    h'.frontierReclaimInProgress.trans h.frontierReclaimInProgress⟩
  · rw [h'.pending, h.pending]
    by_cases h1 : r ∈ shards <;> by_cases h2 : r ∈ shards' <;> simp [h1, h2]
  · rw [h'.pendingCount, h.pendingCount, h.pending]
    by_cases h1 : r ∈ shards <;> by_cases h2 : r ∈ shards' <;> simp [h1, h2]

theorem Emptied.still (h : Emptied s s' shards) (h' : Still s' s'') : Emptied s s'' shards := by
  have := h.trans h'.emptied
  rwa [List.append_nil] at this

/-- The records of the list are stolen. -/
def stealAll (place : ℕ → Place) (l : List ℕ) (i : ℕ) : Place := if i ∈ l then .stolen else place i

theorem stealAll_of_mem (hi : i ∈ l) : stealAll place l i = .stolen := if_pos hi

theorem stealAll_of_notMem (hi : i ∉ l) : stealAll place l i = place i := if_neg hi

theorem Inv.steal (h : Inv R s tiles place) (shard : ℕ) :
    Inv R (stealPendingDeallocationList s shard).2 tiles (stealAll place (s.pending shard)) := by
  have hl : ∀ i, i ∈ s.pending shard → place i = .pending := fun i hi =>
    ((h.pending.mem_iff _ i).1 hi).1
  have hiff : ∀ {P : Place → Prop}, ¬ P .stolen → ¬ P .pending → ∀ i,
      P (stealAll place (s.pending shard) i) ↔ P (place i) := by
    intro P h1 h2 i
    rcases em (i ∈ s.pending shard) with hi | hi
    · rw [stealAll_of_mem hi, hl i hi]
      exact iff_of_false h1 h2
    · rw [stealAll_of_notMem hi]
  have hsame : ∀ {α : Type} {f : Place → α}, f .stolen = f .pending → ∀ i,
      f (stealAll place (s.pending shard) i) = f (place i) := by
    intro α f hf i
    rcases em (i ∈ s.pending shard) with hi | hi
    · rw [stealAll_of_mem hi, hl i hi, hf]
    · rw [stealAll_of_notMem hi]
  refine ⟨h.blocks.congr rfl rfl rfl, fun i => ?_, h.managers, fun i z hz => h.state i z ?_,
    fun p n hp => ?_, fun i hi => h.tile i ?_, ?_, ?_, ?_, h.slots⟩
  · rw [hiff (P := (· = .region)) (by simp) (by simp) i]
    exact h.region i
  · rwa [hsame (f := Place.state?) rfl i] at hz
  · obtain ⟨h1, h2, h3⟩ := h.names p n hp
    exact ⟨(hsame (f := Place.named) rfl _).trans h1, h2, h3⟩
  · rwa [hsame (f := Place.named) rfl i] at hi
  · exact h.free.congr (hiff (P := (· = .free)) (by simp) (by simp)) fun _ _ => rfl
  · refine h.pending.take fun j => ?_
    rcases em (j ∈ s.pending shard) with hj | hj
    · simp [stealAll_of_mem hj, ((h.pending.mem_iff _ j).1 hj).2]
    · rw [stealAll_of_notMem hj]
      exact ⟨fun hp => ⟨hp, fun hk => hj ((h.pending.mem_iff _ j).2 ⟨hp, hk⟩)⟩, fun hp => hp.1⟩
  · exact h.bins.congr (hiff (P := fun y => y = .binned ∨ y = .reclaimed) (by simp) (by simp))
      fun _ _ => rfl

theorem Keeps.of_steal {s₀ : State} (h : Keeps s₀ (stealAll place l) s' place')
    (hl : ∀ i ∈ l, place i = .pending) (hs : s₀.records = s.records) :
    Keeps s place s' place' := by
  refine ⟨fun j hj => ?_, fun j hj => ?_⟩
  · have hfix := h.fixed j
    rcases em (j ∈ l) with hm | hm
    · rw [stealAll_of_mem hm] at hfix
      rcases hj with hj | hj
      · rw [hl j hm] at hj
        exact absurd hj (by decide)
      · have he := hfix (.inr hj)
        rw [he] at hj
        exact absurd hj (by decide)
    · rw [stealAll_of_notMem hm] at hfix
      exact hfix hj
  · have hm : j ∉ l := fun hm => by
      rw [hl j hm] at hj
      exact absurd hj (by decide)
    rw [h.records j ((stealAll_of_notMem hm).trans hj), hs]

theorem Inv.windowRound (h : Inv R s tiles place) (hno : ∀ i, place i ≠ .stolen)
    (hne : s.pending shard ≠ []) : ∃ s' tiles' place', windowRound R shard s = .inl s'
      ∧ Leaves R s place s' tiles' place' ∧ Emptied s s' [shard] := by
  rcases hl : s.pending shard with _ | ⟨i, l⟩
  · exact absurd hl hne
  · have hsteal := h.steal shard
    rw [hl] at hsteal
    obtain ⟨⟨tiles', place', h', hk, hw⟩, hs⟩ := hsteal.processPendingList (i :: l) []
      (hl ▸ h.pending.nodup shard) fun j hj => stealAll_of_mem hj
    have hpend : ∀ j ∈ i :: l, place j = .pending := fun j hj =>
      ((h.pending.mem_iff _ j).1 (hl ▸ hj)).1
    have hround : SingleArena.windowRound R shard s = .inl (reducePendingDeallocationCount
        (SingleArena.processPendingList R (i :: l) [] (stealPendingDeallocationList s shard).2)
          shard (i :: l).length) := by
      unfold SingleArena.windowRound stealPendingDeallocationList
      rw [hl]
    refine ⟨_, tiles', place', hround, ⟨h'.words _ _ _, (hk.of_steal (s := s) hpend rfl).congr rfl,
      fun j hj => ?_⟩, ⟨fun r => ?_, fun r => ?_, hs.maintenanceWindowOpen,
      hs.frontierReclaimInProgress⟩⟩
    · obtain ⟨h1, h2⟩ := (hw j).1 hj
      rw [stealAll_of_notMem (l := i :: l) h2] at h1
      exact hno j h1
    · show (SingleArena.processPendingList R (i :: l) [] _).pending r = _
      rw [hs.pending]
      rcases eq_or_ne r shard with rfl | hr
      · simp [stealPendingDeallocationList]
      · simp [stealPendingDeallocationList, hr]
    · show update (SingleArena.processPendingList R (i :: l) [] _).pendingCount shard _ r = _
      rw [hs.pendingCount]
      rcases eq_or_ne r shard with rfl | hr
      · simp [stealPendingDeallocationList, hl]
      · simp [stealPendingDeallocationList, hr]

theorem windowRound_nil (hs : s.pending shard = []) : windowRound R shard s = .inr s := by
  unfold windowRound stealPendingDeallocationList
  rw [hs]
  dsimp only
  rw [← hs, update_eq_self]

theorem Inv.windowLoop (h : Inv R s tiles place) (hno : ∀ i, place i ≠ .stolen) (shard : ℕ) :
    ∃ s' tiles' place', loop (SingleArena.windowRound R shard) R.rounds s = some s'
      ∧ Leaves R s place s' tiles' place' ∧ Emptied s s' [shard] := by
  rw [Resource.rounds, loop]
  by_cases hne : s.pending shard = []
  · rw [windowRound_nil hne]
    refine ⟨s, tiles, place, rfl, h.leaves hno, fun r => ?_, fun r => ?_, rfl, rfl⟩
    · by_cases hr : r = shard <;> simp [hr, hne]
    · by_cases hr : r = shard <;> simp [hr, hne]
  · obtain ⟨s', tiles', place', hround, hl, he⟩ := h.windowRound hno hne
    refine ⟨s', tiles', place', ?_, hl, he⟩
    have hnil : s'.pending shard = [] := by rw [he.pending, if_pos (List.mem_singleton_self _)]
    rw [hround]
    dsimp only
    rw [loop, windowRound_nil hnil]

/-! ### The frontier -/

/-- The topmost block is not free. -/
def TopKept (s : State) (tiles : List (ℕ × ℕ)) (place : ℕ → Place) : Prop :=
  ∀ p ∈ predOf tiles, place (s.headers p).metadataIndex ≠ .binned

theorem Inv.lt_word (h : Inv R s tiles place) (hi : place i ≠ .region) : i < WORD32 := by
  have h1 := h.lt_count hi
  have h2 := h.blocks.room
  have h3 := R.layout.2.2.2.2.1
  have h4 : NO_PREDECESSOR < WORD32 := by decide
  omega

theorem Inv.tryReclaimRound (h : Inv R s tiles place) (hno : ∀ i, place i ≠ .stolen) :
    (∃ s' tiles' place', tryReclaimRound s = .inl s' ∧ Leaves R s place s' tiles' place'
        ∧ Still s s'
        ∧ unpackFrontier s'.nextEmptyMemoryBlock < unpackFrontier s.nextEmptyMemoryBlock)
      ∨ tryReclaimRound s = .inr s ∧ TopKept s tiles place := by
  unfold SingleArena.tryReclaimRound
  rw [Inv.unpack_predecessor h.blocks]
  rcases tiles with _ | ⟨⟨p, n⟩, rest⟩
  · exact .inr ⟨rfl, by simp [TopKept, predOf]⟩
  · obtain ⟨hnamed, hblock, -⟩ := h.names p n List.mem_cons_self
    generalize hi : (s.headers p).metadataIndex = i at hnamed hblock
    have hreg : place i ≠ .region := fun he => by simp [he, Place.named] at hnamed
    have hmod : (s.headers p).metadataIndex % WORD32 = i := by
      rw [hi, Nat.mod_eq_of_lt (h.lt_word hreg)]
    dsimp only [predOf]
    rw [hmod, if_neg (not_le.2 (h.lt_count hreg)), if_neg (not_not.2 hblock)]
    split_ifs with hstate
    · refine .inr ⟨rfl, fun q hq => ?_⟩
      obtain rfl := Option.some.inj hq
      rw [hi]
      intro hb
      exact hstate (h.state i _ (by rw [hb]; rfl))
    · have hbin : place i = .binned := by
        have hs := h.state i
        rw [not_not.1 hstate] at hs
        rcases hp : place i <;> rw [hp] at hs hnamed <;>
          first | rfl | exact absurd hnamed (by decide) | exact absurd (hs _ rfl) (by decide)
      have hrec : ((rollBack (s.setState i .FRONTIER_RECLAIM_IN_PROGRESS) p).setState i
          .FRONTIER_RECLAIMED).records = update s.records i { s.records i with
            blockState := { (s.records i).blockState with state := .FRONTIER_RECLAIMED } } := by
        simp [rollBack, State.setState, State.setWord, State.setRecord]
      have h' : Inv R ((rollBack (s.setState i .FRONTIER_RECLAIM_IN_PROGRESS) p).setState i
          .FRONTIER_RECLAIMED) rest (update place i .reclaimed) := by
        refine h.detach hi rfl rfl rfl hrec (by simp) rfl (by simp [Place.state?]) ?_ ?_ ?_ h.slots
        · exact filed_update (P := (· = .free)) h.free (by simp [hbin]) (by simp) fun _ _ => rfl
        · exact filed_update (P := (· = .pending)) h.pending (by simp [hbin]) (by simp)
            (targetShard_of_ne hrec)
        · refine h.bins.congr (fun j => ?_) fun j _ => ?_
          · rcases eq_or_ne j i with rfl | hj
            · simp [hbin]
            · rw [update_of_ne hj]
          · rcases eq_or_ne j i with rfl | hj
            · unfold State.binKey State.targetShard State.blockOf
              rw [hrec, update_self]
            · exact binKey_of_ne hrec j hj
      refine .inl ⟨_, rest, _, rfl, ⟨h', ?_, fun j => ?_⟩, ⟨rfl, rfl, rfl, rfl⟩, ?_⟩
      · exact .move (by rw [hbin]; rfl) rfl (records_of_ne hrec)
      · rcases eq_or_ne j i with rfl | hj
        · simp
        · rw [update_of_ne hj]
          exact hno j
      · obtain ⟨hp, hpos, -⟩ := h.blocks.tower
        rw [Inv.unpack_frontier h.blocks, Inv.unpack_frontier h'.blocks]
        show _ < p + n
        omega

theorem Inv.tryReclaimFrontierBlocks (h : Inv R s tiles place) (hno : ∀ i, place i ≠ .stolen) :
    ∃ s' tiles' place', tryReclaimFrontierBlocks R s = some s' ∧ Leaves R s place s' tiles' place'
      ∧ Still s s' ∧ (s.frontierReclaimInProgress = false → TopKept s' tiles' place') := by
  unfold SingleArena.tryReclaimFrontierBlocks
  split_ifs with hflag
  · exact ⟨s, tiles, place, rfl, h.leaves hno, .refl s, fun hf => by simp [hf] at hflag⟩
  · have hloop := loop_spec (f := SingleArena.tryReclaimRound) (n := R.rounds)
      (I := fun s₁ => ∃ tiles₁ place₁, Leaves R s place s₁ tiles₁ place₁
        ∧ Still { s with frontierReclaimInProgress := true } s₁)
      (Q := fun s₁ => ∃ tiles₁ place₁, Leaves R s place s₁ tiles₁ place₁
        ∧ Still { s with frontierReclaimInProgress := true } s₁ ∧ TopKept s₁ tiles₁ place₁)
      (fun s₁ => unpackFrontier s₁.nextEmptyMemoryBlock) ?_
      (x := { s with frontierReclaimInProgress := true })
      ⟨tiles, place, ⟨h.words true _ _, .congr (.refl s place) rfl, hno⟩, .refl _⟩ ?_
    · obtain ⟨s₁, hs₁, tiles₁, place₁, hl, hstill, htop⟩ := hloop
      refine ⟨_, tiles₁, place₁, by rw [hs₁]; rfl, ⟨hl.inv.words false _ _, hl.keeps.congr rfl,
        hl.stolen⟩, ⟨hstill.pending, hstill.pendingCount, hstill.maintenanceWindowOpen, ?_⟩,
        fun _ => htop⟩
      simpa using hflag
    · rintro s₁ ⟨tiles₁, place₁, hl, hstill⟩
      rcases hl.inv.tryReclaimRound hl.stolen with ⟨s₂, tiles₂, place₂, hr, hl', hs', hlt⟩ |
        ⟨hr, htop⟩
      · exact .inl ⟨s₂, hr, ⟨tiles₂, place₂, hl.trans hl', hstill.trans hs'⟩, hlt⟩
      · exact .inr ⟨s₁, hr, tiles₁, place₁, hl, hstill, htop⟩
    · have := h.blocks.room
      rw [Inv.unpack_frontier (h.words true s.pendingCount s.maintenanceWindowOpen).blocks,
        Resource.rounds]
      omega

/-! ### Trimming -/

/-- The records from `bound` on are not counted any more. -/
def cutFrom (place : ℕ → Place) (bound i : ℕ) : Place := if bound ≤ i then .region else place i

theorem Inv.trim (h : Inv R s tiles place) (hpos : 0 < s.currentMetadataRecordCount)
    (hm : m = managerFor (s.currentMetadataRecordCount - 1)) (hidle : s.stateAndActiveCount m = 0) :
    Inv R { (s.setFree m []).setManager m 0 with currentMetadataRecordCount := m * 4096 } tiles
      (cutFrom place (m * 4096)) := by
  have hlt : m * 4096 < s.currentMetadataRecordCount := by
    rw [hm]
    unfold managerFor METADATA_RECORDS_PER_BLOCK
    omega
  have hgroup : ∀ j, m * 4096 ≤ j → j < s.currentMetadataRecordCount → managerFor j = m := by
    intro j h1 h2
    rw [hm] at h1 ⊢
    unfold managerFor METADATA_RECORDS_PER_BLOCK at h1 ⊢
    omega
  have hfree : ∀ j, m * 4096 ≤ j → place j ≠ .region → place j = .free := by
    intro j h1 h2
    by_contra hf
    have := h.slot_pos h2 hf
    rw [hgroup j h1 (h.lt_count h2), hidle] at this
    exact absurd this (Nat.lt_irrefl _)
  have hiff : ∀ {P : Place → Prop}, ¬ P .region → ¬ P .free → ∀ j,
      P (cutFrom place (m * 4096) j) ↔ P (place j) := by
    intro P h1 h2 j
    unfold cutFrom
    split_ifs with hj
    · rcases eq_or_ne (place j) .region with hr | hr
      · rw [hr]
      · rw [hfree j hj hr]
        exact iff_of_false h1 h2
    · exact Iff.rfl
  refine ⟨⟨h.blocks.tower, h.blocks.word, ?_, h.blocks.back, h.blocks.size⟩, fun j => ?_,
    fun j hj => h.managers j (Nat.lt_trans hj hlt), fun j z hz => ?_, fun p n hp => ?_,
    fun j hj => h.tile j ((hiff (P := fun y => y.named = true) (by decide) (by decide) j).1 hj),
    ?_, ?_, ?_, fun k => ?_⟩
  · have := h.blocks.room
    show _ + m * 4096 < _
    omega
  · unfold cutFrom
    split_ifs with hj
    · exact iff_of_true rfl hj
    · rw [h.region j]
      exact iff_of_false (by omega) hj
  · unfold cutFrom at hz
    split_ifs at hz with hj
    · exact absurd hz (by simp [Place.state?])
    · exact h.state j z hz
  · obtain ⟨h1, h2, h3⟩ := h.names p n hp
    exact ⟨(hiff (P := fun y => y.named = true) (by decide) (by decide) _).2 h1, h2, h3⟩
  · refine h.free.take fun j => ?_
    unfold cutFrom
    split_ifs with hj
    · refine iff_of_false (by simp) ?_
      rintro ⟨h1, h2⟩
      exact h2 (hgroup j hj (h.lt_count (by simp [h1])))
    · refine (and_iff_left ?_).symm
      unfold managerFor METADATA_RECORDS_PER_BLOCK
      omega
  · exact h.pending.congr (hiff (P := (· = .pending)) (by simp) (by simp)) fun _ _ => rfl
  · exact h.bins.congr (hiff (P := fun y => y = .binned ∨ y = .reclaimed) (by simp) (by simp))
      fun _ _ => rfl
  · have hk := h.slots k
    show update s.stateAndActiveCount m 0 k + (update s.localFree m [] k).length
      = groupSize (m * 4096) k
    have hlast := hgroup (s.currentMetadataRecordCount - 1) (by omega) (by omega)
    unfold managerFor METADATA_RECORDS_PER_BLOCK at hlast
    rcases eq_or_ne k m with rfl | hkm
    · rw [update_self, update_self]
      unfold groupSize
      simp
    · rw [update_of_ne hkm, update_of_ne hkm, hk]
      unfold groupSize
      omega

theorem Inv.trimRound (h : Inv R s tiles place) (hno : ∀ i, place i ≠ .stolen) :
    (∃ s' place', trimRound R s = .inl s' ∧ Leaves R s place s' tiles place' ∧ Still s s'
        ∧ (TopKept s tiles place → TopKept s' tiles place')
        ∧ s'.currentMetadataRecordCount < s.currentMetadataRecordCount)
      ∨ trimRound R s = .inr s := by
  unfold SingleArena.trimRound
  generalize hm : managerFor (s.currentMetadataRecordCount - 1) = m
  dsimp only
  split_ifs with h0 hcap hidle
  · exact .inr rfl
  · exact .inr rfl
  · exact .inr rfl
  · have h' := h.trim (Nat.pos_of_ne_zero h0) hm.symm (not_not.1 hidle)
    refine .inl ⟨_, _, rfl, ⟨h', ⟨fun j hj => ?_, fun _ _ => rfl⟩, fun j => ?_⟩,
      ⟨rfl, rfl, rfl, rfl⟩, fun htop p hp => ?_, ?_⟩
    · unfold cutFrom at hj ⊢
      split_ifs at hj ⊢ with hb
      · -- a record that is not counted any more was on the free list
        have hidle' := not_not.1 hidle
        by_contra hne
        have hreg : place j ≠ .region := fun he => hne he.symm
        have hfix : place j ≠ .free := fun he => by
          rw [he] at hj
          exact absurd hj (by decide)
        have hpos := h.slot_pos hreg hfix
        have hjm : managerFor j = m := by
          have := h.lt_count hreg
          rw [← hm] at hb ⊢
          unfold managerFor METADATA_RECORDS_PER_BLOCK at hb ⊢
          omega
        rw [hjm, hidle'] at hpos
        exact absurd hpos (Nat.lt_irrefl _)
      · rfl
    · unfold cutFrom
      split_ifs
      · simp
      · exact hno j
    · show cutFrom place _ (s.headers p).metadataIndex ≠ _
      unfold cutFrom
      split_ifs
      · simp
      · exact htop p hp
    · show m * 4096 < _
      rw [← hm]
      unfold managerFor METADATA_RECORDS_PER_BLOCK
      omega

theorem Inv.trimMetadataRecords (h : Inv R s tiles place) (hno : ∀ i, place i ≠ .stolen) :
    ∃ s' place', trimMetadataRecords R s = some s' ∧ Leaves R s place s' tiles place' ∧ Still s s'
      ∧ (TopKept s tiles place → TopKept s' tiles place') := by
  have hloop := loop_spec (f := SingleArena.trimRound R) (n := R.rounds) (x := s)
    (I := fun s₁ => ∃ place₁, Leaves R s place s₁ tiles place₁ ∧ Still s s₁
      ∧ (TopKept s tiles place → TopKept s₁ tiles place₁))
    (Q := fun s₁ => ∃ place₁, Leaves R s place s₁ tiles place₁ ∧ Still s s₁
      ∧ (TopKept s tiles place → TopKept s₁ tiles place₁))
    (fun s₁ => s₁.currentMetadataRecordCount) ?_ ⟨place, h.leaves hno, .refl s, id⟩ ?_
  · obtain ⟨s', hs', place', hl, hstill, htop⟩ := hloop
    exact ⟨s', place', hs', hl, hstill, htop⟩
  · rintro s₁ ⟨place₁, hl, hs, ht⟩
    rcases hl.inv.trimRound hl.stolen with ⟨s₂, place₂, hr, hl', hs', ht', hlt⟩ | hr
    · exact .inl ⟨s₂, hr, ⟨place₂, hl.trans hl', hs.trans hs', ht' ∘ ht⟩, hlt⟩
    · exact .inr ⟨s₁, hr, place₁, hl, hs, ht⟩
  · have := h.blocks.room
    show s.currentMetadataRecordCount < R.metadataStart + 2
    omega

/-! ### Windows -/

theorem Inv.runMaintenanceWindow (h : Inv R s tiles place) (hno : ∀ i, place i ≠ .stolen)
    (shard : ℕ) : ∃ s' tiles' place', runMaintenanceWindow R s shard = some s'
      ∧ Leaves R s place s' tiles' place' ∧ Emptied s s' [shard]
      ∧ (s.frontierReclaimInProgress = false → TopKept s' tiles' place') := by
  obtain ⟨s₁, tiles₁, place₁, h1, hl1, he1⟩ := h.windowLoop hno shard
  obtain ⟨s₂, tiles₂, place₂, h2, hl2, hs2, ht2⟩ := hl1.inv.tryReclaimFrontierBlocks hl1.stolen
  obtain ⟨s₃, place₃, h3, hl3, hs3, ht3⟩ := hl2.inv.trimMetadataRecords hl2.stolen
  refine ⟨s₃, tiles₂, place₃, ?_, (hl1.trans hl2).trans hl3, (he1.still hs2).still hs3,
    fun hf => ht3 (ht2 (he1.frontierReclaimInProgress.trans hf))⟩
  unfold SingleArena.runMaintenanceWindow
  rw [h1, Option.bind_some, h2, Option.bind_some, h3]

theorem Inv.runWindows (h : Inv R s tiles place) (hno : ∀ i, place i ≠ .stolen)
    (shards : List ℕ) : ∃ s' tiles' place',
      shards.foldlM (SingleArena.runMaintenanceWindow R) s = some s'
        ∧ Leaves R s place s' tiles' place' ∧ Emptied s s' shards
        ∧ (shards ≠ [] → s.frontierReclaimInProgress = false → TopKept s' tiles' place') := by
  induction shards using List.reverseRecOn with
  | nil =>
    exact ⟨s, tiles, place, rfl, h.leaves hno, (Still.refl s).emptied, fun hne => absurd rfl hne⟩
  | append_singleton shards shard ih =>
    obtain ⟨s₁, tiles₁, place₁, h1, hl1, he1, -⟩ := ih
    obtain ⟨s₂, tiles₂, place₂, h2, hl2, he2, ht2⟩ := hl1.inv.runMaintenanceWindow hl1.stolen shard
    refine ⟨s₂, tiles₂, place₂, ?_, hl1.trans hl2, he1.trans he2,
      fun _ hf => ht2 (he1.frontierReclaimInProgress.trans hf)⟩
    rw [List.foldlM_append, h1]
    show (SingleArena.runMaintenanceWindow R s₁ shard).bind some = _
    rw [h2, Option.bind_some]

theorem Inv.maybeOpenMaintenanceWindow (h : Inv R s tiles place) (hno : ∀ i, place i ≠ .stolen)
    (shard : ℕ) (force : Bool) : ∃ s' tiles' place' shards,
      maybeOpenMaintenanceWindow R s shard force = some s' ∧ Leaves R s place s' tiles' place'
        ∧ Emptied s s' shards ∧ shards ⊆ [shard] := by
  unfold SingleArena.maybeOpenMaintenanceWindow
  have hstay : ∃ s' tiles' place' shards, some s = some s' ∧ Leaves R s place s' tiles' place'
      ∧ Emptied s s' shards ∧ shards ⊆ [shard] :=
    ⟨s, tiles, place, [], rfl, h.leaves hno, (Still.refl s).emptied, List.nil_subset _⟩
  split_ifs with h1 h2 h3
  · exact hstay
  · exact hstay
  · exact hstay
  · obtain ⟨s', tiles', place', hw, hl, he, -⟩ := Inv.runMaintenanceWindow
      (s := setWindow s shard true) (h.words _ _ _) hno shard
    refine ⟨setWindow s' shard false, tiles', place', [shard], ?_,
      ⟨hl.inv.words _ _ _, ⟨hl.keeps.fixed, hl.keeps.records⟩, hl.stolen⟩,
      ⟨he.pending, he.pendingCount, ?_, he.frontierReclaimInProgress⟩, List.Subset.refl _⟩
    · rw [hw]
      rfl
    · show update s'.maintenanceWindowOpen shard false = _
      rw [he.maintenanceWindowOpen]
      show update (update s.maintenanceWindowOpen shard true) shard false = _
      rw [update_idem]
      exact update_eq_self_iff.2 (by simpa using h3)

end MinStd.SingleArena
