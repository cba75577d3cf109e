import MinStd.Proofs.SingleArenaRecords

/-!
# A stolen batch is worked off

The blocks of the batch that end at the frontier are given back one by one, and the others go to
their bins.
-/

namespace MinStd.SingleArena

open Function SizeClasses
open ArenaRegions (BlockState AllocationState Header packFrontier unpackFrontier unpackPredecessor
  managerFor NO_PREDECESSOR METADATA_RECORDS_PER_BLOCK Tower frontierOf predOf wordOf)

variable {R : Resource} {s s' s'' : State} {tiles rest tiles' : List (ℕ × ℕ)}
  {place place' place'' : ℕ → Place} {i j p q n m k : ℕ} {x : Record} {y z : Place}
  {l batch : List ℕ} {r : Request}

/-- Maintenance leaves the record where it is. -/
def Place.fixed : Place → Bool
  | hand => true
  | locked => true
  | used => true
  | _ => false

/-- The records in use and those that a call has are left alone. -/
structure Keeps (s : State) (place : ℕ → Place) (s' : State) (place' : ℕ → Place) : Prop where
  fixed : ∀ i, ((place i).fixed = true ∨ (place' i).fixed = true) → place' i = place i
  records : ∀ i, place i = .used → s'.records i = s.records i

/-- What is pending is left alone. -/
structure Still (s s' : State) : Prop where
  pending : s'.pending = s.pending
  pendingCount : s'.pendingCount = s.pendingCount
  maintenanceWindowOpen : s'.maintenanceWindowOpen = s.maintenanceWindowOpen
  frontierReclaimInProgress : s'.frontierReclaimInProgress = s.frontierReclaimInProgress

theorem Still.refl (s : State) : Still s s := ⟨rfl, rfl, rfl, rfl⟩

theorem Still.trans (h : Still s s') (h' : Still s' s'') : Still s s'' :=
  ⟨h'.pending.trans h.pending, h'.pendingCount.trans h.pendingCount,
    h'.maintenanceWindowOpen.trans h.maintenanceWindowOpen,
    h'.frontierReclaimInProgress.trans h.frontierReclaimInProgress⟩

namespace Keeps

theorem refl (s : State) (place : ℕ → Place) : Keeps s place s place :=
  ⟨fun _ _ => rfl, fun _ _ => rfl⟩

theorem trans (h : Keeps s place s' place') (h' : Keeps s' place' s'' place'') :
    Keeps s place s'' place'' := by
  refine ⟨?_, fun i hi => ?_⟩
  · rintro i (hi | hi)
    · have he := h.fixed i (.inl hi)
      exact (h'.fixed i (.inl (he ▸ hi))).trans he
    · have he := h'.fixed i (.inr hi)
      exact he.trans (h.fixed i (.inr (he ▸ hi)))
  · have he := h.fixed i (.inl (by rw [hi]; rfl))
    rw [h'.records i (he.trans hi), h.records i hi]

/-- One record is moved that is neither in use nor in hand. -/
theorem move (hi : (place i).fixed = false) (hy : y.fixed = false)
    (hrecords : ∀ j, j ≠ i → s'.records j = s.records j) : Keeps s place s' (update place i y) := by
  refine ⟨fun j hj => ?_, fun j hj => hrecords j ?_⟩
  · rcases eq_or_ne j i with rfl | hji
    · rw [update_self] at hj
      simp [hi, hy] at hj
    · exact update_of_ne hji ..
  · rintro rfl
    rw [hj] at hi
    exact absurd hi (by decide)

theorem congr (h : Keeps s place s' place') (hr : s''.records = s'.records) :
    Keeps s place s'' place' := ⟨h.fixed, fun i hi => hr ▸ h.records i hi⟩

end Keeps

theorem recycleMetadata_records (s : State) (hj : j ≠ i) :
    (recycleMetadata s i).records j = s.records j := records_of_ne rfl j hj

/-! ### The batch -/

/-- The records of the list are stolen no more, and the others as before. -/
def Worked (place place' : ℕ → Place) (l : List ℕ) : Prop :=
  ∀ i, place' i = .stolen ↔ place i = .stolen ∧ i ∉ l

theorem Inv.named_tile (h : Inv R s tiles place) (hi : (place i).named = true) :
    ∃ p n, (p, n) ∈ tiles ∧ (s.headers p).metadataIndex = i ∧ s.blockOf i = some p
      ∧ (s.records i).totalSize = n * 64 := by
  obtain ⟨p, n, hp, rfl⟩ := h.tile i hi
  obtain ⟨-, hb, hs⟩ := h.names p n hp
  exact ⟨p, n, hp, rfl, hb, hs⟩

/-- The block of a record that ends at the frontier is the topmost. -/
theorem Inv.top_of_end (h : Inv R s tiles place) (hi : (place i).named = true)
    (hend : EndsAtFrontier s i) : ∃ p n rest, tiles = (p, n) :: rest
      ∧ (s.headers p).metadataIndex = i ∧ s.blockOf i = some p := by
  obtain ⟨p, n, hp, hix, hb, hsize⟩ := h.named_tile hi
  obtain ⟨-, b, hbb, he⟩ := hend
  rw [hb] at hbb
  obtain rfl := Option.some.inj hbb
  rw [hsize, Inv.unpack_frontier h.blocks] at he
  change p * 64 + n * 64 = frontierOf tiles * 64 at he
  have htop := h.blocks.tower.predOf_of_end hp (by omega)
  obtain ⟨n', rest, rfl⟩ := ArenaRegions.predOf_eq_some htop
  exact ⟨p, n', rest, rfl, hix, hb⟩

/-- A stolen block at the top is given back, with its record. -/
theorem Inv.reclaim_step (h : Inv R s tiles place) (hi : place i = .stolen)
    (hend : EndsAtFrontier s i) : ∃ tiles', Inv R (recycleMetadata
      (rollBack (s.setState i .FRONTIER_RECLAIM_IN_PROGRESS) ((s.blockOf i).getD 0)) i) tiles'
      (update place i .free) := by
  obtain ⟨p, n, rest, rfl, hix, hb⟩ := h.top_of_end (by rw [hi]; rfl) hend
  rw [hb]
  have hdetached : Inv R (rollBack (s.setState i .FRONTIER_RECLAIM_IN_PROGRESS) p) rest
      (update place i .hand) := by
    refine h.detach hix rfl rfl rfl rfl (by simp) rfl (by simp [Place.state?]) ?_ ?_ ?_ h.slots
    · exact filed_update (P := (· = .free)) h.free (by simp [hi]) (by simp) fun _ _ => rfl
    · exact filed_update (P := (· = .pending)) h.pending (by simp [hi]) (by simp)
        (targetShard_of_ne (t := rollBack (s.setState i .FRONTIER_RECLAIM_IN_PROGRESS) p) rfl)
    · exact filed_update (P := fun y => y = .binned ∨ y = .reclaimed) h.bins (by simp [hi])
        (by simp)
        (binKey_of_ne (t := rollBack (s.setState i .FRONTIER_RECLAIM_IN_PROGRESS) p) rfl)
  have := hdetached.recycle (update_self ..)
  rw [update_idem] at this
  exact ⟨rest, this⟩

theorem Inv.reclaimBatchLoop (left : ℕ) : ∀ {s : State} {tiles : List (ℕ × ℕ)} {place : ℕ → Place}
    {batch : List ℕ}, Inv R s tiles place → batch.Nodup → (∀ i ∈ batch, place i = .stolen) →
    ∃ batch' s' tiles' place' gone, reclaimBatchLoop left batch s = (batch', s')
      ∧ Inv R s' tiles' place' ∧ Keeps s place s' place' ∧ Still s s'
      ∧ Worked place place' gone ∧ batch.Perm (gone ++ batch') := by
  induction left with
  | zero =>
    intro s tiles place batch h _ _
    exact ⟨batch, s, tiles, place, [], rfl, h, .refl s place, .refl s, fun _ => by simp, .refl _⟩
  | succ left ih =>
    intro s tiles place batch h hnd hst
    rw [SingleArena.reclaimBatchLoop]
    rcases hf : batch.find? fun i => EndsAtFrontier s i with _ | i
    · exact ⟨batch, s, tiles, place, [], rfl, h, .refl s place, .refl s, fun _ => by simp, .refl _⟩
    · have hi := List.mem_of_find?_eq_some hf
      have hend : EndsAtFrontier s i := by simpa using List.find?_some hf
      obtain ⟨tiles₁, h₁⟩ := h.reclaim_step (hst i hi) hend
      have hne : ∀ j ∈ batch.erase i, j ≠ i ∧ j ∈ batch := fun j hj => hnd.mem_erase_iff.1 hj
      obtain ⟨batch', s', tiles', place', gone, hloop, h', hk, hs, hw, hperm⟩ :=
        ih h₁ (hnd.erase i) fun j hj => by
          rw [update_of_ne (hne j hj).1]
          exact hst j (hne j hj).2
      refine ⟨batch', s', tiles', place', i :: gone, hloop, h', .trans ?_ hk, .trans ?_ hs,
        fun j => ?_, (List.perm_cons_erase hi).trans (hperm.cons i)⟩
      · exact .move (by rw [hst i hi]; rfl) rfl fun j hj =>
          (recycleMetadata_records _ hj).trans (update_of_ne hj ..)
      · exact ⟨rfl, rfl, rfl, rfl⟩
      · rw [hw j]
        rcases eq_or_ne j i with rfl | hji
        · simp
        · simp [hji]

theorem Inv.words (h : Inv R s tiles place) (f : Bool) (c : ℕ → ℕ) (w : ℕ → Bool) :
    Inv R { s with
      frontierReclaimInProgress := f
      pendingCount := c
      maintenanceWindowOpen := w } tiles place :=
  ⟨h.blocks.congr rfl rfl rfl, h.region, h.managers, h.state,
    fun p n hp => ⟨(h.names p n hp).named, (h.names p n hp).block, (h.names p n hp).size⟩, h.tile,
    h.free, h.pending, h.bins, h.slots⟩

theorem Inv.reclaimPendingFrontierBatch (h : Inv R s tiles place) (hnd : batch.Nodup)
    (hst : ∀ i ∈ batch, place i = .stolen) :
    ∃ batch' s' tiles' place' gone, reclaimPendingFrontierBatch batch s = (batch', s')
      ∧ Inv R s' tiles' place' ∧ Keeps s place s' place' ∧ Still s s'
      ∧ Worked place place' gone ∧ batch.Perm (gone ++ batch') := by
  unfold SingleArena.reclaimPendingFrontierBatch
  split_ifs with hflag
  · exact ⟨batch, s, tiles, place, [], rfl, h, .refl s place, .refl s, fun _ => by simp, .refl _⟩
  · obtain ⟨batch', s', tiles', place', gone, hloop, h', hk, hs, hw, hperm⟩ :=
      Inv.reclaimBatchLoop batch.length (h.words true _ _) hnd hst
    refine ⟨batch', _, tiles', place', gone, by rw [hloop], h'.words false _ _,
      ⟨hk.fixed, hk.records⟩, ⟨hs.pending, hs.pendingCount, hs.maintenanceWindowOpen, ?_⟩,
      hw, hperm⟩
    simpa using hflag

/-! ### The bins -/

theorem Inv.publish (h : Inv R s tiles place) (hi : place i = .stolen) :
    Inv R (publish R s i) tiles (update place i .binned) := by
  have hreg : place i ≠ .region := by simp [hi]
  have hstate : s.state i = .DEALLOCATED_PENDING := h.state i _ (by rw [hi]; rfl)
  unfold SingleArena.publish
  rw [if_pos hstate]
  refine h.rewrite rfl rfl rfl rfl hreg (by simp) (by simp [Place.state?])
    (by simp [hi, Place.named]) (fun _ => ⟨rfl, rfl⟩) ?_ ?_ ?_ h.slots
  · exact filed_update (P := (· = .free)) h.free (by simp [hi]) (by simp) fun _ _ => rfl
  · exact filed_update (P := (· = .pending)) h.pending (by simp [hi]) (by simp)
      (targetShard_of_ne (t := (s.setState i .AVAILABLE).setBin _ _) rfl)
  · exact h.bins.push (i := i) (c := (s.setState i .AVAILABLE).binKey R) (by simp [hi]) (by simp)
      (update_ne_iff (P := fun y => y = .binned ∨ y = .reclaimed))
      fun j hj _ => binKey_of_ne (t := s.setState i .AVAILABLE) rfl j hj

theorem publish_still (s : State) (i : ℕ) : Still s (publish R s i) := by
  unfold publish
  split_ifs
  · exact ⟨rfl, rfl, rfl, rfl⟩
  · exact .refl s

theorem publish_records (s : State) (hj : j ≠ i) : (publish R s i).records j = s.records j := by
  unfold publish
  split_ifs
  · exact update_of_ne hj ..
  · rfl

theorem Inv.publishAll (batch : List ℕ) : ∀ {s : State} {place : ℕ → Place}, Inv R s tiles place →
    batch.Nodup → (∀ i ∈ batch, place i = .stolen) →
    ∃ place', Inv R (batch.foldl (SingleArena.publish R) s) tiles place'
      ∧ Keeps s place (batch.foldl (SingleArena.publish R) s) place'
      ∧ Still s (batch.foldl (SingleArena.publish R) s)
      ∧ Worked place place' batch := by
  induction batch with
  | nil => exact fun {s place} h _ _ => ⟨place, h, .refl s place, .refl s, fun _ => by simp⟩
  | cons i batch ih =>
    intro s place h hnd hst
    obtain ⟨hni, hnd⟩ := List.nodup_cons.1 hnd
    have hi := hst i List.mem_cons_self
    obtain ⟨place', h', hk, hs, hw⟩ := ih (h.publish hi) hnd fun j hj => by
      rw [update_of_ne fun (he : j = i) => hni (he ▸ hj)]
      exact hst j (List.mem_cons_of_mem _ hj)
    refine ⟨place', h', .trans ?_ hk, .trans (publish_still s i) hs, fun j => ?_⟩
    · exact .move (by rw [hi]; rfl) rfl fun j hj => publish_records s hj
    · rw [hw j]
      rcases eq_or_ne j i with rfl | hji
      · simp
      · simp [hji]

/-- The window has worked off the list. -/
structure Maintains (R : Resource) (s : State) (place : ℕ → Place) (l : List ℕ) (s' : State) :
    Prop where
  exists_inv : ∃ tiles' place', Inv R s' tiles' place' ∧ Keeps s place s' place'
    ∧ Worked place place' l
  still : Still s s'

theorem Worked.append {l' : List ℕ} (h : Worked place place' l) (h' : Worked place' place'' l') :
    Worked place place'' (l ++ l') := fun i => by
  rw [h' i, h i, List.mem_append]
  tauto

theorem Worked.perm {l' : List ℕ} (h : Worked place place' l) (hl : l.Perm l') :
    Worked place place' l' := fun i => by rw [h i, hl.mem_iff]

theorem Inv.processPendingBatch (h : Inv R s tiles place) (hnd : batch.Nodup)
    (hst : ∀ i ∈ batch, place i = .stolen) :
    Maintains R s place batch (processPendingBatch R batch s) := by
  unfold SingleArena.processPendingBatch
  split_ifs with hb
  · subst hb
    exact ⟨⟨tiles, place, h, .refl s place, fun _ => by simp⟩, .refl s⟩
  · obtain ⟨batch', s', tiles', place', gone, heq, h', hk, hs, hw, hperm⟩ :=
      h.reclaimPendingFrontierBatch hnd hst
    rw [heq]
    have hnd' := hperm.nodup_iff.1 hnd
    obtain ⟨place'', h'', hk', hs', hw'⟩ := h'.publishAll batch' hnd'.of_append_right fun i hi => by
      rw [hw i]
      exact ⟨hst i (hperm.mem_iff.2 (List.mem_append_right _ hi)),
        fun hg => (List.disjoint_of_nodup_append hnd') hg hi⟩
    exact ⟨⟨tiles', place'', h'', hk.trans hk', (hw.append hw').perm hperm.symm⟩, hs.trans hs'⟩

theorem Maintains.trans {l' : List ℕ} (h : Maintains R s place l s')
    (h' : ∀ tiles' place', Inv R s' tiles' place' → Worked place place' l →
      Maintains R s' place' l' s'') : Maintains R s place (l ++ l') s'' := by
  obtain ⟨⟨tiles₁, place₁, h₁, hk₁, hw₁⟩, hs₁⟩ := h
  obtain ⟨⟨tiles₂, place₂, h₂, hk₂, hw₂⟩, hs₂⟩ := h' tiles₁ place₁ h₁ hw₁
  exact ⟨⟨tiles₂, place₂, h₂, hk₁.trans hk₂, hw₁.append hw₂⟩, hs₁.trans hs₂⟩

theorem Inv.processPendingList (l : List ℕ) : ∀ {s : State} {tiles : List (ℕ × ℕ)}
    {place : ℕ → Place} (batch : List ℕ), Inv R s tiles place → (batch ++ l).Nodup →
    (∀ i ∈ batch ++ l, place i = .stolen) →
    Maintains R s place (batch ++ l) (processPendingList R l batch s) := by
  induction l with
  | nil =>
    intro s tiles place batch h hnd hst
    rw [List.append_nil] at hnd hst ⊢
    exact h.processPendingBatch hnd hst
  | cons i l ih =>
    intro s tiles place batch h hnd hst
    rw [List.append_cons] at hnd hst ⊢
    rw [SingleArena.processPendingList]
    split_ifs
    · refine (h.processPendingBatch hnd.of_append_left fun j hj =>
        hst j (List.mem_append_left _ hj)).trans fun tiles' place' h' hw => ?_
      refine ih [] h' hnd.of_append_right fun j hj => (hw j).2
        ⟨hst j (List.mem_append_right _ hj), fun hb => List.disjoint_of_nodup_append hnd hb hj⟩
    · exact ih _ h hnd hst

end MinStd.SingleArena
