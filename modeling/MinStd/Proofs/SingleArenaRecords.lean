import MinStd.Proofs.SingleArenaInv

/-!
# Records and blocks of the single-arena resource, taken and given back
-/

namespace MinStd.SingleArena

open Function SizeClasses
open ArenaRegions (BlockState AllocationState Header packFrontier unpackFrontier unpackPredecessor
  managerFor NO_PREDECESSOR METADATA_RECORDS_PER_BLOCK Tower frontierOf predOf wordOf)

variable {R : Resource} {s s' : State} {tiles rest : List (ℕ × ℕ)} {place : ℕ → Place}
  {i j p q n m k : ℕ} {x : Record} {y z : Place} {l : List ℕ} {r : Request}

/-! ### Records given back and taken -/

theorem sum_update {f : ℕ → ℕ} {g : ℕ → List ℕ} {t : ℕ → ℕ} {w : ℕ} {l : List ℕ}
    (h : ∀ m, f m + (g m).length = t m) (hm : w + l.length = t m) (k : ℕ) :
    update f m w k + (update g m l k).length = t k := by
  rcases eq_or_ne k m with rfl | hk
  · rw [update_self, update_self, hm]
  · rw [update_of_ne hk, update_of_ne hk, h]

theorem Inv.recycle (h : Inv R s tiles place) (hi : place i = .hand) :
    Inv R (recycleMetadata s i) tiles (update place i .free) := by
  have hreg : place i ≠ .region := by simp [hi]
  have hpos := h.slot_pos hreg (by simp [hi])
  have hle := h.slots_le (managerFor i)
  refine h.rewrite rfl rfl rfl rfl hreg (by simp) (by simp [Place.state?])
    (by simp [hi, Place.named]) (by simp [Place.named]) ?_ ?_ ?_ ?_
  · exact h.free.push (i := i) (by simp [hi]) (by simp) (update_ne_iff (P := (· = .free)))
      fun _ _ _ => rfl
  · exact filed_update (P := (· = .pending)) h.pending (by simp [hi]) (by simp)
      (targetShard_of_ne (t := recycleMetadata s i) rfl)
  · exact filed_update (P := fun y => y = .binned ∨ y = .reclaimed) h.bins (by simp [hi]) (by simp)
      (binKey_of_ne (t := recycleMetadata s i) rfl)
  · refine sum_update h.slots ?_
    have := h.slots (managerFor i)
    show ArenaRegions.releaseSlot (s.stateAndActiveCount (managerFor i))
      + ((s.localFree (managerFor i)).length + 1) = _
    rw [releaseSlot_eq hpos hle, ← this]
    omega

/-- A record in hand may hold anything. -/
theorem Inv.scribble (h : Inv R s tiles place) (hi : place i = .hand) :
    Inv R (s.setRecord i x) tiles place := by
  have hreg : place i ≠ .region := by simp [hi]
  have : Inv R (s.setRecord i x) tiles (update place i .hand) := h.rewrite rfl rfl rfl rfl hreg
    (by simp) (by simp [Place.state?]) (by simp [hi]) (by simp [Place.named])
    (filed_update (P := (· = .free)) h.free (by simp [hi]) (by simp) fun _ _ => rfl)
    (filed_update (P := (· = .pending)) h.pending (by simp [hi]) (by simp) (targetShard_of_ne rfl))
    (filed_update (P := fun y => y = .binned ∨ y = .reclaimed) h.bins (by simp [hi]) (by simp)
      (binKey_of_ne rfl)) h.slots
  rwa [update_eq_self_iff.2 hi.symm] at this

theorem Inv.returnRecord (h : Inv R s tiles place) (hi : place i = .hand) :
    Inv R (returnRecord s i) tiles (update place i .free) := (h.scribble hi).recycle hi

/-- A free record is taken. -/
theorem Inv.take_free (h : Inv R s tiles place) (hm : s.localFree m = i :: l) :
    Inv R ((s.setManager m (s.stateAndActiveCount m + 1)).setFree m l) tiles
      (update place i .hand) := by
  obtain ⟨hi, hkey⟩ := h.free.head hm
  have hreg : place i ≠ .region := by simp [hi]
  have hrec : ((s.setManager m (s.stateAndActiveCount m + 1)).setFree m l).records
      = update s.records i (s.records i) := (update_eq_self i _).symm
  refine h.rewrite rfl rfl rfl hrec hreg (by simp) (by simp [Place.state?])
    (by simp [hi, Place.named]) (by simp [Place.named]) ?_ ?_ ?_ ?_
  · exact h.free.pop hm (by simp) (update_ne_iff (P := (· = .free))) fun _ _ _ => rfl
  · exact filed_update (P := (· = .pending)) h.pending (by simp [hi]) (by simp) fun _ _ => rfl
  · exact filed_update (P := fun y => y = .binned ∨ y = .reclaimed) h.bins (by simp [hi]) (by simp)
      fun _ _ => rfl
  · refine sum_update h.slots ?_
    have := h.slots m
    rw [hm, List.length_cons] at this
    omega

theorem Inv.release_reserved (h : Inv R s tiles place) (m : ℕ) :
    releaseActiveSlot (s.setManager m (s.stateAndActiveCount m + 1)) m = s := by
  have hle := h.slots_le m
  unfold releaseActiveSlot ArenaRegions.releaseSlot State.setManager
  rw [show (update s.stateAndActiveCount m (s.stateAndActiveCount m + 1) m + 0xFFFFFFFF)
    % 0x100000000 = s.stateAndActiveCount m by rw [update_self]; omega, update_idem, update_eq_self]

/-- What the search of the managers does. -/
theorem Inv.popFreeRecord (h : Inv R s tiles place) (ms : List ℕ) :
    (∃ i s', popFreeRecord s ms = (some i, s') ∧ place i = .free
        ∧ Inv R s' tiles (update place i .hand) ∧ s' = { s with
          stateAndActiveCount := s'.stateAndActiveCount
          localFree := s'.localFree })
      ∨ popFreeRecord s ms = (none, s) ∧ ∀ m ∈ ms, s.localFree m = [] := by
  induction ms with
  | nil => exact .inr ⟨rfl, by simp⟩
  | cons m ms ih =>
    have hfree : (s.setManager m (s.stateAndActiveCount m + 1)).localFree m = s.localFree m := rfl
    rcases hm : s.localFree m with _ | ⟨i, l⟩
    · have hnext : SingleArena.popFreeRecord s (m :: ms) = SingleArena.popFreeRecord s ms := by
        rw [SingleArena.popFreeRecord, h.reserve m]
        simp only [hfree, hm, h.release_reserved m]
      rw [hnext]
      refine ih.imp id fun hnone => ⟨hnone.1, ?_⟩
      simpa [hm] using hnone.2
    · refine .inl ⟨i, _, ?_, (h.free.head hm).1, h.take_free hm, rfl⟩
      rw [SingleArena.popFreeRecord, h.reserve m]
      simp only [hfree, hm]

theorem groupSize_succ (count m : ℕ) : groupSize (count + 1) m
    = groupSize count m + if m = managerFor count then 1 else 0 := by
  unfold groupSize managerFor METADATA_RECORDS_PER_BLOCK
  split_ifs <;> omega

/-- The region is grown over whatever its next record held. -/
theorem Inv.grow (h : Inv R s tiles place)
    (hcap : managerFor s.currentMetadataRecordCount < R.managerCapacity)
    (hroom : frontierOf tiles + (s.currentMetadataRecordCount + 1) < R.metadataStart)
    (hw : m = managerFor s.currentMetadataRecordCount) :
    Inv R { s.setManager m (s.stateAndActiveCount m + 1) with
        currentMetadataRecordCount := s.currentMetadataRecordCount + 1 } tiles
      (update place s.currentMetadataRecordCount .hand) := by
  obtain ⟨hb, hreg, hman, hstate, hnames, htile, hfree, hpend, hbins, hslots⟩ := h
  have hi : place s.currentMetadataRecordCount = .region := (hreg _).2 le_rfl
  refine ⟨⟨hb.tower, hb.word, hroom, hb.back, hb.size⟩, fun j => ?_, fun j hj => ?_,
    fun j z hz => ?_, fun p n hp => ?_, fun j hj => ?_, ?_, ?_, ?_, fun k => ?_⟩
  · rcases eq_or_ne j s.currentMetadataRecordCount with rfl | hj
    · simp
    · rw [update_of_ne hj, hreg j]
      show _ ↔ s.currentMetadataRecordCount + 1 ≤ j
      omega
  · rcases Nat.lt_succ_iff_lt_or_eq.1 hj with hj | rfl
    · exact hman j hj
    · exact hcap
  · rcases eq_or_ne j s.currentMetadataRecordCount with rfl | hj
    · simp [Place.state?] at hz
    · rw [update_of_ne hj] at hz
      exact hstate j z hz
  · obtain ⟨h1, h2, h3⟩ := hnames p n hp
    have hne : (s.headers p).metadataIndex ≠ s.currentMetadataRecordCount := fun he => by
      rw [he, hi] at h1
      exact absurd h1 (by decide)
    refine ⟨?_, h2, h3⟩
    show (update place _ Place.hand (s.headers p).metadataIndex).named = true
    rw [update_of_ne hne]
    exact h1
  · refine htile j ?_
    rcases eq_or_ne j s.currentMetadataRecordCount with rfl | hj'
    · simp [Place.named] at hj
    · rwa [update_of_ne hj'] at hj
  · exact filed_update (P := (· = .free)) hfree (by simp [hi]) (by simp) fun _ _ => rfl
  · exact filed_update (P := (· = .pending)) hpend (by simp [hi]) (by simp) fun _ _ => rfl
  · exact filed_update (P := fun y => y = .binned ∨ y = .reclaimed) hbins (by simp [hi]) (by simp)
      fun _ _ => rfl
  · subst hw
    have := hslots k
    show update s.stateAndActiveCount _ _ k + (s.localFree k).length
      = groupSize (s.currentMetadataRecordCount + 1) k
    rw [groupSize_succ]
    rcases eq_or_ne k (managerFor s.currentMetadataRecordCount) with rfl | hk
    · rw [update_self, if_pos rfl]
      omega
    · rw [update_of_ne hk, if_neg hk]
      omega

theorem Inv.unpack_frontier (h : Blocks R s tiles) :
    unpackFrontier s.nextEmptyMemoryBlock = frontierOf tiles := by
  rw [h.word]
  exact Tower.unpack_frontier (A := R.regions) (Nat.le_of_lt
    (Nat.lt_of_le_of_lt (Nat.le_add_right _ _) h.room))

theorem Inv.unpack_predecessor (h : Blocks R s tiles) :
    unpackPredecessor s.nextEmptyMemoryBlock = predOf tiles := by
  rw [h.word]
  exact h.tower.unpack_predecessor (A := R.regions) (Nat.le_of_lt
    (Nat.lt_of_le_of_lt (Nat.le_add_right _ _) h.room))

/-- No record can be had: none is free, and the region cannot be grown. -/
structure NoRecord (R : Resource) (s : State) : Prop where
  free : ∀ m, s.localFree m = []
  full : R.managerCapacity ≤ managerFor s.currentMetadataRecordCount
    ∨ ReachesFrontier R s s.currentMetadataRecordCount

theorem mem_managersUpTo {count m : ℕ} (hi : i < count) (hm : managerFor i = m) :
    m ∈ managersUpTo count := by
  subst hm
  unfold managersUpTo managerFor
  rw [if_pos (by omega), List.mem_range]
  exact Nat.lt_succ_of_le (Nat.div_le_div_right (by omega))

theorem Inv.free_of_managers (h : Inv R s tiles place)
    (hm : ∀ m ∈ managersUpTo s.currentMetadataRecordCount, s.localFree m = []) (m : ℕ) :
    s.localFree m = [] := by
  rcases hl : s.localFree m with _ | ⟨i, l⟩
  · rfl
  · obtain ⟨hi, hkey⟩ := h.free.head hl
    have := hm m (mem_managersUpTo (h.lt_count (by simp [hi])) hkey)
    rw [hl] at this
    exact absurd this (by simp)

/-- The record is one that nobody has, and only the stacks and the words of the managers and the
count have changed. -/
structure Got (R : Resource) (s : State) (tiles : List (ℕ × ℕ)) (place : ℕ → Place) (i : ℕ)
    (s' : State) : Prop where
  inv : Inv R s' tiles (update place i .hand)
  place : place i = .free ∨ place i = .region
  same : s' = { s with
    stateAndActiveCount := s'.stateAndActiveCount
    localFree := s'.localFree
    currentMetadataRecordCount := s'.currentMetadataRecordCount }

theorem growMetadataRegion_full (h : ReachesFrontier R s n) :
    growMetadataRegion R s n = (.NO_ROOM, s) := if_pos h

theorem growMetadataRegion_room (h : ¬ ReachesFrontier R s n)
    (hc : s.currentMetadataRecordCount = n) : growMetadataRegion R s n
      = (.GROWN, { s with currentMetadataRecordCount := n + 1 }) :=
  (if_neg h).trans (if_pos hc)

theorem Inv.growRound (h : Inv R s tiles place) (hfree : ∀ m, s.localFree m = []) :
    (∃ i s', growRound R (s, s.currentMetadataRecordCount) = .inr (some i, s')
        ∧ Got R s tiles place i s')
      ∨ growRound R (s, s.currentMetadataRecordCount) = .inr (none, s) ∧ NoRecord R s := by
  rw [SingleArena.growRound]
  generalize hm : managerFor s.currentMetadataRecordCount = m
  rw [h.reserve m]
  split_ifs with hcap
  · exact .inr ⟨rfl, hfree, .inl (hm ▸ hcap)⟩
  · dsimp only
    by_cases hfull : ReachesFrontier R s s.currentMetadataRecordCount
    · rw [growMetadataRegion_full (s := s.setManager m _) hfull]
      dsimp only
      rw [h.release_reserved]
      exact .inr ⟨rfl, hfree, .inr hfull⟩
    · rw [growMetadataRegion_room (s := s.setManager m _) hfull rfl]
      unfold ReachesFrontier at hfull
      rw [Inv.unpack_frontier h.blocks] at hfull
      exact .inl ⟨_, _, rfl, h.grow (hm ▸ not_le.1 hcap) (not_le.1 hfull) hm.symm,
        .inr ((h.region _).2 le_rfl), rfl⟩

theorem Inv.getNextMetadataRecordIndex (h : Inv R s tiles place) :
    (∃ i s', getNextMetadataRecordIndex R s = some (some i, s') ∧ Got R s tiles place i s')
      ∨ getNextMetadataRecordIndex R s = some (none, s) ∧ NoRecord R s := by
  unfold SingleArena.getNextMetadataRecordIndex
  rcases h.popFreeRecord (managersUpTo s.currentMetadataRecordCount) with
    ⟨i, s', hpop, hi, hinv, hsame⟩ | ⟨hpop, hnone⟩
  · rw [hpop]
    exact .inl ⟨i, s', rfl, hinv, .inl hi, by rw [hsame]⟩
  · rw [hpop]
    dsimp only
    rw [Resource.rounds, loop]
    rcases h.growRound (h.free_of_managers hnone) with ⟨i, s', hround, hgot⟩ | ⟨hround, hno⟩
    · rw [hround]
      exact .inl ⟨i, s', rfl, hgot⟩
    · rw [hround]
      exact .inr ⟨rfl, hno⟩

/-! ### Blocks taken and given back -/

theorem nextOf_eq (hn : binSize R.policy k = n * 64) : nextOf R k p = p + n := by
  unfold nextOf DEFAULT_ALIGNMENT
  rw [hn, ← Nat.add_mul, (alignPointer_spec _).2.2.2 (by omega), Nat.mul_div_cancel _ (by omega)]

theorem units_of_bin (hk : k < NUM_NON_SENTINEL_FREE_BLOCK_BINS R.policy) :
    ∃ n, 0 < n ∧ binSize R.policy k = n * 64 ∧ n * 64 < WORD32 := by
  obtain ⟨⟨n, hn⟩, hle⟩ := dvd_binSize hk
  have hmax := (binSize_le_max hk).trans_lt (maxBinBytesAligned_lt R.policy)
  exact ⟨n, by omega, hn.trans (Nat.mul_comm _ _), by omega⟩

theorem Blocks.lt_frontier (h : Blocks R s tiles) (hp : (p, n) ∈ tiles) : p < frontierOf tiles := by
  have := h.tower.mem_le hp
  omega

theorem Inv.index_ne (h : Inv R s tiles place) (hi : (place i).named = false)
    (hp : (p, n) ∈ tiles) : (s.headers p).metadataIndex ≠ i := fun he => by
  have := (h.names p n hp).named
  rw [he, hi] at this
  exact absurd this (by decide)

/-- A block is taken at the frontier for the record in hand. -/
theorem Inv.new_block (h : Inv R s tiles place) (hi : place i = .hand) (hn : 0 < n)
    (hk : k < NUM_NON_SENTINEL_FREE_BLOCK_BINS R.policy) (hsize : binSize R.policy k = n * 64)
    (hroom : frontierOf tiles + n + (s.currentMetadataRecordCount + 1) < R.metadataStart)
    (hnext : s'.nextEmptyMemoryBlock
      = packFrontier (frontierOf tiles + n) (some (frontierOf tiles)))
    (hcount : s'.currentMetadataRecordCount = s.currentMetadataRecordCount)
    (hheaders : s'.headers = update s.headers (frontierOf tiles) ⟨i, n * 64, predOf tiles⟩)
    (hrecords : s'.records = update s.records i x)
    (hstate : x.blockState.state = .IN_USE) (hblock : x.blockState.block = some (frontierOf tiles))
    (htotal : x.totalSize = n * 64) (hfree : s'.localFree = s.localFree)
    (hpending : s'.pending = s.pending) (hbins : s'.bins = s.bins)
    (hslots : s'.stateAndActiveCount = s.stateAndActiveCount) :
    Inv R s' ((frontierOf tiles, n) :: tiles) (update place i .used) := by
  have hreg : place i ≠ .region := by simp [hi]
  have hne : ∀ p m, (p, m) ∈ tiles → p ≠ frontierOf tiles := fun p m hp =>
    (h.blocks.lt_frontier hp).ne
  refine ⟨⟨⟨rfl, hn, h.blocks.tower⟩, hnext, ?_, fun p m l hs => ?_, fun p m hp => ?_⟩, fun j => ?_,
    hcount ▸ h.managers, fun j z hz => ?_, fun p m hp => ?_, fun j hj => ?_, ?_, ?_, ?_, ?_⟩
  · rw [hcount]
    show frontierOf tiles + n + _ < _
    omega
  · rcases List.suffix_cons_iff.1 hs with he | hs
    · cases he
      rw [hheaders, update_self]
      exact ⟨rfl, rfl⟩
    · rw [hheaders, update_of_ne (hne p m (hs.mem List.mem_cons_self))]
      exact h.blocks.back p m l hs
  · rcases List.mem_cons.1 hp with he | hp
    · cases he
      exact ⟨k, hk, hsize⟩
    · exact h.blocks.size p m hp
  · rw [hcount, ← h.region j]
    exact update_iff (P := (· = .region)) hreg (by simp) j
  · rcases eq_or_ne j i with rfl | hj
    · rw [update_self] at hz
      obtain rfl := Option.some.inj hz
      rw [State.state, records_self hrecords, hstate]
    · rw [update_of_ne hj] at hz
      rw [State.state, records_of_ne hrecords j hj]
      exact h.state j z hz
  · rcases List.mem_cons.1 hp with he | hp
    · cases he
      have hix : (s'.headers (frontierOf tiles)).metadataIndex = i := by rw [hheaders, update_self]
      refine ⟨?_, ?_, ?_⟩
      · rw [hix, update_self]
        rfl
      · rw [hix, State.blockOf, records_self hrecords, hblock]
      · rw [hix, records_self hrecords, htotal]
    · have hhead : s'.headers p = s.headers p := by rw [hheaders, update_of_ne (hne p m hp)]
      have hji := h.index_ne (i := i) (by simp [hi, Place.named]) hp
      obtain ⟨h1, h2, h3⟩ := h.names p m hp
      refine ⟨?_, ?_, ?_⟩ <;> rw [hhead]
      · rw [update_of_ne hji]
        exact h1
      · rw [State.blockOf, records_of_ne hrecords _ hji]
        exact h2
      · rw [records_of_ne hrecords _ hji]
        exact h3
  · rcases eq_or_ne j i with rfl | hji
    · exact ⟨_, _, List.mem_cons_self, by rw [hheaders, update_self]⟩
    · rw [update_of_ne hji] at hj
      obtain ⟨p, m, hp, hpj⟩ := h.tile j hj
      refine ⟨p, m, List.mem_cons_of_mem _ hp, ?_⟩
      rw [hheaders, update_of_ne (hne p m hp)]
      exact hpj
  · rw [hfree]
    exact filed_update (P := (· = .free)) h.free (by simp [hi]) (by simp) fun _ _ => rfl
  · rw [hpending]
    exact filed_update (P := (· = .pending)) h.pending (by simp [hi]) (by simp)
      (targetShard_of_ne hrecords)
  · rw [hbins]
    exact filed_update (P := fun y => y = .binned ∨ y = .reclaimed) h.bins (by simp [hi]) (by simp)
      (binKey_of_ne hrecords)
  · rw [hslots, hfree, hcount]
    exact h.slots

/-- The topmost block is given back, and its record names none. -/
theorem Inv.detach (h : Inv R s ((p, n) :: rest) place) (hi : (s.headers p).metadataIndex = i)
    (hnext : s'.nextEmptyMemoryBlock = packFrontier p (s.headers p).previousBlock)
    (hcount : s'.currentMetadataRecordCount = s.currentMetadataRecordCount)
    (hheaders : s'.headers = s.headers) (hrecords : s'.records = update s.records i x)
    (hy : y ≠ .region) (hnamed : y.named = false) (hstate : ∀ z ∈ y.state?, x.blockState.state = z)
    (hfree : Filed s'.localFree (fun j => update place i y j = .free) managerFor)
    (hpending : Filed s'.pending (fun j => update place i y j = .pending) (s'.targetShard R))
    (hbins : Filed s'.bins (fun j => update place i y j = .binned ∨ update place i y j = .reclaimed)
      (s'.binKey R))
    (hslots : ∀ m, s'.stateAndActiveCount m + (s'.localFree m).length
      = groupSize s.currentMetadataRecordCount m) :
    Inv R s' rest (update place i y) := by
  obtain ⟨htop, hblock, -⟩ := h.names p n List.mem_cons_self
  rw [hi] at htop hblock
  have hreg : place i ≠ .region := fun he => by simp [he, Place.named] at htop
  obtain ⟨hpf, hpos, htower⟩ := h.blocks.tower
  have hother : ∀ q m, (q, m) ∈ rest → (s.headers q).metadataIndex ≠ i := by
    intro q m hq he
    have hb := (h.names q m (List.mem_cons_of_mem _ hq)).block
    rw [he, hblock] at hb
    have := htower.mem_le hq
    have := Option.some.inj hb
    omega
  refine ⟨⟨htower, ?_, ?_, fun q m l hs => ?_, fun q m hq => ?_⟩, fun j => ?_,
    hcount ▸ h.managers, fun j z hz => ?_, fun q m hq => ?_, fun j hj => ?_, hfree, hpending, hbins,
    fun m => (hslots m).trans (by rw [hcount])⟩
  · rw [hnext, (h.blocks.back p n rest List.suffix_rfl).1, hpf]
    rfl
  · have := h.blocks.room
    rw [hcount]
    change p + n + _ < _ at this
    omega
  · rw [hheaders]
    exact h.blocks.back q m l (hs.trans (List.suffix_cons _ _))
  · exact h.blocks.size q m (List.mem_cons_of_mem _ hq)
  · rw [hcount, ← h.region j]
    exact update_iff (P := (· = .region)) hreg hy j
  · rcases eq_or_ne j i with rfl | hj
    · rw [update_self] at hz
      rw [State.state, records_self hrecords]
      exact hstate z hz
    · rw [update_of_ne hj] at hz
      rw [State.state, records_of_ne hrecords j hj]
      exact h.state j z hz
  · obtain ⟨h1, h2, h3⟩ := h.names q m (List.mem_cons_of_mem _ hq)
    have hji := hother q m hq
    refine ⟨?_, ?_, ?_⟩ <;> rw [hheaders]
    · rw [update_of_ne hji]
      exact h1
    · rw [State.blockOf, records_of_ne hrecords _ hji]
      exact h2
    · rw [records_of_ne hrecords _ hji]
      exact h3
  · rcases eq_or_ne j i with rfl | hji
    · rw [update_self, hnamed] at hj
      exact absurd hj (by decide)
    · rw [update_of_ne hji] at hj
      obtain ⟨q, m, hq, hqj⟩ := h.tile j hj
      rw [hheaders]
      rcases List.mem_cons.1 hq with he | hq
      · cases he
        exact absurd (hi.symm.trans hqj) (Ne.symm hji)
      · exact ⟨q, m, hq, hqj⟩

end MinStd.SingleArena
