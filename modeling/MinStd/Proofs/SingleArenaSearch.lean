import MinStd.Proofs.SingleArenaWindow

/-!
# The search for a free block

A search ends because each record of a block that was given back meanwhile is met once.
-/

namespace MinStd.SingleArena

open Function SizeClasses
open ArenaRegions (BlockState AllocationState Header packFrontier unpackFrontier unpackPredecessor
  managerFor NO_PREDECESSOR METADATA_RECORDS_PER_BLOCK Tower frontierOf predOf wordOf)

variable {R : Resource} {s s' s'' : State} {tiles rest tiles' : List (ℕ × ℕ)}
  {place place' place'' : ℕ → Place} {i j p q n m k shard bin pref : ℕ} {x : Record} {y z : Place}
  {l batch shards : List ℕ} {r : Request}
  {out : Scan × State} {key : ℕ × ℕ} {keys : List (ℕ × ℕ)}

/-! ### The search -/

theorem Inv.claim (h : Inv R s tiles place) (hl : s.bins key = i :: l) (hi : place i = .binned) :
    Inv R ((s.setBin key l).setState i .LOCKED) tiles (update place i .locked) := by
  refine h.rewrite rfl rfl rfl rfl (by simp [hi]) (by simp) (by simp [Place.state?])
    (by simp [hi, Place.named]) (fun _ => ⟨rfl, rfl⟩) ?_ ?_ ?_ h.slots
  · exact filed_update (P := (· = .free)) h.free (by simp [hi]) (by simp) fun _ _ => rfl
  · exact filed_update (P := (· = .pending)) h.pending (by simp [hi]) (by simp)
      (targetShard_of_ne (t := (s.setBin key l).setState i .LOCKED) rfl)
  · exact h.bins.pop hl (by simp) (update_ne_iff (P := fun y => y = .binned ∨ y = .reclaimed))
      fun j hj _ => binKey_of_ne (t := (s.setBin key l).setState i .LOCKED) rfl j hj

theorem Inv.defer (h : Inv R s tiles place) (hl : s.bins key = i :: l) (hi : place i = .reclaimed) :
    Inv R (s.setBin key l) tiles (update place i .hand) := by
  have hrec : (s.setBin key l).records = update s.records i (s.records i) :=
    (update_eq_self i _).symm
  refine h.rewrite rfl rfl rfl hrec (by simp [hi]) (by simp) (by simp [Place.state?])
    (by simp [hi, Place.named]) (by simp [Place.named]) ?_ ?_ ?_ h.slots
  · exact filed_update (P := (· = .free)) h.free (by simp [hi]) (by simp) fun _ _ => rfl
  · exact filed_update (P := (· = .pending)) h.pending (by simp [hi]) (by simp) fun _ _ => rfl
  · exact h.bins.pop hl (by simp) (update_ne_iff (P := fun y => y = .binned ∨ y = .reclaimed))
      fun _ _ _ => rfl

/-- What a scan finds: a free block on top of a stack, a record whose block was rolled back, or
every stack empty. -/
inductive Scans (s : State) (place : ℕ → Place) (keys : List (ℕ × ℕ)) : Scan × State → Prop
  | claimed {key : ℕ × ℕ} {i : ℕ} {l : List ℕ} : key ∈ keys → s.bins key = i :: l →
      place i = .binned → Scans s place keys (.claimed i, (s.setBin key l).setState i .LOCKED)
  | deferred {key : ℕ × ℕ} {i : ℕ} {l : List ℕ} : key ∈ keys → s.bins key = i :: l →
      place i = .reclaimed → Scans s place keys (.deferred i, s.setBin key l)
  | nothing : (∀ key ∈ keys, s.bins key = []) → Scans s place keys (.nothing, s)

theorem Scans.cons (h : Scans s place keys out) (hk : s.bins key = []) :
    Scans s place (key :: keys) out := by
  cases h with
  | claimed hm hl hi => exact .claimed (List.mem_cons_of_mem _ hm) hl hi
  | deferred hm hl hi => exact .deferred (List.mem_cons_of_mem _ hm) hl hi
  | nothing hn => exact .nothing (by simpa [hk] using hn)

theorem Inv.scan (h : Inv R s tiles place) (keys : List (ℕ × ℕ)) :
    Scans s place keys (scan s keys) := by
  induction keys with
  | nil => exact .nothing (by simp)
  | cons key keys ih =>
    rw [SingleArena.scan]
    rcases hl : s.bins key with _ | ⟨i, l⟩
    · exact ih.cons hl
    · have hstate : (s.setBin key l).state i = s.state i := rfl
      rcases (h.bins.head hl).1 with hi | hi
      · have hs : s.state i = .AVAILABLE := h.state i _ (by rw [hi]; rfl)
        simp only [tryClaimPoppedBlock, hstate, hs]
        exact .claimed List.mem_cons_self hl hi
      · have hs : s.state i = .FRONTIER_RECLAIMED := h.state i _ (by rw [hi]; rfl)
        simp only [tryClaimPoppedBlock, hstate, hs]
        exact .deferred List.mem_cons_self hl hi

theorem mem_scanOrder : key ∈ scanOrder R bin pref
    ↔ ∃ r < R.cpuShards, ∃ a < NUM_ADDRESS_BINS, key = (binIndex R bin r, a) := by
  have hpos := R.shards_pos
  simp only [scanOrder, List.mem_flatMap, List.mem_map, List.mem_range]
  constructor
  · rintro ⟨a, ha, off, -, rfl⟩
    exact ⟨_, Nat.mod_lt _ hpos, a, ha, rfl⟩
  · rintro ⟨r, hr, a, ha, rfl⟩
    have hp := Nat.mod_lt pref hpos
    rcases le_or_gt (pref % R.cpuShards) r with hle | hgt
    · refine ⟨a, ha, r - pref % R.cpuShards, by omega, ?_⟩
      rw [Nat.add_sub_cancel' hle, Nat.mod_eq_of_lt hr]
    · refine ⟨a, ha, r + R.cpuShards - pref % R.cpuShards, by omega, ?_⟩
      rw [Nat.add_sub_cancel' (by omega), Nat.add_mod_right, Nat.mod_eq_of_lt hr]

theorem addressBinFor_lt (R : Resource) (block : ℕ) : addressBinFor R block < NUM_ADDRESS_BINS := by
  unfold addressBinFor
  split_ifs with h1 h2
  · decide
  · decide
  · exact not_le.1 h2

theorem binIndex_div (bin : ℕ) {r : ℕ} (hr : r < R.cpuShards) :
    binIndex R bin r / R.cpuShards = bin := by
  rw [binIndex, Nat.mul_comm, Nat.mul_add_div R.shards_pos, Nat.div_eq_of_lt hr, Nat.add_zero]

theorem binKey_mem_scanOrder : s.binKey R i ∈ scanOrder R bin pref
    ↔ freeBlockBinIndex R.policy (s.records i).totalSize = bin := by
  have hshard : s.targetShard R i < R.cpuShards := Nat.mod_lt _ R.shards_pos
  rw [mem_scanOrder]
  constructor
  · rintro ⟨r, hr, a, -, he⟩
    have hbin : binIndex R (freeBlockBinIndex R.policy (s.records i).totalSize) (s.targetShard R i)
      = binIndex R bin r := congrArg Prod.fst he
    rw [← binIndex_div bin hr, ← hbin, binIndex_div _ hshard]
  · rintro rfl
    refine ⟨_, hshard, _, ?_, rfl⟩
    rcases s.blockOf i with _ | block
    · exact Nat.succ_pos _
    · exact addressBinFor_lt R block

/-- How many counted records are left of blocks that were rolled back. -/
def reclaimedCount (s : State) : ℕ :=
  ((Finset.range s.currentMetadataRecordCount).filter fun i => s.state i = .FRONTIER_RECLAIMED).card

theorem recycle_reclaimedCount {s₀ : State} (hi : i < s.currentMetadataRecordCount)
    (hs : s.state i = .FRONTIER_RECLAIMED) (hr : s₀.records = s.records)
    (hc : s₀.currentMetadataRecordCount = s.currentMetadataRecordCount) :
    reclaimedCount (recycleMetadata s₀ i) < reclaimedCount s := by
  refine Finset.card_lt_card (Finset.ssubset_iff_subset_ne.2 ⟨fun j hj => ?_, fun he => ?_⟩)
  · obtain ⟨h1, h2⟩ := Finset.mem_filter.1 hj
    have hji : j ≠ i := fun hji => by
      rw [hji] at h2
      exact absurd (h2.symm.trans (congrArg (fun x : Record => x.blockState.state)
        (records_self (s := s₀) (t := recycleMetadata s₀ i) (i := i) rfl))) (by simp)
    have h3 : (recycleMetadata s₀ i).currentMetadataRecordCount
      = s₀.currentMetadataRecordCount := rfl
    rw [h3, hc] at h1
    rw [State.state, recycleMetadata_records s₀ hji, hr] at h2
    exact Finset.mem_filter.2 ⟨h1, h2⟩
  · have hmem : i ∈ (Finset.range s.currentMetadataRecordCount).filter fun i =>
        s.state i = .FRONTIER_RECLAIMED := Finset.mem_filter.2 ⟨Finset.mem_range.2 hi, hs⟩
    rw [← he] at hmem
    have h2 := (Finset.mem_filter.1 hmem).2
    exact absurd (h2.symm.trans (congrArg (fun x : Record => x.blockState.state)
      (records_self (s := s₀) (t := recycleMetadata s₀ i) (i := i) rfl))) (by simp)

/-- A free block of the bin is claimed, with its record, after other things have been done. -/
structure Claims (R : Resource) (s : State) (place : ℕ → Place) (bin : ℕ) (s' : State)
    (tiles' : List (ℕ × ℕ)) (place' : ℕ → Place) (p i : ℕ) : Prop where
  before : ∃ s₁, Leaves R s place s₁ tiles' place' ∧ ∀ j, j ≠ i → s'.records j = s₁.records j
  inv : Inv R s' tiles' (update place' i .locked)
  binned : place' i = .binned
  block : s'.blockOf i = some p
  bin : freeBlockBinIndex R.policy (s'.records i).totalSize = bin

/-- No free block of the bin is left. -/
def NoneFree (R : Resource) (s : State) (place : ℕ → Place) (bin : ℕ) : Prop :=
  ∀ i, freeBlockBinIndex R.policy (s.records i).totalSize = bin → place i ≠ .binned

/-- A search ends with a block of the bin, or with no free block left there. -/
inductive Searches (R : Resource) (s : State) (tiles : List (ℕ × ℕ)) (place : ℕ → Place) (bin : ℕ) :
    Option (ℕ × ℕ) × State → Prop
  | nothing {s' : State} {place' : ℕ → Place} : Leaves R s place s' tiles place' → Still s s' →
      (TopKept s tiles place → TopKept s' tiles place') → NoneFree R s' place' bin →
      Searches R s tiles place bin (none, s')
  | claimed {s' : State} {place' : ℕ → Place} {p i : ℕ} : Still s s' →
      Claims R s place bin s' tiles place' p i → Searches R s tiles place bin (some (p, i), s')

theorem Inv.searchForDeallocatedBlock (h : Inv R s tiles place) (hno : ∀ i, place i ≠ .stolen)
    (bin pref : ℕ) : ∃ out, searchForDeallocatedBlock R s bin pref = some out
      ∧ Searches R s tiles place bin out := by
  refine loop_spec (f := searchRound R bin pref) (n := R.rounds) (x := s)
    (I := fun s₁ => ∃ place₁, Leaves R s place s₁ tiles place₁ ∧ Still s s₁
      ∧ (TopKept s tiles place → TopKept s₁ tiles place₁)) reclaimedCount ?_
    ⟨place, h.leaves hno, .refl s, id⟩ ?_
  · rintro s₁ ⟨place₁, hl, hs, ht⟩
    have hscan := hl.inv.scan (scanOrder R bin pref)
    unfold searchRound
    generalize SingleArena.scan s₁ (scanOrder R bin pref) = out at hscan
    cases hscan with
    | @claimed key i l hm hb hi =>
      obtain ⟨p, n, -, -, hp, -⟩ := hl.inv.named_tile (i := i) (by rw [hi]; rfl)
      have hblock : ((s₁.setBin key l).setState i .LOCKED).blockOf i = some p := by
        rw [State.blockOf, records_self (s := s₁) rfl]
        exact hp
      have hkey := (hl.inv.bins.head hb).2
      have htotal : freeBlockBinIndex R.policy
          (((s₁.setBin key l).setState i .LOCKED).records i).totalSize = bin := by
        rw [records_self (s := s₁) rfl]
        exact binKey_mem_scanOrder.1 (hkey ▸ hm)
      refine .inr ⟨_, rfl, ?_⟩
      rw [hblock]
      exact .claimed (hs.trans ⟨rfl, rfl, rfl, rfl⟩)
        ⟨⟨s₁, hl, records_of_ne rfl⟩, hl.inv.claim hb hi, hi, hblock, htotal⟩
    | @deferred key i l hm hb hi =>
      have hfree := (hl.inv.defer hb hi).recycle (update_self ..)
      rw [update_idem] at hfree
      have hstate : s₁.state i = .FRONTIER_RECLAIMED := hl.inv.state i _ (by rw [hi]; rfl)
      refine .inl ⟨_, rfl, ⟨_, hl.trans ⟨hfree, .move (by rw [hi]; rfl) rfl fun j hj =>
        recycleMetadata_records _ hj, fun j => ?_⟩, hs.trans ⟨rfl, rfl, rfl, rfl⟩,
        fun htop q hq => ?_⟩,
        recycle_reclaimedCount (hl.inv.lt_count (by simp [hi])) hstate rfl rfl⟩
      · rcases eq_or_ne j i with rfl | hj
        · simp
        · rw [update_of_ne hj]
          exact hl.stolen j
      · show update place₁ i .free (s₁.headers q).metadataIndex ≠ _
        rcases eq_or_ne (s₁.headers q).metadataIndex i with he | he
        · rw [he, update_self]
          simp
        · rw [update_of_ne he]
          exact ht htop q hq
    | nothing hn =>
      refine .inr ⟨_, rfl, .nothing hl hs ht fun i hi hb => ?_⟩
      have hmem := hl.inv.bins.mem (i := i) (.inl hb)
      rw [hn _ (binKey_mem_scanOrder.2 hi)] at hmem
      exact absurd hmem (by simp)
  · have h1 : reclaimedCount s ≤ s.currentMetadataRecordCount := by
      have := Finset.card_filter_le (Finset.range s.currentMetadataRecordCount)
        fun i => s.state i = .FRONTIER_RECLAIMED
      rwa [Finset.card_range] at this
    have h2 := h.blocks.room
    rw [Resource.rounds]
    omega

/-! ### Between calls -/

/-- No call has the record. -/
def Place.settled : Place → Bool
  | hand => false
  | stolen => false
  | locked => false
  | _ => true

theorem Leaves.settled (h : Leaves R s place s' tiles' place') (hj : (place j).settled = true) :
    (place' j).settled = true := by
  have hst := h.stolen j
  have hfix := h.keeps.fixed j
  rcases hp : place' j <;> rw [hp] at hst hfix <;> first
    | rfl
    | exact absurd rfl hst
    | (rw [← hfix (.inr rfl)] at hj; exact hj)

theorem not_stolen_of_settled (h : (place j).settled = true) : place j ≠ .stolen := fun he => by
  rw [he] at h
  exact absurd h (by decide)

/-- The counters and the flags as they are between calls. -/
structure Tidy (s : State) : Prop where
  idle : s.frontierReclaimInProgress = false
  closed : ∀ shard, s.maintenanceWindowOpen shard = false
  counted : ∀ shard, s.pendingCount shard = (s.pending shard).length

theorem Tidy.emptied (h : Tidy s) (he : Emptied s s' shards) : Tidy s' := by
  refine ⟨he.frontierReclaimInProgress.trans h.idle, fun k => ?_, fun k => ?_⟩
  · rw [he.maintenanceWindowOpen]
    exact h.closed k
  · rw [he.pendingCount, he.pending, h.counted]
    split_ifs <;> simp

theorem Tidy.still (h : Tidy s) (hs : Still s s') : Tidy s' := h.emptied hs.emptied

/-- The same records are in use, and hold the same. -/
structure SameUsed (s : State) (place : ℕ → Place) (s' : State) (place' : ℕ → Place) : Prop where
  used : ∀ j, place' j = .used ↔ place j = .used
  records : ∀ j, place j = .used → s'.records j = s.records j

theorem SameUsed.trans (h : SameUsed s place s' place') (h' : SameUsed s' place' s'' place'') :
    SameUsed s place s'' place'' :=
  ⟨fun j => (h'.used j).trans (h.used j),
    fun j hj => (h'.records j ((h.used j).2 hj)).trans (h.records j hj)⟩

theorem Keeps.sameUsed (h : Keeps s place s' place') : SameUsed s place s' place' := by
  refine ⟨fun j => ⟨fun hj => ?_, fun hj => ?_⟩, h.records⟩
  · rw [← h.fixed j (.inr (by rw [hj]; rfl)), hj]
  · rw [h.fixed j (.inl (by rw [hj]; rfl)), hj]

/-- A record that is in use neither before nor after. -/
theorem SameUsed.update (hi : place i ≠ .used) (hy : y ≠ .used)
    (hr : ∀ j, j ≠ i → s'.records j = s.records j) : SameUsed s place s' (update place i y) :=
  ⟨update_iff (P := (· = .used)) hi hy, fun j hj => hr j fun he => hi (he ▸ hj)⟩

/-! ### Blocks handed out -/

/-- The block is handed out to the request under the record. -/
structure Granted (R : Resource) (s : State) (place : ℕ → Place) (r : Request) (p : ℕ) (s' : State)
    (tiles' : List (ℕ × ℕ)) (place' : ℕ → Place) (i : ℕ) : Prop where
  inv : Inv R s' tiles' place'
  settled : ∀ j, (place' j).settled = true
  tidy : Tidy s'
  used : place' i = .used
  fresh : place i ≠ .used
  others : ∀ j, j ≠ i → (place' j = .used ↔ place j = .used)
  records : ∀ j, j ≠ i → place j = .used → s'.records j = s.records j
  block : s'.blockOf i = some p
  requestedSize : (s'.records i).requestedSize = r.bytes % WORD32
  alignment : (s'.records i).alignment = r.alignment % 256
  bin : freeBlockBinIndex R.policy (s'.records i).totalSize = r.bin

/-- The record that the block handed out has in the end. -/
theorem useBlock_record (s : State) (r : Request) (p i : ℕ) : (useBlock s r p i).records i =
    { blockState := ⟨some p, .IN_USE, (s.records i).blockState.version⟩
      requestedSize := r.bytes % WORD32
      totalSize := (s.headers p).sizeIncludingHeader % WORD32
      alignment := r.alignment % 256
      originalShard := r.shard % 256 } := by
  simp [useBlock, State.setHeader, State.setRecord]

theorem useBlock_records (s : State) (r : Request) (p : ℕ) (hj : j ≠ i) :
    (useBlock s r p i).records j = s.records j := update_of_ne hj ..

theorem useBlock_update (s : State) (r : Request) (p i : ℕ) :
    (useBlock s r p i).records = update s.records i ((useBlock s r p i).records i) := by
  funext j
  rcases eq_or_ne j i with rfl | hj
  · rw [update_self]
  · rw [update_of_ne hj, useBlock_records s r p hj]

theorem useBlock_still (s : State) (r : Request) (p i : ℕ) : Still s (useBlock s r p i) :=
  ⟨rfl, rfl, rfl, rfl⟩

theorem Inv.size_word (h : Inv R s tiles place) (hp : (p, n) ∈ tiles) :
    n * 64 % WORD32 = n * 64 := by
  obtain ⟨k, hk, hs⟩ := h.blocks.size p n hp
  have := (binSize_le_max hk).trans_lt (maxBinBytesAligned_lt R.policy)
  rw [hs] at this
  exact Nat.mod_eq_of_lt this

/-- The block of a claimed record is handed out. -/
theorem Inv.use_locked (h : Inv R s tiles place) (hi : place i = .locked)
    (hp : s.blockOf i = some p) : Inv R (useBlock s r p i) tiles (update place i .used)
      ∧ ((useBlock s r p i).records i).totalSize = (s.records i).totalSize := by
  obtain ⟨q, n, hq, hix, hb, hsize⟩ := h.named_tile (i := i) (by rw [hi]; rfl)
  obtain rfl := Option.some.inj (hb.symm.trans hp)
  have hheaders : (useBlock s r q i).headers = s.headers := by
    show update s.headers q { s.headers q with metadataIndex := i } = s.headers
    rw [← hix, update_eq_self]
  obtain ⟨rest, hs⟩ := Tower.exists_suffix hq
  have htotal : ((useBlock s r q i).records i).totalSize = (s.records i).totalSize := by
    rw [useBlock_record, hsize]
    show (s.headers q).sizeIncludingHeader % WORD32 = _
    rw [(h.blocks.back q n rest hs).2, h.size_word hq]
  refine ⟨?_, htotal⟩
  have hrec := useBlock_update s r q i
  refine h.rewrite rfl rfl hheaders hrec (by simp [hi]) (by simp) ?_ (by simp [hi, Place.named])
    (fun _ => ⟨?_, htotal⟩) ?_ ?_ ?_ h.slots
  · rw [useBlock_record]
    simp [Place.state?]
  · rw [useBlock_record]
    exact hp.symm
  · exact filed_update (P := (· = .free)) h.free (by simp [hi]) (by simp) fun _ _ => rfl
  · exact filed_update (P := (· = .pending)) h.pending (by simp [hi]) (by simp)
      (targetShard_of_ne hrec)
  · exact filed_update (P := fun y => y = .binned ∨ y = .reclaimed) h.bins (by simp [hi]) (by simp)
      (binKey_of_ne hrec)

/-- The claimed block is handed out. -/
theorem Claims.granted (h : Claims R s place r.bin s' tiles' place' p i) (htidy : Tidy s')
    (hset : ∀ j, (place j).settled = true) : Granted R s place r p (useBlock s' r p i) tiles'
      (update place' i .used) i := by
  obtain ⟨⟨s₁, hl, hr⟩, hinv, hb, hp, hbin⟩ := h
  obtain ⟨hinv', htotal⟩ := hinv.use_locked (r := r) (update_self ..) hp
  rw [update_idem] at hinv'
  have hsame := hl.keeps.sameUsed
  refine ⟨hinv', fun j => ?_, htidy.still (useBlock_still ..), update_self .., fun he => ?_,
    fun j hj => ?_, fun j hj hu => ?_, ?_, ?_, ?_, ?_⟩
  · rcases eq_or_ne j i with rfl | hj
    · rw [update_self]
      rfl
    · rw [update_of_ne hj]
      exact hl.settled (hset j)
  · have := (hsame.used i).2 he
    rw [hb] at this
    cases this
  · rw [update_of_ne hj]
    exact hsame.used j
  · rw [useBlock_records s' r p hj, hr j hj, hsame.records j hu]
  · rw [State.blockOf, useBlock_record]
  · rw [useBlock_record]
  · rw [useBlock_record]
  · rw [htotal, hbin]

end MinStd.SingleArena
