import MinStd.Proofs.SingleArenaSearch

/-!
# Whole calls of the single-arena resource
-/

namespace MinStd.SingleArena

open Function SizeClasses
open ArenaRegions (BlockState AllocationState Header packFrontier unpackFrontier unpackPredecessor
  managerFor NO_PREDECESSOR METADATA_RECORDS_PER_BLOCK Tower frontierOf predOf wordOf)

variable {R : Resource} {s s' s'' : State} {tiles rest tiles' : List (ℕ × ℕ)}
  {place place' place'' : ℕ → Place} {i j p q n m k shard bin pref header : ℕ} {x : Record}
  {y z : Place} {l batch shards : List ℕ} {r : Request}

theorem Inv.getNextEmptyMemoryBlock (h : Inv R s tiles place)
    (hbin : r.bin < NUM_NON_SENTINEL_FREE_BLOCK_BINS R.policy) (hi : place i = .hand) :
    getNextEmptyMemoryBlock R s r.bin = (none, s)
        ∧ FrontierOverlapsMetadata R s (nextOf R r.bin (frontierOf tiles))
      ∨ ∃ s₁ n, getNextEmptyMemoryBlock R s r.bin = (some (frontierOf tiles), s₁)
        ∧ Inv R (useBlock s₁ r (frontierOf tiles) i) ((frontierOf tiles, n) :: tiles)
          (update place i .used)
        ∧ ((useBlock s₁ r (frontierOf tiles) i).records i).totalSize = binSize R.policy r.bin
        ∧ Still s s₁ ∧ s₁.records = s.records := by
  unfold SingleArena.getNextEmptyMemoryBlock
  rw [Inv.unpack_frontier h.blocks, Inv.unpack_predecessor h.blocks]
  dsimp only
  split_ifs with hover
  · exact .inl ⟨rfl, hover⟩
  · obtain ⟨n, hn, hsize, hlt⟩ := units_of_bin (R := R) hbin
    refine .inr ⟨_, n, rfl, ?_, ?_, ⟨rfl, rfl, rfl, rfl⟩, rfl⟩
    · rw [nextOf_eq hsize] at hover ⊢
      have hword : (frontierOf tiles + n - frontierOf tiles) * DEFAULT_ALIGNMENT = n * 64 := by
        rw [Nat.add_sub_cancel_left]
        rfl
      refine h.new_block hi hn hbin hsize (not_le.1 hover) rfl rfl ?_ (useBlock_update _ _ _ _)
        ?_ ?_ ?_ rfl rfl rfl rfl
      · funext u
        rcases eq_or_ne u (frontierOf tiles) with rfl | hu
        · simp [useBlock, State.setHeader, State.setRecord, DEFAULT_ALIGNMENT]
        · simp [useBlock, State.setHeader, State.setRecord, hu]
      · rw [useBlock_record]
      · rw [useBlock_record]
      · rw [useBlock_record]
        show (update s.headers (frontierOf tiles) _ (frontierOf tiles)).sizeIncludingHeader % _ = _
        rw [update_self]
        show (frontierOf tiles + n - frontierOf tiles) * DEFAULT_ALIGNMENT % WORD32 = _
        rw [hword, Nat.mod_eq_of_lt hlt]
    · rw [useBlock_record, nextOf_eq hsize]
      show (update s.headers (frontierOf tiles) _ (frontierOf tiles)).sizeIncludingHeader % _ = _
      rw [update_self]
      show (frontierOf tiles + n - frontierOf tiles) * DEFAULT_ALIGNMENT % WORD32 = _
      rw [Nat.add_sub_cancel_left, hsize, show DEFAULT_ALIGNMENT = 64 from rfl,
        Nat.mod_eq_of_lt hlt]

/-- What is left where a request is refused although a record was to be had: nothing is pending, and
the topmost block is not free. -/
structure Drained (R : Resource) (s : State) (tiles : List (ℕ × ℕ)) (place : ℕ → Place) : Prop where
  pending : ∀ shard < R.cpuShards, s.pending shard = []
  top : TopKept s tiles place

/-- A search after maintenance. -/
inductive Retries (R : Resource) (s : State) (place : ℕ → Place) (bin : ℕ) :
    Option (ℕ × ℕ) × State → Prop
  | nothing {s' : State} {tiles' : List (ℕ × ℕ)} {place' : ℕ → Place} :
      Leaves R s place s' tiles' place' → Tidy s' → NoneFree R s' place' bin →
      Drained R s' tiles' place' → Retries R s place bin (none, s')
  | claimed {s' : State} {tiles' : List (ℕ × ℕ)} {place' : ℕ → Place} {p i : ℕ} : Tidy s' →
      Claims R s place bin s' tiles' place' p i → Retries R s place bin (some (p, i), s')

theorem Claims.after (h : Claims R s' place' bin s'' tiles' place'' p i)
    (hl : Leaves R s place s' tiles place') : Claims R s place bin s'' tiles' place'' p i := by
  obtain ⟨⟨s₁, hl₁, hr⟩, hinv, hb, hp, hbin⟩ := h
  exact ⟨⟨s₁, hl.trans hl₁, hr⟩, hinv, hb, hp, hbin⟩

theorem Inv.searchAfterMaintenance (h : Inv R s tiles place) (hno : ∀ i, place i ≠ .stolen)
    (htidy : Tidy s) (r : Request) :
    ∃ out, searchAfterMaintenance R s r = some out ∧ Retries R s place r.bin out := by
  obtain ⟨s₁, tiles₁, place₁, shards, h1, hl1, he1, -⟩ :=
    h.maybeOpenMaintenanceWindow hno r.shard true
  have ht1 := htidy.emptied he1
  obtain ⟨out, h2, hs2⟩ := hl1.inv.searchForDeallocatedBlock hl1.stolen r.bin r.shard
  unfold SingleArena.searchAfterMaintenance
  rw [h1, Option.bind_some, h2, Option.bind_some]
  cases hs2 with
  | claimed hstill hclaims => exact ⟨_, rfl, .claimed (ht1.still hstill) (hclaims.after hl1)⟩
  | @nothing s₂ place₂ hl2 hstill2 htop2 hnone2 =>
    have ht2 := ht1.still hstill2
    obtain ⟨s₃, tiles₃, place₃, h3, hl3, he3, htop3⟩ :=
      hl2.inv.runWindows hl2.stolen (List.range R.cpuShards)
    have ht3 := ht2.emptied he3
    have hkept := htop3 (by simpa using R.shards_pos.ne') ht2.idle
    have hempty : ∀ shard < R.cpuShards, s₃.pending shard = [] := fun shard hs => by
      rw [he3.pending, if_pos (List.mem_range.2 hs)]
    obtain ⟨out, h4, hs4⟩ := hl3.inv.searchForDeallocatedBlock hl3.stolen r.bin r.shard
    have hl := (hl1.trans hl2).trans hl3
    refine ⟨out, ?_, ?_⟩
    · show (SingleArena.runMaintenanceWindowAll R s₂).bind _ = _
      rw [runMaintenanceWindowAll, h3, Option.bind_some, h4]
    · cases hs4 with
      | claimed hstill hclaims => exact .claimed (ht3.still hstill) (hclaims.after hl)
      | nothing hl4 hstill4 htop4 hnone4 =>
        refine .nothing (hl.trans hl4) (ht3.still hstill4) hnone4 ⟨fun shard hs => ?_, htop4 hkept⟩
        rw [hstill4.pending]
        exact hempty shard hs

/-- A request ends with a block or without one, and then no free block of its bin is left, and no
record could be had or maintenance has done what it can. -/
inductive Answers (R : Resource) (s : State) (place : ℕ → Place) (r : Request) :
    Option ℕ × State → Prop
  | refused {s' : State} {tiles' : List (ℕ × ℕ)} {place' : ℕ → Place} : Inv R s' tiles' place' →
      (∀ j, (place' j).settled = true) → Tidy s' → SameUsed s place s' place' →
      NoneFree R s' place' r.bin → NoRecord R s' ∨ Drained R s' tiles' place' →
      Answers R s place r (none, s')
  | granted {s' : State} {tiles' : List (ℕ × ℕ)} {place' : ℕ → Place} {p i : ℕ} :
      Granted R s place r p s' tiles' place' i → Answers R s place r (some p, s')

theorem Granted.after (h : Granted R s' place' r p s'' tiles' place'' i)
    (hs : SameUsed s place s' place') : Granted R s place r p s'' tiles' place'' i := by
  refine ⟨h.inv, h.settled, h.tidy, h.used, fun hi => h.fresh ((hs.used i).2 hi),
    fun j hj => (h.others j hj).trans (hs.used j), fun j hj hu => ?_, h.block, h.requestedSize,
    h.alignment, h.bin⟩
  rw [h.records j hj ((hs.used j).2 hu), hs.records j hu]

theorem Answers.after {out : Option ℕ × State} (h : Answers R s' place' r out)
    (hs : SameUsed s place s' place') : Answers R s place r out := by
  cases h with
  | refused h1 h2 h3 h4 h5 h6 => exact .refused h1 h2 h3 (hs.trans h4) h5 h6
  | granted hg => exact .granted (hg.after hs)

theorem returnRecord_records (s : State) (hj : j ≠ i) :
    (returnRecord s i).records j = s.records j :=
  (recycleMetadata_records _ hj).trans (update_of_ne hj ..)

theorem returnRecord_record (s : State) (i : ℕ) : (returnRecord s i).records i =
    ⟨⟨none, .METADATA_AVAILABLE, (s.records i).blockState.version⟩, 0, 0, 0, 0⟩ := by
  simp [returnRecord, recycleMetadata, releaseActiveSlot, State.setManager, State.setFree,
    State.setWord, State.setRecord]

theorem returnRecord_still (s : State) (i : ℕ) : Still s (returnRecord s i) := ⟨rfl, rfl, rfl, rfl⟩

/-- The reserved record is given back beside a claimed one. -/
theorem Claims.returned (h : Claims R s place bin s' tiles' place' p i) (hj : place j = .hand)
    (hset : ∀ k, k ≠ j → (place k).settled = true) :
    ∃ s₁, Claims R s₁ (update place' j .free) bin (returnRecord s' j) tiles' (update place' j .free)
      p i ∧ SameUsed s place s₁ (update place' j .free)
      ∧ ∀ k, (update place' j .free k).settled = true := by
  obtain ⟨⟨s₁, hl, hr⟩, hinv, hb, hp, hbin⟩ := h
  have hj' : place' j = .hand := (hl.keeps.fixed j (.inl (by rw [hj]; rfl))).trans hj
  have hij : i ≠ j := fun he => by
    rw [he, hj'] at hb
    cases hb
  have hinv' := hinv.returnRecord (i := j) (by rw [update_of_ne hij.symm]; exact hj')
  rw [update_comm hij] at hinv'
  have hset' : ∀ k, (update place' j .free k).settled = true := fun k => by
    rcases eq_or_ne k j with rfl | hk
    · rw [update_self]
      rfl
    · rw [update_of_ne hk]
      exact hl.settled (hset k hk)
  have hfree := hl.inv.returnRecord hj'
  refine ⟨returnRecord s₁ j, ⟨⟨_, hfree.leaves fun k => not_stolen_of_settled (hset' k),
    fun k hk => ?_⟩, hinv', ?_, ?_, ?_⟩, hl.keeps.sameUsed.trans
      (.update (by simp [hj']) (by simp) fun k hk => returnRecord_records s₁ hk), hset'⟩
  · rcases eq_or_ne k j with rfl | hkj
    · rw [returnRecord_record, returnRecord_record, hr k hk]
    · rw [returnRecord_records s' hkj, returnRecord_records s₁ hkj, hr k hk]
  · rw [update_of_ne hij, hb]
  · rw [State.blockOf, returnRecord_records s' hij]
    exact hp
  · rw [returnRecord_records s' hij, hbin]

theorem settled_update (hset : ∀ k, k ≠ i → (place k).settled = true) (hy : y.settled = true)
    (k : ℕ) : (update place i y k).settled = true := by
  rcases eq_or_ne k i with rfl | hk
  · rw [update_self]
    exact hy
  · rw [update_of_ne hk]
    exact hset k hk

/-- The new block is handed out under the record in hand. -/
theorem Inv.granted_new (hinv : Inv R (useBlock s' r p i) tiles' (update place i .used))
    (hi : place i = .hand) (hset : ∀ k, k ≠ i → (place k).settled = true)
    (htidy : Tidy s) (hstill : Still s s') (hrec : s'.records = s.records)
    (hsize : freeBlockBinIndex R.policy ((useBlock s' r p i).records i).totalSize = r.bin) :
    Granted R s place r p (useBlock s' r p i) tiles' (update place i .used) i := by
  refine ⟨hinv, settled_update hset rfl, htidy.still (hstill.trans (useBlock_still ..)),
    update_self .., by simp [hi], fun j hj => by rw [update_of_ne hj], fun j hj _ => ?_, ?_, ?_, ?_,
    hsize⟩
  · rw [useBlock_records s' r p hj, hrec]
  all_goals simp [State.blockOf, useBlock_record]

/-- The search after maintenance has found nothing, and the record in hand is given back. -/
theorem Answers.nothing (hl : Leaves R s place s' tiles' place') (htidy : Tidy s')
    (hnone : NoneFree R s' place' r.bin) (hdrained : Drained R s' tiles' place')
    (hi : place i = .hand) (hset : ∀ k, k ≠ i → (place k).settled = true) :
    Answers R s place r (none, returnRecord s' i) := by
  have hi' : place' i = .hand := (hl.keeps.fixed i (.inl (by rw [hi]; rfl))).trans hi
  have hset' := settled_update (i := i) (y := .free) (fun k hk => hl.settled (hset k hk)) rfl
  refine .refused (hl.inv.returnRecord hi') hset' (htidy.still (returnRecord_still s' i))
    (hl.keeps.sameUsed.trans (.update (by simp [hi']) (by simp) fun j hj =>
      returnRecord_records s' hj)) (fun j hj => ?_) (.inr ⟨fun shard hs => ?_, fun q hq => ?_⟩)
  · rcases eq_or_ne j i with rfl | hji
    · simp
    · rw [update_of_ne hji]
      rw [returnRecord_records s' hji] at hj
      exact hnone j hj
  · rw [(returnRecord_still s' i).pending]
    exact hdrained.pending shard hs
  · show update place' i .free (s'.headers q).metadataIndex ≠ _
    rcases eq_or_ne (s'.headers q).metadataIndex i with he | he
    · rw [he, update_self]
      simp
    · rw [update_of_ne he]
      exact hdrained.top q hq

theorem Inv.allocateReserved (h : Inv R s tiles place) (hi : place i = .hand)
    (hset : ∀ k, k ≠ i → (place k).settled = true) (htidy : Tidy s)
    (hbin : r.bin < NUM_NON_SENTINEL_FREE_BLOCK_BINS R.policy) :
    ∃ out, allocateReserved R s r i = some out ∧ Answers R s place r out := by
  have hno : ∀ k, place k ≠ .stolen := fun k => by
    rcases eq_or_ne k i with rfl | hk
    · simp [hi]
    · exact not_stolen_of_settled (hset k hk)
  unfold SingleArena.allocateReserved
  rcases h.getNextEmptyMemoryBlock hbin hi with
    ⟨hnew, -⟩ | ⟨s₁, n, hnew, hinv, hsize, hstill, hrec⟩
  · obtain ⟨out, hsearch, hret⟩ := h.searchAfterMaintenance hno htidy r
    rw [hnew]
    dsimp only
    rw [hsearch]
    refine ⟨_, rfl, ?_⟩
    cases hret with
    | nothing hl htidy' hnone hdrained => exact .nothing hl htidy' hnone hdrained hi hset
    | claimed htidy' hclaims =>
      obtain ⟨s₁, hclaims', hsame, hset'⟩ := hclaims.returned hi hset
      exact .granted ((hclaims'.granted (htidy'.still (returnRecord_still _ i)) hset').after hsame)
  · rw [hnew]
    refine ⟨_, rfl, .granted (hinv.granted_new hi hset htidy hstill hrec ?_)⟩
    rw [hsize, freeBlockBinIndex_binSize hbin]

/-- What has been reserved for the call is a record that nobody had. -/
theorem Got.still (h : Got R s tiles place i s') : Still s s' ∧ s'.records = s.records := by
  rw [h.same]
  exact ⟨⟨rfl, rfl, rfl, rfl⟩, rfl⟩

theorem Inv.allocateFrontier (h : Inv R s tiles place) (hset : ∀ k, (place k).settled = true)
    (htidy : Tidy s) (hbin : r.bin < NUM_NON_SENTINEL_FREE_BLOCK_BINS R.policy)
    (hnone : NoneFree R s place r.bin) :
    ∃ out, allocateFrontier R s r = some out ∧ Answers R s place r out := by
  unfold SingleArena.allocateFrontier
  rcases h.getNextMetadataRecordIndex with ⟨i, s₁, hget, hgot⟩ | ⟨hget, hno⟩
  · rw [hget, Option.bind_some]
    obtain ⟨hstill, hrec⟩ := hgot.still
    obtain ⟨out, hout, hans⟩ := hgot.inv.allocateReserved (update_self ..)
      (fun k hk => by rw [update_of_ne hk]; exact hset k) (htidy.still hstill) hbin
    refine ⟨out, hout, hans.after (.update ?_ (by simp) fun j _ => by rw [hrec])⟩
    rcases hgot.place with hp | hp <;> simp [hp]
  · rw [hget, Option.bind_some]
    exact ⟨_, rfl, .refused h hset htidy ⟨fun _ => .rfl, fun _ _ => rfl⟩ hnone (.inl hno)⟩

theorem Inv.allocateRequest (h : Inv R s tiles place) (hset : ∀ k, (place k).settled = true)
    (htidy : Tidy s) (hbin : r.bin < NUM_NON_SENTINEL_FREE_BLOCK_BINS R.policy) :
    ∃ out, allocateRequest R s r = some out ∧ Answers R s place r out := by
  obtain ⟨s₁, tiles₁, place₁, shards, hwin, hl, he, -⟩ :=
    h.maybeOpenMaintenanceWindow (fun k => not_stolen_of_settled (hset k)) r.shard false
  have htidy₁ := htidy.emptied he
  have hset₁ : ∀ k, (place₁ k).settled = true := fun k => hl.settled (hset k)
  obtain ⟨out, hsearch, hs⟩ := hl.inv.searchForDeallocatedBlock hl.stolen r.bin r.shard
  unfold SingleArena.allocateRequest
  rw [hwin, Option.bind_some, hsearch, Option.bind_some]
  cases hs with
  | claimed hstill hclaims =>
    exact ⟨_, rfl, .granted ((hclaims.granted (htidy₁.still hstill) hset₁).after
      hl.keeps.sameUsed)⟩
  | nothing hl₂ hstill _ hnone =>
    obtain ⟨out, hout, hans⟩ := hl₂.inv.allocateFrontier (fun k => hl₂.settled (hset₁ k))
      (htidy₁.still hstill) hbin hnone
    exact ⟨out, hout, hans.after (hl.trans hl₂).keeps.sameUsed⟩

/-! ### Requests -/

/-- What is not refused at once: some bytes, that fit the largest bin with their header, and an
alignment that headers have. -/
theorem of_not_refused {bytes alignment : ℕ} (h : ¬ Refused R bytes alignment) :
    0 < bytes ∧ bytes < WORD32 ∧ alignment ∣ 64 ∧ totalSize bytes = roundUp (bytes + 64)
      ∧ totalSize bytes ≤ maxBinBytesAligned R.policy := by
  simp only [Refused, not_or, not_not, not_lt] at h
  obtain ⟨hpos, hle, hapos, hale, hpow, htotal⟩ := h
  have hmax := maxBinBytesAligned_lt R.policy
  have hlt : bytes < WORD32 := hle.trans_lt ((Nat.sub_le _ _).trans_lt hmax)
  have hw : WORD32 + 64 < 2 ^ 40 ∧ 2 ^ 40 < WORD64 := by decide
  refine ⟨Nat.pos_of_ne_zero hpos, hlt, ?_, ?_, htotal⟩
  · have hall : ∀ a ≤ 64, a ≠ 0 → a &&& (a - 1) = 0 → a ∣ 64 := by decide
    exact hall alignment hale hapos hpow
  · have hadd : add64 bytes ALLOCATION_HEADER_SIZE = bytes + 64 :=
      add64_eq (show bytes + 64 < WORD64 by omega)
    rw [totalSize, hadd]
    exact alignUpBinSize_eq (by omega)

/-- The bin of a request holds it with its header. -/
theorem requestOf_bin (cpu : ℕ) {bytes alignment : ℕ} (h : ¬ Refused R bytes alignment) :
    IsFirstBin R.policy (roundUp (bytes + 64)) (requestOf R cpu bytes alignment).bin := by
  obtain ⟨-, -, -, htotal, hle⟩ := of_not_refused h
  rw [← htotal]
  exact isFirstBin_freeBlockBinIndex hle

/-! ### Deallocation -/

/-- The header names a record in use that names it. -/
def Held (s : State) (place : ℕ → Place) (header : ℕ) : Prop :=
  place (s.headers header).metadataIndex = .used
    ∧ s.blockOf (s.headers header).metadataIndex = some header

/-- A record that no call has is in use if its state word says so. -/
theorem Inv.used_iff (h : Inv R s tiles place) (hset : ∀ k, (place k).settled = true)
    (hi : i < s.currentMetadataRecordCount) : s.state i = .IN_USE ↔ place i = .used := by
  have hst := h.state i
  have hs := hset i
  have hreg := (h.region i).1
  constructor
  · intro he
    rw [he] at hst
    rcases hp : place i <;> rw [hp] at hst hs hreg <;> first
      | rfl
      | exact absurd (hreg rfl) (not_le.2 hi)
      | exact absurd hs (by decide)
      | exact absurd (hst _ rfl) (by decide)
  · intro he
    rw [he] at hst
    exact hst _ rfl

/-- The record of the deallocated block is put on the pending list of its shard. -/
theorem Inv.push_pending (h : Inv R s tiles place) (hi : place i = .used) (v : ℕ)
    (hp : s.blockOf i = some p) :
    Inv R (pushPending R ((s.setWord i ⟨some p, .LOCKED, v⟩).setState i .DEALLOCATED_PENDING) i)
      tiles (update place i .pending) := by
  have hrec : (pushPending R ((s.setWord i ⟨some p, .LOCKED, v⟩).setState i .DEALLOCATED_PENDING)
      i).records = update s.records i
        { s.records i with blockState := ⟨some p, .DEALLOCATED_PENDING, v⟩ } := by
    funext j
    rcases eq_or_ne j i with rfl | hj
    · simp [pushPending, State.setState, State.setWord, State.setRecord]
    · simp [pushPending, State.setState, State.setWord, State.setRecord, hj]
  refine h.rewrite rfl rfl rfl hrec (by simp [hi]) (by simp) (by simp [Place.state?])
    (by simp [hi, Place.named]) (fun _ => ⟨hp.symm, rfl⟩) ?_ ?_ ?_ h.slots
  · exact filed_update (P := (· = .free)) h.free (by simp [hi]) (by simp) fun _ _ => rfl
  · exact h.pending.push (i := i) (r := fun j => update place i .pending j = .pending)
      (c := (pushPending R ((s.setWord i ⟨some p, .LOCKED, v⟩).setState i
        .DEALLOCATED_PENDING) i).targetShard R) (by simp [hi]) (by simp)
      (update_ne_iff (P := (· = .pending))) fun j hj _ => targetShard_of_ne hrec j hj
  · exact filed_update (P := fun y => y = .binned ∨ y = .reclaimed) h.bins (by simp [hi]) (by simp)
      (binKey_of_ne hrec)

theorem Tidy.push_pending (h : Tidy s) (v : ℕ) : Tidy (pushPending R
    ((s.setWord i ⟨some p, .LOCKED, v⟩).setState i .DEALLOCATED_PENDING) i) := by
  refine ⟨h.idle, h.closed, fun k => ?_⟩
  unfold pushPending
  dsimp only
  generalize ((s.setWord i ⟨some p, .LOCKED, v⟩).setState i .DEALLOCATED_PENDING).targetShard R i
    = t
  show update s.pendingCount t (s.pendingCount t + 1) k
    = (update s.pending t (i :: s.pending t) k).length
  rcases eq_or_ne k t with rfl | hk
  · rw [update_self, update_self, h.counted, List.length_cons]
  · rw [update_of_ne hk, update_of_ne hk, h.counted]

/-- What a deallocation of a block in use leaves. -/
structure Released (R : Resource) (s : State) (place : ℕ → Place) (i : ℕ) (s' : State)
    (tiles' : List (ℕ × ℕ)) (place' : ℕ → Place) : Prop where
  inv : Inv R s' tiles' place'
  settled : ∀ j, (place' j).settled = true
  tidy : Tidy s'
  used : ∀ j, place' j = .used ↔ place j = .used ∧ j ≠ i
  records : ∀ j, j ≠ i → place j = .used → s'.records j = s.records j

theorem Inv.doTryDeallocate (h : Inv R s tiles place) (hset : ∀ k, (place k).settled = true)
    (htidy : Tidy s) (header : ℕ) :
    ¬ Held s place header ∧ doTryDeallocate R s (some header) = some (false, s)
      ∨ Held s place header ∧ ∃ s' tiles' place',
        doTryDeallocate R s (some header) = some (true, s')
          ∧ Released R s place (s.headers header).metadataIndex s' tiles' place' := by
  unfold SingleArena.doTryDeallocate
  dsimp only
  generalize hi : (s.headers header).metadataIndex = i
  have hheld : Held s place header ↔ place i = .used ∧ s.blockOf i = some header := by
    rw [Held, hi]
  rw [hheld]
  split_ifs with hcount hstate
  · refine .inl ⟨fun he => ?_, rfl⟩
    exact absurd ((h.region i).2 hcount) (by simp [he.1])
  · rw [ne_eq, h.used_iff hset (not_le.1 hcount)] at hstate
    exact .inl ⟨fun he => hstate.elim (fun hn => hn he.1) fun hn => hn he.2, rfl⟩
  · obtain ⟨huse, hb⟩ := not_or.1 hstate
    have hused : place i = .used := (h.used_iff hset (not_le.1 hcount)).1 (not_not.1 huse)
    have hb := not_not.1 hb
    have hpush := h.push_pending hused (((s.records i).blockState.version + 1) % 4096) hb
    have hset₁ := settled_update (i := i) (y := .pending) (fun k _ => hset k) rfl
    obtain ⟨s', tiles', place', shards, hwin, hl, he, -⟩ := hpush.maybeOpenMaintenanceWindow
      (fun k => not_stolen_of_settled (hset₁ k))
      (((s.setWord i ⟨some header, .LOCKED,
        ((s.records i).blockState.version + 1) % 4096⟩).setState i
          .DEALLOCATED_PENDING).targetShard R i) false
    refine .inr ⟨⟨hused, hb⟩, s', tiles', place', ?_, hl.inv, fun k => hl.settled (hset₁ k),
      (htidy.push_pending _).emptied he, fun j => ?_, fun j hj hu => ?_⟩
    · rw [hwin]
      rfl
    · rw [hl.keeps.sameUsed.used j]
      rcases eq_or_ne j i with rfl | hj
      · simp
      · simp [hj]
    · rw [hl.keeps.sameUsed.records j (by rw [update_of_ne hj]; exact hu)]
      simp [pushPending, State.setState, State.setWord, State.setRecord, hj]

/-! ### Writes by others -/

/-- What is written is no header of a block. -/
theorem Inv.setHeader (h : Inv R s tiles place) {unit : ℕ} (hu : ∀ n, (unit, n) ∉ tiles)
    (x : Header) : Inv R (s.setHeader unit x) tiles place := by
  have hhead : ∀ {p n}, (p, n) ∈ tiles → (s.setHeader unit x).headers p = s.headers p := by
    intro p n hp
    refine update_of_ne ?_ ..
    rintro rfl
    exact hu n hp
  refine ⟨⟨h.blocks.tower, h.blocks.word, h.blocks.room, fun p n l hs => ?_, h.blocks.size⟩,
    h.region, h.managers, h.state, fun p n hp => ?_, fun i hi => ?_, h.free, h.pending, h.bins,
    h.slots⟩
  · rw [hhead (hs.mem List.mem_cons_self)]
    exact h.blocks.back p n l hs
  · obtain ⟨h1, h2, h3⟩ := h.names p n hp
    have hp' := hhead hp
    exact ⟨by rw [hp']; exact h1, by rw [hp']; exact h2, by rw [hp']; exact h3⟩
  · obtain ⟨p, n, hp, hpi⟩ := h.tile i hi
    exact ⟨p, n, hp, by rw [hhead hp, hpi]⟩

/-- What is written is no counted record. -/
theorem Inv.setRecord (h : Inv R s tiles place) (hi : s.currentMetadataRecordCount ≤ i)
    (x : Record) : Inv R (s.setRecord i x) tiles place := by
  have hplace := (h.region i).2 hi
  have hne : ∀ j, place j ≠ .region → j ≠ i := fun j hj he => hj (he ▸ hplace)
  have hrec : ∀ j, place j ≠ .region → (s.setRecord i x).records j = s.records j := fun j hj =>
    update_of_ne (hne j hj) ..
  refine ⟨h.blocks.congr rfl rfl rfl, h.region, h.managers, fun j z hz => ?_, fun p n hp => ?_,
    h.tile, h.free, h.pending.congr (fun _ => .rfl) fun j hj => ?_,
    h.bins.congr (fun _ => .rfl) fun j hj => ?_, h.slots⟩
  · have hj : place j ≠ .region := fun he => by
      rw [he] at hz
      cases hz
    rw [State.state, hrec j hj]
    exact h.state j z hz
  · obtain ⟨h1, h2, h3⟩ := h.names p n hp
    have hj : place (s.headers p).metadataIndex ≠ .region := fun he => by
      rw [he] at h1
      cases h1
    refine ⟨h1, ?_, ?_⟩
    · show ((s.setRecord i x).records (s.headers p).metadataIndex).blockState.block = _
      rw [hrec _ hj]
      exact h2
    · show ((s.setRecord i x).records (s.headers p).metadataIndex).totalSize = _
      rw [hrec _ hj]
      exact h3
  · exact targetShard_of_ne (t := s.setRecord i x) rfl j (hne j (by simp [hj]))
  · refine binKey_of_ne (t := s.setRecord i x) rfl j (hne j ?_)
    rcases hj with hj | hj <;> simp [hj]

end MinStd.SingleArena
