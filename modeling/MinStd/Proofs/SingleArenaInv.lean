import MinStd.Filing
import MinStd.SingleArena
import MinStd.Proofs.ArenaRegions
import MinStd.Proofs.SizeClasses
import Mathlib.Order.Interval.Finset.Nat

/-!
# The invariant of the single-arena resource

The blocks lie one on the other up to the frontier, and each names in its header the one record
that names it.  Each record is in one place, which its state word says, and is on the stack of that
place.
-/

namespace MinStd.SingleArena

open Function SizeClasses
open ArenaRegions (BlockState AllocationState Header packFrontier unpackFrontier unpackPredecessor
  managerFor NO_PREDECESSOR METADATA_RECORDS_PER_BLOCK Tower frontierOf predOf wordOf
  MAX_BLOCK_BYTES)

variable {R : Resource} {s s' : State}

/-! ### The layout -/

theorem alignPointer_spec (ptr : ℕ) : ptr ≤ alignPointer ptr 64 ∧ alignPointer ptr 64 < ptr + 64
    ∧ alignPointer ptr 64 % 64 = 0 ∧ (ptr % 64 = 0 → alignPointer ptr 64 = ptr) := by
  unfold alignPointer
  split_ifs <;> omega

theorem shardBytes_mod (p : BinPolicy) (n : ℕ) : shardBytes p n % 64 = 0 := by
  rw [shardBytes, ← Nat.add_mul, Nat.mul_mod_left]

namespace Resource

variable (R : Resource)

/-- The managers, and behind them the blocks and the records, are inside the caller's block. -/
theorem layout : R.block ≤ R.allocationBase ∧ R.allocationBase % 64 = 0
    ∧ R.allocationBase + R.metadataStart * 64 + 64 ≤ R.block + R.blockSize
    ∧ 0 < R.metadataStart ∧ R.metadataStart < NO_PREDECESSOR ∧ 0 < R.managerCapacity := by
  have hu := R.usable
  have hlt := R.units_lt
  obtain ⟨h1, h2, h3, -⟩ := alignPointer_spec R.block
  have h4 := shardBytes_mod R.policy R.cpuShards
  have hD : DEFAULT_ALIGNMENT = 64 := rfl
  have hB : R.blockManagers = alignPointer R.block 64 + shardBytes R.policy R.cpuShards := rfl
  have hE : R.metadataEnd = (R.block + R.blockSize) / 64 * 64 := rfl
  have hC : R.managerCapacity = (R.metadataEnd - R.blockManagers) / (262144 + 64) :=
    R.managerCapacity_eq
  have hbase : R.allocationBase = R.blockManagers + R.managerCapacity * 64 := by
    rw [R.managerCapacity_eq]
    exact (alignPointer_spec _).2.2.2 (by omega)
  have hM : R.metadataStart = (R.metadataEnd - 64 - R.allocationBase) / 64 := R.metadataStart_eq
  have hA : alignedBlockSize R.block R.blockSize =
    R.blockSize - (alignPointer R.block 64 - R.block) := rfl
  rw [hA, hD] at hlt
  rw [hA, minimumBlockSize, hD, show METADATA_BLOCK_BYTES = 262144 from rfl] at hu
  refine ⟨?_, ?_, ?_, ?_, ?_, ?_⟩ <;> omega

theorem fits_regions : R.allocationBase + R.metadataStart * 64 + MAX_BLOCK_BYTES ≤ 2 ^ 64 := by
  have hend := R.layout.2.2.1
  have hfits := R.fits
  omega

/-- The two regions, as they are seen in the other model. -/
def regions : ArenaRegions.Arena :=
  ⟨R.allocationBase, R.metadataStart, R.managerCapacity, R.layout.2.2.2.2.1, R.fits_regions⟩

end Resource

/-! ### Places -/

/-- Where a record is: not counted, in the hand of a call, in a stolen batch, claimed for a call, in
use, or on a stack. -/
inductive Place
  | region
  | hand
  | stolen
  | locked
  | used
  | pending
  | binned
  | reclaimed
  | free
  deriving DecidableEq

namespace Place

/-- What the state word of a record says there. -/
def state? : Place → Option AllocationState
  | stolen => some .DEALLOCATED_PENDING
  | locked => some .LOCKED
  | used => some .IN_USE
  | pending => some .DEALLOCATED_PENDING
  | binned => some .AVAILABLE
  | reclaimed => some .FRONTIER_RECLAIMED
  | free => some .METADATA_AVAILABLE
  | _ => none

/-- The record names a block below the frontier. -/
def named : Place → Bool
  | stolen => true
  | locked => true
  | used => true
  | pending => true
  | binned => true
  | _ => false

end Place

/-- How many counted records a manager has. -/
def groupSize (count manager : ℕ) : ℕ := min (count - manager * 4096) 4096

/-- The blocks, the topmost first, with their sizes in units. -/
structure Blocks (R : Resource) (s : State) (tiles : List (ℕ × ℕ)) : Prop where
  tower : Tower tiles
  word : s.nextEmptyMemoryBlock = wordOf tiles
  room : frontierOf tiles + s.currentMetadataRecordCount < R.metadataStart
  back : ∀ p n l, (p, n) :: l <:+ tiles → (s.headers p).previousBlock = predOf l
    ∧ (s.headers p).sizeIncludingHeader = n * 64
  size : ∀ p n, (p, n) ∈ tiles → ∃ k < NUM_NON_SENTINEL_FREE_BLOCK_BINS R.policy,
    binSize R.policy k = n * 64

/-- The record that the header names is the block's. -/
structure Names (s : State) (place : ℕ → Place) (p n : ℕ) : Prop where
  named : (place (s.headers p).metadataIndex).named = true
  block : s.blockOf (s.headers p).metadataIndex = some p
  size : (s.records (s.headers p).metadataIndex).totalSize = n * 64

structure Inv (R : Resource) (s : State) (tiles : List (ℕ × ℕ)) (place : ℕ → Place) : Prop where
  blocks : Blocks R s tiles
  region : ∀ i, place i = .region ↔ s.currentMetadataRecordCount ≤ i
  managers : ∀ i < s.currentMetadataRecordCount, managerFor i < R.managerCapacity
  state : ∀ i, ∀ x ∈ (place i).state?, s.state i = x
  names : ∀ p n, (p, n) ∈ tiles → Names s place p n
  tile : ∀ i, (place i).named = true → ∃ p n, (p, n) ∈ tiles ∧ (s.headers p).metadataIndex = i
  free : Filed s.localFree (fun i => place i = .free) managerFor
  pending : Filed s.pending (fun i => place i = .pending) (s.targetShard R)
  bins : Filed s.bins (fun i => place i = .binned ∨ place i = .reclaimed) (s.binKey R)
  slots : ∀ m, s.stateAndActiveCount m + (s.localFree m).length
    = groupSize s.currentMetadataRecordCount m

variable {tiles : List (ℕ × ℕ)} {place : ℕ → Place} {i j p n : ℕ} {x : Record} {y z : Place}

/-! ### Frames -/

theorem update_iff {P : Place → Prop} (h1 : ¬ P (place i)) (h2 : ¬ P y) (j : ℕ) :
    P (update place i y j) ↔ P (place j) := by
  rcases eq_or_ne j i with rfl | hj
  · simp [h1, h2]
  · rw [update_of_ne hj]

theorem update_ne_iff {P : Place → Prop} (j : ℕ) (hj : j ≠ i) :
    P (update place i y j) ↔ P (place j) := by rw [update_of_ne hj]

/-- A list that the record is on neither before nor after. -/
theorem filed_update {κ : Type*} {f : κ → List ℕ} {P : Place → Prop} {k k' : ℕ → κ}
    (h : Filed f (fun j => P (place j)) k) (h1 : ¬ P (place i)) (h2 : ¬ P y)
    (hk : ∀ j, j ≠ i → k' j = k j) : Filed f (fun j => P (update place i y j)) k' :=
  h.congr (update_iff h1 h2) fun j hj => hk j fun hji => h1 (hji ▸ hj)

section Same

variable {t : State} (hr : t.records = update s.records i x)

include hr

theorem records_of_ne (j : ℕ) (hj : j ≠ i) : t.records j = s.records j := by
  rw [hr, update_of_ne hj]

theorem records_self : t.records i = x := by rw [hr, update_self]

theorem targetShard_of_ne (j : ℕ) (hj : j ≠ i) : t.targetShard R j = s.targetShard R j := by
  unfold State.targetShard
  rw [records_of_ne hr j hj]

theorem binKey_of_ne (j : ℕ) (hj : j ≠ i) : t.binKey R j = s.binKey R j := by
  unfold State.binKey State.targetShard State.blockOf
  rw [records_of_ne hr j hj]

end Same

theorem Blocks.congr (h : Blocks R s tiles)
    (h1 : s'.nextEmptyMemoryBlock = s.nextEmptyMemoryBlock)
    (h2 : s'.currentMetadataRecordCount = s.currentMetadataRecordCount)
    (h3 : s'.headers = s.headers) : Blocks R s' tiles := by
  obtain ⟨a, b, c, d, e⟩ := h
  exact ⟨a, h1 ▸ b, h2 ▸ c, h3 ▸ d, e⟩

/-- One record is rewritten, and names its block before and after or neither before nor after. -/
theorem Inv.rewrite (h : Inv R s tiles place)
    (h1 : s'.nextEmptyMemoryBlock = s.nextEmptyMemoryBlock)
    (h2 : s'.currentMetadataRecordCount = s.currentMetadataRecordCount)
    (h3 : s'.headers = s.headers) (hr : s'.records = update s.records i x)
    (hi : place i ≠ .region) (hy : y ≠ .region) (hstate : ∀ z ∈ y.state?, x.blockState.state = z)
    (hnamed : y.named = (place i).named)
    (hkeep : y.named = true → x.blockState.block = s.blockOf i
      ∧ x.totalSize = (s.records i).totalSize)
    (free : Filed s'.localFree (fun j => update place i y j = .free) managerFor)
    (pending : Filed s'.pending (fun j => update place i y j = .pending) (s'.targetShard R))
    (bins : Filed s'.bins (fun j => update place i y j = .binned ∨ update place i y j = .reclaimed)
      (s'.binKey R))
    (slots : ∀ m, s'.stateAndActiveCount m + (s'.localFree m).length
      = groupSize s.currentMetadataRecordCount m) :
    Inv R s' tiles (update place i y) := by
  refine ⟨h.blocks.congr h1 h2 h3, fun j => ?_, h2 ▸ h.managers, fun j z hz => ?_, fun p n hp => ?_,
    fun j hj => ?_, free, pending, bins, fun m => (slots m).trans (by rw [h2])⟩
  · rw [h2, ← h.region j]
    exact update_iff (P := (· = .region)) hi hy j
  · rcases eq_or_ne j i with rfl | hj
    · rw [update_self] at hz
      rw [State.state, records_self hr]
      exact hstate z hz
    · rw [update_of_ne hj] at hz
      rw [State.state, records_of_ne hr j hj]
      exact h.state j z hz
  · obtain ⟨hn, hb, hsize⟩ := h.names p n hp
    rw [← h3] at hn hb hsize
    rcases eq_or_ne (s'.headers p).metadataIndex i with he | he
    · rw [he] at hn hb hsize
      obtain ⟨hk1, hk2⟩ := hkeep (hnamed.trans hn)
      refine ⟨?_, ?_, ?_⟩
      · rw [he, update_self]
        exact hnamed.trans hn
      · rw [he, State.blockOf, records_self hr, hk1, hb]
      · rw [he, records_self hr, hk2, hsize]
    · refine ⟨?_, ?_, ?_⟩
      · rw [update_of_ne he]
        exact hn
      · rw [State.blockOf, records_of_ne hr _ he]
        exact hb
      · rw [records_of_ne hr _ he]
        exact hsize
  · rw [h3]
    refine h.tile j ?_
    rcases eq_or_ne j i with rfl | hj'
    · rw [update_self] at hj
      exact hnamed.symm.trans hj
    · rw [update_of_ne hj'] at hj
      exact hj

/-! ### Slots -/

theorem Inv.lt_count (h : Inv R s tiles place) (hi : place i ≠ .region) :
    i < s.currentMetadataRecordCount := not_le.1 fun hle => hi ((h.region i).2 hle)

theorem groupSize_le (count m : ℕ) : groupSize count m ≤ 4096 := min_le_right _ _

theorem Inv.length_free_lt (h : Inv R s tiles place) (hi : place i ≠ .region)
    (hf : place i ≠ .free) :
    (s.localFree (managerFor i)).length
      < groupSize s.currentMetadataRecordCount (managerFor i) := by
  have hlt := h.lt_count hi
  have hsub : (s.localFree (managerFor i)).toFinset ⊆ (Finset.Ico (managerFor i * 4096)
      (managerFor i * 4096 + groupSize s.currentMetadataRecordCount (managerFor i))).erase i := by
    intro j hj
    obtain ⟨hjf, hjm⟩ := (h.free.mem_iff _ j).1 (List.mem_toFinset.1 hj)
    have hjlt := h.lt_count (i := j) (by simp [hjf])
    refine Finset.mem_erase.2 ⟨?_, Finset.mem_Ico.2 ?_⟩
    · rintro rfl
      exact hf hjf
    · unfold groupSize
      unfold managerFor METADATA_RECORDS_PER_BLOCK at hjm ⊢
      omega
  have hmem : i ∈ Finset.Ico (managerFor i * 4096)
      (managerFor i * 4096 + groupSize s.currentMetadataRecordCount (managerFor i)) := by
    refine Finset.mem_Ico.2 ?_
    unfold groupSize managerFor METADATA_RECORDS_PER_BLOCK
    omega
  have hcard := Finset.card_le_card hsub
  rw [List.toFinset_card_of_nodup (h.free.nodup _), Finset.card_erase_of_mem hmem, Nat.card_Ico,
    Nat.add_sub_cancel_left] at hcard
  have hpos := Finset.card_pos.2 ⟨i, hmem⟩
  rw [Nat.card_Ico, Nat.add_sub_cancel_left] at hpos
  omega

theorem releaseSlot_eq {w : ℕ} (h0 : 0 < w) (h : w ≤ 4096) :
    ArenaRegions.releaseSlot w = w - 1 := by
  unfold ArenaRegions.releaseSlot
  omega

/-- A record that is not on its manager's free list holds a slot. -/
theorem Inv.slot_pos (h : Inv R s tiles place) (hi : place i ≠ .region) (hf : place i ≠ .free) :
    0 < s.stateAndActiveCount (managerFor i) := by
  have := h.slots (managerFor i)
  have := h.length_free_lt hi hf
  omega

theorem Inv.slots_le (h : Inv R s tiles place) (m : ℕ) : s.stateAndActiveCount m ≤ 4096 := by
  have := h.slots m
  have := groupSize_le s.currentMetadataRecordCount m
  omega

theorem Inv.reserve (h : Inv R s tiles place) (m : ℕ) :
    reserveActiveSlot s m = some (s.setManager m (s.stateAndActiveCount m + 1)) := by
  have hle := h.slots_le m
  unfold reserveActiveSlot
  refine if_neg ?_
  rintro (hbit | hfull)
  · refine hbit (Nat.eq_of_testBit_eq fun k => ?_)
    rw [Nat.testBit_and, Nat.zero_testBit]
    rcases eq_or_ne k 31 with rfl | hk
    · rw [Nat.testBit_lt_two_pow (by omega)]
      rfl
    · rw [show ArenaRegions.TRIMMING_MASK = 2 ^ 31 from rfl, Nat.testBit_two_pow_of_ne hk.symm,
        Bool.and_false]
  · have := Nat.and_le_left (n := s.stateAndActiveCount m) (m := ArenaRegions.ACTIVE_COUNT_MASK)
    rw [hfull] at this
    exact absurd (this.trans hle) (by decide)

end MinStd.SingleArena
