import Mathlib.Order.Bounds.Basic
import Mathlib.Logic.Function.Iterate
import Mathlib.Order.Lattice.Nat
import MinStd.SizeClasses

/-!
# The size classes: a bin for every size

The table is the iteration of `nextBinSize` from the smallest bin, followed by the sentinel, and it
is strictly increasing.  Both ways from a byte count to a bin, the lookup and the search, find the
least bin that is large enough; the growth by a percentage then bounds what that bin wastes.
-/

namespace MinStd.SizeClasses

variable {p : BinPolicy}

/-! ### The generated sizes -/

theorem nextBinSize_le (p : BinPolicy) (current : ℕ) :
    nextBinSize p current ≤ maxBinBytesAligned p := by
  unfold nextBinSize
  dsimp only
  split_ifs <;> omega

theorem dvd_nextBinSize {current : ℕ} (hpos : 0 < current) (h : current < WORD32) :
    64 ∣ nextBinSize p current := by
  rw [nextBinSize_eq hpos h]
  rcases min_choice (grownSize p current) (maxBinBytesAligned p) with hmin | hmin
  · rw [hmin]
    exact dvd_roundUp _
  · rw [hmin]
    exact dvd_maxBinBytesAligned p

/-- The size that the loops have reached after a number of rounds. -/
def sizeAfter (p : BinPolicy) (rounds : ℕ) : ℕ := (nextBinSize p)^[rounds] MIN_BIN_BYTES

theorem sizeAfter_succ (rounds : ℕ) :
    sizeAfter p (rounds + 1) = nextBinSize p (sizeAfter p rounds) :=
  Function.iterate_succ_apply' _ _ _

/-- The counting loop stops at the first round that has reached the maximum. -/
theorem countBins_eq (current count : ℕ) (h : current ≤ maxBinBytesAligned p) :
    ∃ rounds, countBins p current count = count + rounds ∧
      (nextBinSize p)^[rounds] current = maxBinBytesAligned p ∧
      ∀ i < rounds, (nextBinSize p)^[i] current < maxBinBytesAligned p := by
  fun_induction countBins p current count with
  | case1 current count hlt ih =>
    obtain ⟨rounds, hcount, hlast, hbefore⟩ := ih (nextBinSize_le p current)
    refine ⟨rounds + 1, by omega, ?_, fun i hi => ?_⟩
    · rw [Function.iterate_succ_apply, hlast]
    · rcases i with _ | i
      · exact hlt
      · rw [Function.iterate_succ_apply]
        exact hbefore i (by omega)
  | case2 current count hge =>
    refine ⟨0, rfl, ?_, fun i hi => absurd hi (by omega)⟩
    rw [Function.iterate_zero_apply]
    omega

theorem rounds_eq (p : BinPolicy) :
    sizeAfter p (NUM_NON_SENTINEL_FREE_BLOCK_BINS p - 1) = maxBinBytesAligned p ∧
      (∀ i < NUM_NON_SENTINEL_FREE_BLOCK_BINS p - 1, sizeAfter p i < maxBinBytesAligned p) ∧
      2 ≤ NUM_NON_SENTINEL_FREE_BLOCK_BINS p := by
  have hmin : MIN_BIN_BYTES < 1024 := by decide
  have hmax := le_maxBinBytesAligned p
  obtain ⟨rounds, hcount, hlast, hbefore⟩ := countBins_eq (p := p) MIN_BIN_BYTES 1 (by omega)
  have hnum : NUM_NON_SENTINEL_FREE_BLOCK_BINS p = 1 + rounds := hcount
  rw [hnum, Nat.add_sub_cancel_left]
  refine ⟨hlast, hbefore, ?_⟩
  rcases rounds with _ | rounds
  · have : MIN_BIN_BYTES = maxBinBytesAligned p := hlast
    omega
  · omega

/-! ### The table -/

theorem length_fillBins (left i current : ℕ) (bins : List ℕ) :
    (fillBins p left i current bins).length = bins.length := by
  induction left generalizing i current bins with
  | zero => rfl
  | succ left ih => simp [fillBins, ih]

theorem getD_set {bins : List ℕ} {i : ℕ} (h : i < bins.length) (size j : ℕ) :
    (bins.set i size).getD j 0 = if i = j then size else bins.getD j 0 := by
  rw [List.getD_eq_getElem?_getD, List.getD_eq_getElem?_getD, List.getElem?_set]
  split_ifs with heq
  · rfl
  · rfl

theorem getD_fillBins (left i current : ℕ) (bins : List ℕ) (j : ℕ) (h : i + left ≤ bins.length) :
    (fillBins p left i current bins).getD j 0 =
      if i ≤ j ∧ j < i + left then (nextBinSize p)^[j - i + 1] current else bins.getD j 0 := by
  induction left generalizing i current bins with
  | zero =>
    unfold fillBins
    rw [if_neg (by omega)]
  | succ left ih =>
    unfold fillBins
    rw [ih _ _ _ (by rw [List.length_set]; omega), getD_set (by omega)]
    rcases lt_trichotomy i j with hlt | rfl | hgt
    · have hiter : (nextBinSize p)^[j - i + 1] current =
          (nextBinSize p)^[j - (i + 1) + 1] (nextBinSize p current) := by
        rw [← Function.iterate_succ_apply, show j - (i + 1) + 1 = j - i by omega]
      rw [if_neg (show ¬i = j by omega), hiter]
      split_ifs <;> first | rfl | omega
    · rw [if_neg (by omega), if_pos rfl, if_pos (by omega), Nat.sub_self, zero_add,
        Function.iterate_one]
    · rw [if_neg (by omega), if_neg (by omega), if_neg (by omega)]

theorem binSize_eq {bin : ℕ} (h : bin < NUM_NON_SENTINEL_FREE_BLOCK_BINS p) :
    binSize p bin = sizeAfter p bin := by
  unfold binSize buildFreeBlockBinSizes NUM_FREE_BLOCK_BINS
  dsimp only
  rw [getD_set (by simp [length_fillBins]), if_neg (by omega),
    getD_fillBins _ _ _ _ _ (by simp; omega)]
  rcases bin with _ | bin
  · rw [if_neg (by omega), getD_set (by simp), if_pos rfl]
    rfl
  · rw [if_pos (by omega), Nat.add_sub_cancel]
    rfl

theorem binSize_sentinel (p : BinPolicy) :
    binSize p (NUM_NON_SENTINEL_FREE_BLOCK_BINS p) = UINT64_MAX := by
  unfold binSize buildFreeBlockBinSizes NUM_FREE_BLOCK_BINS
  dsimp only
  rw [getD_set (by simp [length_fillBins]), if_pos (Nat.add_sub_cancel _ _)]

theorem binSize_of_gt {bin : ℕ} (h : NUM_NON_SENTINEL_FREE_BLOCK_BINS p < bin) :
    binSize p bin = 0 := by
  unfold binSize buildFreeBlockBinSizes NUM_FREE_BLOCK_BINS
  refine List.getD_eq_default _ _ ?_
  rw [List.length_set, length_fillBins, List.length_set, List.length_replicate]
  omega

/-! ### The sizes are in order -/

theorem binSize_zero (p : BinPolicy) : binSize p 0 = 64 :=
  binSize_eq (by have := (rounds_eq p).2.2; omega)

theorem binSize_last (p : BinPolicy) :
    binSize p (NUM_NON_SENTINEL_FREE_BLOCK_BINS p - 1) = maxBinBytesAligned p := by
  obtain ⟨hlast, -, htwo⟩ := rounds_eq p
  rw [binSize_eq (by omega), hlast]

theorem binSize_succ {bin : ℕ} (h : bin + 1 < NUM_NON_SENTINEL_FREE_BLOCK_BINS p) :
    binSize p (bin + 1) = nextBinSize p (binSize p bin) := by
  rw [binSize_eq h, binSize_eq (by omega), sizeAfter_succ]

theorem binSize_lt_max {bin : ℕ} (h : bin + 1 < NUM_NON_SENTINEL_FREE_BLOCK_BINS p) :
    binSize p bin < maxBinBytesAligned p := by
  rw [binSize_eq (by omega)]
  exact (rounds_eq p).2.1 bin (by omega)

theorem binSize_lt_succ {bin : ℕ} (h : bin + 1 < NUM_NON_SENTINEL_FREE_BLOCK_BINS p) :
    binSize p bin < binSize p (bin + 1) := by
  rw [binSize_succ h]
  exact lt_nextBinSize p (binSize_lt_max h)

theorem binSize_lt {i j : ℕ} (hij : i < j) (h : j < NUM_NON_SENTINEL_FREE_BLOCK_BINS p) :
    binSize p i < binSize p j := by
  induction j, hij using Nat.le_induction with
  | base => exact binSize_lt_succ h
  | succ j hij ih => exact (ih (by omega)).trans (binSize_lt_succ h)

/-- Every size is a multiple of the alignment, so each bin is at least one unit larger than the
bin before it. -/
theorem dvd_binSize {bin : ℕ} (h : bin < NUM_NON_SENTINEL_FREE_BLOCK_BINS p) :
    64 ∣ binSize p bin ∧ 64 * (bin + 1) ≤ binSize p bin := by
  induction bin with
  | zero => simp [binSize_zero]
  | succ bin ih =>
    obtain ⟨hdvd, hle⟩ := ih (by omega)
    have hlt := binSize_lt_succ h
    have hmax := (binSize_lt_max h).trans (maxBinBytesAligned_lt p)
    have hdvd' : 64 ∣ binSize p (bin + 1) := by
      rw [binSize_succ h]
      exact dvd_nextBinSize (by omega) hmax
    exact ⟨hdvd', by omega⟩

theorem binSize_le_max {bin : ℕ} (h : bin < NUM_NON_SENTINEL_FREE_BLOCK_BINS p) :
    binSize p bin ≤ maxBinBytesAligned p := by
  rcases Nat.lt_or_ge (bin + 1) (NUM_NON_SENTINEL_FREE_BLOCK_BINS p) with hlt | hge
  · exact (binSize_lt_max hlt).le
  · rw [show bin = NUM_NON_SENTINEL_FREE_BLOCK_BINS p - 1 by omega, binSize_last]

theorem maxBinBytesAligned_lt_sentinel (p : BinPolicy) : maxBinBytesAligned p < UINT64_MAX := by
  have hw : WORD32 < UINT64_MAX := by decide
  exact (maxBinBytesAligned_lt p).trans hw

/-- The sentinel keeps the whole table in order. -/
theorem binSize_mono {i j : ℕ} (hij : i ≤ j) (h : j < NUM_FREE_BLOCK_BINS p) :
    binSize p i ≤ binSize p j := by
  unfold NUM_FREE_BLOCK_BINS at h
  rcases hij.eq_or_lt with rfl | hlt
  · exact le_rfl
  · rcases Nat.lt_or_ge j (NUM_NON_SENTINEL_FREE_BLOCK_BINS p) with hj | hj
    · exact (binSize_lt hlt hj).le
    · rw [show j = NUM_NON_SENTINEL_FREE_BLOCK_BINS p by omega, binSize_sentinel]
      exact (binSize_le_max (by omega)).trans (maxBinBytesAligned_lt_sentinel p).le

/-- A size is at least a byte count when it is at least the count's multiple of the alignment. -/
theorem roundUp_le_binSize_iff {bytes : ℕ} (h : roundUp bytes ≤ UINT64_MAX) (bin : ℕ) :
    roundUp bytes ≤ binSize p bin ↔ bytes ≤ binSize p bin := by
  have hle := le_roundUp bytes
  rcases lt_trichotomy bin (NUM_NON_SENTINEL_FREE_BLOCK_BINS p) with hlt | rfl | hgt
  · have hdvd := (dvd_binSize hlt).1
    unfold roundUp at *
    omega
  · rw [binSize_sentinel]
    omega
  · rw [binSize_of_gt hgt]
    unfold roundUp
    omega

/-! ### The search -/

theorem searchBetween_eq {sizes : ℕ → ℕ} {bytes lo hi : ℕ}
    (hmono : ∀ i j, i ≤ j → j ≤ hi → sizes i ≤ sizes j) (hle : lo ≤ hi)
    (hbelow : ∀ i < lo, sizes i < bytes) (habove : bytes ≤ sizes hi) :
    IsLeast {i | bytes ≤ sizes i} (searchBetween sizes bytes lo hi) := by
  fun_induction searchBetween sizes bytes lo hi with
  | case1 lo hi hlt mid hsmall ih =>
    have hmid : mid = lo + (hi - lo) / 2 := rfl
    refine ih hmono (by omega) (fun i hi' => ?_) habove
    exact lt_of_le_of_lt (hmono i mid (by omega) (by omega)) hsmall
  | case2 lo hi hlt mid hlarge ih =>
    have hmid : mid = lo + (hi - lo) / 2 := rfl
    exact ih (fun i j hij hj => hmono i j hij (by omega)) (by omega) hbelow (not_lt.1 hlarge)
  | case3 lo hi hge =>
    obtain rfl : lo = hi := by omega
    exact ⟨habove, fun i hi => not_lt.1 fun hlt => not_le.2 (hbelow i hlt) hi⟩

/-- The search may start at any bin that has only smaller ones before it. -/
theorem searchFreeBlockBin_eq {bytes lo : ℕ} (h : bytes ≤ UINT64_MAX)
    (hbelow : ∀ i < lo, binSize p i < bytes) :
    IsLeast {i | bytes ≤ binSize p i} (searchFreeBlockBin p bytes lo) := by
  unfold searchFreeBlockBin NUM_FREE_BLOCK_BINS
  rw [Nat.add_sub_cancel]
  refine searchBetween_eq (fun i j hij hj => binSize_mono hij (Nat.lt_succ_of_le hj)) ?_ hbelow
    (by rwa [binSize_sentinel])
  by_contra hgt
  have := hbelow _ (not_le.1 hgt)
  rw [binSize_sentinel] at this
  omega

/-- No bin of the lookup table is too large for its 16-bit entry. -/
theorem smallBin_eq {units : ℕ} (h : units ≤ SMALL_BIN_LOOKUP_UNITS) :
    IsLeast {i | 64 * units ≤ binSize p i} (smallBin p units) := by
  have hw : 64 * SMALL_BIN_LOOKUP_UNITS < UINT64_MAX := by decide
  have hw' : UINT64_MAX < WORD64 := by decide
  have hsmall : SMALL_BIN_LOOKUP_UNITS < 2 ^ 16 := by decide
  have hmul : mul64 units DEFAULT_ALIGNMENT = 64 * units := by
    rw [mul64_eq (by unfold DEFAULT_ALIGNMENT; omega), Nat.mul_comm]
    rfl
  have hleast : IsLeast {i | 64 * units ≤ binSize p i} (searchFreeBlockBin p (64 * units) 0) :=
    searchFreeBlockBin_eq (by omega) (fun i hi => absurd hi (by omega))
  have hindex : searchFreeBlockBin p (64 * units) 0 < 2 ^ 16 := by
    have hle : searchFreeBlockBin p (64 * units) 0 ≤ NUM_NON_SENTINEL_FREE_BLOCK_BINS p :=
      hleast.2 (show _ ≤ binSize p _ by rw [binSize_sentinel]; omega)
    by_contra hbig
    have hbefore := dvd_binSize (p := p)
      (show searchFreeBlockBin p (64 * units) 0 - 1 < _ by omega)
    have := hleast.2 (show 64 * units ≤ binSize p (searchFreeBlockBin p (64 * units) 0 - 1) by
      omega)
    omega
  unfold smallBin buildSmallBinLookup
  rw [List.getD_eq_getElem?_getD, List.getElem?_map, List.getElem?_range (by omega),
    Option.map_some, Option.getD_some, hmul, Nat.mod_eq_of_lt hindex]
  exact hleast

/-- A bin holds a byte count in whole units, so the unit's bin is the count's. -/
theorem freeBlockBinIndex_eq {bytes : ℕ} (h : bytes ≤ maxBinBytesAligned p) :
    IsLeast {i | bytes ≤ binSize p i} (freeBlockBinIndex p bytes) := by
  have hmax := maxBinBytesAligned_lt p
  have hw : WORD32 + 64 < UINT64_MAX := by decide
  have hw' : UINT64_MAX < WORD64 := by decide
  have hunits : sub64 (add64 bytes DEFAULT_ALIGNMENT) 1 / DEFAULT_ALIGNMENT =
      (bytes + 63) / 64 := by
    unfold DEFAULT_ALIGNMENT
    rw [add64_eq (by omega), sub64_eq (by omega) (by omega)]
    rfl
  unfold freeBlockBinIndex MAX_ALLOCATION_SIZE_INTERNAL
  rw [if_neg (not_lt.2 h)]
  simp only [hunits]
  split_ifs with hsmall
  · have hround : 64 * ((bytes + 63) / 64) = roundUp bytes := Nat.mul_comm _ _
    have hleast := smallBin_eq (p := p) hsmall
    simp only [hround, roundUp_le_binSize_iff (p := p)
      (show roundUp bytes ≤ UINT64_MAX by have := roundUp_lt bytes; omega)] at hleast
    exact hleast
  · refine searchFreeBlockBin_eq (by omega) (fun i hi => ?_)
    by_contra hge
    have := (smallBin_eq (p := p) le_rfl).2
      (show 64 * SMALL_BIN_LOOKUP_UNITS ≤ binSize p i by omega)
    omega

/-! ### What a bin wastes -/

/-- The bin is the first one whose blocks hold the byte count. -/
def IsFirstBin (p : BinPolicy) (bytes bin : ℕ) : Prop :=
  bin < NUM_NON_SENTINEL_FREE_BLOCK_BINS p ∧ bytes ≤ binSize p bin ∧
    ∀ i < bin, binSize p i < bytes

/-- What the bin's blocks leave unused of the rounded request stays below the waste percentage. -/
def WasteBounded (p : BinPolicy) (bytes bin : ℕ) : Prop :=
  roundUp bytes ≤ binSize p bin ∧
    (binSize p bin = roundUp bytes ∨
      (binSize p bin - roundUp bytes) * 100 < p.maxWastePercent * roundUp bytes)

theorem isFirstBin_freeBlockBinIndex {bytes : ℕ} (h : bytes ≤ maxBinBytesAligned p) :
    IsFirstBin p bytes (freeBlockBinIndex p bytes) := by
  obtain ⟨hfits, hleast⟩ := freeBlockBinIndex_eq h
  have hlast := hleast (show bytes ≤ binSize p _ by rw [binSize_last]; exact h)
  have htwo := (rounds_eq p).2.2
  exact ⟨by omega, hfits, fun i hi => not_le.1 fun hle => not_lt.2 (hleast hle) hi⟩

/-- The next size is at most the grown one, which two roundings take less than one unit further;
the request is at least one unit above the bin before. -/
theorem wasteBounded_of_isFirstBin {bytes bin : ℕ} (hbytes : 1 ≤ bytes)
    (h : IsFirstBin p bytes bin) : WasteBounded p bytes bin := by
  obtain ⟨hbin, hfits, hbefore⟩ := h
  have hmax := (binSize_le_max hbin).trans_lt (maxBinBytesAligned_lt_sentinel p)
  have hround : roundUp bytes ≤ binSize p bin := by
    have hdvd := (dvd_binSize hbin).1
    unfold roundUp
    omega
  refine ⟨hround, ?_⟩
  rcases bin with _ | bin
  · left
    have hzero := binSize_zero p
    unfold roundUp at *
    omega
  · right
    have hprev := hbefore bin (by omega)
    obtain ⟨hdvd, hpos⟩ := dvd_binSize (p := p) (show bin < _ by omega)
    have hgrown : binSize p (bin + 1) ≤ grownSize p (binSize p bin) := by
      rw [binSize_succ hbin, nextBinSize_eq (by omega)
        ((binSize_lt_max hbin).trans (maxBinBytesAligned_lt p))]
      exact min_le_left _ _
    have hlt := roundUp_lt ((binSize p bin * (100 + p.maxWastePercent) + 99) / 100)
    have hunit : binSize p bin + 64 ≤ roundUp bytes := by
      unfold roundUp
      omega
    have hwaste : p.maxWastePercent * binSize p bin ≤ p.maxWastePercent * roundUp bytes :=
      Nat.mul_le_mul_left _ (by omega)
    have hsum : binSize p bin * (100 + p.maxWastePercent) =
        binSize p bin * 100 + p.maxWastePercent * binSize p bin := by
      rw [Nat.mul_add, Nat.mul_comm p.maxWastePercent]
    unfold grownSize at hgrown
    omega

theorem freeBlockBinIndex_binSize {bin : ℕ} (h : bin < NUM_NON_SENTINEL_FREE_BLOCK_BINS p) :
    freeBlockBinIndex p (binSize p bin) = bin := by
  obtain ⟨hindex, hfits, hbefore⟩ := isFirstBin_freeBlockBinIndex (binSize_le_max h)
  rcases lt_trichotomy (freeBlockBinIndex p (binSize p bin)) bin with hlt | heq | hgt
  · exact absurd (binSize_lt hlt h) (not_lt.2 hfits)
  · exact heq
  · exact absurd (hbefore bin hgt) (lt_irrefl _)

/-- The sizes increase in multiples of the alignment up to the aligned maximum, every byte count
gets the first bin that holds it at the promised waste, and a bin's own size leads back to it. -/
theorem bins_for_every_size (p : BinPolicy) :
    (∀ i j, i < j → j < NUM_NON_SENTINEL_FREE_BLOCK_BINS p → binSize p i < binSize p j) ∧
      (∀ i < NUM_NON_SENTINEL_FREE_BLOCK_BINS p, DEFAULT_ALIGNMENT ∣ binSize p i) ∧
      binSize p (NUM_NON_SENTINEL_FREE_BLOCK_BINS p - 1) = roundUp p.maxBinBytes ∧
      (∀ bytes, 1 ≤ bytes → bytes ≤ roundUp p.maxBinBytes →
        IsFirstBin p bytes (freeBlockBinIndex p bytes) ∧
          WasteBounded p bytes (freeBlockBinIndex p bytes)) ∧
      ∀ i < NUM_NON_SENTINEL_FREE_BLOCK_BINS p, freeBlockBinIndex p (binSize p i) = i := by
  refine ⟨fun i j hij hj => binSize_lt hij hj, fun i hi => (dvd_binSize hi).1, ?_, ?_,
    fun i hi => freeBlockBinIndex_binSize hi⟩
  · rw [binSize_last, maxBinBytesAligned_eq]
  · intro bytes hpos hle
    have hfirst := isFirstBin_freeBlockBinIndex (hle.trans_eq (maxBinBytesAligned_eq p).symm)
    exact ⟨hfirst, wasteBounded_of_isFirstBin hpos hfirst⟩

/-! ### What the class asserts -/

/-- Both ends of every unit of the lookup table lead to the same bin, for every choice of the
parameters. -/
theorem smallBinLookupIsExact_eq (p : BinPolicy) : smallBinLookupIsExact p = true := by
  have hw : 64 * SMALL_BIN_LOOKUP_UNITS + 64 < UINT64_MAX := by decide
  have hw' : UINT64_MAX < WORD64 := by decide
  have hexact : ∀ units ≤ SMALL_BIN_LOOKUP_UNITS, ∀ bytes, roundUp bytes = 64 * units →
      searchFreeBlockBin p bytes 0 = smallBin p units := by
    intro units hunits bytes hround
    have hle := le_roundUp bytes
    have hleast := searchFreeBlockBin_eq (p := p) (show bytes ≤ UINT64_MAX by omega)
      (fun i hi => absurd hi (Nat.not_lt_zero i))
    have hsmall := smallBin_eq (p := p) hunits
    simp only [← hround, roundUp_le_binSize_iff (p := p)
      (show roundUp bytes ≤ UINT64_MAX by omega)] at hsmall
    exact hleast.unique hsmall
  unfold smallBinLookupIsExact
  simp only [Bool.and_eq_true, List.all_eq_true, beq_iff_eq]
  refine ⟨hexact 0 (Nat.zero_le _) 0 (by decide), fun units hmem => ?_⟩
  rw [List.mem_range'_1] at hmem
  have hmul : ∀ n ≤ SMALL_BIN_LOOKUP_UNITS, mul64 n DEFAULT_ALIGNMENT = n * 64 := fun n hn =>
    mul64_eq (by unfold DEFAULT_ALIGNMENT; omega)
  refine ⟨?_, ?_⟩
  · refine hexact units (by omega) _ ?_
    rw [hmul _ (by omega)]
    unfold roundUp
    omega
  · refine hexact units (by omega) _ ?_
    rw [hmul _ (by omega)]
    unfold roundUp
    omega

end MinStd.SizeClasses
