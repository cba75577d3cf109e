import Mathlib.Algebra.Order.Group.Nat
import MinStd.Words

/-!
# The size classes of `lockfree_single_arena_resource`

The bin sizes are generated from the two template parameters `max_bin_bytes` and
`max_waste_percent`, and a byte count is mapped to a bin by a lookup table for the small counts
and by a binary search for the others.  All of the source's arithmetic is `size_t` arithmetic.
-/

namespace MinStd.SizeClasses

def DEFAULT_ALIGNMENT : ℕ := 64

def MIN_BIN_BYTES : ℕ := DEFAULT_ALIGNMENT

def SMALL_BIN_LOOKUP_UNITS : ℕ := 1024

def UINT64_MAX : ℕ := WORD64 - 1

/-- A count of bytes rounded up to a multiple of the alignment, without a word's bound. -/
def roundUp (bytes : ℕ) : ℕ := (bytes + 63) / 64 * 64

/-- The template parameters, with what the class asserts of them. -/
structure BinPolicy where
  maxBinBytes : ℕ
  maxWastePercent : ℕ
  le_max : 1024 ≤ maxBinBytes
  aligned_lt : roundUp maxBinBytes < WORD32
  waste_pos : 0 < maxWastePercent
  waste_le : maxWastePercent ≤ 25

/-- The source's default template arguments. -/
def defaultPolicy : BinPolicy where
  maxBinBytes := 32 * 1024 * 1024
  maxWastePercent := 5
  le_max := by decide
  aligned_lt := by decide
  waste_pos := by decide
  waste_le := by decide

def lockfreeAlignedSize (unalignedSizeInBytes alignment : ℕ) : ℕ :=
  mul64 (sub64 (add64 unalignedSizeInBytes alignment) 1 / alignment) alignment

def alignUpBinSize (size : ℕ) : ℕ := lockfreeAlignedSize size DEFAULT_ALIGNMENT

def ceilDiv (numerator denominator : ℕ) : ℕ :=
  sub64 (add64 numerator denominator) 1 / denominator

def maxBinBytesAligned (p : BinPolicy) : ℕ := alignUpBinSize p.maxBinBytes

def nextBinSize (p : BinPolicy) (current : ℕ) : ℕ :=
  let grown := ceilDiv (mul64 current (100 + p.maxWastePercent)) 100
  let aligned := alignUpBinSize grown
  let candidate := if aligned ≤ current then add64 current DEFAULT_ALIGNMENT else aligned
  let maxAligned := maxBinBytesAligned p
  if candidate > maxAligned then maxAligned else candidate

/-! ### One generated size -/

theorem le_roundUp (bytes : ℕ) : bytes ≤ roundUp bytes := by
  unfold roundUp
  omega

theorem roundUp_lt (bytes : ℕ) : roundUp bytes < bytes + 64 := by
  unfold roundUp
  omega

theorem dvd_roundUp (bytes : ℕ) : 64 ∣ roundUp bytes := Nat.dvd_mul_left 64 _

theorem alignUpBinSize_eq {size : ℕ} (h : size < 2 ^ 40) : alignUpBinSize size = roundUp size := by
  have hw : (2 : ℕ) ^ 40 + 64 < WORD64 := by decide
  have hle := roundUp_lt size
  unfold alignUpBinSize lockfreeAlignedSize DEFAULT_ALIGNMENT
  rw [add64_eq (by omega), sub64_eq (by omega) (by omega),
    show size + 64 - 1 = size + 63 by omega, mul64_eq (by unfold roundUp at hle; omega)]
  rfl

theorem ceilDiv_eq {n : ℕ} (h : n < 2 ^ 40) : ceilDiv n 100 = (n + 99) / 100 := by
  have hw : (2 : ℕ) ^ 40 + 100 < WORD64 := by decide
  unfold ceilDiv
  rw [add64_eq (by omega), sub64_eq (by omega) (by omega)]
  rfl

theorem maxBinBytesAligned_eq (p : BinPolicy) : maxBinBytesAligned p = roundUp p.maxBinBytes := by
  have hw : WORD32 < 2 ^ 40 := by decide
  have h := p.aligned_lt
  have hle := le_roundUp p.maxBinBytes
  exact alignUpBinSize_eq (by omega)

theorem maxBinBytesAligned_lt (p : BinPolicy) : maxBinBytesAligned p < WORD32 := by
  rw [maxBinBytesAligned_eq]
  exact p.aligned_lt

theorem le_maxBinBytesAligned (p : BinPolicy) : 1024 ≤ maxBinBytesAligned p := by
  rw [maxBinBytesAligned_eq]
  exact p.le_max.trans (le_roundUp _)

theorem dvd_maxBinBytesAligned (p : BinPolicy) : 64 ∣ maxBinBytesAligned p := by
  rw [maxBinBytesAligned_eq]
  exact dvd_roundUp _

/-- The size grown by the waste percentage and rounded up, without a word's bound. -/
def grownSize (p : BinPolicy) (current : ℕ) : ℕ :=
  roundUp ((current * (100 + p.maxWastePercent) + 99) / 100)

theorem lt_grownSize (p : BinPolicy) {current : ℕ} (hpos : 0 < current) :
    current < grownSize p current := by
  have hgrow : current * 101 ≤ current * (100 + p.maxWastePercent) :=
    Nat.mul_le_mul_left _ (by have := p.waste_pos; omega)
  refine lt_of_lt_of_le ?_ (le_roundUp _)
  omega

/-- The growth by at least one percent always passes the current size, so the minimum step is
never taken: the percentage decides every size below the maximum. -/
theorem nextBinSize_eq {p : BinPolicy} {current : ℕ} (hpos : 0 < current)
    (h : current < WORD32) :
    nextBinSize p current = min (grownSize p current) (maxBinBytesAligned p) := by
  have hw : WORD32 * 125 < 2 ^ 40 := by decide
  have hw' : (2 : ℕ) ^ 40 < WORD64 := by decide
  have hprod : current * (100 + p.maxWastePercent) ≤ WORD32 * 125 :=
    Nat.mul_le_mul h.le (by have := p.waste_le; omega)
  have hgrown : alignUpBinSize (ceilDiv (mul64 current (100 + p.maxWastePercent)) 100) =
      grownSize p current := by
    rw [mul64_eq (by omega), ceilDiv_eq (by omega), alignUpBinSize_eq (by omega)]
    rfl
  unfold nextBinSize
  simp only [hgrown, if_neg (not_le.2 (lt_grownSize p hpos))]
  rcases le_or_gt (grownSize p current) (maxBinBytesAligned p) with hle | hgt
  · rw [if_neg (not_lt.2 hle), min_eq_left hle]
  · rw [if_pos hgt, min_eq_right hgt.le]

theorem lt_nextBinSize (p : BinPolicy) {current : ℕ} (h : current < maxBinBytesAligned p) :
    current < nextBinSize p current := by
  rcases Nat.eq_zero_or_pos current with rfl | hpos
  · have hmax := le_maxBinBytesAligned p
    have h0 : alignUpBinSize (ceilDiv (mul64 0 (100 + p.maxWastePercent)) 100) = 0 := by
      rw [mul64_eq (by rw [zero_mul]; decide), zero_mul]
      decide
    have h64 : add64 0 DEFAULT_ALIGNMENT = 64 := by decide
    unfold nextBinSize
    simp only [h0, le_refl, if_true, h64]
    split_ifs <;> omega
  · rw [nextBinSize_eq hpos (h.trans (maxBinBytesAligned_lt p))]
    exact lt_min (lt_grownSize p hpos) h

/-! ### The generated table -/

/-- The loop of `compute_non_sentinel_bin_count`. -/
def countBins (p : BinPolicy) (current count : ℕ) : ℕ :=
  if h : current < maxBinBytesAligned p then countBins p (nextBinSize p current) (count + 1)
  else count
termination_by maxBinBytesAligned p - current
decreasing_by
  have := lt_nextBinSize p h
  omega

def computeNonSentinelBinCount (p : BinPolicy) : ℕ := countBins p MIN_BIN_BYTES 1

def NUM_NON_SENTINEL_FREE_BLOCK_BINS (p : BinPolicy) : ℕ := computeNonSentinelBinCount p

def NUM_FREE_BLOCK_BINS (p : BinPolicy) : ℕ := NUM_NON_SENTINEL_FREE_BLOCK_BINS p + 1

def MAX_ALLOCATION_SIZE_INTERNAL (p : BinPolicy) : ℕ := maxBinBytesAligned p

/-- The loop of `build_free_block_bin_sizes`, with the number of bins still to write. -/
def fillBins (p : BinPolicy) : ℕ → ℕ → ℕ → List ℕ → List ℕ
  | 0, _, _, bins => bins
  | left + 1, i, current, bins =>
    fillBins p left (i + 1) (nextBinSize p current) (bins.set i (nextBinSize p current))

def buildFreeBlockBinSizes (p : BinPolicy) : List ℕ :=
  let bins := (List.replicate (NUM_FREE_BLOCK_BINS p) 0).set 0 MIN_BIN_BYTES
  let bins := fillBins p (NUM_NON_SENTINEL_FREE_BLOCK_BINS p - 1) 1 MIN_BIN_BYTES bins
  bins.set (NUM_FREE_BLOCK_BINS p - 1) UINT64_MAX

/-- `FREE_BLOCK_BIN_SIZES[bin]`. -/
def binSize (p : BinPolicy) (bin : ℕ) : ℕ := (buildFreeBlockBinSizes p).getD bin 0

/-! ### From a byte count to a bin -/

/-- The loop of `search_free_block_bin`, over any table of sizes. -/
def searchBetween (sizes : ℕ → ℕ) (bytes lo hi : ℕ) : ℕ :=
  if h : lo < hi then
    let mid := lo + (hi - lo) / 2
    if sizes mid < bytes then searchBetween sizes bytes (mid + 1) hi
    else searchBetween sizes bytes lo mid
  else lo
termination_by hi - lo
decreasing_by all_goals omega

def searchFreeBlockBin (p : BinPolicy) (bytes lo : ℕ) : ℕ :=
  searchBetween (binSize p) bytes lo (NUM_FREE_BLOCK_BINS p - 1)

/-- `SMALL_BIN_LOOKUP`, whose entries are 16 bits wide. -/
def buildSmallBinLookup (p : BinPolicy) : List ℕ :=
  (List.range (SMALL_BIN_LOOKUP_UNITS + 1)).map fun units =>
    searchFreeBlockBin p (mul64 units DEFAULT_ALIGNMENT) 0 % 2 ^ 16

def smallBin (p : BinPolicy) (units : ℕ) : ℕ := (buildSmallBinLookup p).getD units 0

/-- What the class asserts of the lookup table when it is compiled. -/
def smallBinLookupIsExact (p : BinPolicy) : Bool :=
  searchFreeBlockBin p 0 0 == smallBin p 0 &&
    (List.range' 1 SMALL_BIN_LOOKUP_UNITS).all fun units =>
      searchFreeBlockBin p (mul64 (units - 1) DEFAULT_ALIGNMENT + 1) 0 == smallBin p units &&
        searchFreeBlockBin p (mul64 units DEFAULT_ALIGNMENT) 0 == smallBin p units

def freeBlockBinIndex (p : BinPolicy) (bytes : ℕ) : ℕ :=
  if bytes > MAX_ALLOCATION_SIZE_INTERNAL p then NUM_FREE_BLOCK_BINS p - 1
  else
    let units := sub64 (add64 bytes DEFAULT_ALIGNMENT) 1 / DEFAULT_ALIGNMENT
    if units ≤ SMALL_BIN_LOOKUP_UNITS then smallBin p units
    else searchFreeBlockBin p bytes (smallBin p SMALL_BIN_LOOKUP_UNITS)

end MinStd.SizeClasses
