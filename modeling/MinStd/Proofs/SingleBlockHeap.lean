import MinStd.SingleBlockHeap
import Mathlib.Algebra.Order.BigOperators.Group.List

/-!
# The blocks of the single-block heap tile it

The blocks lie end to end from the start of the heap, and each counter is a sum over them
(`Blocks`); the blocks in use are the ones whose pointers the callers have (`Callers`).  A request
adds a block at the end, takes a free block whole, or cuts one in two, and a deallocation marks a
block free.  The search and the pointer check walk the blocks, so they end, and they see each block.
-/

namespace MinStd.SingleBlockHeap

open Function

variable {H : Heap} {s s' : State} {l l' l₁ l₂ : List ℕ} {a b c n m p : ℕ}

/-! ### The constructor -/

theorem Heap.blockAlignment_pos : 0 < H.blockAlignment := Nat.two_pow_pos _

theorem Heap.blockAlignment_le : H.blockAlignment ≤ 2 ^ 63 :=
  Nat.pow_le_pow_right (by decide) (by have := H.exponent_lt; omega)

theorem Heap.dvd_roundUp (n : ℕ) : H.blockAlignment ∣ H.roundUp n := Nat.dvd_mul_left ..

theorem Heap.le_roundUp (n : ℕ) : n ≤ H.roundUp n := by
  have hdiv := Nat.div_add_mod' n H.blockAlignment
  have hmod := Nat.mod_lt n H.blockAlignment_pos
  unfold Heap.roundUp
  split_ifs with h
  · rw [Nat.add_zero]
    omega
  · rw [Nat.add_mul, Nat.one_mul]
    omega

theorem Heap.roundUp_lt (n : ℕ) : H.roundUp n < n + H.blockAlignment := by
  have hdiv := Nat.div_add_mod' n H.blockAlignment
  have hpos := H.blockAlignment_pos
  unfold Heap.roundUp
  split_ifs with h
  · rw [Nat.add_zero]
    omega
  · rw [Nat.add_mul, Nat.one_mul]
    omega

theorem Heap.alignedSize_eq (h : H.roundUp n < WORD64) : H.alignedSize n = H.roundUp n := mul64_eq h

theorem Heap.headerSize_eq : H.headerSize = H.roundUp BLOCK_HEADER_BYTES := by
  have h1 := H.roundUp_lt BLOCK_HEADER_BYTES
  have h2 := H.blockAlignment_le
  refine H.alignedSize_eq ?_
  unfold BLOCK_HEADER_BYTES WORD64 at *
  omega

theorem Heap.le_headerSize : BLOCK_HEADER_BYTES ≤ H.headerSize := by
  rw [H.headerSize_eq]
  exact H.le_roundUp _

theorem Heap.headerSize_pos : 0 < H.headerSize := by
  have := H.le_headerSize
  unfold BLOCK_HEADER_BYTES at this
  omega

theorem Heap.dvd_headerSize : H.blockAlignment ∣ H.headerSize := by
  rw [H.headerSize_eq]
  exact H.dvd_roundUp _

theorem Heap.dvd_need (n : ℕ) : H.blockAlignment ∣ H.need n :=
  Nat.dvd_add (H.dvd_roundUp _) (H.dvd_roundUp _)

theorem Heap.le_need (n : ℕ) : n + H.headerSize ≤ H.need n := by
  rw [H.headerSize_eq]
  exact Nat.add_le_add_right (H.le_roundUp n) _

theorem Heap.heapStart_eq : H.heapStart = sub64 (add64 H.location H.blockAlignment) 1
    / H.blockAlignment * H.blockAlignment := by
  have hx : sub64 (add64 H.location H.blockAlignment) 1 < WORD64 := sub64_lt _ _
  have hfits := H.fits
  have hle := Nat.div_mul_le_self (sub64 (add64 H.location H.blockAlignment) 1) H.blockAlignment
  unfold Heap.heapStart Heap.startPadding
  rw [show WORD64 - H.blockAlignment = WORD64 - 2 ^ H.exponent from rfl,
    and_not_mask hx H.exponent_lt.le]
  change add64 H.location (sub64 (_ / H.blockAlignment * H.blockAlignment) H.location) = _
  generalize sub64 (add64 H.location H.blockAlignment) 1 / H.blockAlignment * H.blockAlignment = y
    at hle
  unfold add64 sub64 WORD64 at *
  omega

theorem Heap.dvd_heapStart : H.blockAlignment ∣ H.heapStart := by
  rw [H.heapStart_eq]
  exact Nat.dvd_mul_left ..

theorem Heap.heapStart_of_pos (h : 0 < H.maxSize) :
    H.location ≤ H.heapStart ∧ H.heapStart + H.maxSize = H.location + H.size := by
  have hfits := H.fits
  unfold Heap.maxSize at h ⊢
  split_ifs at h ⊢ with hlt
  · unfold Heap.heapStart
    rw [add64_eq (by omega)]
    omega
  · omega

theorem Heap.heapStart_fits : H.heapStart + H.maxSize < WORD64 := by
  rcases Nat.eq_zero_or_pos H.maxSize with h | h
  · rw [h, Nat.add_zero]
    exact add64_lt _ _
  · rw [(H.heapStart_of_pos h).2]
    exact H.fits

/-! ### The invariant -/

def BlockHeader.freeBytes (h : BlockHeader) : ℕ := if h.inUse then 0 else h.blockSize

def BlockHeader.freeBlocks (h : BlockHeader) : ℕ := if h.inUse then 0 else 1

theorem sum_freeBytes_le (s : State) (l : List ℕ) :
    (l.map fun b => (s.headers b).freeBytes).sum ≤ (l.map s.sizeAt).sum := by
  refine List.sum_le_sum fun b _ => ?_
  unfold BlockHeader.freeBytes
  split_ifs
  · exact Nat.zero_le _
  · exact le_rfl

theorem sum_freeBlocks_le (s : State) (l : List ℕ) :
    (l.map fun b => (s.headers b).freeBlocks).sum ≤ l.length := by
  have hone : (l.map fun _ => 1).sum = l.length := by simp
  rw [← hone]
  refine List.sum_le_sum fun b _ => ?_
  unfold BlockHeader.freeBlocks
  split_ifs
  · exact Nat.zero_le _
  · exact le_rfl

/-- The blocks tile the heap up to its end, and the counters are sums over them. -/
structure Blocks (H : Heap) (s : State) (l : List ℕ) : Prop where
  walk : Walk s.sizeAt H.heapStart l s.currentEnd
  last : s.currentEnd = H.heapStart + s.bytesAllocated
  le : s.bytesAllocated ≤ H.maxSize
  dvd : H.blockAlignment ∣ s.bytesAllocated
  count : s.blocksAllocated = l.length
  freeBytes : s.bytesAllocatedButUnused = (l.map fun b => (s.headers b).freeBytes).sum
  freeBlocks : s.blocksAllocatedButUnused = (l.map fun b => (s.headers b).freeBlocks).sum
  block : ∀ b ∈ l, H.blockAlignment ∣ b ∧ H.blockAlignment ∣ s.sizeAt b
    ∧ H.headerSize ≤ s.sizeAt b

/-- The pointers returned are those of blocks, and the blocks in use are the live ones. -/
structure Callers (H : Heap) (s : State) (l : List ℕ) : Prop where
  returned : ∀ p ∈ s.returned, ∃ b ∈ l, p = b + H.headerSize
  live : ∀ p n, (p, n) ∈ s.live → ∃ b ∈ l, p = b + H.headerSize ∧ (s.headers b).inUse = true
    ∧ n + H.headerSize ≤ s.sizeAt b
  held : ∀ b ∈ l, (s.headers b).inUse = true → ∃ n, (b + H.headerSize, n) ∈ s.live
  nodup : (s.live.map Prod.fst).Nodup

structure Inv (H : Heap) (s : State) (l : List ℕ) : Prop extends Blocks H s l, Callers H s l

namespace Blocks

theorem currentEnd_lt (h : Blocks H s l) : s.currentEnd < WORD64 := by
  have h1 := h.last
  have h2 := h.le
  have h3 := H.heapStart_fits
  omega

theorem inside (h : Blocks H s l) (hb : b ∈ l) :
    H.heapStart ≤ b ∧ b + s.sizeAt b ≤ H.heapStart + H.maxSize := by
  have h1 := h.walk.inside hb
  have h2 := h.last
  have h3 := h.le
  omega

theorem maxSize_pos (h : Blocks H s l) (hb : b ∈ l) : 0 < H.maxSize := by
  have h1 := h.inside hb
  have h2 := (h.block b hb).2.2
  have h3 := H.headerSize_pos
  omega

theorem pos (h : Blocks H s l) (hb : b ∈ l) : 0 < b := by
  have h1 := (H.heapStart_of_pos (h.maxSize_pos hb)).1
  have h2 := (h.inside hb).1
  have h3 := H.location_pos
  omega

theorem length_le (h : Blocks H s l) : l.length ≤ H.maxSize := by
  have h1 := h.walk.length_le
  have h2 := h.last
  have h3 := h.le
  omega

theorem blocks_eq (h : Blocks H s l) : s.blocks H = l := h.walk.blocksFrom_eq h.length_le

theorem sum_sizes (h : Blocks H s l) : s.bytesAllocated = (l.map s.sizeAt).sum := by
  have h1 := h.walk.sum_eq
  have h2 := h.last
  omega

/-- A pointer to a block is the block's address when the header's size is taken off. -/
theorem sub_headerSize (h : Blocks H s l) (hb : b ∈ l) :
    sub64 (b + H.headerSize) H.headerSize = b := by
  have h1 := (h.walk.inside hb).2
  have h2 := (h.block b hb).2.2
  have h3 := h.currentEnd_lt
  exact sub64_add (by omega)

end Blocks

/-! ### Headers changed -/

section Headers

variable (f : BlockHeader → ℕ) {v w : BlockHeader}

theorem setHeader_self (s : State) (b : ℕ) (v : BlockHeader) : (s.setHeader b v).headers b = v :=
  update_self ..

theorem setHeader_of_ne (s : State) (v : BlockHeader) (h : c ≠ b) :
    (s.setHeader b v).headers c = s.headers c := update_of_ne h ..

/-- A sum over the blocks, one header changed. -/
theorem sum_setHeader (h : (l₁ ++ b :: l₂).Nodup) :
    ((l₁ ++ b :: l₂).map fun c => f ((s.setHeader b v).headers c)).sum + f (s.headers b)
      = ((l₁ ++ b :: l₂).map fun c => f (s.headers c)).sum + f v := by
  obtain ⟨-, hnd, hdis⟩ := List.nodup_append.1 h
  have h1 : ∀ c ∈ l₁, f ((s.setHeader b v).headers c) = f (s.headers c) := fun c hc => by
    rw [setHeader_of_ne s v (hdis c hc b (by simp))]
  have h2 : ∀ c ∈ l₂, f ((s.setHeader b v).headers c) = f (s.headers c) := fun c hc => by
    rw [setHeader_of_ne s v (by rintro rfl; exact (List.nodup_cons.1 hnd).1 hc)]
  simp only [List.map_append, List.map_cons, List.sum_append, List.sum_cons,
    List.map_congr_left h1, List.map_congr_left h2, setHeader_self]
  omega

/-- A sum over the blocks, one of them cut. -/
theorem sum_cut (h : (l₁ ++ b :: l₂).Nodup) (ha : a ∉ l₁ ++ b :: l₂) :
    ((l₁ ++ b :: a :: l₂).map fun c => f (((s.setHeader a w).setHeader b v).headers c)).sum
        + f (s.headers b)
      = ((l₁ ++ b :: l₂).map fun c => f (s.headers c)).sum + f v + f w := by
  have hab : a ≠ b := by
    rintro rfl
    simp at ha
  have hsum := sum_setHeader f (s := s.setHeader a w) (v := v) h
  have hold : ∀ c ∈ l₁ ++ b :: l₂, f ((s.setHeader a w).headers c) = f (s.headers c) :=
    fun c hc => by rw [setHeader_of_ne s w (by rintro rfl; exact ha hc)]
  rw [List.map_congr_left hold, hold b (by simp)] at hsum
  have hnew : ((s.setHeader a w).setHeader b v).headers a = w := by
    rw [setHeader_of_ne _ v hab, setHeader_self]
  simp only [List.map_append, List.map_cons, List.sum_append, List.sum_cons, hnew] at hsum ⊢
  omega

end Headers

namespace Blocks

/-- Memory off the headers of the blocks does not matter. -/
theorem setHeader (h : Blocks H s l) (ha : a ∉ l) (v : BlockHeader) :
    Blocks H (s.setHeader a v) l := by
  have hsame : ∀ c ∈ l, (s.setHeader a v).headers c = s.headers c := fun c hc =>
    setHeader_of_ne s v (by rintro rfl; exact ha hc)
  refine ⟨h.walk.congr fun c hc => congrArg BlockHeader.blockSize (hsame c hc), h.last, h.le, h.dvd,
    h.count, h.freeBytes.trans ?_, h.freeBlocks.trans ?_, fun c hc => ?_⟩
  · exact congrArg List.sum (List.map_congr_left fun c hc => by rw [hsame c hc])
  · exact congrArg List.sum (List.map_congr_left fun c hc => by rw [hsame c hc])
  · unfold State.sizeAt
    rw [hsame c hc]
    exact h.block c hc

/-- A block is marked free or in use, with the counters. -/
theorem mark (h : Blocks H s l) (hb : b ∈ l) {v : BlockHeader} (hv : v.blockSize = s.sizeAt b)
    {bytes blocks : ℕ}
    (hbytes : bytes + (s.headers b).freeBytes = s.bytesAllocatedButUnused + v.freeBytes)
    (hblocks : blocks + (s.headers b).freeBlocks = s.blocksAllocatedButUnused + v.freeBlocks) :
    Blocks H { s.setHeader b v with
      bytesAllocatedButUnused := bytes
      blocksAllocatedButUnused := blocks } l := by
  have hsize : ∀ c ∈ l, (s.setHeader b v).sizeAt c = s.sizeAt c := fun c _ => by
    unfold State.sizeAt
    by_cases hc : c = b
    · subst hc
      rw [setHeader_self]
      exact hv
    · rw [setHeader_of_ne s v hc]
  have hnd := h.walk.nodup
  refine ⟨h.walk.congr hsize, h.last, h.le, h.dvd, h.count, ?_, ?_, fun c hc => ?_⟩
  · obtain ⟨l₁, l₂, rfl⟩ := List.append_of_mem hb
    have hsum := sum_setHeader BlockHeader.freeBytes (s := s) (v := v) hnd
    have hold := h.freeBytes
    show bytes = ((l₁ ++ b :: l₂).map fun c => ((s.setHeader b v).headers c).freeBytes).sum
    omega
  · obtain ⟨l₁, l₂, rfl⟩ := List.append_of_mem hb
    have hsum := sum_setHeader BlockHeader.freeBlocks (s := s) (v := v) hnd
    have hold := h.freeBlocks
    show blocks = ((l₁ ++ b :: l₂).map fun c => ((s.setHeader b v).headers c).freeBlocks).sum
    omega
  · show _ ∧ _ ∣ (s.setHeader b v).sizeAt c ∧ _ ≤ (s.setHeader b v).sizeAt c
    rw [hsize c hc]
    exact h.block c hc

theorem freeBytes_of_mem (h : Blocks H s l) (hb : b ∈ l) (hfree : (s.headers b).inUse = false) :
    s.sizeAt b ≤ s.bytesAllocatedButUnused ∧ 1 ≤ s.blocksAllocatedButUnused := by
  rw [h.freeBytes, h.freeBlocks]
  have hbytes : (s.headers b).freeBytes = s.sizeAt b := by
    unfold BlockHeader.freeBytes
    rw [hfree]
    rfl
  have hblocks : (s.headers b).freeBlocks = 1 := by
    unfold BlockHeader.freeBlocks
    rw [hfree]
    rfl
  rw [← hbytes, ← hblocks]
  exact ⟨List.single_le_sum (by simp) _ (List.mem_map_of_mem hb),
    List.single_le_sum (by simp) _ (List.mem_map_of_mem hb)⟩

theorem freeBytes_lt (h : Blocks H s l) : s.bytesAllocatedButUnused < WORD64
    ∧ s.blocksAllocatedButUnused < WORD64 := by
  have h1 := sum_freeBytes_le s l
  have h2 := sum_freeBlocks_le s l
  have h3 := h.length_le
  have h4 := H.heapStart_fits
  have h5 := h.le
  rw [← h.sum_sizes, ← h.freeBytes] at h1
  rw [← h.freeBlocks] at h2
  omega

theorem take (h : Blocks H s l) (hb : b ∈ l) (hfree : (s.headers b).inUse = false) (n : ℕ) :
    Blocks H (takeBlock s b n) l := by
  obtain ⟨h1, h2⟩ := h.freeBytes_of_mem hb hfree
  obtain ⟨h3, h4⟩ := h.freeBytes_lt
  have hbytes := sub64_eq h1 h3
  have hblocks := sub64_eq h2 h4
  refine h.mark hb (v := ⟨true, s.sizeAt b, n⟩) rfl ?_ ?_
  · show sub64 s.bytesAllocatedButUnused (s.sizeAt b) + (if _ then _ else s.sizeAt b) = _ + 0
    rw [hfree, hbytes]
    simp only [Bool.false_eq_true, if_false]
    omega
  · show sub64 s.blocksAllocatedButUnused 1 + (if _ then _ else 1) = _ + 0
    rw [hfree, hblocks]
    simp only [Bool.false_eq_true, if_false]
    omega

theorem deallocate (h : Blocks H s l) (hb : b ∈ l) (huse : (s.headers b).inUse = true) :
    Blocks H (deallocateRawBlock H s (b + H.headerSize)) l := by
  unfold deallocateRawBlock
  rw [h.sub_headerSize hb, if_pos huse]
  have hmark : Blocks H { s.setHeader b ⟨false, s.sizeAt b, 0⟩ with
      bytesAllocatedButUnused := s.bytesAllocatedButUnused + s.sizeAt b
      blocksAllocatedButUnused := s.blocksAllocatedButUnused + 1 } l := by
    refine h.mark hb (v := ⟨false, s.sizeAt b, 0⟩) rfl ?_ ?_
    · unfold BlockHeader.freeBytes
      rw [huse]
      rfl
    · unfold BlockHeader.freeBlocks
      rw [huse]
      rfl
  obtain ⟨hbytes, hblocks⟩ := hmark.freeBytes_lt
  rw [add64_eq hbytes, add64_eq hblocks]
  exact hmark

/-- A block added at the end. -/
theorem append (h : Blocks H s l) (hn : n ≤ H.maxSize - s.bytesAllocated)
    (hdvd : H.blockAlignment ∣ n) (hle : H.headerSize ≤ n) (m : ℕ) :
    Blocks H (newBlock s n m) (l ++ [s.currentEnd]) := by
  have hfits := H.heapStart_fits
  have hlast := h.last
  have hle' := h.le
  have hcount := h.count
  have hlength := h.walk.length_le
  have hpos := H.headerSize_pos
  have hend : s.currentEnd ∉ l := fun hb => by
    have h1 := (h.walk.inside hb).2
    have h2 := h.walk.pos hb
    omega
  have hself := setHeader_self s s.currentEnd ⟨true, n, m⟩
  have hsame : ∀ c ∈ l, (s.setHeader s.currentEnd ⟨true, n, m⟩).headers c = s.headers c :=
    fun c hc => setHeader_of_ne s _ (by rintro rfl; exact hend hc)
  have hsize : (s.setHeader s.currentEnd ⟨true, n, m⟩).sizeAt s.currentEnd = n :=
    congrArg BlockHeader.blockSize hself
  have hlen := h.length_le
  unfold newBlock
  rw [add64_eq (show s.currentEnd + n < WORD64 by omega),
    add64_eq (show s.bytesAllocated + n < WORD64 by omega),
    add64_eq (show s.blocksAllocated + 1 < WORD64 by omega)]
  refine ⟨?_, ?_, ?_, Nat.dvd_add h.dvd hdvd, ?_, ?_, ?_, fun c hc => ?_⟩
  · have hwalk := h.walk.snoc (fun c hc => congrArg BlockHeader.blockSize (hsame c hc))
      (show 0 < (s.setHeader s.currentEnd ⟨true, n, m⟩).sizeAt s.currentEnd by omega)
    simp only [hself] at hwalk
    exact hwalk
  · show s.currentEnd + n = H.heapStart + (s.bytesAllocated + n)
    omega
  · show s.bytesAllocated + n ≤ H.maxSize
    omega
  · show s.blocksAllocated + 1 = _
    rw [List.length_append, hcount]
    rfl
  · show s.bytesAllocatedButUnused
      = ((l ++ [s.currentEnd]).map fun c =>
        ((s.setHeader s.currentEnd ⟨true, n, m⟩).headers c).freeBytes).sum
    have hmap : l.map (fun c => ((s.setHeader s.currentEnd ⟨true, n, m⟩).headers c).freeBytes)
        = l.map fun c => (s.headers c).freeBytes :=
      List.map_congr_left fun c hc => by rw [hsame c hc]
    rw [List.map_append, List.sum_append, h.freeBytes, hmap]
    simp only [List.map_cons, List.map_nil, List.sum_cons, List.sum_nil, hself]
    rfl
  · show s.blocksAllocatedButUnused
      = ((l ++ [s.currentEnd]).map fun c =>
        ((s.setHeader s.currentEnd ⟨true, n, m⟩).headers c).freeBlocks).sum
    have hmap : l.map (fun c => ((s.setHeader s.currentEnd ⟨true, n, m⟩).headers c).freeBlocks)
        = l.map fun c => (s.headers c).freeBlocks :=
      List.map_congr_left fun c hc => by rw [hsame c hc]
    rw [List.map_append, List.sum_append, h.freeBlocks, hmap]
    simp only [List.map_cons, List.map_nil, List.sum_cons, List.sum_nil, hself]
    rfl
  · show _ ∣ c ∧ _ ∣ (s.setHeader s.currentEnd ⟨true, n, m⟩).sizeAt c
      ∧ _ ≤ (s.setHeader s.currentEnd ⟨true, n, m⟩).sizeAt c
    rcases List.mem_append.1 hc with hc | hc
    · unfold State.sizeAt
      rw [hsame c hc]
      exact h.block c hc
    · obtain rfl := List.mem_singleton.1 hc
      rw [hsize, hlast]
      exact ⟨Nat.dvd_add H.dvd_heapStart h.dvd, hdvd, hle⟩

/-- A free block cut in two. -/
theorem cut (h : Blocks H s (l₁ ++ b :: l₂)) (hfree : (s.headers b).inUse = false)
    (hdvd : H.blockAlignment ∣ n) (hle : H.headerSize ≤ n) (hlt : n + H.headerSize < s.sizeAt b)
    (m : ℕ) : Blocks H (cutBlock s b n m) (l₁ ++ b :: (b + n) :: l₂) := by
  have hb : b ∈ l₁ ++ b :: l₂ := by simp
  have hpos := H.headerSize_pos
  have hfits := H.heapStart_fits
  have hin := h.inside hb
  obtain ⟨hb1, hb2, -⟩ := h.block b hb
  have ha : b + n ∉ l₁ ++ b :: l₂ := h.walk.notMem_inside hb (by omega) (by omega)
  have hnd := h.walk.nodup
  have hne : b + n ≠ b := by omega
  obtain ⟨hfree1, -⟩ := h.freeBytes_of_mem hb hfree
  obtain ⟨hfree2, -⟩ := h.freeBytes_lt
  have hsub := sub64_eq (show n ≤ s.sizeAt b by omega) (show s.sizeAt b < WORD64 by omega)
  have hsub' := sub64_eq (show n ≤ s.bytesAllocatedButUnused by omega) hfree2
  unfold cutBlock
  rw [add64_eq (show b + n < WORD64 by omega), hsub, hsub']
  generalize hw : (⟨false, s.sizeAt b - n, 0⟩ : BlockHeader) = w
  generalize hv : (⟨true, n, m⟩ : BlockHeader) = v
  have hbv : ((s.setHeader (b + n) w).setHeader b v).headers b = v := setHeader_self _ _ _
  have haw : ((s.setHeader (b + n) w).setHeader b v).headers (b + n) = w := by
    rw [setHeader_of_ne _ v hne, setHeader_self]
  have hold : ∀ c, c ≠ b → c ≠ b + n →
      ((s.setHeader (b + n) w).setHeader b v).headers c = s.headers c := fun c h1 h2 => by
    rw [setHeader_of_ne _ v h1, setHeader_of_ne s w h2]
  have hmem : ∀ c ∈ l₁ ++ l₂, ((s.setHeader (b + n) w).setHeader b v).headers c = s.headers c := by
    intro c hc
    refine hold c ?_ ?_
    · rintro rfl
      exact (List.nodup_middle.1 hnd).notMem hc
    · rintro rfl
      refine ha ?_
      simp only [List.mem_append, List.mem_cons] at hc ⊢
      tauto
  have hcount := h.count
  have hlen := h.length_le
  have hcount1 : s.blocksAllocated + 1 < WORD64 := by
    have h1 := h.walk.length_le
    have h2 := h.last
    have h3 := h.le
    have h4 := h.sum_sizes
    have h5 := (H.heapStart_of_pos (h.maxSize_pos hb)).1
    have h6 := H.location_pos
    omega
  rw [add64_eq hcount1]
  have hv1 : v.freeBytes = 0 ∧ v.freeBlocks = 0 ∧ v.blockSize = n := by
    rw [← hv]
    exact ⟨rfl, rfl, rfl⟩
  have hw1 : w.freeBytes = s.sizeAt b - n ∧ w.freeBlocks = 1 ∧ w.blockSize = s.sizeAt b - n := by
    rw [← hw]
    exact ⟨rfl, rfl, rfl⟩
  have hbf : (s.headers b).freeBytes = s.sizeAt b ∧ (s.headers b).freeBlocks = 1 := by
    unfold BlockHeader.freeBytes BlockHeader.freeBlocks
    rw [hfree]
    exact ⟨rfl, rfl⟩
  refine ⟨?_, h.last, h.le, h.dvd, ?_, ?_, ?_, fun c hc => ?_⟩
  · have hsize : ∀ c ∈ l₁ ++ l₂, ((s.setHeader (b + n) w).setHeader b v).sizeAt c = s.sizeAt c :=
      fun c hc => congrArg BlockHeader.blockSize (hmem c hc)
    refine h.walk.split (m := n) (fun c hc => hsize c (by simp [hc]))
      (fun c hc => hsize c (by simp [hc])) ?_ (by omega) (by omega) ?_
    · exact (congrArg BlockHeader.blockSize hbv).trans hv1.2.2
    · exact (congrArg BlockHeader.blockSize haw).trans hw1.2.2
  · show s.blocksAllocated + 1 = _
    rw [hcount]
    simp only [List.length_append, List.length_cons]
    omega
  · have hsum := sum_cut BlockHeader.freeBytes (s := s) (v := v) (w := w) hnd ha
    have hsum' := h.freeBytes
    show s.bytesAllocatedButUnused - n = ((l₁ ++ b :: (b + n) :: l₂).map fun c =>
      (((s.setHeader (b + n) w).setHeader b v).headers c).freeBytes).sum
    omega
  · have hsum := sum_cut BlockHeader.freeBlocks (s := s) (v := v) (w := w) hnd ha
    have hsum' := h.freeBlocks
    show s.blocksAllocatedButUnused = ((l₁ ++ b :: (b + n) :: l₂).map fun c =>
      (((s.setHeader (b + n) w).setHeader b v).headers c).freeBlocks).sum
    omega
  · show _ ∣ c ∧ _ ∣ (((s.setHeader (b + n) w).setHeader b v).headers c).blockSize
      ∧ _ ≤ (((s.setHeader (b + n) w).setHeader b v).headers c).blockSize
    by_cases hcb : c = b
    · subst hcb
      rw [hbv, hv1.2.2]
      exact ⟨hb1, hdvd, hle⟩
    · by_cases hca : c = b + n
      · subst hca
        rw [haw, hw1.2.2]
        exact ⟨Nat.dvd_add hb1 hdvd, Nat.dvd_sub hb2 hdvd, by omega⟩
      · rw [hold c hcb hca]
        refine h.block c ?_
        simp only [List.mem_append, List.mem_cons] at hc ⊢
        tauto

end Blocks

/-! ### The callers -/

namespace Callers

/-- Memory off the headers of the blocks does not matter. -/
theorem setHeader (h : Callers H s l) (ha : a ∉ l) (v : BlockHeader) :
    Callers H (s.setHeader a v) l := by
  have hsame : ∀ c ∈ l, (s.setHeader a v).headers c = s.headers c := fun c hc =>
    setHeader_of_ne s v (by rintro rfl; exact ha hc)
  refine ⟨h.returned, fun p n hp => ?_, fun b hb huse => h.held b hb ?_, h.nodup⟩
  · obtain ⟨b, hb, h1, h2, h3⟩ := h.live p n hp
    refine ⟨b, hb, h1, ?_, ?_⟩
    · rw [hsame b hb]
      exact h2
    · unfold State.sizeAt
      rw [hsame b hb]
      exact h3
  · rwa [hsame b hb] at huse

/-- The block `b`, which was free or is new, is handed out; the other blocks are the same, or new
and free. -/
theorem handOut (h : Callers H s l) (hsub : ∀ c ∈ l, c ∈ l') (hb : b ∈ l')
    (hnew : b ∈ l → (s.headers b).inUse = false) (huse : (s'.headers b).inUse = true)
    (hsize : n + H.headerSize ≤ s'.sizeAt b)
    (hsame : ∀ c ∈ l', c ≠ b → c ∈ l ∧ s'.headers c = s.headers c
      ∨ c ∉ l ∧ (s'.headers c).inUse = false)
    (hreturned : s'.returned = s.returned) (hlive : s'.live = s.live) :
    Callers H (s'.handOut (b + H.headerSize) n) l' := by
  have hpos := H.headerSize_pos
  have hne : b + H.headerSize ≠ 0 := by omega
  -- a block in use before is another block
  have hother : ∀ c ∈ l, (s.headers c).inUse = true → c ≠ b ∧ s'.headers c = s.headers c := by
    intro c hc hcu
    have hcb : c ≠ b := by
      rintro rfl
      rw [hnew hc] at hcu
      exact nomatch hcu
    rcases hsame c (hsub c hc) hcb with ⟨-, h1⟩ | ⟨h1, -⟩
    · exact ⟨hcb, h1⟩
    · exact absurd hc h1
  have hfresh : ∀ m, (b + H.headerSize, m) ∉ s.live := by
    intro m hm
    obtain ⟨c, hc, h1, h2, -⟩ := h.live _ _ hm
    exact (hother c hc h2).1 (by omega)
  unfold State.handOut
  rw [if_neg hne]
  refine ⟨fun p hp => ?_, fun p m hp => ?_, fun c hc hcu => ?_, ?_⟩
  · replace hp : p ∈ (b + H.headerSize) :: s'.returned := hp
    rw [hreturned] at hp
    rcases List.mem_cons.1 hp with rfl | hp
    · exact ⟨b, hb, rfl⟩
    · obtain ⟨c, hc, h1⟩ := h.returned p hp
      exact ⟨c, hsub c hc, h1⟩
  · replace hp : (p, m) ∈ (b + H.headerSize, n) :: s'.live := hp
    rw [hlive] at hp
    rcases List.mem_cons.1 hp with he | hp
    · obtain ⟨rfl, rfl⟩ := Prod.mk.inj he
      exact ⟨b, hb, rfl, huse, hsize⟩
    · obtain ⟨c, hc, h1, h2, h3⟩ := h.live p m hp
      obtain ⟨-, h4⟩ := hother c hc h2
      refine ⟨c, hsub c hc, h1, ?_, ?_⟩
      · show (s'.headers c).inUse = true
        rw [h4]
        exact h2
      · show _ ≤ (s'.headers c).blockSize
        rw [h4]
        exact h3
  · show ∃ m, (c + H.headerSize, m) ∈ (b + H.headerSize, n) :: s'.live
    by_cases hcb : c = b
    · subst hcb
      exact ⟨n, List.mem_cons_self⟩
    · replace hcu : (s'.headers c).inUse = true := hcu
      rcases hsame c hc hcb with ⟨h1, h2⟩ | ⟨-, h2⟩
      · rw [h2] at hcu
        obtain ⟨m, hm⟩ := h.held c h1 hcu
        exact ⟨m, List.mem_cons_of_mem _ (hlive ▸ hm)⟩
      · rw [hcu] at h2
        exact nomatch h2
  · show (((b + H.headerSize, n) :: s'.live).map Prod.fst).Nodup
    rw [List.map_cons, hlive]
    refine List.nodup_cons.2 ⟨fun hm => ?_, h.nodup⟩
    obtain ⟨⟨p, m⟩, hm, rfl⟩ := List.mem_map.1 hm
    exact hfresh m hm

/-- A block's pointer is no longer live when its block is free. -/
theorem deallocate (h : Callers H s l) (hfree : (s'.headers b).inUse = false)
    (hsame : ∀ c, c ≠ b → s'.headers c = s.headers c) (hreturned : s'.returned = s.returned) :
    Callers H { s' with live := s.live.filter fun p => p.1 ≠ b + H.headerSize } l := by
  refine ⟨fun p hp => h.returned p (hreturned ▸ hp), fun p m hp => ?_, fun c hc hcu => ?_, ?_⟩
  · obtain ⟨hp, hne⟩ := List.mem_filter.1 hp
    obtain ⟨c, hc, h1, h2, h3⟩ := h.live p m hp
    have hcb : c ≠ b := by
      rintro rfl
      simp [h1] at hne
    refine ⟨c, hc, h1, ?_, ?_⟩
    · show (s'.headers c).inUse = true
      rw [hsame c hcb]
      exact h2
    · show _ ≤ (s'.headers c).blockSize
      rw [hsame c hcb]
      exact h3
  · replace hcu : (s'.headers c).inUse = true := hcu
    have hcb : c ≠ b := by
      rintro rfl
      rw [hfree] at hcu
      exact nomatch hcu
    rw [hsame c hcb] at hcu
    obtain ⟨m, hm⟩ := h.held c hc hcu
    refine ⟨m, List.mem_filter.2 ⟨hm, ?_⟩⟩
    simp only [decide_eq_true_eq]
    omega
  · exact h.nodup.sublist (List.filter_sublist.map _)

end Callers

theorem Blocks.of_fields (h : Blocks H s l) (hheaders : s'.headers = s.headers)
    (hend : s'.currentEnd = s.currentEnd) (hbytes : s'.bytesAllocated = s.bytesAllocated)
    (hcount : s'.blocksAllocated = s.blocksAllocated)
    (hfree : s'.bytesAllocatedButUnused = s.bytesAllocatedButUnused)
    (hfreeCount : s'.blocksAllocatedButUnused = s.blocksAllocatedButUnused) : Blocks H s' l := by
  obtain ⟨headers, _, _, _, _, _, _, _⟩ := s'
  subst hheaders hend hbytes hcount hfree hfreeCount
  exact ⟨h.walk, h.last, h.le, h.dvd, h.count, h.freeBytes, h.freeBlocks, h.block⟩

theorem Blocks.handOut (h : Blocks H s l) (p n : ℕ) : Blocks H (s.handOut p n) l := by
  unfold State.handOut
  split_ifs
  · exact h
  · exact h.of_fields rfl rfl rfl rfl rfl rfl

/-! ### The search -/

/-- The walk of the search ends.  It finds the best so far, if no free block from here on is large
enough, or else a free block that is. -/
theorem searchLoop_spec {bytes : ℕ} : ∀ {l : List ℕ} {current fuel best bestSize : ℕ},
    Walk s.sizeAt current l s.currentEnd → s.currentEnd < WORD64 → l.length < fuel →
    (∀ b ∈ l, 0 < b) → (best = 0 → bestSize = 0) → 0 < bytes →
    ∃ r, searchLoop s bytes fuel current best bestSize = some r ∧
      (r = best ∧ (r = 0 → ∀ b ∈ l, (s.headers b).inUse = false → s.sizeAt b < bytes)
        ∨ r ∈ l ∧ (s.headers r).inUse = false ∧ bytes ≤ s.sizeAt r)
  | [], current, fuel + 1, best, bestSize, hwalk, _, _, _, _, _ => by
    obtain rfl := Walk.nil_iff.1 hwalk
    exact ⟨best, by simp [searchLoop], .inl ⟨rfl, fun _ _ hb => nomatch hb⟩⟩
  | b :: l, current, fuel + 1, best, bestSize, hwalk, hend, hfuel, hpos, hbest, hbytes => by
    obtain ⟨rfl, hsize, hwalk⟩ := Walk.cons_iff.1 hwalk
    have hle := hwalk.le
    have hnext : add64 b (s.sizeAt b) = b + s.sizeAt b := add64_eq (by omega)
    have hfuel' : l.length < fuel := by simpa using hfuel
    have hpos' : ∀ c ∈ l, 0 < c := fun c hc => hpos c (List.mem_cons_of_mem _ hc)
    have hb := hpos b List.mem_cons_self
    simp only [searchLoop, hnext, if_pos (show b < s.currentEnd by omega)]
    -- what is found further on is found from here
    have hon : ∀ {r best : ℕ}, (r = best ∧ (r = 0 → ∀ c ∈ l, (s.headers c).inUse = false →
          s.sizeAt c < bytes) ∨ r ∈ l ∧ (s.headers r).inUse = false ∧ bytes ≤ s.sizeAt r) →
        (r = 0 → (s.headers b).inUse = false → s.sizeAt b < bytes) →
        r = best ∧ (r = 0 → ∀ c ∈ b :: l, (s.headers c).inUse = false → s.sizeAt c < bytes)
          ∨ r ∈ b :: l ∧ (s.headers r).inUse = false ∧ bytes ≤ s.sizeAt r := by
      rintro r best (⟨h1, h2⟩ | ⟨h1, h2⟩) hzero
      · refine .inl ⟨h1, fun hr c hc => ?_⟩
        rcases List.mem_cons.1 hc with rfl | hc
        · exact hzero hr
        · exact h2 hr c hc
      · exact .inr ⟨List.mem_cons_of_mem _ h1, h2⟩
    split_ifs with h1 h2 h3
    · obtain ⟨r, hr, hspec⟩ := searchLoop_spec hwalk hend hfuel' hpos' hbest hbytes
      refine ⟨r, hr, hon hspec fun _ hfree => ?_⟩
      rcases h1 with h1 | h1
      · rw [hfree] at h1
        exact nomatch h1
      · exact h1
    · push Not at h1
      exact ⟨b, rfl, .inr ⟨List.mem_cons_self, by simpa using h1.1, h1.2⟩⟩
    · push Not at h1
      obtain ⟨r, hr, hspec⟩ : ∃ r, searchLoop s bytes fuel (b + s.sizeAt b) b (s.sizeAt b) = some r
          ∧ _ := searchLoop_spec hwalk hend hfuel' hpos' (fun h0 => by omega) hbytes
      refine ⟨r, hr, ?_⟩
      rcases hspec with ⟨rfl, -⟩ | ⟨h4, h5⟩
      · exact .inr ⟨List.mem_cons_self, by simpa using h1.1, h1.2⟩
      · exact .inr ⟨List.mem_cons_of_mem _ h4, h5⟩
    · push Not at h1
      obtain ⟨r, hr, hspec⟩ := searchLoop_spec hwalk hend hfuel' hpos' hbest hbytes
      refine ⟨r, hr, hon hspec fun hr0 _ => ?_⟩
      -- nothing is kept that is no better than null
      rcases hspec with ⟨rfl, -⟩ | ⟨h4, -⟩
      · have := hbest hr0
        omega
      · have := hpos' r h4
        omega

theorem validateLoop_spec {block : ℕ} : ∀ {l : List ℕ} {current fuel : ℕ},
    Walk s.sizeAt current l s.currentEnd → s.currentEnd < WORD64 → l.length < fuel → l ≠ [] →
    validateLoop s block fuel current = some (decide (block ∈ l))
  | b :: l, current, fuel + 1, hwalk, hend, hfuel, _ => by
    obtain ⟨rfl, hsize, hwalk⟩ := Walk.cons_iff.1 hwalk
    have hle := hwalk.le
    have hnext : add64 b (s.sizeAt b) = b + s.sizeAt b := add64_eq (by omega)
    simp only [validateLoop, hnext]
    by_cases hb : block = b
    · subst hb
      simp
    · rw [if_neg hb]
      cases l with
      | nil =>
        rw [if_neg (Walk.nil_iff.1 hwalk).not_lt]
        simp [hb]
      | cons c l =>
        have hlt : b + s.sizeAt b < s.currentEnd := by
          obtain ⟨-, h1, h2⟩ := Walk.cons_iff.1 hwalk
          have h2 := h2.le
          omega
        rw [if_pos hlt, validateLoop_spec hwalk hend (by simpa using hfuel) (by simp)]
        simp [hb]

/-! ### Allocation -/

theorem Inv.notMem_payload (h : Inv H s l) {address : ℕ} (hp : (p, n) ∈ s.live)
    (h1 : p < address + BLOCK_HEADER_BYTES) (h2 : address < p + n) : address ∉ l := by
  obtain ⟨b, hb, rfl, -, hsize⟩ := h.live p n hp
  have hle := H.le_headerSize
  exact h.walk.notMem_inside hb (by omega) (by omega)

theorem passes_iff {e n : ℕ} : (n ≠ 0 ∧ H.maxSize / n < e) ↔ H.maxSize < e * n := by
  rcases Nat.eq_zero_or_pos n with rfl | hn
  · simp
  · rw [Nat.div_lt_iff_lt_mul hn]
    exact ⟨And.right, fun h => ⟨hn.ne', h⟩⟩

theorem blockSize_eq {e n : ℕ} (hle : e * n ≤ H.maxSize) (h : H.need (e * n) < WORD64) :
    blockSize H e n = H.need (e * n) := by
  have hneed : H.roundUp (e * n) + H.headerSize < WORD64 := by
    rw [H.headerSize_eq]
    exact h
  have hfits := H.heapStart_fits
  unfold blockSize
  rw [mul64_eq (by omega), H.alignedSize_eq (by omega), add64_eq hneed, H.headerSize_eq]
  rfl

/-- No block, at the end or free, is large enough. -/
def Exhausted (H : Heap) (s : State) (l : List ℕ) (bytes : ℕ) : Prop :=
  H.maxSize - s.bytesAllocated < H.need bytes
    ∧ ∀ b ∈ l, (s.headers b).inUse = false → s.sizeAt b < H.need bytes

/-- What an allocation gives: null and the state as it was, if there is no room, or else a block. -/
structure Allocates (H : Heap) (s : State) (l : List ℕ) (bytes : ℕ) (r : ℕ × State) : Prop where
  null_iff : r.1 = 0 ↔ Exhausted H s l bytes
  unchanged : r.1 = 0 → r.2 = s
  inv : ∃ l', Inv H (r.2.handOut r.1 bytes) l'

theorem Inv.no_room (h : Inv H s l) {bytes : ℕ} (hno : Exhausted H s l bytes) :
    Allocates H s l bytes (0, s) :=
  ⟨iff_of_true rfl hno, fun _ => rfl, l, h⟩

theorem Inv.newBlock (h : Inv H s l) {bytes : ℕ} (m : ℕ)
    (hroom : H.need bytes ≤ H.maxSize - s.bytesAllocated) :
    Allocates H s l bytes (s.currentEnd + H.headerSize, newBlock s (H.need bytes) m) := by
  have hpos := H.headerSize_pos
  have hle := H.le_need bytes
  have happend := h.toBlocks.append hroom (H.dvd_need bytes) (by omega) m
  have hend : s.currentEnd ∉ l := fun hb => by
    have h1 := (h.walk.inside hb).2
    have h2 := h.walk.pos hb
    omega
  have hself := setHeader_self s s.currentEnd ⟨true, H.need bytes, m⟩
  refine ⟨iff_of_false ?_ fun hno => ?_, fun h0 => ?_, l ++ [s.currentEnd], happend.handOut _ _, ?_⟩
  · show s.currentEnd + H.headerSize ≠ 0
    omega
  · have := hno.1
    omega
  · replace h0 : s.currentEnd + H.headerSize = 0 := h0
    omega
  · refine h.toCallers.handOut (fun c hc => by simp [hc]) (by simp) (fun hb => absurd hb hend) ?_ ?_
      (fun c hc hne => .inl ?_) rfl rfl
    · exact congrArg BlockHeader.inUse hself
    · exact hle.trans (congrArg BlockHeader.blockSize hself).ge
    · rcases List.mem_append.1 hc with hc | hc
      · exact ⟨hc, setHeader_of_ne s _ hne⟩
      · exact absurd (List.mem_singleton.1 hc) hne

theorem Inv.takeBlock (h : Inv H s l) {bytes : ℕ} (m : ℕ) (hb : b ∈ l)
    (hfree : (s.headers b).inUse = false) (hsize : H.need bytes ≤ s.sizeAt b) :
    Allocates H s l bytes (b + H.headerSize, takeBlock s b m) := by
  have hpos := H.headerSize_pos
  have hle := H.le_need bytes
  have hself := setHeader_self s b ⟨true, s.sizeAt b, m⟩
  have htake := h.toBlocks.take hb hfree m
  refine ⟨iff_of_false ?_ fun hno => ?_, fun h0 => ?_, l, htake.handOut _ _, ?_⟩
  · show b + H.headerSize ≠ 0
    omega
  · have := hno.2 b hb hfree
    omega
  · replace h0 : b + H.headerSize = 0 := h0
    omega
  · refine h.toCallers.handOut (fun _ hc => hc) hb (fun _ => hfree) ?_ ?_
      (fun c hc hne => .inl ⟨hc, setHeader_of_ne s _ hne⟩) rfl rfl
    · exact congrArg BlockHeader.inUse hself
    · exact (hle.trans hsize).trans (congrArg BlockHeader.blockSize hself).ge

theorem Inv.cutBlock (h : Inv H s l) {bytes : ℕ} (m : ℕ) (hb : b ∈ l)
    (hfree : (s.headers b).inUse = false) (hsize : H.need bytes + H.headerSize < s.sizeAt b) :
    Allocates H s l bytes (b + H.headerSize, cutBlock s b (H.need bytes) m) := by
  have hpos := H.headerSize_pos
  have hle := H.le_need bytes
  have hin := h.inside hb
  have hfits := H.heapStart_fits
  have hadd : add64 b (H.need bytes) = b + H.need bytes := add64_eq (by omega)
  have ha : b + H.need bytes ∉ l := h.walk.notMem_inside hb (by omega) (by omega)
  have hne : b + H.need bytes ≠ b := by omega
  generalize hs' : SingleBlockHeap.cutBlock s b (H.need bytes) m = s'
  have hheaders : s'.headers = ((s.setHeader (b + H.need bytes)
      ⟨false, sub64 (s.sizeAt b) (H.need bytes), 0⟩).setHeader b
        ⟨true, H.need bytes, m⟩).headers := by
    rw [← hs', ← hadd]
    rfl
  have hself : s'.headers b = ⟨true, H.need bytes, m⟩ := by
    rw [hheaders, setHeader_self]
  obtain ⟨l₁, l₂, rfl⟩ := List.append_of_mem hb
  have hcut := h.toBlocks.cut hfree (H.dvd_need bytes) (by omega) hsize m
  rw [hs'] at hcut
  refine ⟨iff_of_false ?_ fun hno => ?_, fun h0 => ?_, _, hcut.handOut _ _, ?_⟩
  · show b + H.headerSize ≠ 0
    omega
  · have := hno.2 b hb hfree
    omega
  · replace h0 : b + H.headerSize = 0 := h0
    omega
  · refine h.toCallers.handOut (fun c hc => ?_) (by simp) (fun _ => hfree) ?_ ?_
      (fun c hc hcb => ?_) (by rw [← hs']; rfl) (by rw [← hs']; rfl)
    · simp only [List.mem_append, List.mem_cons] at hc ⊢
      tauto
    · rw [hself]
    · unfold State.sizeAt
      rw [hself]
      exact hle
    · by_cases hca : c = b + H.need bytes
      · subst hca
        rw [hheaders, setHeader_of_ne _ _ hcb, setHeader_self]
        exact .inr ⟨ha, rfl⟩
      · rw [hheaders, setHeader_of_ne _ _ hcb, setHeader_of_ne _ _ hca]
        refine .inl ⟨?_, rfl⟩
        simp only [List.mem_append, List.mem_cons] at hc ⊢
        tauto

theorem Inv.search (h : Inv H s l) {bytes : ℕ} (m : ℕ)
    (htail : H.maxSize - s.bytesAllocated < H.need bytes)
    (hsplit : ∀ b ∈ l, (s.headers b).inUse = false → H.need bytes ≤ s.sizeAt b →
      add64 (H.need bytes) H.minimumSizeBlockForSplit < s.sizeAt b →
      H.need bytes + (H.roundUp BLOCK_HEADER_BYTES + H.roundUp 4) < s.sizeAt b) :
    ∃ r, searchForUnusedBlock H s (H.need bytes) m = some r ∧ Allocates H s l bytes r := by
  unfold searchForUnusedBlock
  split_ifs with hnone
  · refine ⟨_, rfl, h.no_room ⟨htail, fun b hb hfree => ?_⟩⟩
    have := (h.freeBytes_of_mem hb hfree).2
    omega
  · have hpos := H.headerSize_pos
    have hle := H.le_need bytes
    have hlen := h.length_le
    obtain ⟨r, hr, hspec⟩ :
        ∃ r, searchLoop s (H.need bytes) (H.maxSize + 1) H.heapStart 0 0 = some r ∧ _ :=
      searchLoop_spec h.walk h.currentEnd_lt (by omega) (fun b hb => h.pos hb) (fun _ => rfl)
        (by omega)
    rw [hr]
    refine ⟨_, rfl, ?_⟩
    rcases hspec with ⟨rfl, hno⟩ | ⟨hmem, hfree, hsize⟩
    · simp only [if_true]
      exact h.no_room ⟨htail, hno rfl⟩
    · have hend := h.walk.inside hmem
      have hend' := h.currentEnd_lt
      have hblock := (h.block r hmem).2.2
      simp only [(h.pos hmem).ne', if_false, add64_eq (show r + H.headerSize < WORD64 by omega)]
      split_ifs with hlt
      · refine h.cutBlock m hmem hfree ?_
        have := hsplit r hmem hfree hsize hlt
        rw [H.headerSize_eq]
        omega
      · exact h.takeBlock m hmem hfree hsize

theorem Inv.allocate (h : Inv H s l) {e n : ℕ} (hg : NoWrap H s (.allocate e n)) :
    ∃ r, allocateRawBlock H s e n = some r ∧ Allocates H s l (e * n) r := by
  unfold allocateRawBlock
  rw [if_congr passes_iff rfl rfl]
  split_ifs with hpass htail
  · have hle := H.le_need (e * n)
    refine ⟨_, rfl, h.no_room ⟨by omega, fun b hb _ => ?_⟩⟩
    have := (h.inside hb)
    omega
  · obtain ⟨hneed, hsplit⟩ := hg (by omega)
    have hfits := H.heapStart_fits
    have hle := h.le
    rw [blockSize_eq (by omega) hneed] at htail ⊢
    rw [sub64_eq hle (by omega)] at htail
    refine h.search n htail fun b hb => ?_
    rw [← h.blocks_eq] at hb
    exact hsplit htail b hb
  · obtain ⟨hneed, -⟩ := hg (by omega)
    have hfits := H.heapStart_fits
    have hle := h.le
    have hlast := h.last
    have hhead := H.le_need (e * n)
    rw [blockSize_eq (by omega) hneed] at htail ⊢
    rw [sub64_eq hle (by omega)] at htail
    rw [add64_eq (show s.currentEnd + H.headerSize < WORD64 by omega)]
    exact ⟨_, rfl, h.newBlock n (by omega)⟩

/-! ### The result -/

theorem inv_start (h : Start H s) : Inv H s [] := by
  obtain ⟨hend, hbytes, hcount, hfree, hfreeCount, hreturned, hlive⟩ := h
  have hdvd : H.blockAlignment ∣ s.bytesAllocated := by
    rw [hbytes]
    exact Nat.dvd_zero _
  refine ⟨⟨Walk.nil_iff.2 hend.symm, by omega, by omega, hdvd, hcount, hfree, hfreeCount, by simp⟩,
    fun p hp => ?_, fun p n hp => ?_, by simp, ?_⟩
  · rw [hreturned] at hp
    exact nomatch hp
  · rw [hlive] at hp
    exact nomatch hp
  · rw [hlive]
    exact List.nodup_nil

theorem Inv.deallocate (h : Inv H s l) (hp : p ∈ s.returned) :
    Inv H { deallocateRawBlock H s p with live := s.live.filter fun q => q.1 ≠ p } l := by
  obtain ⟨b, hb, rfl⟩ := h.returned p hp
  have hsub := h.sub_headerSize hb
  cases huse : (s.headers b).inUse with
  | true =>
    have hdealloc := h.toBlocks.deallocate hb huse
    refine ⟨hdealloc.of_fields rfl rfl rfl rfl rfl rfl, ?_⟩
    unfold deallocateRawBlock
    rw [hsub, if_pos huse]
    exact h.toCallers.deallocate (congrArg BlockHeader.inUse (setHeader_self s b _))
      (fun c hc => setHeader_of_ne s _ hc) rfl
  | false =>
    unfold deallocateRawBlock
    rw [hsub, if_neg (by rw [huse]; exact Bool.false_ne_true)]
    exact ⟨h.toBlocks.of_fields rfl rfl rfl rfl rfl rfl,
      h.toCallers.deallocate huse (fun _ _ => rfl) rfl⟩

theorem Inv.step (h : Inv H s l) {x : Action} (hg : NoWrap H s x) (hs : step H s x = some s') :
    ∃ l', Inv H s' l' := by
  rcases x with ⟨e, n⟩ | p | ⟨p, n, address, v⟩
  · simp only [SingleBlockHeap.step] at hs
    split_ifs at hs
    obtain ⟨r, hr, halloc⟩ := h.allocate hg
    rw [hr] at hs
    obtain rfl := Option.some.inj hs
    exact halloc.inv
  · simp only [SingleBlockHeap.step] at hs
    split_ifs at hs with hp
    obtain rfl := Option.some.inj hs
    exact ⟨l, h.deallocate hp⟩
  · simp only [SingleBlockHeap.step] at hs
    split_ifs at hs with hp
    obtain rfl := Option.some.inj hs
    have ha := h.notMem_payload hp.1 hp.2.1 hp.2.2
    exact ⟨l, h.toBlocks.setHeader ha v, h.toCallers.setHeader ha v⟩

theorem inv_of_run (h : (machine H).Run (NoWrap H) s) : ∃ l, Inv H s l :=
  Machine.run_induction (I := fun s => ∃ l, Inv H s l) (fun _ h => ⟨[], inv_start h⟩)
    (fun _ _ _ _ ih hg hs => by
      obtain ⟨l, h⟩ := ih
      exact h.step hg hs) h

theorem Blocks.sub_mem_iff (h : Blocks H s l) (hp : p < WORD64) :
    sub64 p H.headerSize ∈ l ↔ ∃ b ∈ l, p = b + H.headerSize := by
  constructor
  · intro hb
    have h1 := (h.walk.inside hb).2
    have h2 := (h.block _ hb).2.2
    have h3 := h.currentEnd_lt
    exact ⟨_, hb, (sub64_add_cancel hp (by omega)).symm⟩
  · rintro ⟨b, hb, rfl⟩
    rw [h.sub_headerSize hb]
    exact hb

theorem Blocks.validate (h : Blocks H s l) (hp : p < WORD64) :
    validatePointer H s p = some (decide (∃ b ∈ l, p = b + H.headerSize)) := by
  rw [← decide_eq_decide.2 (h.sub_mem_iff hp)]
  unfold validatePointer
  split_ifs with hout
  · refine congrArg some (decide_eq_false fun hb => ?_).symm
    have h1 := h.walk.inside hb
    have h2 := h.walk.pos hb
    omega
  · refine validateLoop_spec h.walk h.currentEnd_lt (by have := h.length_le; omega) ?_
    rintro rfl
    have := Walk.nil_iff.1 h.walk
    omega

/-- The blocks walked from the start tile the heap up to its end, and the counters are sums over
them; the live payloads are the blocks in use, apart, aligned and inside the heap; a request that
does not wrap gets null just when there is no room; the pointer check knows the blocks; and a free
block is not freed again. -/
structure Correct (H : Heap) (s : State) : Prop where
  walk : Walk s.sizeAt H.heapStart (s.blocks H) s.currentEnd
  inside : s.currentEnd ≤ H.heapStart + H.maxSize
  bytes : s.bytesAllocated = ((s.blocks H).map s.sizeAt).sum
  count : s.blocksAllocated = (s.blocks H).length
  freeBytes : s.bytesAllocatedButUnused
    = ((s.blocks H).map fun b => (s.headers b).freeBytes).sum
  freeCount : s.blocksAllocatedButUnused
    = ((s.blocks H).map fun b => (s.headers b).freeBlocks).sum
  noUnderflow : s.bytesAllocatedButUnused ≤ s.bytesAllocated
    ∧ s.blocksAllocatedButUnused ≤ s.blocksAllocated
  payload : ∀ p n, (p, n) ∈ s.live → H.blockAlignment ∣ p ∧ H.heapStart ≤ p
    ∧ p + n ≤ H.heapStart + H.maxSize
  live : ∀ b ∈ s.blocks H, (s.headers b).inUse = true ↔ ∃ n, (b + H.headerSize, n) ∈ s.live
  disjoint : ∀ p n q m, (p, n) ∈ s.live → (q, m) ∈ s.live → p ≠ q → p + n ≤ q ∨ q + m ≤ p
  nodup : (s.live.map Prod.fst).Nodup
  allocates : ∀ e n, NoWrap H s (.allocate e n) → ∃ r, allocateRawBlock H s e n = some r
    ∧ (r.1 = 0 ↔ Exhausted H s (s.blocks H) (e * n)) ∧ (r.1 = 0 → r.2 = s)
  validates : ∀ p < WORD64, validatePointer H s p
    = some (decide (∃ b ∈ s.blocks H, p = b + H.headerSize))
  freeAgain : ∀ p ∈ s.returned, (s.headers (sub64 p H.headerSize)).inUse = false →
    deallocateRawBlock H s p = s

theorem Inv.correct (h : Inv H s l) : Correct H s := by
  obtain rfl := h.blocks_eq
  have hlast := h.last
  have hle := h.le
  refine ⟨h.walk, by omega, h.sum_sizes, h.count, h.freeBytes, h.freeBlocks, ⟨?_, ?_⟩,
    fun p n hp => ?_, fun b hb => ⟨h.held b hb, ?_⟩, fun p n q m hp hq hne => ?_, h.nodup,
    fun e n hg => ?_, fun p hp => h.validate hp, fun p hp hfree => ?_⟩
  · rw [h.freeBytes, h.sum_sizes]
    exact sum_freeBytes_le s _
  · rw [h.freeBlocks, h.count]
    exact sum_freeBlocks_le s _
  · obtain ⟨b, hb, rfl, -, hsize⟩ := h.live p n hp
    have hin := h.inside hb
    exact ⟨Nat.dvd_add (h.block b hb).1 H.dvd_headerSize, by omega, by omega⟩
  · rintro ⟨n, hn⟩
    obtain ⟨c, hc, he, huse, -⟩ := h.live _ n hn
    obtain rfl : b = c := by omega
    exact huse
  · obtain ⟨b, hb, rfl, -, hsize⟩ := h.live p n hp
    obtain ⟨c, hc, rfl, -, hsize'⟩ := h.live q m hq
    have := h.walk.disjoint hb hc (by rintro rfl; exact hne rfl)
    omega
  · obtain ⟨r, hr, halloc⟩ := h.allocate hg
    exact ⟨r, hr, halloc.null_iff, halloc.unchanged⟩
  · unfold deallocateRawBlock
    rw [if_neg (by rw [hfree]; exact Bool.false_ne_true)]

theorem tiles_of_noWrap (h : (machine H).Run (NoWrap H) s) : Correct H s := by
  obtain ⟨l, h⟩ := inv_of_run h
  exact h.correct

theorem small_pos : 0 < 4096 := by decide

/-- A heap of 512 bytes at address 4096, aligned to 16. -/
def small : Heap := ⟨4096, 512, 4, small_pos, by decide, by decide⟩

def State.new (start : ℕ) : State := ⟨fun _ => ⟨false, 0, 0⟩, start, 0, 0, 0, 0, [], []⟩

/-- A block freed twice is cut in two for a request the tail cannot hold. -/
theorem tiles_of_noWrap_cut : ∃ s : State, (machine small).Run (NoWrap small) s
    ∧ s.blocksAllocated = 3 ∧ s.blocksAllocatedButUnused = 1 ∧ Correct small s := by
  have hrun : ∃ s, (machine small).Run (NoWrap small) s
      ∧ s.blocksAllocated = 3 ∧ s.blocksAllocatedButUnused = 1 :=
    Machine.exists_run (s := .new 4096)
      [.allocate 200 1, .allocate 100 1, .deallocate 4128, .deallocate 4128, .allocate 25 4]
      ⟨by decide, rfl, rfl, rfl, rfl, rfl, rfl⟩ (by decide)
  obtain ⟨s, hs, h1, h2⟩ := hrun
  exact ⟨s, hs, h1, h2, tiles_of_noWrap hs⟩

/-- A heap of 64 bytes aligned to 2^63. -/
def halfway : Heap := ⟨2 ^ 63, 64, 63, by decide, by decide, by decide⟩

/-- The size of one byte with its header wraps to 0: a block is counted that no walk meets. -/
theorem wrapped_block_not_walked : ∃ s : State, (machine halfway).Reachable s
    ∧ s.currentEnd = halfway.heapStart ∧ s.blocksAllocated = 1 ∧ ¬ Correct halfway s := by
  have hrun : ∃ s, (machine halfway).Reachable s ∧ s.currentEnd = halfway.heapStart
      ∧ s.blocksAllocated = 1 ∧ (s.blocks halfway).length = 0 :=
    Machine.exists_run (s := .new (2 ^ 63)) [.allocate 1 1]
      ⟨by decide, rfl, rfl, rfl, rfl, rfl, rfl⟩ (by decide)
  obtain ⟨s, hs, h1, h2, h3⟩ := hrun
  refine ⟨s, hs, h1, h2, fun h => ?_⟩
  have := h.count
  omega

end MinStd.SingleBlockHeap
