import MinStd.BitFields
import MinStd.BitblockSet
import Mathlib.Data.Nat.Bitwise

/-!
# Masks of the bitblock set

Bits are named by their place in the set: `Covers w mask b` says that bit `b` is in word `w` and in
the mask.  The mask of a range inside one word covers the range; the two masks of a range over two
words cover its two parts.  The erosion leaves the ends of the runs of free bits.
-/

namespace MinStd.BitblockSet

/-- The low `n` bits. -/
theorem getLsbD_ones {n i : ℕ} (h : n ≤ 64) :
    (if n = 64 then BitVec.allOnes 64 else (1#64 <<< n) - 1#64).getLsbD i = decide (i < n) := by
  split_ifs with hn
  · rw [BitVec.getLsbD_allOnes, hn]
  · exact getLsbD_lowMask h

theorem getMsbD_createBitMask {start n i : ℕ} (h : start + n ≤ 64) :
    (createBitMask start n).getMsbD i = decide (start ≤ i ∧ i < start + n) := by
  unfold createBitMask
  rw [BitVec.getMsbD_eq_getLsbD, BitVec.getLsbD_shiftLeft, getLsbD_ones (by omega)]
  rw [Bool.eq_iff_iff]
  simp only [Bool.and_eq_true, Bool.not_eq_true', decide_eq_true_eq, decide_eq_false_iff_not]
  omega

/-- Bit `b` of the set is in word `w`, at a place that is set in the mask. -/
def Covers (w : ℕ) (mask : BitVec 64) (b : ℕ) : Prop :=
  b / BITS_PER_WORD = w ∧ mask.getMsbD (b % BITS_PER_WORD) = true

/-- The range of `n` bits from `start` on. -/
def InRange (start n b : ℕ) : Prop := start ≤ b ∧ b < start + n

instance (start n b : ℕ) : Decidable (InRange start n b) := inferInstanceAs (Decidable (_ ∧ _))

theorem covers_createBitMask {w start n b : ℕ} (h : start + n ≤ 64) :
    Covers w (createBitMask start n) b ↔ InRange (w * BITS_PER_WORD + start) n b := by
  unfold Covers InRange
  rw [getMsbD_createBitMask h, decide_eq_true_eq]
  unfold BITS_PER_WORD
  omega

/-- The mask of a range inside one word covers the range. -/
theorem covers_wordMask {start n b : ℕ} (hw : startWord start = endWord start n) :
    Covers (startWord start) (wordMask start n) b ↔ InRange start n b := by
  unfold startWord endWord BITS_PER_WORD at hw
  unfold wordMask
  rw [covers_createBitMask (by unfold BITS_PER_WORD; omega)]
  unfold startWord BITS_PER_WORD
  rw [show start / 64 * 64 + start % 64 = start by omega]

theorem covers_firstMask {start b : ℕ} :
    Covers (startWord start) (firstMask start) b
      ↔ start ≤ b ∧ b < (startWord start + 1) * BITS_PER_WORD := by
  unfold firstMask bitsInFirstWord
  rw [covers_createBitMask (by unfold BITS_PER_WORD; omega)]
  unfold InRange startWord BITS_PER_WORD
  omega

/-- The masks of a range over two words cover it. -/
theorem covers_lastMask {start n b : ℕ} (hpos : 1 ≤ n) (hn : n ≤ 16) :
    Covers (endWord start n) (lastMask start n) b
      ↔ (startWord start + 1) * BITS_PER_WORD ≤ b ∧ b < start + n := by
  unfold lastMask bitsInFirstWord
  rw [covers_createBitMask (by unfold BITS_PER_WORD; omega)]
  unfold InRange startWord endWord BITS_PER_WORD
  omega

theorem inRange_split {start n b : ℕ} (hpos : 1 ≤ n) (hn : n ≤ 16) (hw : startWord start ≠ endWord start n) :
    InRange start n b ↔ Covers (startWord start) (firstMask start) b
      ∨ Covers (endWord start n) (lastMask start n) b := by
  rw [covers_firstMask, covers_lastMask hpos hn]
  unfold startWord endWord BITS_PER_WORD at *
  unfold InRange
  omega

/-! ### The first set bit -/

theorem clz_spec {w : BitVec 64} (h : w ≠ 0#64) :
    clz w < 64 ∧ w.getMsbD (clz w) = true ∧ ∀ i < clz w, w.getMsbD i = false := by
  unfold clz
  rcases hf : (List.range 64).find? fun i => w.getMsbD i with _ | i
  · refine absurd (BitVec.eq_of_getMsbD_eq fun i hi => ?_) h
    have := List.find?_eq_none.1 hf i (List.mem_range.2 hi)
    simpa using this
  · obtain ⟨hi, as, bs, heq, has⟩ := List.find?_eq_some_iff_append.1 hf
    have hmem : i ∈ List.range 64 := heq ▸ List.mem_append_right _ (List.mem_cons_self ..)
    refine ⟨List.mem_range.1 hmem, hi, fun j hj => ?_⟩
    have hsorted := (heq ▸ List.pairwise_lt_range : (as ++ i :: bs).Pairwise (· < ·))
    replace hj : j < i := hj
    have hj64 : j ∈ as ++ i :: bs := heq ▸ List.mem_range.2 (Nat.lt_trans hj (List.mem_range.1 hmem))
    rcases List.mem_append.1 hj64 with hja | hjb
    · simpa using has j hja
    · have hle : i ≤ j := by
        rcases List.mem_cons.1 hjb with rfl | hjb
        · exact le_rfl
        · exact ((List.pairwise_cons.1 (List.pairwise_append.1 hsorted).2.1).1 j hjb).le
      exact absurd hj (not_lt.2 hle)

/-- A place in the eroded word is set if it and the `n - 1` before it are free. -/
theorem getMsbD_erode {f : BitVec 64} {n p : ℕ} (hn : 1 ≤ n) :
    (erode f n).getMsbD p = true ↔ ∀ k < n, k ≤ p ∧ f.getMsbD (p - k) = true := by
  have foldl : ∀ m, ((List.range m).foldl (fun c k => c &&& (f >>> (k + 1))) f).getMsbD p = true
      ↔ ∀ k < m + 1, k ≤ p ∧ f.getMsbD (p - k) = true := by
    intro m
    induction m with
    | zero =>
      simp
    | succ m ih =>
      rw [List.range_succ, List.foldl_append, List.foldl_cons, List.foldl_nil, BitVec.getMsbD_and,
        Bool.and_eq_true, ih, BitVec.getMsbD_ushiftRight]
      constructor
      · rintro ⟨h1, h2⟩ k hk
        rcases Nat.lt_succ_iff_lt_or_eq.1 hk with hk | rfl
        · exact h1 k hk
        · simp only [Bool.and_eq_true, Bool.not_eq_true', decide_eq_true_eq,
            decide_eq_false_iff_not] at h2
          exact ⟨by omega, h2.2.2⟩
      · intro h
        refine ⟨fun k hk => h k (by omega), ?_⟩
        obtain ⟨h1, h2⟩ := h (m + 1) (by omega)
        simp only [Bool.and_eq_true, Bool.not_eq_true', decide_eq_true_eq,
          decide_eq_false_iff_not]
        refine ⟨?_, by omega, h2⟩
        by_contra hp
        have h0 := (h 0 (by omega)).2
        rw [BitVec.getMsbD_of_ge _ _ (by omega)] at h0
        cases h0
  unfold erode
  rw [foldl, Nat.sub_add_cancel hn]

end MinStd.BitblockSet
