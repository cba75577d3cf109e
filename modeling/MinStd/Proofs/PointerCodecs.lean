import MinStd.PointerCodecs
import MinStd.Words

/-!
# Tagged pointers are unpacked as they were packed

Both codecs keep two fields in a word.  For `tagged_ptr` what is left to show is that the rule gives
the top bits back; for `arena_tagged_ptr`, that a node's number plus one fits below the counter and
is not zero, which is for null.
-/

namespace MinStd

/-! ### Any address -/

namespace TaggedPtr

variable {T : TaggedPtr} {ptr ptr' value : BitVec 64} {counter counter' : BitVec T.COUNTER_BITS}
  {i : ℕ}

theorem mask_eq : T.POINTER_MASK = lowMask T.POINTER_BITS := by
  have hlt : T.POINTER_BITS ≠ 64 := by
    have hpos := T.pos
    unfold POINTER_BITS
    omega
  exact if_neg hlt

theorem pointerBits_le : T.POINTER_BITS ≤ 64 := Nat.sub_le ..

theorem getLsbD_and_mask (T : TaggedPtr) (value : BitVec 64) (i : ℕ) :
    (value &&& T.POINTER_MASK).getLsbD i = (value.getLsbD i && decide (i < T.POINTER_BITS)) := by
  rw [BitVec.getLsbD_and, mask_eq, getLsbD_lowMask pointerBits_le]

theorem toNat_and_mask (T : TaggedPtr) (value : BitVec 64) :
    (value &&& T.POINTER_MASK).toNat < 2 ^ T.POINTER_BITS := by
  rw [mask_eq, toNat_and_lowMask pointerBits_le]
  exact Nat.mod_lt _ (Nat.two_pow_pos _)

/-- The pointer part of a packed word. -/
theorem pack_and_mask : T.pack ptr counter &&& T.POINTER_MASK = ptr &&& T.POINTER_MASK := by
  rw [pack, mask_eq (T := T), or_and_lowMask pointerBits_le (mask_eq ▸ toNat_and_mask T ptr)]

theorem unpackCounter_pack : T.unpackCounter (T.pack ptr counter) = counter := by
  have hbits : 64 - T.POINTER_BITS = T.COUNTER_BITS := by
    have hlt := T.lt
    unfold POINTER_BITS
    omega
  rw [unpackCounter, pack, or_ushiftRight pointerBits_le (toNat_and_mask T ptr), hbits,
    COUNTER_MASK]
  refine BitVec.eq_of_getLsbD_eq fun i hi => ?_
  have hi64 : i < 64 := hi.trans T.lt
  simp [getLsbD_lowMask T.lt.le, hi, hi64]

/-! #### The rule -/

/-- What the rule gives every top bit. -/
def topBit (T : TaggedPtr) (raw : BitVec 64) : Bool :=
  match T.TOP_BITS with
  | .zero => false
  | .ones => true
  | .signExtend47 => raw.getLsbD 47

/-- A pointer part that is not zero gets the top bits of the rule. -/
theorem getLsbD_restoreTopBits (hne : value &&& T.POINTER_MASK ≠ 0#64) (hi : i < 64) :
    (T.restoreTopBits (value &&& T.POINTER_MASK)).getLsbD i =
      if i < T.POINTER_BITS then value.getLsbD i else T.topBit (value &&& T.POINTER_MASK) := by
  have hnot : (~~~T.POINTER_MASK).getLsbD i = !decide (i < T.POINTER_BITS) := by
    rw [BitVec.getLsbD_not, mask_eq, getLsbD_lowMask pointerBits_le]
    simp [hi]
  have hbits := getLsbD_and_mask T value i
  have hbit := and_bit_ne_zero (i := 47) (value &&& T.POINTER_MASK) (by omega)
  generalize value &&& T.POINTER_MASK = raw at *
  rw [restoreTopBits, if_neg hne, topBit]
  rcases T.TOP_BITS with _ | _ | _
  · by_cases hlt : i < T.POINTER_BITS <;> simp [hbits, hlt]
  · by_cases hlt : i < T.POINTER_BITS <;> simp [hbits, hnot, hlt]
  · dsimp only
    by_cases h47 : raw.getLsbD 47 = true
    · rw [if_pos (hbit.2 h47), h47]
      by_cases hlt : i < T.POINTER_BITS <;> simp [hbits, hnot, hlt]
    · rw [if_neg (mt hbit.1 h47), Bool.eq_false_iff.2 h47]
      by_cases hlt : i < T.POINTER_BITS <;> simp [hbits, hlt]

/-- The bits that the rule restores are those above the pointer. -/
theorem unpackPtr_and_mask (T : TaggedPtr) (value : BitVec 64) :
    T.unpackPtr value &&& T.POINTER_MASK = value &&& T.POINTER_MASK := by
  rw [unpackPtr]
  by_cases hne : value &&& T.POINTER_MASK = 0#64
  · rw [hne, restoreTopBits, if_pos rfl, BitVec.zero_and]
  · refine BitVec.eq_of_getLsbD_eq fun i hi => ?_
    rw [getLsbD_and_mask, getLsbD_restoreTopBits hne hi, getLsbD_and_mask]
    by_cases hlt : i < T.POINTER_BITS <;> simp [hlt]

theorem representable_unpackPtr : T.Representable (T.unpackPtr value) := by
  by_cases hne : value &&& T.POINTER_MASK = 0#64
  · left
    rw [unpackPtr, hne, restoreTopBits, if_pos rfl]
  · right
    have hand := unpackPtr_and_mask T value
    have htop : ∀ i, T.POINTER_BITS ≤ i → i < 64 →
        (T.unpackPtr value).getLsbD i = T.topBit (value &&& T.POINTER_MASK) := by
      intro i hle hi
      rw [unpackPtr, getLsbD_restoreTopBits hne hi, if_neg (not_lt.2 hle)]
    have h47 : T.TOP_BITS = .signExtend47 → (value &&& T.POINTER_MASK).getLsbD 47 =
        (T.unpackPtr value).getLsbD 47 := by
      intro hrule
      have hle := T.signExtend hrule
      rw [← hand, getLsbD_and_mask, decide_eq_true (show 47 < T.POINTER_BITS from hle),
        Bool.and_true]
    rw [← hand] at hne
    unfold topBit at htop
    rcases hrule : T.TOP_BITS with _ | _ | _
    · simpa [hrule] using htop
    · simp only [hrule] at htop
      exact ⟨hne, htop⟩
    · simp only [hrule, h47 hrule] at htop
      exact htop

theorem unpackPtr_pack (h : T.Representable ptr) : T.unpackPtr (T.pack ptr counter) = ptr := by
  rw [unpackPtr, pack_and_mask]
  rcases h with rfl | h
  · rw [BitVec.zero_and, restoreTopBits, if_pos rfl]
  · have htop : ∀ i, T.POINTER_BITS ≤ i → i < 64 →
        ptr.getLsbD i = T.topBit (ptr &&& T.POINTER_MASK) := by
      unfold topBit
      rcases hrule : T.TOP_BITS with _ | _ | _
      · simpa [hrule] using h
      · simp only [hrule] at h
        exact h.2
      · simp only [hrule] at h
        have hle := T.signExtend hrule
        rw [getLsbD_and_mask, decide_eq_true (show 47 < T.POINTER_BITS from hle), Bool.and_true]
        exact h
    by_cases hne : ptr &&& T.POINTER_MASK = 0#64
    · have hfalse : T.topBit (ptr &&& T.POINTER_MASK) = false := by
        rw [hne]
        unfold topBit
        rcases hrule : T.TOP_BITS with _ | _ | _
        · rfl
        · simp only [hrule] at h
          exact absurd hne h.1
        · rfl
      rw [hne, restoreTopBits, if_pos rfl]
      refine BitVec.eq_of_getLsbD_eq fun i hi => ?_
      by_cases hlt : i < T.POINTER_BITS
      · have hbit := getLsbD_and_mask T ptr i
        rw [hne, decide_eq_true hlt, Bool.and_true] at hbit
        exact hbit
      · rw [htop i (not_lt.1 hlt) hi, hfalse, BitVec.getLsbD_zero]
    · refine BitVec.eq_of_getLsbD_eq fun i hi => ?_
      rw [getLsbD_restoreTopBits hne hi]
      split_ifs with hlt
      · rfl
      · exact (htop i (not_lt.1 hlt) hi).symm

theorem representable_iff : T.Representable ptr ↔ ∃ value, T.unpackPtr value = ptr :=
  ⟨fun h => ⟨T.pack ptr 0, unpackPtr_pack h⟩, fun ⟨_, h⟩ => h ▸ representable_unpackPtr⟩

theorem pack_inj (h : T.Representable ptr) (h' : T.Representable ptr') :
    T.pack ptr counter = T.pack ptr' counter' ↔ ptr = ptr' ∧ counter = counter' := by
  constructor
  · intro heq
    have hptr := congrArg T.unpackPtr heq
    have hcounter := congrArg T.unpackCounter heq
    rw [unpackPtr_pack h, unpackPtr_pack h'] at hptr
    rw [unpackCounter_pack, unpackCounter_pack] at hcounter
    exact ⟨hptr, hcounter⟩
  · rintro ⟨rfl, rfl⟩
    rfl

/-- Whatever word it is, and whatever the counter was. -/
theorem incrementCounter_eq (value : BitVec 64) :
    T.incrementCounter value &&& T.POINTER_MASK = value &&& T.POINTER_MASK ∧
      T.unpackPtr (T.incrementCounter value) = T.unpackPtr value ∧
      T.unpackCounter (T.incrementCounter value) = T.unpackCounter value + 1 := by
  refine ⟨?_, unpackPtr_pack representable_unpackPtr, unpackCounter_pack⟩
  rw [incrementCounter, pack_and_mask, unpackPtr_and_mask]

/-- Another pointer under the counter of a word. -/
theorem withPtr_eq (value ptr : BitVec 64) :
    T.withPtr value ptr = T.pack ptr (T.unpackCounter value) := by
  have hlt := T.lt
  rw [withPtr, pack, unpackCounter, COUNTER_MASK, mask_eq]
  congr 1
  refine BitVec.eq_of_getLsbD_eq fun i hi => ?_
  rw [BitVec.getLsbD_and, BitVec.getLsbD_not, getLsbD_lowMask pointerBits_le,
    BitVec.getLsbD_shiftLeft]
  by_cases hin : i < T.POINTER_BITS
  · simp [hin]
  · have hcounter : i - T.POINTER_BITS < T.COUNTER_BITS := by
      unfold POINTER_BITS at *
      omega
    have hplace : T.POINTER_BITS + (i - T.POINTER_BITS) = i := by omega
    simp [hi, hin, hcounter, getLsbD_lowMask T.lt.le, hplace, show i - T.POINTER_BITS < 64 by omega]

end TaggedPtr

/-! ### The nodes of an arena -/

theorem UnitSize.exists_pow (U : UnitSize) : ∃ k < 64, U.UNIT_BYTES.toNat = 2 ^ k := by
  have hne : U.UNIT_BYTES.toNat ≠ 0 := fun h => U.ne_zero (BitVec.eq_of_toNat_eq h)
  have hlt := U.UNIT_BYTES.isLt
  have hand := congrArg BitVec.toNat U.power
  rw [BitVec.toNat_and, BitVec.toNat_sub_of_le (by rw [BitVec.le_def]; simp; omega)] at hand
  obtain ⟨k, hk⟩ := Nat.ne_zero_and_sub_one_eq_zero_iff_isPowerOfTwo.1 ⟨hne, hand⟩
  refine ⟨k, ?_, hk⟩
  rw [hk] at hlt
  exact (Nat.pow_lt_pow_iff_right (by omega)).1 hlt

namespace ArenaCodec

variable {U : UnitSize} {start size ptr ptr' counter counter' : BitVec 64}

theorem toNat_sub_one (U : UnitSize) : (U.UNIT_BYTES - 1#64).toNat = U.UNIT_BYTES.toNat - 1 := by
  have hne : U.UNIT_BYTES.toNat ≠ 0 := fun h => U.ne_zero (BitVec.eq_of_toNat_eq h)
  rw [BitVec.toNat_sub_of_le (by rw [BitVec.le_def]; simp; omega)]
  rfl

/-- The start of the unit that the arena starts in. -/
theorem toNat_base (U : UnitSize) (start size : BitVec 64) : (new U start size).base.toNat =
    start.toNat / U.UNIT_BYTES.toNat * U.UNIT_BYTES.toNat := by
  obtain ⟨k, hk, hpow⟩ := U.exists_pow
  have hpos := Nat.two_pow_pos k
  have hmask : 2 ^ 64 - 1 - (2 ^ k - 1) = WORD64 - 2 ^ k := by
    unfold WORD64
    omega
  show (start &&& ~~~(U.UNIT_BYTES - 1#64)).toNat = _
  rw [BitVec.toNat_and, BitVec.toNat_not, toNat_sub_one, hpow, hmask,
    and_not_mask start.isLt hk.le]

/-- The number of the last unit that a node may be in, plus one. -/
theorem toNat_maxIndex (h : IsArena U start size) : (new U start size).maxIndex.toNat =
    (start.toNat % U.UNIT_BYTES.toNat + size.toNat) / U.UNIT_BYTES.toNat + 1 := by
  have hbase := toNat_base U start size
  have hdiv := Nat.div_add_mod' start.toNat U.UNIT_BYTES.toNat
  have hlength : (start + size - (new U start size).base).toNat =
      start.toNat % U.UNIT_BYTES.toNat + size.toNat := by
    rw [BitVec.toNat_sub, BitVec.toNat_add, hbase]
    unfold IsArena at h
    have hstart := start.isLt
    omega
  have hle : (start.toNat % U.UNIT_BYTES.toNat + size.toNat) / U.UNIT_BYTES.toNat ≤
      start.toNat % U.UNIT_BYTES.toNat + size.toNat := Nat.div_le_self ..
  show ((start + size - (new U start size).base) / U.UNIT_BYTES + 1#64).toNat = _
  rw [BitVec.toNat_add, BitVec.toNat_udiv, hlength]
  unfold IsArena at h
  exact Nat.mod_eq_of_lt (by simp; omega)

/-- A node that is not null, as the codec sees it. -/
structure Numbered (A : ArenaCodec) (U : UnitSize) (ptr : BitVec 64) : Prop where
  le : A.base.toNat ≤ ptr.toNat
  mod : (ptr.toNat - A.base.toNat) % U.UNIT_BYTES.toNat = 0
  lt : (ptr.toNat - A.base.toNat) / U.UNIT_BYTES.toNat + 1 ≤ A.maxIndex.toNat

theorem numbered_of_isNode (h : IsArena U start size) (hnode : IsNode U start size ptr)
    (hne : ptr ≠ 0#64) : Numbered (new U start size) U ptr := by
  obtain ⟨hge, hlt, hmod⟩ := hnode.resolve_left hne
  have hdiv := Nat.div_add_mod' start.toNat U.UNIT_BYTES.toNat
  have hbase := toNat_base U start size
  have hle : (new U start size).base.toNat ≤ start.toNat := by
    rw [hbase]
    exact Nat.div_mul_le_self ..
  refine ⟨hle.trans hge, ?_, ?_⟩
  · rw [hbase]
    exact Nat.mod_eq_zero_of_dvd (Nat.dvd_sub (Nat.dvd_of_mod_eq_zero hmod) (Nat.dvd_mul_left ..))
  · rw [toNat_maxIndex h]
    refine Nat.add_le_add_right (Nat.div_le_div_right ?_) 1
    omega

section Numbered

variable {A : ArenaCodec} (h : Numbered A U ptr)
include h

theorem toNat_number : ((ptr - A.base) / U.UNIT_BYTES + 1#64).toNat =
    (ptr.toNat - A.base.toNat) / U.UNIT_BYTES.toNat + 1 := by
  have hlt := h.lt.trans_lt A.maxIndex.isLt
  rw [BitVec.toNat_add, BitVec.toNat_udiv, BitVec.toNat_sub_of_le (BitVec.le_def.2 h.le)]
  exact Nat.mod_eq_of_lt hlt

/-- The assertion of `index_of` holds. -/
theorem accepts : A.Accepts U ptr := by
  obtain ⟨k, hk, hpow⟩ := U.exists_pow
  refine ⟨BitVec.le_def.2 h.le, BitVec.eq_of_toNat_eq ?_, BitVec.le_def.2 ?_⟩
  · rw [BitVec.toNat_and, toNat_sub_one, hpow, Nat.and_two_pow_sub_one_eq_mod,
      BitVec.toNat_sub_of_le (BitVec.le_def.2 h.le), ← hpow, h.mod]
    rfl
  · rw [toNat_number h]
    exact h.lt

/-- The address of the unit with a node's number is the node's. -/
theorem address_eq :
    A.base + ((ptr - A.base) / U.UNIT_BYTES + 1#64 - 1#64) * U.UNIT_BYTES = ptr := by
  have hdvd := Nat.div_mul_cancel (Nat.dvd_of_mod_eq_zero h.mod)
  have hmul : (ptr - A.base) / U.UNIT_BYTES * U.UNIT_BYTES = ptr - A.base := by
    refine BitVec.eq_of_toNat_eq ?_
    rw [BitVec.toNat_mul, BitVec.toNat_udiv, BitVec.toNat_sub_of_le (BitVec.le_def.2 h.le), hdvd]
    exact Nat.mod_eq_of_lt (by omega)
  rw [BitVec.add_sub_cancel, hmul, BitVec.add_comm, BitVec.sub_add_cancel]

end Numbered

section Packed

theorem indexBits_le (U : UnitSize) (start size : BitVec 64) :
    (new U start size).indexBits ≤ 64 :=
  (ArenaTaggedPtr.lt_bitsFor (new U start size).maxIndex.isLt).1

theorem counterMask_eq (U : UnitSize) (start size : BitVec 64) :
    (new U start size).counterMask = lowMask (new U start size).counterBits := by
  rw [counterBits, ← allOnes_ushiftRight (indexBits_le U start size)]
  show (if (new U start size).indexBits = 0 then _ else _) = _
  split_ifs with h
  · rw [h]
    rfl
  · rfl

theorem toNat_and_counterMask (c : BitVec 64) :
    (c &&& (new U start size).counterMask).toNat =
      c.toNat % 2 ^ (new U start size).counterBits := by
  have hle : (new U start size).counterBits ≤ 64 := Nat.sub_le ..
  rw [counterMask_eq, toNat_and_lowMask hle]

variable (h : IsArena U start size) (hnode : IsNode U start size ptr)
include h hnode

theorem indexOf_lt :
    ((new U start size).indexOf U ptr).toNat < 2 ^ (new U start size).indexBits := by
  have hmax := (ArenaTaggedPtr.lt_bitsFor (new U start size).maxIndex.isLt).2
  by_cases hne : ptr = 0#64
  · rw [indexOf, if_pos hne]
    exact Nat.two_pow_pos _
  · have hnumbered := numbered_of_isNode h hnode hne
    rw [indexOf, if_neg hne, toNat_number hnumbered]
    exact hnumbered.lt.trans_lt hmax

theorem unpackPtr_pack :
    (new U start size).unpackPtr U ((new U start size).pack U ptr counter) = ptr := by
  have hindex : (new U start size).pack U ptr counter &&& (new U start size).indexMask =
      (new U start size).indexOf U ptr :=
    or_and_lowMask (indexBits_le U start size) (indexOf_lt h hnode)
  rw [unpackPtr, hindex]
  by_cases hne : ptr = 0#64
  · rw [indexOf, if_pos hne, if_pos rfl, hne]
  · have hnumbered := numbered_of_isNode h hnode hne
    have hpos : (ptr - (new U start size).base) / U.UNIT_BYTES + 1#64 ≠ 0#64 := by
      intro hzero
      have hnat := toNat_number hnumbered
      rw [hzero] at hnat
      simp at hnat
    rw [indexOf, if_neg hne, if_neg hpos, address_eq hnumbered]

theorem toNat_unpackCounter_pack :
    ((new U start size).unpackCounter ((new U start size).pack U ptr counter)).toNat =
      counter.toNat % 2 ^ (new U start size).counterBits := by
  rw [unpackCounter, pack, or_ushiftRight (indexBits_le U start size) (indexOf_lt h hnode),
    toNat_and_counterMask, toNat_and_lowMask (Nat.sub_le ..), toNat_and_counterMask, counterBits,
    Nat.mod_mod, Nat.mod_mod]

theorem pack_inj (hnode' : IsNode U start size ptr') :
    (new U start size).pack U ptr counter = (new U start size).pack U ptr' counter' ↔
      ptr = ptr' ∧ counter.toNat % 2 ^ (new U start size).counterBits =
        counter'.toNat % 2 ^ (new U start size).counterBits := by
  constructor
  · intro heq
    have hptr := congrArg ((new U start size).unpackPtr U) heq
    have hcounter := congrArg (fun w => ((new U start size).unpackCounter w).toNat) heq
    rw [unpackPtr_pack h hnode, unpackPtr_pack h hnode'] at hptr
    rw [toNat_unpackCounter_pack h hnode, toNat_unpackCounter_pack h hnode'] at hcounter
    exact ⟨hptr, hcounter⟩
  · rintro ⟨rfl, hcounter⟩
    have hand : counter &&& (new U start size).counterMask =
        counter' &&& (new U start size).counterMask := by
      refine BitVec.eq_of_toNat_eq ?_
      rw [toNat_and_counterMask, toNat_and_counterMask, hcounter]
    rw [pack, pack, hand]

/-- The node in the arena, by its number. -/
def nodeOf (U : UnitSize) (A : ArenaCodec) (ptr : BitVec 64) : Option ℕ :=
  if ptr = 0#64 then none else some ((ptr.toNat - A.base.toNat) / U.UNIT_BYTES.toNat)

/-- The word is the one of the codec of node numbers. -/
theorem toNat_pack : ((new U start size).pack U ptr counter).toNat =
    (ArenaTaggedPtr.mk ((new U start size).maxIndex.toNat - 1)).pack
      (nodeOf U (new U start size) ptr) counter.toNat := by
  have hmax : (new U start size).maxIndex.toNat - 1 + 1 = (new U start size).maxIndex.toNat := by
    rw [toNat_maxIndex h, Nat.add_sub_cancel]
  have hfits : (ArenaTaggedPtr.mk ((new U start size).maxIndex.toNat - 1)).Fits none :=
    ⟨by rw [hmax]; exact (new U start size).maxIndex.isLt, by simp⟩
  have hbits : (ArenaTaggedPtr.mk ((new U start size).maxIndex.toNat - 1)).indexBits =
      (new U start size).indexBits := by
    rw [ArenaTaggedPtr.indexBits, ArenaTaggedPtr.maxIndex, hmax]
    rfl
  have hindex : ((new U start size).indexOf U ptr).toNat =
      ArenaTaggedPtr.indexOf (nodeOf U (new U start size) ptr) := by
    rw [indexOf, nodeOf]
    split_ifs with hne
    · rfl
    · exact toNat_number (numbered_of_isNode h hnode hne)
  have hcounters : (ArenaTaggedPtr.mk ((new U start size).maxIndex.toNat - 1)).counters =
      2 ^ (new U start size).counterBits := by
    rw [ArenaTaggedPtr.counters, ArenaTaggedPtr.counterBits, hbits, counterBits]
  have hfield : (counter.toNat % 2 ^ (new U start size).counterBits) <<<
      (new U start size).indexBits < 2 ^ 64 := by
    have hlt := Nat.mod_lt counter.toNat (Nat.two_pow_pos (new U start size).counterBits)
    rw [Nat.shiftLeft_eq]
    calc _ < 2 ^ (new U start size).counterBits * 2 ^ (new U start size).indexBits :=
          Nat.mul_lt_mul_of_pos_right hlt (Nat.two_pow_pos _)
      _ = 2 ^ 64 := by
          rw [← Nat.pow_add, counterBits, Nat.sub_add_cancel (indexBits_le U start size)]
  rw [pack, BitVec.toNat_or, BitVec.toNat_shiftLeft, toNat_and_counterMask, hindex,
    ArenaTaggedPtr.pack, hfits.and_counterMask, hcounters, hbits, Nat.mod_eq_of_lt hfield]

end Packed

/-- The codec of an arena that its constructor admits. -/
structure Correct (U : UnitSize) (start size : BitVec 64) : Prop where
  counterBits : 16 ≤ (new U start size).counterBits
  accepts : ∀ ptr, IsNode U start size ptr → ptr ≠ 0#64 → (new U start size).Accepts U ptr
  unpackPtr : ∀ ptr counter, IsNode U start size ptr →
    (new U start size).unpackPtr U ((new U start size).pack U ptr counter) = ptr
  unpackCounter : ∀ ptr counter, IsNode U start size ptr →
    ((new U start size).unpackCounter ((new U start size).pack U ptr counter)).toNat =
      counter.toNat % 2 ^ (new U start size).counterBits
  distinct : ∀ ptr ptr' counter counter', IsNode U start size ptr → IsNode U start size ptr' →
    ((new U start size).pack U ptr counter = (new U start size).pack U ptr' counter' ↔
      ptr = ptr' ∧ counter.toNat % 2 ^ (new U start size).counterBits =
        counter'.toNat % 2 ^ (new U start size).counterBits)

theorem correct (h : IsArena U start size) (hadmitted : (new U start size).Admitted) :
    Correct U start size :=
  ⟨hadmitted, fun _ hnode hne => ArenaCodec.accepts (numbered_of_isNode h hnode hne),
    fun _ _ hnode => unpackPtr_pack h hnode, fun _ _ hnode => toNat_unpackCounter_pack h hnode,
    fun _ _ _ _ hnode hnode' => pack_inj h hnode hnode'⟩

theorem bitsFor_le {value n : ℕ} (hpos : 1 ≤ n) (hlt : n < 64) (h : value < 2 ^ n) :
    ArenaTaggedPtr.bitsFor value ≤ n := by
  have hzero : value >>> n = 0 := by
    rw [Nat.shiftRight_eq_div_pow, Nat.div_eq_of_lt h]
  have hmem : n ∈ List.range' 1 63 := by
    rw [List.mem_range'_1]
    omega
  rw [ArenaTaggedPtr.bitsFor]
  cases hfind : (List.range' 1 63).find? fun bits => value >>> bits = 0 with
  | none => simpa [hzero] using List.find?_eq_none.1 hfind n hmem
  | some found =>
    obtain ⟨-, i, hi, hfound, hbefore⟩ := List.find?_eq_some_iff_getElem.1 hfind
    by_contra hgt
    rw [Option.getD_some, not_le] at hgt
    rw [List.getElem_range'] at hfound
    have hj := hbefore (n - 1) (by omega)
    rw [List.getElem_range', show 1 + 1 * (n - 1) = n by omega] at hj
    simp [hzero] at hj

/-- The constructor admits the arenas of fewer than `2 ^ 48` units. -/
theorem admitted_iff :
    (new U start size).Admitted ↔ (new U start size).maxIndex.toNat < 2 ^ 48 := by
  show 16 ≤ 64 - ArenaTaggedPtr.bitsFor (new U start size).maxIndex.toNat ↔ _
  constructor
  · intro h
    have hlt := (ArenaTaggedPtr.lt_bitsFor (new U start size).maxIndex.isLt).2
    exact hlt.trans_le (Nat.pow_le_pow_right (by omega) (by omega))
  · intro h
    have hle := bitsFor_le (n := 48) (by omega) (by omega) h
    omega

end ArenaCodec

/-- The codec of a counter type and a rule. -/
structure TaggedPtr.Correct (T : TaggedPtr) : Prop where
  representable : ∀ ptr, T.Representable ptr ↔ ∃ value, T.unpackPtr value = ptr
  unpackPtr : ∀ ptr counter, T.Representable ptr → T.unpackPtr (T.pack ptr counter) = ptr
  unpackCounter : ∀ ptr counter, T.unpackCounter (T.pack ptr counter) = counter
  distinct : ∀ ptr ptr' counter counter', T.Representable ptr → T.Representable ptr' →
    (T.pack ptr counter = T.pack ptr' counter' ↔ ptr = ptr' ∧ counter = counter')
  increment : ∀ value, T.incrementCounter value &&& T.POINTER_MASK = value &&& T.POINTER_MASK ∧
    T.unpackPtr (T.incrementCounter value) = T.unpackPtr value ∧
    T.unpackCounter (T.incrementCounter value) = T.unpackCounter value + 1
  withPtr : ∀ value ptr, T.withPtr value ptr = T.pack ptr (T.unpackCounter value)

theorem TaggedPtr.correct (T : TaggedPtr) : T.Correct :=
  ⟨fun _ => representable_iff, fun _ _ h => unpackPtr_pack h, fun _ _ => unpackCounter_pack,
    fun _ _ _ _ h h' => pack_inj h h', incrementCounter_eq, withPtr_eq⟩

/-- Both codecs, of every arena that the constructor admits, and of every counter and rule. -/
theorem pointer_codecs :
    (∀ (U : UnitSize) (start size : BitVec 64), ArenaCodec.IsArena U start size →
      ((ArenaCodec.new U start size).Admitted ↔
        (ArenaCodec.new U start size).maxIndex.toNat < 2 ^ 48) ∧
      ((ArenaCodec.new U start size).Admitted → ArenaCodec.Correct U start size)) ∧
    ∀ T : TaggedPtr, T.Correct :=
  ⟨fun _ _ _ h => ⟨ArenaCodec.admitted_iff, ArenaCodec.correct h⟩, TaggedPtr.correct⟩

/-- An arena that starts inside a unit, and a node of it. -/
theorem pointer_codecs_arena :
    ArenaCodec.Correct ⟨64#64, rfl, by simp⟩ 0x1020#64 0x1000#64 ∧
      ArenaCodec.IsNode ⟨64#64, rfl, by simp⟩ 0x1020#64 0x1000#64 0x1040#64 := by
  have harena : ArenaCodec.IsArena ⟨64#64, rfl, by simp⟩ 0x1020#64 0x1000#64 := by
    simp [ArenaCodec.IsArena]
  obtain ⟨hiff, hcorrect⟩ := pointer_codecs.1 _ _ _ harena
  have hmax := ArenaCodec.toNat_maxIndex harena
  refine ⟨hcorrect (hiff.2 ?_), .inr ?_⟩
  · rw [hmax]
    simp
  · simp

end MinStd
