import MinStd.Proofs.BitblockCounts

/-!
# The bitblock resource

In any interleaving of any number of threads the live allocations are apart, aligned, long enough
and inside their blocks, and there are no more blocks than the cap (`Correct`).  One thread alone
keeps the counts exact, and is refused only when nothing is left (`Accurate`).
-/

namespace MinStd.BitblockResource

open Function BitblockSet

variable {τ : Type*} [DecidableEq τ] {P : Params} {s : State τ} {t : τ} {R : Request}

/-- What holds of the allocations and the blocks. -/
structure Correct (P : Params) (s : State τ) : Prop where
  apart : s.live.Pairwise fun a a' =>
    a.ptr + a.bytes + HEADER_SIZE ≤ a'.ptr ∨ a'.ptr + a'.bytes + HEADER_SIZE ≤ a.ptr
  aligned : ∀ a ∈ s.live, 16 ∣ a.ptr
  inside : ∀ a ∈ s.live, a.claim.block ∈ s.made
    ∧ a.claim.block + P.DATA_OFFSET + HEADER_SIZE ≤ a.ptr
    ∧ a.ptr + a.bytes ≤ P.elementAt a.claim.block (a.claim.index + a.claim.numElements)
    ∧ P.elementAt a.claim.block (a.claim.index + a.claim.numElements)
      ≤ a.claim.block + P.BLOCK_SIZE
  recovered : ∀ a ∈ s.live, fromHeader P s a = a.claim
    ∧ validateRequest P.setSize a.claim.index a.claim.numElements = .success
    ∧ ∀ k, InRange a.claim.index a.claim.numElements k → (s.sets a.claim.block).Bit k
  blocks : s.made.Pairwise fun b b' => b + P.BLOCK_SIZE ≤ b' ∨ b' + P.BLOCK_SIZE ≤ b
  capped : s.made.length ≤ P.MAX_NUMBER_OF_BLOCKS ∧ s.totalBlocks ≤ P.MAX_NUMBER_OF_BLOCKS

/-- What holds when only `t` has used the resource. -/
structure Accurate (P : Params) (s : State τ) (t : τ) : Prop where
  counted : s.pc t = .idle → ∀ b ∈ s.made, s.freeCount b = clearBits P.setSize (s.sets b)
  refused : ∀ R, s.pc t = .refuse R → R.alignment ≤ 16 →
    R.bytes + HEADER_SIZE ≤ 16 * P.ELEMENT_SIZE_IN_BYTES →
    (∀ b ∈ s.made, ∀ start, ¬ FreeRun P.setSize (s.sets b) (R.numElements P) start)
      ∧ (P.MAX_NUMBER_OF_BLOCKS ≤ s.totalBlocks ∨ s.upstreamEmpty t = true)

theorem small_of_bytes (h : R.bytes + HEADER_SIZE ≤ 16 * P.ELEMENT_SIZE_IN_BYTES) : Small P R := by
  have hpos := elementSize_pos P
  have hle := P.size_le
  have hS : 2 ^ 14 < SIZES := by decide
  have hbytes : Params.bytesWithHeader R.bytes = R.bytes + HEADER_SIZE := by
    unfold Params.bytesWithHeader
    exact if_neg (by omega)
  have helements : R.numElements P
      = (R.bytes + HEADER_SIZE + P.ELEMENT_SIZE_IN_BYTES - 1) / P.ELEMENT_SIZE_IN_BYTES := by
    unfold Request.numElements Params.elementsForBytes
    rw [hbytes, if_neg (by unfold HEADER_SIZE; omega), Nat.mod_eq_of_lt (by omega)]
  unfold Small
  rw [helements]
  constructor
  · refine (Nat.one_le_div_iff hpos).2 ?_
    unfold HEADER_SIZE
    omega
  · rw [← Nat.lt_succ_iff, Nat.div_lt_iff_lt_mul hpos]
    omega

theorem Claims.bytes (h : Claims P s) {a : Allocation τ} (ha : a ∈ s.live) :
    a.ptr + a.bytes ≤ P.elementAt a.claim.block (a.claim.index + a.claim.numElements) := by
  have hf := h.formed a ha
  have hbytes := hf.bytes
  have hadd := elementAt_add P a.claim.block a.claim.index a.claim.numElements
  rw [hf.ptr]
  omega

theorem Sound.correct (h : Sound P s) : Correct P s := by
  have hB := h.blocks
  have hC := h.claims
  have htotal := hB.total
  have hcap := hB.cap
  refine ⟨?_, fun a ha => ?_, fun a ha => ?_, fun a ha => ?_, hB.apart, by omega, hcap⟩
  · refine hC.apart.imp_of_mem fun {a a'} ha ha' hapart => ?_
    have hbytes := hC.bytes ha
    have hbytes' := hC.bytes ha'
    have hptr := (hC.formed a ha).ptr
    have hptr' := (hC.formed a' ha').ptr
    rcases hB.bytes_apart (hC.live a ha) (hC.live a' ha') hapart with hle | hle
    · exact .inl (by omega)
    · exact .inr (by omega)
  · rw [(hC.formed a ha).ptr]
    have hblock := (Nat.dvd_trans (by decide) (hB.aligned _ (hC.live a ha).made) : 16 ∣ a.claim.block)
    have hmul : 16 ∣ a.claim.index * P.ELEMENT_SIZE_IN_BYTES := (dvd_elementSize P).mul_left _
    exact Nat.dvd_add (Nat.dvd_add (Nat.dvd_add hblock (dvd_dataOffset P)) hmul) (dvd_refl 16)
  · have hin := (hC.live a ha).inside
    have hptr := (hC.formed a ha).ptr
    exact ⟨(hC.live a ha).made, by omega, hC.bytes ha, hin.2⟩
  · refine ⟨(hC.formed a ha).fromHeader, (hC.live a ha).valid, fun k hk => ?_⟩
    exact (hC.inv a.claim.block).owned_set k _ ((hC.live a ha).owned k hk)

omit [DecidableEq τ] in
theorem Solo.accurate (h : Solo P s t) : Accurate P s t := by
  refine ⟨fun hp b hb => ?_, fun R hp halign hbytes => ?_⟩
  · have hcount := h.count b hb
    rw [hp] at hcount
    simp only [Pc.debt, add_zero] at hcount
    exact Int.ofNat.inj hcount
  · have hprog := h.progress
    rw [hp] at hprog
    obtain ⟨hgrowth, hfull⟩ := hprog halign (small_of_bytes hbytes)
    refine ⟨fun b hb => ?_, hgrowth⟩
    obtain ⟨j, hj, hk⟩ := exists_otherArena (R := R) (h.chains.arena b hb)
    exact hfull j hj b hb hk.symm

/-- Every run hands out allocations that are apart, and a lone thread's counts and refusals are
exact. -/
theorem allocations_of_run (P : Params) (s : State τ) :
    ((machine P).Reachable s → Correct P s)
      ∧ ∀ t, (machine P).Run (fun _ a => a.By t) s → Accurate P s t :=
  ⟨fun h => (reachable_sound h).correct, fun _ h => (solo_of_run h).accurate⟩

instance : ∀ a : Action τ, Decidable (a.By t)
  | .allocate u _ => inferInstanceAs (Decidable (u = t))
  | .deallocate u _ _ => inferInstanceAs (Decidable (u = t))
  | .deallocateNull u => inferInstanceAs (Decidable (u = t))
  | .write _ _ _ => inferInstanceAs (Decidable True)
  | .run u _ _ => inferInstanceAs (Decidable (u = t))

/-- A request adds the first block, the next is served from the hint, and the first is given back. -/
theorem allocations_of_run_freed : ∃ (P : Params) (s : State (Fin 2)),
    s.live = [⟨384, 1, ⟨64, 3, 2, 0⟩⟩] ∧ s.freeCount 64 = 254 ∧ Correct P s ∧ Accurate P s 0 := by
  have hrun : ∃ s : State (Fin 2), (machine ⟨16, 256, 1, 2, 1, by decide, by decide, by decide,
      by decide, by decide, by decide, by decide, by decide⟩).Run (fun _ a => a.By 0) s
      ∧ s.live = [⟨384, 1, ⟨64, 3, 2, 0⟩⟩] ∧ s.freeCount 64 = 254 := by
    refine Machine.exists_run (List.flatten
      [[.allocate 0 ⟨20, 8, 3⟩], List.replicate 21 (.run 0 false (some 64)),
        [.allocate 0 ⟨1, 1, 3⟩], List.replicate 12 (.run 0 false none),
        [.deallocate 0 ⟨336, 20, ⟨64, 0, 3, 0⟩⟩ 3], List.replicate 8 (.run 0 false none)])
      ⟨fun _ => none, fun _ _ _ h => (Option.some_ne_none _ h.symm).elim, rfl⟩ ?_
    decide +kernel
  obtain ⟨s, hs, hlive, hcount⟩ := hrun
  exact ⟨_, s, hlive, hcount, (allocations_of_run _ s).1 hs.reachable, (allocations_of_run _ s).2 0 hs⟩

end MinStd.BitblockResource
