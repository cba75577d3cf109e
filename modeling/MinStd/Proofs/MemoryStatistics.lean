import MinStd.Proofs.MemoryStatisticsCounts

/-!
# What the statistics say
-/

namespace MinStd.MemoryStatistics

open Function

variable {τ : Type*} [Fintype τ] [DecidableEq τ] {s s' : State τ} {t u : τ} {x y : Pc}
  {kind : Kind} {i j n v size sum : ℕ} {reader : Reader}

/-- A step of one thread that counts: what it adds to the counters, the callers' blocks and what
its call owes evens out. -/
theorem Inv.count (h : Inv s) {a d l r : Kind → ℕ} (hpc : s'.pc = update s.pc t x)
    (hg : Grows s s') (hanswers : s'.answers = s.answers)
    (hpeak : s'.peakAllocated = s.peakAllocated) (hbounded : ∀ k, s'.asked k < WORD64)
    (hA : ∀ k, allocatedBy s'.shards k 0 STATISTICS_SHARDS
      = allocatedBy s.shards k 0 STATISTICS_SHARDS + a k)
    (hD : ∀ k, deallocatedBy s'.shards k 0 STATISTICS_SHARDS
      = deallocatedBy s.shards k 0 STATISTICS_SHARDS + d k)
    (hlive : ∀ k, (s'.live.map k.of).sum + r k = (s.live.map k.of).sum + l k)
    (heven : ∀ k, a k + r k + (s.pc t).owed k = d k + l k + x.owed k)
    (hasked : ∀ k, a k + x.uncounted k + s.asked k = (s.pc t).uncounted k + s'.asked k)
    (hx : x.Ok s') (hcovers : x.Covers (currentBy s'.shards .blocks)
      ∨ currentBy s'.shards .blocks ≤ currentBy s.shards .blocks
        ∧ ¬ (s.pc t).Covers (currentBy s'.shards .blocks)) :
    Inv s' := by
  refine ⟨fun k => ?_, fun k => ?_, hbounded, fun a ha => ?_, ?_, ?_,
    ok_update h.pc hg hpc hx⟩
  · have howed := sum_update (Pc.owed k) s.pc t x
    have hold := h.balance k
    have hblocks := hlive k
    have hnew := heven k
    rw [hpc, hA, hD]
    omega
  · have huncounted := sum_update (Pc.uncounted k) s.pc t x
    have hold := h.asked k
    have hnew := hasked k
    rw [hpc, hA]
    omega
  · rw [hanswers] at ha
    exact (h.answers a ha).imp_right fun hle => hle.trans hg.allocated
  · rw [hpeak]
    exact h.peak.trans hg.allocated
  · rcases hcovers with hx | ⟨hle, hy⟩
    · exact .inr ⟨t, by rwa [hpc, update_self]⟩
    · exact covered_update h.covered hpc hle hpeak.ge fun hc => absurd hc hy

/-- A block is allocated, and its counters follow. -/
theorem Inv.allocationMade (h : Inv s) (cpu : ℕ) (hpc : s.pc t = .idle)
    (hb : ∀ kind : Kind, s.asked kind + kind.of size < WORD64) :
    Inv ({ s with asked := fun kind => s.asked kind + kind.of size }.setPc t
      (.allocated .blocks (localShard cpu) size)) := by
  refine h.count (a := fun _ => 0) (d := fun _ => 0) (l := fun _ => 0) (r := fun _ => 0) rfl
    (.of_eq rfl) rfl rfl hb (fun _ => (Nat.add_zero _).symm) (fun _ => (Nat.add_zero _).symm)
    (fun _ => rfl) (fun k => ?_) (fun k => ?_) (localShard_lt cpu) (.inr ⟨le_rfl, ?_⟩)
  · rw [hpc]
    rfl
  · rw [hpc]
    show 0 + k.of size + s.asked k = 0 + (s.asked k + k.of size)
    omega
  · rw [hpc]
    exact Pc.not_covers id rfl

/-- A caller deallocates a block, and the counters follow. -/
theorem Inv.deallocationMade (h : Inv s) (cpu : ℕ) (hpc : s.pc t = .idle) (hlive : size ∈ s.live) :
    Inv ({ s with live := s.live.erase size }.setPc t
      (.deallocated .blocks (localShard cpu) size)) := by
  refine h.count (a := fun _ => 0) (d := fun _ => 0) (l := fun _ => 0) (r := fun k => k.of size)
    rfl (.of_eq rfl) rfl rfl h.bounded (fun _ => (Nat.add_zero _).symm)
    (fun _ => (Nat.add_zero _).symm) (fun k => ?_) (fun k => ?_) (fun k => ?_) (localShard_lt cpu)
    (.inr ⟨le_rfl, ?_⟩)
  · rw [← List.sum_map_erase k.of hlive]
    exact Nat.add_comm _ _
  · rw [hpc]
    show 0 + k.of size + 0 = 0 + 0 + k.of size
    omega
  · rw [hpc]
    rfl
  · rw [hpc]
    exact Pc.not_covers id rfl

theorem Inv.allocated_blocks (h : Inv s) (hpc : s.pc t = .allocated .blocks n size)
    (hx : s' = s.setShard n { s.shards n with
      allocated := update (s.shards n).allocated .blocks
        (add64 ((s.shards n).allocated .blocks) (Kind.blocks.of size)) }) :
    Inv (s'.setPc t (.allocated .bytes n size)) := by
  have hn := h.pc t
  obtain ⟨hg, hD, hA⟩ := h.allocate hpc (by rw [hpc]; rfl) hx
  have hD' := fun k => (hD k).trans (Nat.add_zero _).symm
  subst hx
  refine h.count (d := fun _ => 0) (l := fun _ => 0) (r := fun _ => 0) rfl hg rfl rfl h.bounded hA
    hD' (fun _ => rfl) (fun k => ?_) (fun k => ?_) (by rwa [hpc] at hn) (.inl (.inl trivial))
  · rw [hpc]
    rcases k with _ | _ <;> rfl
  · rw [hpc]
    rcases k with _ | _
    · rfl
    · show 0 + size + s.asked .bytes = size + s.asked .bytes
      omega

theorem Inv.allocated_bytes (h : Inv s) (hpc : s.pc t = .allocated .bytes n size)
    (hx : s' = s.setShard n { s.shards n with
      allocated := update (s.shards n).allocated .bytes
        (add64 ((s.shards n).allocated .bytes) (Kind.bytes.of size)) }) (most : ℕ) :
    Inv ({ s' with live := size :: s.live, most := most }.setPc t
      (.sumDeallocated .peak .blocks 0 0)) := by
  obtain ⟨hg, hD, hA⟩ := h.allocate hpc (by rw [hpc]; rfl) hx
  have hD' := fun k => (hD k).trans (Nat.add_zero _).symm
  subst hx
  refine h.count (d := fun _ => 0) (l := fun k => k.of size) (r := fun _ => 0) rfl hg rfl rfl
    h.bounded hA hD' (fun k => ?_) (fun k => ?_) (fun k => ?_)
    ⟨by decide, fun _ => rfl, Nat.zero_le _⟩ (.inl (.inl trivial))
  · show ((size :: s.live).map k.of).sum + 0 = _
    rw [List.map_cons, List.sum_cons, Nat.add_comm]
    omega
  · rw [hpc]
    rcases k with _ | _
    · rfl
    · show size + 0 + 0 = 0 + size + 0
      omega
  · rw [hpc]
    rcases k with _ | _ <;> rfl

theorem Inv.deallocated_blocks (h : Inv s) (hpc : s.pc t = .deallocated .blocks n size)
    (hx : s' = s.setShard n { s.shards n with
      deallocated := update (s.shards n).deallocated .blocks
        (add64 ((s.shards n).deallocated .blocks) (Kind.blocks.of size)) }) :
    Inv (s'.setPc t (.deallocated .bytes n size)) := by
  have hn := h.pc t
  obtain ⟨hg, hA, hD⟩ := h.deallocate hpc (by rw [hpc]; rfl) hx
  have hA' := fun k => (hA k).trans (Nat.add_zero _).symm
  subst hx
  refine h.count (a := fun _ => 0) (l := fun _ => 0) (r := fun _ => 0) rfl hg rfl rfl h.bounded
    hA' hD (fun _ => rfl) (fun k => ?_) (fun k => ?_) (by rwa [hpc] at hn) (.inr ⟨?_, ?_⟩)
  · rw [hpc]
    rcases k with _ | _
    · rfl
    · show 0 + 0 + size = 0 + 0 + size
      rfl
  · rw [hpc]
    rfl
  · exact tsub_le_tsub (hA .blocks).le hg.deallocated
  · rw [hpc]
    exact Pc.not_covers id rfl

theorem Inv.deallocated_bytes (h : Inv s) (hpc : s.pc t = .deallocated .bytes n size)
    (hx : s' = s.setShard n { s.shards n with
      deallocated := update (s.shards n).deallocated .bytes
        (add64 ((s.shards n).deallocated .bytes) (Kind.bytes.of size)) }) :
    Inv (s'.setPc t .idle) := by
  obtain ⟨hg, hA, hD⟩ := h.deallocate hpc (by rw [hpc]; rfl) hx
  have hA' := fun k => (hA k).trans (Nat.add_zero _).symm
  subst hx
  refine h.count (a := fun _ => 0) (l := fun _ => 0) (r := fun _ => 0) rfl hg rfl rfl h.bounded
    hA' hD (fun _ => rfl) (fun k => ?_) (fun k => ?_) trivial (.inr ⟨?_, ?_⟩)
  · rw [hpc]
    rcases k with _ | _
    · rfl
    · show 0 + 0 + size = size + 0 + 0
      omega
  · rw [hpc]
    rfl
  · exact tsub_le_tsub (hA .blocks).le hg.deallocated
  · rw [hpc]
    exact Pc.not_covers id rfl

/-! ### Sums -/

omit [DecidableEq τ] in
theorem Inv.sumDeallocated_le (h : Inv s) (hpc : s.pc t = .sumDeallocated reader kind n sum) :
    add64 sum ((s.shards n).deallocated kind) ≤ deallocatedBy s.shards kind 0 (n + 1) := by
  have hok := h.pc t
  rw [hpc] at hok
  obtain ⟨hn, -, hsum⟩ := hok
  have htop := deallocatedBy_top (f := s.shards) (k := kind) (Nat.zero_le n)
  have hsplit := deallocatedBy_split (f := s.shards) (k := kind) (Nat.zero_le (n + 1)) hn
  have hle := h.deallocated_le kind
  have hlt := h.allocated_lt kind
  rw [add64_eq (by omega)]
  omega

omit [DecidableEq τ] in
theorem Inv.sumAllocated_le (h : Inv s) {total between held : ℕ}
    (hpc : s.pc t = .sumAllocated reader kind n sum total between held) :
    add64 sum ((s.shards n).allocated kind) ≤ allocatedBy s.shards kind 0 (n + 1)
      ∧ total + between ≤ add64 sum ((s.shards n).allocated kind)
        + allocatedBy s.shards kind (n + 1) STATISTICS_SHARDS := by
  have hok := h.pc t
  rw [hpc] at hok
  obtain ⟨hn, -, hsum, hbetween, -⟩ := hok
  have htop := allocatedBy_top (f := s.shards) (k := kind) (Nat.zero_le n)
  have hsplit := allocatedBy_split (f := s.shards) (k := kind) (Nat.zero_le (n + 1)) hn
  have hrest := allocatedBy_split (f := s.shards) (k := kind) (Nat.le_add_right n 1) hn
  have hone := allocatedBy_top (f := s.shards) (k := kind) (le_refl n)
  rw [allocatedBy_self] at hone
  have hlt := h.allocated_lt kind
  rw [add64_eq (by omega)]
  omega

theorem difference_bounds {total between : ℕ} (h : total + between ≤ sum) :
    between ≤ difference sum total ∧ difference sum total ≤ sum := by
  unfold difference
  split_ifs <;> omega

/-- A sum over all counters goes to its reader. -/
theorem Inv.summed (h : Inv s) {total between held : ℕ}
    (hpc : s.pc t = .sumAllocated reader kind n sum total between held)
    (hn : ¬ n + 1 < STATISTICS_SHARDS) :
    Inv (summed s t kind (difference (add64 sum ((s.shards n).allocated kind)) total) between
      held reader) := by
  have hok := h.pc t
  rw [hpc] at hok
  have heq : n + 1 = STATISTICS_SHARDS := le_antisymm hok.1 (not_lt.1 hn)
  obtain ⟨hle, hbetween⟩ := h.sumAllocated_le hpc
  rw [heq] at hle hbetween
  rw [allocatedBy_self] at hbetween
  obtain ⟨hlow, hhigh⟩ := difference_bounds hbetween
  rcases reader with _ | _
  · have hidle : Inv (s.setPc t .idle) := h.goto trivial (fun _ => by rw [hpc]; rfl)
      (fun _ => by rw [hpc]; rfl) fun hc => by
        rw [hpc] at hc
        exact absurd hc (Pc.not_covers id rfl)
    refine { hidle with answers := fun a ha => ?_ }
    rcases List.mem_cons.1 ha with rfl | ha
    · exact ⟨⟨hok.2.2.2.2, hlow⟩, hhigh.trans hle⟩
    · exact h.answers a ha
  · obtain rfl := hok.2.1 rfl
    refine h.goto ⟨hlow, hhigh.trans hle⟩ (fun _ => by rw [hpc]; rfl) (fun _ => by rw [hpc]; rfl)
      fun hc => .inl ?_
    rw [hpc] at hc
    exact hc.imp_left fun hf => hf.elim

/-! ### The peak -/

/-- The thread is at its compare-and-swap, with what it has last read. -/
theorem Inv.peakRetry (h : Inv s) {current between : ℕ}
    (hpc : s.pc t = .peakLoad current between ∨ ∃ peak, s.pc t = .peakCas current peak between)
    (hlt : s.peakAllocated < current) :
    Inv (s.setPc t (.peakCas current s.peakAllocated between)) := by
  have hok := h.pc t
  have hbounds : between ≤ current
      ∧ current ≤ allocatedBy s.shards .blocks 0 STATISTICS_SHARDS := by
    rcases hpc with hpc | ⟨peak, hpc⟩ <;> rw [hpc] at hok
    · exact hok
    · exact ⟨hok.1, hok.2.1⟩
  refine h.goto ⟨hbounds.1, hbounds.2, hlt⟩ (fun _ => ?_) (fun _ => ?_) fun hc => .inl ?_
  · rcases hpc with hpc | ⟨peak, hpc⟩ <;> rw [hpc] <;> rfl
  · rcases hpc with hpc | ⟨peak, hpc⟩ <;> rw [hpc] <;> rfl
  · rcases hpc with hpc | ⟨peak, hpc⟩ <;> rw [hpc] at hc <;> exact hc.imp_left fun hf => hf.elim

/-- The peak is no less already. -/
theorem Inv.peakDone (h : Inv s) {current between : ℕ}
    (hpc : s.pc t = .peakLoad current between ∨ ∃ peak, s.pc t = .peakCas current peak between)
    (hle : current ≤ s.peakAllocated) : Inv (s.setPc t .idle) := by
  have hok := h.pc t
  have hbetween : between ≤ current := by
    rcases hpc with hpc | ⟨peak, hpc⟩ <;> rw [hpc] at hok <;> exact hok.1
  refine h.goto trivial (fun _ => ?_) (fun _ => ?_) fun hc => .inr ?_
  · rcases hpc with hpc | ⟨peak, hpc⟩ <;> rw [hpc] <;> rfl
  · rcases hpc with hpc | ⟨peak, hpc⟩ <;> rw [hpc] <;> rfl
  · have hcovered : currentBy s.shards .blocks ≤ between := by
      rcases hpc with hpc | ⟨peak, hpc⟩ <;> rw [hpc] at hc <;>
        obtain hf | ⟨b, hb, hcov⟩ := hc
      · exact hf.elim
      · exact hcov.trans (Option.some.inj hb).ge
      · exact hf.elim
      · exact hcov.trans (Option.some.inj hb).ge
    omega

theorem Inv.peakSwap (h : Inv s) {current between : ℕ}
    (hpc : s.pc t = .peakCas current s.peakAllocated between) :
    Inv ({ s with peakAllocated := current }.setPc t .idle) := by
  have hok := h.pc t
  rw [hpc] at hok
  obtain ⟨hbetween, hle, hlt⟩ := hok
  have howed := fun k => sum_update (Pc.owed k) s.pc t .idle
  have huncounted := fun k => sum_update (Pc.uncounted k) s.pc t .idle
  rw [hpc] at howed huncounted
  refine { h with
    balance := fun k => (h.balance k).trans (congrArg _ (howed k).symm)
    asked := fun k => Eq.trans (congrArg _ (huncounted k)) (h.asked k)
    peak := hle
    covered := covered_update h.covered rfl le_rfl hlt.le fun hc => .inr ?_
    pc := ok_update h.pc (.of_eq rfl) rfl trivial }
  rw [hpc] at hc
  rcases hc with hf | ⟨b, hb, hcov⟩
  · exact hf.elim
  · exact (hcov.trans (Option.some.inj hb).ge).trans hbetween

/-! ### Steps -/

theorem Inv.run (h : Inv s) {spurious : Bool} (hs : run s t spurious = some s') : Inv s' := by
  have hok := h.pc t
  unfold MemoryStatistics.run at hs
  split at hs
  case h_1 kind n size hpc =>
    rcases kind with _ | _ <;> cases hs
    · exact h.allocated_blocks hpc rfl
    · exact h.allocated_bytes hpc rfl _
  case h_2 kind n size hpc =>
    rcases kind with _ | _ <;> cases hs
    · exact h.deallocated_blocks hpc rfl
    · exact h.deallocated_bytes hpc rfl
  case h_3 reader kind n sum hpc =>
    have hle := h.sumDeallocated_le hpc
    rw [hpc] at hok
    obtain ⟨hn, hkind, -⟩ := hok
    split_ifs at hs with hlt <;> cases hs
    · refine h.goto ⟨hlt, hkind, hle⟩ (fun _ => by rw [hpc]; rfl) (fun _ => by rw [hpc]; rfl)
        fun hc => .inl ?_
      rw [hpc] at hc
      rcases reader with _ | _
      · exact absurd hc (Pc.not_covers id rfl)
      · exact .inl trivial
    · rw [show n + 1 = STATISTICS_SHARDS from le_antisymm hn (not_lt.1 hlt)] at hle
      have hcurrent := h.current_add kind
      refine h.goto ⟨by decide, hkind, Nat.zero_le _, ?_, h.held_le kind⟩ (fun _ => by rw [hpc]; rfl)
        (fun _ => by rw [hpc]; rfl) fun hc => .inl ?_
      · show _ + _ ≤ 0 + allocatedBy s.shards kind 0 STATISTICS_SHARDS
        omega
      · rw [hpc] at hc
        rcases reader with _ | _
        · exact absurd hc (Pc.not_covers id rfl)
        · obtain rfl := hkind rfl
          exact .inr ⟨_, rfl, le_rfl⟩
  case h_4 reader kind n sum total between held hpc =>
    obtain ⟨hle, hbetween⟩ := h.sumAllocated_le hpc
    split_ifs at hs with hlt <;> cases hs
    · rw [hpc] at hok
      refine h.goto ⟨hlt, hok.2.1, hle, hbetween, hok.2.2.2.2⟩ (fun _ => by rw [hpc]; rfl)
        (fun _ => by rw [hpc]; rfl) fun hc => .inl ?_
      rw [hpc] at hc
      rcases reader with _ | _
      · exact absurd hc (Pc.not_covers id rfl)
      · exact hc.imp_left fun hf => hf.elim
    · exact h.summed hpc hlt
  case h_5 current between hpc =>
    split_ifs at hs with hlt <;> cases hs
    · exact h.peakRetry (.inl hpc) hlt
    · exact h.peakDone (.inl hpc) (not_lt.1 hlt)
  case h_6 current peak between hpc =>
    split_ifs at hs with hpeak hlt <;> cases hs
    · obtain ⟨rfl, -⟩ := hpeak
      exact h.peakSwap hpc
    · exact h.peakRetry (.inr ⟨peak, hpc⟩) hlt
    · exact h.peakDone (.inr ⟨peak, hpc⟩) (not_lt.1 hlt)
  case h_7 => cases hs

theorem Inv.step (h : Inv s) {a : Action τ} (hb : Bounded s a) (hs : step s a = some s') :
    Inv s' := by
  rcases a with ⟨t, c⟩ | ⟨t, spurious⟩
  · rw [MemoryStatistics.step] at hs
    split_ifs at hs with hpc
    rcases c with ⟨cpu, size⟩ | ⟨cpu, size⟩ | kind
    · cases hs
      exact h.allocationMade cpu hpc hb
    · rw [stepCall] at hs
      split_ifs at hs with hlive
      cases hs
      exact h.deallocationMade cpu hpc hlive
    · cases hs
      refine h.goto ⟨by decide, by rintro ⟨⟩, Nat.zero_le _⟩ (fun _ => by rw [hpc]; rfl)
        (fun _ => by rw [hpc]; rfl) fun hc => ?_
      rw [hpc] at hc
      exact absurd hc (Pc.not_covers id rfl)
  · exact h.run hs

omit [DecidableEq τ] in
theorem inv_start (h : Start s) : Inv s := by
  have hA : ∀ kind i j, allocatedBy s.shards kind i j = 0 := fun kind i j => by
    rw [h.shards]
    exact Finset.sum_const_zero
  have hD : ∀ kind i j, deallocatedBy s.shards kind i j = 0 := fun kind i j => by
    rw [h.shards]
    exact Finset.sum_const_zero
  have howed : ∀ k, ∑ t, (s.pc t).owed k = 0 :=
    fun k => Finset.sum_eq_zero fun t _ => by rw [h.pc]; rfl
  have huncounted : ∀ k, ∑ t, (s.pc t).uncounted k = 0 :=
    fun k => Finset.sum_eq_zero fun t _ => by rw [h.pc]; rfl
  refine ⟨fun k => ?_, fun k => ?_, fun k => ?_, fun a ha => ?_, ?_, .inl ?_, fun t => ?_⟩
  · rw [hA, hD, h.live, howed]
    rfl
  · rw [hA, h.asked, huncounted]
  · rw [h.asked]
    show 0 < WORD64
    decide
  · rw [h.answers] at ha
    cases ha
  · rw [hA, h.peakAllocated]
  · rw [currentBy, hA, h.peakAllocated, Nat.zero_sub]
  · rw [h.pc]
    trivial

theorem inv_of_run (h : (machine (τ := τ)).Run Bounded s) : Inv s :=
  Machine.run_induction (G := Bounded) (fun _ h => inv_start h)
    (fun _ _ _ _ h hg hs => h.step hg hs) h

omit [DecidableEq τ] in
theorem Inv.correct (h : Inv s) : Correct s where
  quiescent hidle k := by
    have howed : ∑ t, (s.pc t).owed k = 0 := Finset.sum_eq_zero fun t _ => by rw [hidle t]; rfl
    have hbalance := h.balance k
    have hcurrent := h.current_add k
    unfold State.held
    omega
  answers a ha := by
    have hasked := h.asked a.kind
    obtain ⟨⟨hheld, hbetween⟩, hle⟩ := h.answers a ha
    exact ⟨hheld, hbetween, hle, by omega⟩
  covered hnone := ⟨h.held_le .blocks,
    h.covered.resolve_right fun hc => hc.elim fun t ht => hnone t ht.allocates⟩
  peak := h.peak

/-- Whatever the calls and their order, as long as no total passes a machine word. -/
theorem statistics_of_run (h : (machine (τ := τ)).Run Bounded s) : Correct s := (inv_of_run h).correct

end MinStd.MemoryStatistics
