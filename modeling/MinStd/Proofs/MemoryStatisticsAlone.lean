import MinStd.Proofs.MemoryStatistics

/-!
# The statistics of one context
-/

namespace MinStd.MemoryStatistics

open Function

variable {τ : Type*} {s s' : State τ} {t u : τ} {x y : Pc}
  {kind : Kind} {i j n v size sum : ℕ} {reader : Reader}

namespace Pc

/-- What a call has summed while nobody counts. -/
def Sums (s : State τ) : Pc → Prop
  | sumDeallocated _ kind shard sum => sum = deallocatedBy s.shards kind 0 shard
  | sumAllocated _ kind shard sum total between held => sum = allocatedBy s.shards kind 0 shard
      ∧ total = deallocatedBy s.shards kind 0 STATISTICS_SHARDS ∧ between = currentBy s.shards kind
      ∧ held = between
  | peakLoad current between => current = currentBy s.shards .blocks ∧ between = current
  | peakCas current peak between => current = currentBy s.shards .blocks ∧ between = current
      ∧ peak = s.peakAllocated
  | _ => True

/-- The most blocks that callers have had, as the peak will have it after the call. -/
def Most (s : State τ) : Pc → Prop
  | sumDeallocated .peak _ _ _ => s.most = max s.peakAllocated (currentBy s.shards .blocks)
  | sumAllocated .peak _ _ _ _ _ _ => s.most = max s.peakAllocated (currentBy s.shards .blocks)
  | peakLoad _ _ => s.most = max s.peakAllocated (currentBy s.shards .blocks)
  | peakCas _ _ _ => s.most = max s.peakAllocated (currentBy s.shards .blocks)
  | _ => s.most = s.peakAllocated

theorem Most.rest (h : x.Most s) (hx : ¬ x.Allocates) : s.most = s.peakAllocated := by
  cases x with
  | idle => exact h
  | allocated kind shard size => exact absurd trivial hx
  | deallocated kind shard size => exact h
  | sumDeallocated reader kind shard sum =>
    cases reader with
    | caller => exact h
    | peak => exact absurd rfl hx
  | sumAllocated reader kind shard sum total between held =>
    cases reader with
    | caller => exact h
    | peak => exact absurd rfl hx
  | peakLoad current between => exact absurd trivial hx
  | peakCas current peak between => exact absurd trivial hx

end Pc

/-- All threads but `t` are idle. -/
def State.Only (s : State τ) (t : τ) : Prop := ∀ u, u ≠ t → s.pc u = .idle

structure AloneInv (s : State τ) : Prop where
  sums : ∀ t, (s.pc t).Sums s
  most : ∀ t, s.Only t → (s.pc t).Most s
  rest : (∀ t, ¬ (s.pc t).Allocates) → s.most = s.peakAllocated
  answers : ∀ a ∈ s.answers, a.value = a.held

section Update

variable [DecidableEq τ]

theorem State.Only.aloneInv (ho : s.Only t) (hpc : s'.pc = update s.pc t x)
    (hsums : x.Sums s') (hmost : x.Most s') (hanswers : ∀ a ∈ s'.answers, a.value = a.held) :
    AloneInv s' := by
  have hidle : ∀ u, u ≠ t → s'.pc u = .idle := fun u hu => by rw [hpc, update_of_ne hu, ho u hu]
  have hself : s'.pc t = x := by rw [hpc, update_self]
  refine ⟨fun u => ?_, fun u hu => ?_, fun hn => hmost.rest (hself ▸ hn t), hanswers⟩
  · by_cases hut : u = t
    · rw [hut, hself]
      exact hsums
    · rw [hidle u hut]
      trivial
  · by_cases hut : u = t
    · rw [hut, hself]
      exact hmost
    · have hx : x = .idle := by rw [← hself, hu t fun htu => hut htu.symm]
      rw [hidle u hut, ← hx]
      exact hmost

end Update

section Threads

variable [Fintype τ] [DecidableEq τ]

omit [DecidableEq τ] in
theorem Inv.sumDeallocated_eq (h : Inv s) (hn : n < STATISTICS_SHARDS) :
    add64 (deallocatedBy s.shards kind 0 n) ((s.shards n).deallocated kind)
      = deallocatedBy s.shards kind 0 (n + 1) := by
  have htop := deallocatedBy_top (f := s.shards) (k := kind) (Nat.zero_le n)
  have hsplit := deallocatedBy_split (f := s.shards) (k := kind) (Nat.zero_le (n + 1)) hn
  have hle := h.deallocated_le kind
  have hlt := h.allocated_lt kind
  rw [add64_eq (by omega), htop]

omit [DecidableEq τ] in
theorem Inv.sumAllocated_eq (h : Inv s) (hn : n < STATISTICS_SHARDS) :
    add64 (allocatedBy s.shards kind 0 n) ((s.shards n).allocated kind)
      = allocatedBy s.shards kind 0 (n + 1) := by
  have htop := allocatedBy_top (f := s.shards) (k := kind) (Nat.zero_le n)
  have hsplit := allocatedBy_split (f := s.shards) (k := kind) (Nat.zero_le (n + 1)) hn
  have hlt := h.allocated_lt kind
  rw [add64_eq (by omega), htop]

theorem difference_eq (a d : ℕ) : difference a d = a - d := by
  unfold difference
  split_ifs <;> omega

omit [DecidableEq τ] in
/-- The counters say what callers have, and what the call owes. -/
theorem Inv.held_add (h : Inv s) (ho : s.Only t) (k : Kind) :
    s.held k + (s.pc t).owed k = currentBy s.shards k := by
  have howed : ∑ u, (s.pc u).owed k = (s.pc t).owed k :=
    Finset.sum_eq_single t (fun u _ hu => by rw [ho u hu]; rfl)
      fun ht => absurd (Finset.mem_univ t) ht
  have hbalance := h.balance k
  have hcurrent := h.current_add k
  unfold State.held
  omega

omit [Fintype τ] [DecidableEq τ] in
theorem held_blocks (s : State τ) : s.held .blocks = s.live.length := by
  show (s.live.map fun _ => 1).sum = _
  simp

theorem AloneInv.run (h : AloneInv s) (hi : Inv s) {spurious : Bool} (ho : s.Only t)
    (hs : run s t spurious = some s') : AloneInv s' := by
  have hok := hi.pc t
  have hsums := h.sums t
  have hmost := h.most t ho
  unfold MemoryStatistics.run at hs
  split at hs
  case h_1 kind n size hpc =>
    rw [hpc] at hmost
    rcases kind with _ | _ <;> cases hs
    · exact ho.aloneInv rfl trivial hmost h.answers
    · obtain ⟨-, hD, hA⟩ := hi.allocate (v := size) hpc (by rw [hpc]; rfl) rfl
      have hcurrent := congrArg₂ (· - ·) ((hA .blocks).trans (Nat.add_zero _)) (hD .blocks)
      have hheld := hi.held_add ho .blocks
      rw [hpc, held_blocks] at hheld
      refine ho.aloneInv rfl deallocatedBy_self.symm ?_ h.answers
      show max s.most (s.live.length + 1) = max s.peakAllocated _
      rw [show s.most = s.peakAllocated from hmost]
      exact congrArg _ (Eq.trans hheld hcurrent.symm)
  case h_2 kind n size hpc =>
    rw [hpc] at hmost
    rcases kind with _ | _ <;> cases hs <;> exact ho.aloneInv rfl trivial hmost h.answers
  case h_3 reader kind n sum hpc =>
    rw [hpc] at hok hsums hmost
    obtain ⟨hn, -, -⟩ := hok
    have hsum : sum = deallocatedBy s.shards kind 0 n := hsums
    rw [hsum, hi.sumDeallocated_eq hn] at hs
    split_ifs at hs with hlt <;> cases hs
    · exact ho.aloneInv rfl rfl (by rcases reader with _ | _ <;> exact hmost) h.answers
    · rw [show n + 1 = STATISTICS_SHARDS from le_antisymm hn (not_lt.1 hlt)]
      have hheld := hi.held_add ho kind
      rw [hpc] at hheld
      exact ho.aloneInv rfl ⟨allocatedBy_self.symm, rfl, rfl, hheld⟩
        (by rcases reader with _ | _ <;> exact hmost) h.answers
  case h_4 reader kind n sum total between held hpc =>
    rw [hpc] at hok hsums hmost
    obtain ⟨hn, hkind, -⟩ := hok
    obtain ⟨hsum, htotal, hbetween, hheld⟩ := hsums
    rw [hsum, hi.sumAllocated_eq hn] at hs
    split_ifs at hs with hlt <;> cases hs
    · exact ho.aloneInv rfl ⟨rfl, htotal, hbetween, hheld⟩ (by rcases reader with _ | _ <;> exact hmost)
        h.answers
    · have hvalue : difference (allocatedBy s.shards kind 0 (n + 1)) total = between := by
        rw [show n + 1 = STATISTICS_SHARDS from le_antisymm hn (not_lt.1 hlt), htotal, hbetween,
          difference_eq, currentBy]
      rw [hvalue]
      rcases reader with _ | _
      · refine ho.aloneInv rfl trivial hmost fun a ha => ?_
        rcases List.mem_cons.1 ha with rfl | ha
        · exact hheld.symm
        · exact h.answers a ha
      · obtain rfl := hkind rfl
        exact ho.aloneInv rfl ⟨hbetween, rfl⟩ hmost h.answers
  case h_5 current between hpc =>
    rw [hpc] at hsums hmost
    obtain ⟨hcurrent, hbetween⟩ := hsums
    have hmax : s.most = max s.peakAllocated (currentBy s.shards .blocks) := hmost
    split_ifs at hs with hlt <;> cases hs
    · exact ho.aloneInv rfl ⟨hcurrent, hbetween, rfl⟩ hmax h.answers
    · refine ho.aloneInv rfl trivial ?_ h.answers
      show s.most = s.peakAllocated
      omega
  case h_6 current peak between hpc =>
    rw [hpc] at hok hsums hmost
    obtain ⟨hcurrent, hbetween, hpeak⟩ := hsums
    obtain ⟨-, -, hlt⟩ := hok
    have hmax : s.most = max s.peakAllocated (currentBy s.shards .blocks) := hmost
    split_ifs at hs <;> cases hs
    · refine ho.aloneInv rfl trivial ?_ h.answers
      show s.most = current
      omega
    · exact ho.aloneInv rfl ⟨hcurrent, hbetween, rfl⟩ hmax h.answers
    · refine ho.aloneInv rfl trivial ?_ h.answers
      show s.most = s.peakAllocated
      omega
  case h_7 => cases hs

theorem aloneInv_of_run (h : (machine (τ := τ)).Run Alone s) : AloneInv s := by
  refine Machine.run_induction (G := Alone) (fun s h => ?_) (fun s s' a hr h hg hs => ?_) h
  · refine ⟨fun t => ?_, fun t _ => ?_, fun _ => h.most.trans h.peakAllocated.symm, fun a ha => ?_⟩
    · rw [h.pc]
      trivial
    · rw [h.pc]
      exact h.most.trans h.peakAllocated.symm
    · rw [h.answers] at ha
      cases ha
  · have hi := inv_of_run (Machine.run_mono (fun _ _ hg => hg.1) hr)
    rcases a with ⟨t, c⟩ | ⟨t, spurious⟩
    · have ho : s.Only t := hg.2
      change (if s.pc t = .idle then stepCall s t c else none) = some s' at hs
      split_ifs at hs with hpc
      have hmost := h.most t ho
      rw [hpc] at hmost
      rcases c with ⟨cpu, size⟩ | ⟨cpu, size⟩ | kind
      · cases hs
        exact ho.aloneInv rfl trivial hmost h.answers
      · rw [stepCall] at hs
        split_ifs at hs
        cases hs
        exact ho.aloneInv rfl trivial hmost h.answers
      · cases hs
        exact ho.aloneInv rfl deallocatedBy_self.symm hmost h.answers
    · exact h.run hi hg.2 hs

/-- While calls do not overlap every answer is what callers have, and the peak is the most blocks
that they have had. -/
theorem exact_of_run (h : (machine (τ := τ)).Run Alone s) : Exact s :=
  have hinv := aloneInv_of_run h
  ⟨hinv.answers, fun hn => (hinv.rest hn).symm⟩

end Threads

/-! ### Runs -/

def start : State Bool where
  shards _ := ⟨fun _ => 0, fun _ => 0⟩
  peakAllocated := 0
  pc _ := .idle
  live := []
  asked _ := 0
  answers := []
  most := 0

theorem start_start : Start start := ⟨rfl, rfl, rfl, rfl, rfl, rfl, rfl⟩

def runs (t : Bool) (n : ℕ) : List (Action Bool) := List.replicate n (.run t false)

instance (s : State Bool) : ∀ a, Decidable (Bounded s a)
  | .call _ (.allocationMade _ size) =>
    decidable_of_iff (s.asked .blocks + 1 < WORD64 ∧ s.asked .bytes + size < WORD64)
      ⟨fun h k => by cases k; exacts [h.1, h.2], fun h => ⟨h .blocks, h .bytes⟩⟩
  | .call _ (.deallocationMade _ _) => .isTrue trivial
  | .call _ (.currentAllocated _) => .isTrue trivial
  | .run _ _ => .isTrue trivial

/-- A reader has summed the deallocations when a block that was allocated on another CPU meanwhile
is deallocated again. -/
def overlapping : List (Action Bool) :=
  .call false (.allocationMade 3 100) :: runs false 36 ++ .call true (.currentAllocated .bytes)
    :: runs true 16 ++ .call false (.allocationMade 20 8) :: runs false 36
    ++ .call false (.deallocationMade 3 100) :: runs false 2 ++ runs true 16

theorem statistics_of_run_overlapping : ∃ s : State Bool, machine.Run Bounded s
    ∧ s.answers = [⟨.bytes, 108, 100, 100⟩] ∧ s.live = [8] ∧ s.peakAllocated = 2 ∧ Correct s := by
  obtain ⟨s, hs, hanswers, hlive, hpeak⟩ : ∃ s : State Bool, machine.Run Bounded s
      ∧ s.answers = [⟨.bytes, 108, 100, 100⟩] ∧ s.live = [8] ∧ s.peakAllocated = 2 :=
    Machine.exists_run overlapping start_start (by decide +kernel)
  exact ⟨s, hs, hanswers, hlive, hpeak, statistics_of_run hs⟩

instance (s : State Bool) : ∀ a, Decidable (Alone s a)
  | .call _ _ => instDecidableAnd
  | .run _ _ => instDecidableAnd

/-- A block is allocated on one CPU, another is allocated after it is deallocated on another CPU. -/
def inTurn : List (Action Bool) :=
  .call false (.allocationMade 3 100) :: runs false 36 ++ .call true (.deallocationMade 20 100)
    :: runs true 2 ++ .call false (.allocationMade 9 8) :: runs false 35
    ++ .call true (.currentAllocated .blocks) :: runs true 32

theorem exact_of_run_inTurn : ∃ s : State Bool, machine.Run Alone s
    ∧ s.answers = [⟨.blocks, 1, 1, 1⟩] ∧ s.peakAllocated = 1 ∧ Exact s := by
  obtain ⟨s, hs, hanswers, hpeak⟩ : ∃ s : State Bool, machine.Run Alone s
      ∧ s.answers = [⟨.blocks, 1, 1, 1⟩] ∧ s.peakAllocated = 1 :=
    Machine.exists_run inTurn start_start (by decide +kernel)
  exact ⟨s, hs, hanswers, hpeak, exact_of_run hs⟩

end MinStd.MemoryStatistics
