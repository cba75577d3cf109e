import MinStd.SlotPolicy
import Mathlib.Data.Nat.ModEq

/-!
# A CPU keeps its slot

A slot that is claimed stays claimed.  So what a CPU has passed over stays another's, and all of its
contexts stop at the same slot.
-/

namespace MinStd.SlotPolicy

open Function

variable {τ : Type*} {P : Policy} {s s' : State τ} {t u : τ} {x : Pc} {cpu i j k : ℕ}

/-! ### Probes -/

theorem slotAt_lt (P : Policy) (cpu k : ℕ) : slotAt P cpu k < P.NUM_SLOTS := Nat.mod_lt _ P.pos

theorem exists_slotAt (P : Policy) (cpu : ℕ) (hi : i < P.NUM_SLOTS) :
    ∃ k < P.NUM_SLOTS, slotAt P cpu k = i := by
  have hlt := Nat.mod_lt cpu P.pos
  refine ⟨(i + P.NUM_SLOTS - cpu % P.NUM_SLOTS) % P.NUM_SLOTS, Nat.mod_lt _ P.pos, ?_⟩
  unfold slotAt
  rw [Nat.add_mod_mod, show cpu % P.NUM_SLOTS + (i + P.NUM_SLOTS - cpu % P.NUM_SLOTS)
    = i + P.NUM_SLOTS by omega, Nat.add_mod_right, Nat.mod_eq_of_lt hi]

theorem slotAt_inj (hj : j < P.NUM_SLOTS) (hk : k < P.NUM_SLOTS)
    (h : slotAt P cpu j = slotAt P cpu k) : j = k := by
  have hmod : Nat.ModEq P.NUM_SLOTS j k := Nat.ModEq.add_left_cancel' _ h
  rwa [Nat.ModEq, Nat.mod_eq_of_lt hj, Nat.mod_eq_of_lt hk] at hmod

/-! ### What is passed over -/

/-- The first `n` slots that the CPU probes are claimed for others. -/
def Passed (P : Policy) (s : State τ) (cpu n : ℕ) : Prop := ∀ k < n,
  s.assignedCpuId (slotAt P cpu k) ≠ INVALID_CPU_ID ∧ s.assignedCpuId (slotAt P cpu k) ≠ cpu

def Pc.Ok (P : Policy) (s : State τ) : Pc → Prop
  | claim cpu probe => cpu ≠ INVALID_CPU_ID ∧ cpu ∈ s.cpus ∧ probe < P.NUM_SLOTS
      ∧ Passed P s cpu probe
  | owned cpu probe => cpu ≠ INVALID_CPU_ID ∧ cpu ∈ s.cpus ∧ probe < P.NUM_SLOTS
      ∧ Passed P s cpu probe ∧ s.assignedCpuId (slotAt P cpu probe) ≠ INVALID_CPU_ID
  | setPeriod _ new => min P.THROTTLE_MIN P.THROTTLE_INITIAL ≤ new ∧ new ≤ P.THROTTLE_INITIAL
  | _ => True

/-- The answer is the CPU's slot, or every slot is claimed for another. -/
def Answer.Ok (P : Policy) (s : State τ) (a : Answer) : Prop :=
  a.cpu ≠ INVALID_CPU_ID ∧ a.cpu ∈ s.cpus
    ∧ ((∃ k < P.NUM_SLOTS, a.slot = slotAt P a.cpu k ∧ s.assignedCpuId a.slot = a.cpu)
      ∨ a.slot = a.cpu % P.NUM_SLOTS ∧ Passed P s a.cpu P.NUM_SLOTS)

structure Inv (P : Policy) (s : State τ) : Prop where
  first : ∀ cpu, cpu ≠ INVALID_CPU_ID → ∀ k < P.NUM_SLOTS,
    s.assignedCpuId (slotAt P cpu k) = cpu → Passed P s cpu k
  called : ∀ i, s.assignedCpuId i ≠ INVALID_CPU_ID → s.assignedCpuId i ∈ s.cpus
  pc : ∀ t, (s.pc t).Ok P s
  answers : ∀ a ∈ s.answers, a.Ok P s
  period : ∀ i, min P.THROTTLE_MIN P.THROTTLE_INITIAL ≤ s.reclaimThrottlePeriod i
    ∧ s.reclaimThrottlePeriod i ≤ P.THROTTLE_INITIAL

/-- What is claimed stays claimed, and who has called has called. -/
structure Keeps (s s' : State τ) : Prop where
  assigned : ∀ i, s.assignedCpuId i ≠ INVALID_CPU_ID → s'.assignedCpuId i = s.assignedCpuId i
  cpus : s.cpus ⊆ s'.cpus

theorem Passed.keeps {n : ℕ} (hk : Keeps s s') (h : Passed P s cpu n) : Passed P s' cpu n := by
  intro k hlt
  rw [hk.assigned _ (h k hlt).1]
  exact h k hlt

theorem Pc.Ok.keeps (hk : Keeps s s') (h : x.Ok P s) : x.Ok P s' := by
  cases x with
  | idle => trivial
  | claim cpu probe => exact ⟨h.1, hk.cpus h.2.1, h.2.2.1, h.2.2.2.keeps hk⟩
  | owned cpu probe =>
    obtain ⟨hcpu, hmem, hlt, hpassed, hset⟩ := h
    exact ⟨hcpu, hk.cpus hmem, hlt, hpassed.keeps hk, by rwa [hk.assigned _ hset]⟩
  | period slot shorten => trivial
  | setPeriod slot period => exact h

theorem Answer.Ok.keeps {a : Answer} (hk : Keeps s s') (h : a.Ok P s) : a.Ok P s' := by
  obtain ⟨hcpu, hmem, ⟨k, hlt, hslot, hset⟩ | ⟨hslot, hpassed⟩⟩ := h
  · refine ⟨hcpu, hk.cpus hmem, .inl ⟨k, hlt, hslot, ?_⟩⟩
    rw [hk.assigned _ (by rwa [hset])]
    exact hset
  · exact ⟨hcpu, hk.cpus hmem, .inr ⟨hslot, hpassed.keeps hk⟩⟩

/-- A CPU has one slot at most. -/
theorem Inv.slot_unique (h : Inv P s) (hcpu : cpu ≠ INVALID_CPU_ID) (hi : i < P.NUM_SLOTS)
    (hj : j < P.NUM_SLOTS) (hsi : s.assignedCpuId i = cpu) (hsj : s.assignedCpuId j = cpu) :
    i = j := by
  obtain ⟨m, hm, rfl⟩ := exists_slotAt P cpu hi
  obtain ⟨n, hn, rfl⟩ := exists_slotAt P cpu hj
  rcases lt_trichotomy m n with hlt | rfl | hlt
  · exact absurd hsi (h.first cpu hcpu n hn hsj m hlt).2
  · rfl
  · exact absurd hsj (h.first cpu hcpu m hm hsi n hlt).2

/-! ### Steps -/

section Steps

variable [DecidableEq τ]

/-- A step of one thread that claims nothing. -/
theorem Inv.goto (h : Inv P s) (hpc : s'.pc = update s.pc t x)
    (hassigned : s'.assignedCpuId = s.assignedCpuId) (hcpus : s.cpus ⊆ s'.cpus)
    (hanswers : ∀ a ∈ s'.answers, a ∈ s.answers ∨ a.Ok P s') (hx : x.Ok P s')
    (hperiod : ∀ i, min P.THROTTLE_MIN P.THROTTLE_INITIAL ≤ s'.reclaimThrottlePeriod i
      ∧ s'.reclaimThrottlePeriod i ≤ P.THROTTLE_INITIAL) : Inv P s' := by
  have hk : Keeps s s' := ⟨fun i _ => congrFun hassigned i, hcpus⟩
  refine ⟨fun cpu hcpu k hlt hset => ?_, fun i hi => ?_, fun u => ?_, fun a ha => ?_, hperiod⟩
  · rw [hassigned] at hset
    exact (h.first cpu hcpu k hlt hset).keeps hk
  · rw [hassigned] at hi ⊢
    exact hcpus (h.called i hi)
  · rw [hpc]
    by_cases hu : u = t
    · rw [hu, update_self]
      exact hx
    · rw [update_of_ne hu]
      exact (h.pc u).keeps hk
  · rcases hanswers a ha with ha | ha
    · exact (h.answers a ha).keeps hk
    · exact ha

/-- The CPU claims the slot it probes. -/
theorem Inv.claim (h : Inv P s) {probe : ℕ} (hpc : s.pc t = .claim cpu probe)
    (hfree : s.assignedCpuId (slotAt P cpu probe) = INVALID_CPU_ID) :
    Inv P ({ s with assignedCpuId := update s.assignedCpuId (slotAt P cpu probe) cpu }.answer t cpu
      (slotAt P cpu probe)) := by
  have hok := h.pc t
  rw [hpc] at hok
  obtain ⟨hcpu, hmem, hprobe, hpassed⟩ := hok
  have hne : ∀ i, s.assignedCpuId i ≠ INVALID_CPU_ID → i ≠ slotAt P cpu probe := by
    rintro i hi rfl
    exact hi hfree
  have hk : Keeps s ({ s with
      assignedCpuId := update s.assignedCpuId (slotAt P cpu probe) cpu }.answer t cpu
        (slotAt P cpu probe)) :=
    ⟨fun i hi => update_of_ne (hne i hi) _ _, subset_rfl⟩
  refine ⟨fun c hc k hlt hset => ?_, fun i hi => ?_, fun u => ?_, fun a ha => ?_, h.period⟩
  · change update s.assignedCpuId (slotAt P cpu probe) cpu (slotAt P c k) = c at hset
    by_cases hslot : slotAt P c k = slotAt P cpu probe
    · rw [hslot, update_self] at hset
      subst hset
      rw [slotAt_inj hlt hprobe hslot]
      exact hpassed.keeps hk
    · rw [update_of_ne hslot] at hset
      exact (h.first c hc k hlt hset).keeps hk
  · change update s.assignedCpuId (slotAt P cpu probe) cpu i ≠ _ at hi
    show update s.assignedCpuId (slotAt P cpu probe) cpu i ∈ s.cpus
    by_cases hslot : i = slotAt P cpu probe
    · rw [hslot, update_self]
      exact hmem
    · rw [update_of_ne hslot] at hi ⊢
      exact h.called i hi
  · show (update s.pc t .idle u).Ok P _
    by_cases hu : u = t
    · rw [hu, update_self]
      trivial
    · rw [update_of_ne hu]
      exact (h.pc u).keeps hk
  · rcases List.mem_cons.1 ha with rfl | ha
    · exact ⟨hcpu, hmem, .inl ⟨probe, hprobe, rfl, update_self _ _ _⟩⟩
    · exact (h.answers a ha).keeps hk

theorem Inv.run (h : Inv P s) (hs : run P s t = some s') : Inv P s' := by
  have hok := h.pc t
  unfold SlotPolicy.run at hs
  split at hs
  case h_1 cpu probe hpc =>
    rw [hpc] at hok
    split_ifs at hs with hfree <;> cases hs
    · exact h.claim hpc hfree
    · exact h.goto rfl rfl subset_rfl (fun _ ha => .inl ha)
        ⟨hok.1, hok.2.1, hok.2.2.1, hok.2.2.2, hfree⟩ h.period
  case h_2 cpu probe hpc =>
    rw [hpc] at hok
    obtain ⟨hcpu, hmem, hprobe, hpassed, hset⟩ := hok
    have hpassed' : s.assignedCpuId (slotAt P cpu probe) ≠ cpu → Passed P s cpu (probe + 1) := by
      intro hne k hk
      rcases Nat.lt_succ_iff_lt_or_eq.1 hk with hk | rfl
      · exact hpassed k hk
      · exact ⟨hset, hne⟩
    split_ifs at hs with hown hlt <;> cases hs
    · refine h.goto rfl rfl subset_rfl (fun a ha => ?_) trivial h.period
      rcases List.mem_cons.1 ha with rfl | ha
      · exact .inr ⟨hcpu, hmem, .inl ⟨probe, hprobe, rfl, hown⟩⟩
      · exact .inl ha
    · exact h.goto rfl rfl subset_rfl (fun _ ha => .inl ha) ⟨hcpu, hmem, hlt, hpassed' hown⟩
        h.period
    · refine h.goto rfl rfl subset_rfl (fun a ha => ?_) trivial h.period
      rcases List.mem_cons.1 ha with rfl | ha
      · have hall := hpassed' hown
        rw [show probe + 1 = P.NUM_SLOTS by omega] at hall
        exact .inr ⟨hcpu, hmem, .inr ⟨rfl, hall⟩⟩
      · exact .inl ha
  case h_3 slot shorten hpc =>
    obtain ⟨hlow, hhigh⟩ := h.period slot
    dsimp only at hs
    split_ifs at hs <;> cases hs
    · exact h.goto rfl rfl subset_rfl (fun _ ha => .inl ha) ⟨by omega, by omega⟩ h.period
    · exact h.goto rfl rfl subset_rfl (fun _ ha => .inl ha) trivial h.period
    · exact h.goto rfl rfl subset_rfl (fun _ ha => .inl ha) ⟨by omega, by omega⟩ h.period
    · exact h.goto rfl rfl subset_rfl (fun _ ha => .inl ha) trivial h.period
  case h_4 slot period hpc =>
    rw [hpc] at hok
    cases hs
    refine h.goto rfl rfl subset_rfl (fun _ ha => .inl ha) trivial fun i => ?_
    show _ ≤ update s.reclaimThrottlePeriod slot period i
      ∧ update s.reclaimThrottlePeriod slot period i ≤ _
    by_cases hi : i = slot
    · rw [hi, update_self]
      exact hok
    · rw [update_of_ne hi]
      exact h.period i
  case h_5 => cases hs

theorem Inv.step (h : Inv P s) {a : Action τ} (hs : step P s a = some s') : Inv P s' := by
  rcases a with ⟨t, c⟩ | t
  · rw [SlotPolicy.step] at hs
    split_ifs at hs with hpc
    rcases c with cpu | slot | ⟨slot, shorten⟩
    · rw [stepCall] at hs
      split_ifs at hs with hcpu
      cases hs
      exact h.goto rfl rfl (Finset.subset_insert _ _) (fun _ ha => .inl ha)
        ⟨hcpu, Finset.mem_insert_self _ _, P.pos, by intro k hk; cases hk⟩ h.period
    · cases hs
      exact { h with }
    · cases hs
      exact h.goto rfl rfl subset_rfl (fun _ ha => .inl ha) trivial h.period
  · exact h.run hs

omit [DecidableEq τ] in
theorem inv_start (h : Start P s) : Inv P s where
  first cpu hcpu k _ hset := by
    rw [h.assignedCpuId] at hset
    exact absurd hset.symm hcpu
  called i hi := by
    rw [h.assignedCpuId] at hi
    exact absurd rfl hi
  pc t := by
    rw [h.pc]
    trivial
  answers a ha := by
    rw [h.answers] at ha
    cases ha
  period i := by
    rw [h.reclaimThrottlePeriod]
    exact ⟨min_le_right _ _, le_rfl⟩

theorem inv_of_reachable (h : (machine P).Reachable s) : Inv P s :=
  Machine.reachable_induction (I := Inv P) (fun _ h => inv_start h) (fun _ _ _ _ h hs => h.step hs) h

end Steps

/-! ### What the invariant says -/

/-- A CPU that finds every slot claimed for another is one of more CPUs than there are slots. -/
theorem Inv.card_lt (h : Inv P s) (hmem : cpu ∈ s.cpus) (hpassed : Passed P s cpu P.NUM_SLOTS) :
    P.NUM_SLOTS < s.cpus.card := by
  have hall : ∀ i < P.NUM_SLOTS, s.assignedCpuId i ≠ INVALID_CPU_ID ∧ s.assignedCpuId i ≠ cpu := by
    intro i hi
    obtain ⟨k, hk, rfl⟩ := exists_slotAt P cpu hi
    exact hpassed k hk
  have hinto : ∀ i ∈ Finset.range P.NUM_SLOTS, s.assignedCpuId i ∈ s.cpus.erase cpu := by
    intro i hi
    obtain ⟨hset, hne⟩ := hall i (Finset.mem_range.1 hi)
    exact Finset.mem_erase.2 ⟨hne, h.called i hset⟩
  have hle := Finset.card_le_card_of_injOn s.assignedCpuId hinto fun i hi j hj hij =>
    h.slot_unique (hall i (Finset.mem_range.1 hi)).1 (Finset.mem_range.1 hi)
      (Finset.mem_range.1 hj) rfl hij.symm
  rw [Finset.card_range] at hle
  exact hle.trans_lt (Finset.card_erase_lt_of_mem hmem)

theorem Inv.correct (h : Inv P s) : Correct P s where
  slot a ha := by
    obtain ⟨-, -, ⟨k, -, hslot, -⟩ | ⟨hslot, -⟩⟩ := h.answers a ha
    · rw [hslot]
      exact slotAt_lt P a.cpu k
    · rw [hslot]
      exact Nat.mod_lt _ P.pos
  stable a ha b hb hab := by
    obtain ⟨hcpu, -, hca⟩ := h.answers a ha
    obtain ⟨-, -, hcb⟩ := h.answers b hb
    rw [← hab] at hcb
    rcases hca with ⟨j, hj, hsa, hseta⟩ | ⟨hsa, hpa⟩ <;>
      rcases hcb with ⟨k, hk, hsb, hsetb⟩ | ⟨hsb, hpb⟩
    · exact h.slot_unique hcpu (hsa ▸ slotAt_lt P _ _) (hsb ▸ slotAt_lt P _ _) hseta hsetb
    · exact absurd (hsa ▸ hseta) (hpb j hj).2
    · exact absurd (hsb ▸ hsetb) (hpa k hk).2
    · rw [hsa, hsb]
  apart hcard a ha b hb hab := by
    obtain ⟨-, hmema, hca⟩ := h.answers a ha
    obtain ⟨-, hmemb, hcb⟩ := h.answers b hb
    rcases hca with ⟨j, hj, hsa, hseta⟩ | ⟨-, hpa⟩
    · rcases hcb with ⟨k, hk, hsb, hsetb⟩ | ⟨-, hpb⟩
      · rw [← hseta, hab, hsetb]
      · exact absurd (h.card_lt hmemb hpb) (not_lt.2 hcard)
    · exact absurd (h.card_lt hmema hpa) (not_lt.2 hcard)
  period := h.period

/-- In every state that any contexts of any CPUs can reach. -/
theorem correct_of_reachable [DecidableEq τ] (h : (machine P).Reachable s) : Correct P s :=
  (inv_of_reachable h).correct

/-! ### A run -/

def twoSlots : Policy := ⟨2, 100, 10, by decide⟩

def start : State Bool where
  assignedCpuId _ := INVALID_CPU_ID
  reclaimThrottleCounter _ := 0
  reclaimThrottlePeriod _ := 100
  pc _ := .idle
  cpus := ∅
  answers := []

theorem start_start : Start twoSlots start := ⟨rfl, rfl, rfl, rfl, rfl⟩

/-- Two contexts of CPU 3 and one of CPU 1 look for slots, and the throttle is shortened. -/
def contended : List (Action Bool) :=
  [.call false (.acquireSlot 1), .run false, .call false (.acquireSlot 3), .run false, .run false,
    .call true (.acquireSlot 3), .run true, .run true, .run true, .run false, .run false,
    .call true (.adapt 0 true), .run true, .run true]

theorem correct_of_reachable_contended : ∃ s : State Bool, (machine twoSlots).Reachable s
    ∧ s.answers = [⟨3, 0⟩, ⟨3, 0⟩, ⟨1, 1⟩] ∧ s.reclaimThrottlePeriod 0 = 99
    ∧ Correct twoSlots s := by
  obtain ⟨s, hs, hanswers, hperiod⟩ : ∃ s : State Bool, (machine twoSlots).Reachable s
      ∧ s.answers = [⟨3, 0⟩, ⟨3, 0⟩, ⟨1, 1⟩] ∧ s.reclaimThrottlePeriod 0 = 99 :=
    Machine.exists_run contended start_start (by decide +kernel)
  exact ⟨s, hs, hanswers, hperiod, correct_of_reachable hs⟩

end MinStd.SlotPolicy
