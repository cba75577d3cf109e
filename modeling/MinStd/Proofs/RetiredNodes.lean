import MinStd.RetiredNodes
import MinStd.Proofs.EpochReclaimer

/-!
# No node is destroyed under a reader that may hold it

A node's stamp is at least the epoch of every section that was open at its final unlink and still
is: the stamp is loaded after the unlink, and epochs only grow.  A reclaim scan that passed for an
epoch leaves open only sections that began past it, so what it may destroy none of them saw linked.
-/

namespace MinStd.RetiredNodes

open EpochReclaimer (Pc)

variable {Tid : Type*} {NUM_SLOTS : ℕ}

/-- The stamp of `n` covers every open section that began before its final unlink. -/
def Stamped (s : State Tid) (n : Node) : Prop :=
  ∀ u i, u ∈ s.epoch.insiders i → s.epoch.enteredAt u < s.unlinkedAt n →
    s.epoch.entryEpoch u ≤ s.retiredEpoch n

/-- The node has been unlinked for the last time. -/
def Off (s : State Tid) (n : Node) : Prop :=
  (s.status n = .unlinked ∨ s.status n = .destroyed) ∧ s.unlinkedAt n ≤ s.epoch.clock

/-- The node is on a retired list or in the hands of a thread that took it from one, or is about
to be pushed. -/
def Enqueued (s : State Tid) (n : Node) : Prop :=
  (∃ i, n ∈ s.localRetiredHead i) ∨ ∃ t, n ∈ (s.work t).stamped

structure Inv (NUM_SLOTS : ℕ) (s : State Tid) : Prop where
  epoch : EpochReclaimer.Inv NUM_SLOTS s.epoch
  unstamped : ∀ t n, (s.work t).unstamped? = some n → Off s n
  enqueued : ∀ n, Enqueued s n → Off s n ∧ Stamped s n

theorem inv_start : Inv NUM_SLOTS (State.start : State Tid) where
  epoch := EpochReclaimer.inv_start
  unstamped t n h := by simp [State.start, Work.unstamped?] at h
  enqueued n h := by
    rcases h with ⟨i, h⟩ | ⟨t, h⟩ <;> simp [State.start, Work.stamped] at h

section Frame

variable {s s' : State Tid}

/-- A node that is off its list stays off it, and stays stamped, while sections come and go: one
that begins now begins after the unlink. -/
theorem Stamped.mono {n : Node} (hoff : Off s n) (h : Stamped s n)
    (hun : s'.unlinkedAt n = s.unlinkedAt n) (hre : s.retiredEpoch n ≤ s'.retiredEpoch n)
    (hin : ∀ u i, u ∈ s'.epoch.insiders i → u ∈ s.epoch.insiders i
      ∧ s'.epoch.enteredAt u = s.epoch.enteredAt u ∧ s'.epoch.entryEpoch u = s.epoch.entryEpoch u
      ∨ s'.epoch.enteredAt u = s.epoch.clock) : Stamped s' n := by
  intro u i hu hlt
  rw [hun] at hlt
  rcases hin u i hu with ⟨hu', hat, he⟩ | hat
  · rw [hat] at hlt
    exact he.le.trans ((h u i hu' hlt).trans hre)
  · have := hoff.2
    omega

theorem Off.mono {n : Node} (h : Off s n)
    (hst : s'.status n = s.status n ∨ s'.status n = .destroyed)
    (hun : s'.unlinkedAt n = s.unlinkedAt n) (hck : s.epoch.clock ≤ s'.epoch.clock) : Off s' n := by
  refine ⟨?_, hun.le.trans (h.2.trans hck)⟩
  rcases hst with hst | hst
  · rw [hst]; exact h.1
  · exact .inr hst

end Frame

variable [DecidableEq Tid]

namespace Inv

variable {s : State Tid} {t : Tid}

/-- A step that changes what thread `t` is at, the retired lists and the nodes' records: what it
newly holds or lists was held or listed before, or is off its list and stamped now. -/
theorem setWork (h : Inv NUM_SLOTS s) {s' : State Tid} {w : Work}
    (hep : s'.epoch = s.epoch) (hwork : s'.work = s.work)
    (hoff : ∀ n, Off s n → Off (s'.setWork t w) n)
    (hun : ∀ n, Off s n → s'.unlinkedAt n = s.unlinkedAt n)
    (hre : ∀ n, Enqueued s n →
      s.retiredEpoch n ≤ s'.retiredEpoch n ∨ Stamped (s'.setWork t w) n)
    (hfresh : ∀ n, w.unstamped? = some n → Off (s'.setWork t w) n)
    (hlist : ∀ n, (∃ i, n ∈ s'.localRetiredHead i) ∨ n ∈ w.stamped →
      Enqueued s n ∨ Off (s'.setWork t w) n ∧ Stamped (s'.setWork t w) n) :
    Inv NUM_SLOTS (s'.setWork t w) where
  epoch := by
    have := h.epoch.tick
    rwa [← hep] at this
  unstamped u n hu := by
    by_cases hut : u = t
    · subst hut
      rw [State.setWork_work_self] at hu
      exact hfresh n hu
    · rw [State.setWork_work_of_ne _ _ _ hut, hwork] at hu
      exact hoff n (h.unstamped u n hu)
  enqueued n hn := by
    have hold : Enqueued s n → Off (s'.setWork t w) n ∧ Stamped (s'.setWork t w) n := by
      intro hn
      obtain ⟨h1, h2⟩ := h.enqueued n hn
      refine ⟨hoff n h1, (hre n hn).elim (fun hre => ?_) id⟩
      exact h2.mono h1 (hun n h1) hre
        fun u i hu => .inl ⟨by simpa [hep] using hu, by simp [hep], by simp [hep]⟩
    rcases hn with hn | ⟨u, hn⟩
    · exact (hlist n (.inl hn)).elim hold id
    · by_cases hut : u = t
      · subst hut
        rw [State.setWork_work_self] at hn
        exact (hlist n (.inr hn)).elim hold id
      · rw [State.setWork_work_of_ne _ _ _ hut, hwork] at hn
        exact hold (.inr ⟨u, hn⟩)

/-- A step that leaves the nodes' records as they are. -/
theorem setWork_records (h : Inv NUM_SLOTS s) {s' : State Tid} {w : Work}
    (hep : s'.epoch = s.epoch) (hwork : s'.work = s.work) (hst : s'.status = s.status)
    (hun : s'.unlinkedAt = s.unlinkedAt) (hre : s'.retiredEpoch = s.retiredEpoch)
    (hfresh : ∀ n, w.unstamped? = some n → Off s n)
    (hlist : ∀ n, (∃ i, n ∈ s'.localRetiredHead i) ∨ n ∈ w.stamped → Enqueued s n) :
    Inv NUM_SLOTS (s'.setWork t w) := by
  have hoff : ∀ n, Off s n → Off (s'.setWork t w) n := fun n hn =>
    hn.mono (.inl (congrFun hst n)) (congrFun hun n) (by rw [State.setWork_clock, hep]; omega)
  exact h.setWork hep hwork hoff (fun n _ => congrFun hun n)
    (fun n _ => .inl (congrFun hre n).ge) (fun n hn => hoff n (hfresh n hn))
    fun n hn => .inl (hlist n hn)

/-- A step that changes only what thread `t` is at. -/
theorem setWork_only (h : Inv NUM_SLOTS s) {w : Work}
    (hfresh : ∀ n, w.unstamped? = some n → Off s n)
    (hlist : ∀ n, n ∈ w.stamped → Enqueued s n) : Inv NUM_SLOTS (s.setWork t w) :=
  h.setWork_records rfl rfl rfl rfl rfl hfresh fun n hn => hn.elim .inl (hlist n)

theorem sectionStep (h : Inv NUM_SLOTS s) {s' : State Tid} {slot : ℕ} {a : Act}
    (hs : sectionStep s t slot a = some s') : Inv NUM_SLOTS s' := by
  have hun := h.unstamped t
  have hen : ∀ n, n ∈ (s.work t).stamped → Enqueued s n := fun n hn => .inr ⟨t, hn⟩
  unfold RetiredNodes.sectionStep at hs
  split at hs <;> rename_i hw <;> try rw [hw] at hun hen
  case h_1 n =>
    split_ifs at hs with hst
    cases hs
    have hne : ∀ m, Off s m → m ≠ n := by
      rintro m hm rfl
      rcases hm.1 with h1 | h1 <;> rw [hst] at h1 <;> cases h1
    exact h.setWork rfl rfl
      (fun m hm => hm.mono (.inl (by simp [State.setStatus, hne m hm])) rfl (Nat.le_succ _))
      (fun _ _ => rfl) (fun _ _ => .inl le_rfl) (by simp [Work.unstamped?])
      fun m hm => .inl (hm.elim .inl (by simp [Work.stamped]))
  case h_2 n =>
    split_ifs at hs with hst
    cases hs
    have hne : ∀ m, Off s m → m ≠ n := by
      rintro m hm rfl
      rcases hm.1 with h1 | h1 <;> rw [hst] at h1 <;> cases h1
    refine h.setWork rfl rfl (fun m hm => hm.mono (.inl (by simp [State.setStatus, hne m hm]))
        (by simp [State.setStatus, hne m hm]) (Nat.le_succ _))
      (fun m hm => by simp [State.setStatus, hne m hm]) (fun _ _ => .inl le_rfl) (fun m hm => ?_)
      fun m hm => .inl (hm.elim .inl (by simp [Work.stamped]))
    cases hm
    exact ⟨.inl (by simp [State.setStatus]), by simp [State.setStatus]⟩
  case h_3 n =>
    cases hs
    exact h.setWork_records rfl rfl rfl rfl rfl hun
      fun m hm => hm.elim .inl (by simp [Work.stamped])
  case h_4 n =>
    split_ifs at hs <;> cases hs
    · exact h.setWork_only (by simp [Work.unstamped?]) (by simp [Work.stamped])
    · exact h.setWork_records rfl rfl rfl rfl rfl hun
        fun m hm => hm.elim .inl (by simp [Work.stamped])
  case h_5 n =>
    cases hs
    -- the epoch loaded here is at least that of every section open at the unlink
    have hst : Stamped (State.setWork { s with
        retiredEpoch := Function.update s.retiredEpoch n s.epoch.globalEpoch } t (.pushLoad n))
        n := by
      intro u i _ _
      simpa using h.epoch.entry_le u
    refine h.setWork rfl rfl (fun _ hn => hn.mono (.inl rfl) rfl (Nat.le_succ _)) (fun _ _ => rfl)
      (fun m _ => ?_) (by simp [Work.unstamped?]) fun m hm => ?_
    · by_cases hmn : m = n
      · subst hmn; exact .inr hst
      · exact .inl (by simp [hmn])
    · rcases hm with hm | hm
      · exact .inl (.inl hm)
      · cases List.mem_singleton.1 hm
        exact .inr ⟨(hun n rfl).mono (.inl rfl) rfl (Nat.le_succ _), hst⟩
  case h_6 n =>
    cases hs
    exact h.setWork_only (by simp [Work.unstamped?]) hen
  case h_7 n oldHead =>
    split_ifs at hs <;> cases hs
    · refine h.setWork_records rfl rfl rfl rfl rfl (by simp [Work.unstamped?]) fun m hm => ?_
      rcases hm with ⟨i, hm⟩ | hm
      · by_cases hi : i = slot
        · subst hi
          simp only [State.setHead, Function.update_self, List.mem_cons] at hm
          rcases hm with rfl | hm
          · exact hen m (by simp [Work.stamped])
          · exact .inl ⟨i, hm⟩
        · exact .inl ⟨i, by simpa [State.setHead, hi] using hm⟩
      · simp [Work.stamped] at hm
    · exact h.setWork_only (by simp [Work.unstamped?]) hen
  case h_8 => cases hs

theorem reclaimStep (h : Inv NUM_SLOTS s) {s' : State Tid} {exempt r : ℕ}
    (hs : reclaimStep s t exempt r = some s') : Inv NUM_SLOTS s' := by
  have hen : ∀ n, n ∈ (s.work t).stamped → Enqueued s n := fun n hn => .inr ⟨t, hn⟩
  unfold RetiredNodes.reclaimStep at hs
  split at hs <;> rename_i hw <;> try rw [hw] at hen
  case h_1 =>
    cases hs
    refine h.setWork_records rfl rfl rfl rfl rfl (by simp [Work.unstamped?]) fun m hm => ?_
    rcases hm with ⟨i, hm⟩ | hm
    · by_cases hi : i = exempt
      · subst hi; simp [State.setHead] at hm
      · exact .inl ⟨i, by simpa [State.setHead, hi] using hm⟩
    · exact .inl ⟨exempt, by simpa [Work.stamped] using hm⟩
  case h_2 n rest retained =>
    cases hs
    unfold freeStep
    split_ifs with hfree
    · refine h.setWork rfl rfl (fun m hm => hm.mono ?_ rfl (Nat.le_succ _))
        (fun _ _ => rfl) (fun _ _ => .inl le_rfl) (by simp [Work.unstamped?]) fun m hm => .inl ?_
      · by_cases hmn : m = n
        · subst hmn; exact .inr (by simp [State.setStatus])
        · exact .inl (by simp [State.setStatus, hmn])
      · refine hm.elim .inl fun hm => hen m ?_
        simp only [Work.stamped, List.mem_append, List.mem_cons] at hm ⊢
        tauto
    · refine h.setWork_only (by simp [Work.unstamped?]) fun m hm => hen m ?_
      simp only [Work.stamped, List.mem_append, List.mem_cons] at hm ⊢
      tauto
  case h_3 =>
    cases hs
    exact h.setWork_only (by simp [Work.unstamped?]) (by simp [Work.stamped])
  case h_4 retained _ =>
    cases hs
    exact h.setWork_only (by simp [Work.unstamped?]) fun m hm => hen m (by simpa [Work.stamped] using hm)
  case h_5 =>
    cases hs
    exact h.setWork_only (by simp [Work.unstamped?]) hen
  case h_6 retained head =>
    split_ifs at hs <;> cases hs
    · refine h.setWork_records rfl rfl rfl rfl rfl (by simp [Work.unstamped?]) fun m hm => ?_
      rcases hm with ⟨i, hm⟩ | hm
      · by_cases hi : i = exempt
        · subst hi
          simp only [State.setHead, Function.update_self, List.mem_append] at hm
          rcases hm with hm | hm
          · exact hen m hm
          · exact .inl ⟨i, hm⟩
        · exact .inl ⟨i, by simpa [State.setHead, hi] using hm⟩
      · simp [Work.stamped] at hm
    · exact h.setWork_only (by simp [Work.unstamped?]) hen
  case h_7 => cases hs

theorem epochStep (h : Inv NUM_SLOTS s) {e : EpochReclaimer.State Tid} {a : EpochReclaimer.Act}
    (hg : EpochReclaimer.ExemptsNoOther s.epoch t a)
    (hs : EpochReclaimer.step NUM_SLOTS s.epoch t a = some e) :
    Inv NUM_SLOTS
      { s with epoch := e, work := Function.update s.work t (workAfter (e.pc t)) } := by
  obtain ⟨hck, hin⟩ := EpochReclaimer.step_insiders hs
  have hnone : ∀ p : Pc, (workAfter p).unstamped? = Option.none ∧ (workAfter p).stamped = [] := by
    intro p
    cases p <;> exact ⟨rfl, rfl⟩
  have hoff : ∀ n, Off s n → Off
      { s with epoch := e, work := Function.update s.work t (workAfter (e.pc t)) } n :=
    fun n hn => hn.mono (.inl rfl) rfl (by simp only [hck]; omega)
  refine ⟨h.epoch.step hg hs, fun u n hn => hoff n ?_, fun n hn => ?_⟩
  · by_cases hut : u = t
    · subst hut
      simp [(hnone _).1] at hn
    · simp only [Function.update_of_ne hut] at hn
      exact h.unstamped u n hn
  · have hn' : Enqueued s n := by
      refine hn.imp_right fun ⟨u, hu⟩ => ⟨u, ?_⟩
      by_cases hut : u = t
      · subst hut
        simp [(hnone _).2] at hu
      · simpa only [Function.update_of_ne hut] using hu
    obtain ⟨h1, h2⟩ := h.enqueued n hn'
    exact ⟨hoff n h1, h2.mono h1 rfl le_rfl hin⟩

theorem step (h : Inv NUM_SLOTS s) {s' : State Tid} {a : Act} (hg : ExemptsNoOther s (t, a))
    (hs : step NUM_SLOTS s t a = some s') : Inv NUM_SLOTS s' := by
  unfold RetiredNodes.step at hs
  split at hs
  · split_ifs at hs
    obtain ⟨e, he, rfl⟩ := Option.map_eq_some_iff.1 hs
    exact h.epochStep hg he
  · exact h.sectionStep hs
  · exact h.reclaimStep hs
  · cases hs

end Inv

theorem run_inv {s : State Tid} (h : (machine Tid NUM_SLOTS).Run ExemptsNoOther s) :
    Inv NUM_SLOTS s :=
  Machine.run_induction (by rintro s rfl; exact inv_start)
    (fun _ _ _ _ ih hg hs => ih.step hg hs) h

/-- Only the reclaimer's own steps change where a thread is in it. -/
theorem ownExempt_step {s s' : State Tid} {t : Tid} {a : Act}
    (h : EpochReclaimer.OwnExempt s.epoch) (hg : CalledByRemove s (t, a))
    (hs : step NUM_SLOTS s t a = some s') : EpochReclaimer.OwnExempt s'.epoch := by
  have hkeep : s'.epoch.pc = s.epoch.pc → EpochReclaimer.OwnExempt s'.epoch := fun hpc u own exempt hu =>
    h u own exempt (by rwa [hpc] at hu)
  unfold RetiredNodes.step at hs
  split at hs
  · split_ifs at hs
    obtain ⟨e, he, rfl⟩ := Option.map_eq_some_iff.1 hs
    exact h.step hg he
  · refine hkeep ?_
    unfold sectionStep at hs
    split at hs
    case h_8 => cases hs
    all_goals (try split_ifs at hs) <;> cases hs <;> rfl
  · refine hkeep ?_
    unfold reclaimStep at hs
    split at hs
    case h_2 =>
      cases hs
      unfold freeStep
      split_ifs <;> rfl
    case h_7 => cases hs
    all_goals (try split_ifs at hs) <;> cases hs <;> rfl
  · cases hs

/-- A caller of the reclaimer as `remove()` calls it takes no exemption from another reader. -/
theorem run_exemptsNoOther {s : State Tid} (h : (machine Tid NUM_SLOTS).Run CalledByRemove s) :
    (machine Tid NUM_SLOTS).Run ExemptsNoOther s ∧ EpochReclaimer.OwnExempt s.epoch := by
  refine Machine.run_induction (I := fun s => (machine Tid NUM_SLOTS).Run ExemptsNoOther s
    ∧ EpochReclaimer.OwnExempt s.epoch) ?_ ?_ h
  · rintro s rfl
    exact ⟨.init rfl, EpochReclaimer.ownExempt_start⟩
  · rintro s s' ⟨t, a⟩ - ⟨hr, hown⟩ hg hs
    refine ⟨hr.step ?_ hs, ownExempt_step hown hg hs⟩
    cases a with
    | epoch e => exact hown.exemptsNoOther (run_inv hr).epoch
    | _ => trivial

/-- Only `reclaim_detached_retired_list` destroys, and only nodes stamped by its epoch. -/
theorem destroyed_of_step {s s' : State Tid} {t : Tid} {a : Act} {n : Node}
    (hs : step NUM_SLOTS s t a = some s') (hn : s.status n ≠ .destroyed)
    (hn' : s'.status n = .destroyed) :
    n ∈ (s.work t).stamped ∧ ∃ own exempt r, s.epoch.pc t = .reclaiming own exempt r
      ∧ s.retiredEpoch n ≤ r := by
  unfold RetiredNodes.step at hs
  split at hs
  · split_ifs at hs
    obtain ⟨e, -, rfl⟩ := Option.map_eq_some_iff.1 hs
    exact absurd hn' hn
  · unfold sectionStep at hs
    split at hs
    case h_1 | h_2 =>
      split_ifs at hs
      cases hs
      simp only [State.setWork_status, State.setStatus, Function.update_apply] at hn'
      split_ifs at hn'
      exact absurd hn' hn
    case h_4 | h_7 => split_ifs at hs <;> cases hs <;> exact absurd hn' hn
    case h_8 => cases hs
    all_goals cases hs; exact absurd hn' hn
  · rename_i own exempt r hpc
    unfold reclaimStep at hs
    split at hs
    case h_2 m rest retained hw =>
      cases hs
      unfold freeStep at hn'
      split_ifs at hn' with hfree
      · simp only [State.setWork_status, State.setStatus, Function.update_apply] at hn'
        split_ifs at hn' with hmn
        · subst hmn
          exact ⟨by simp [hw, Work.stamped], own, exempt, r, hpc, hfree.2⟩
        · exact absurd hn' hn
      · exact absurd hn' hn
    case h_6 => split_ifs at hs <;> cases hs <;> exact absurd hn' hn
    case h_7 => cases hs
    all_goals cases hs; exact absurd hn' hn
  · cases hs

/-- Where the reclaimer's invariant holds, a step that destroys a node finds no reader that may hold
it, but perhaps its own thread on the slot it exempts. -/
theorem Inv.destroys {s s' : State Tid} {t : Tid} {a : Act} {n : Node} (h : Inv NUM_SLOTS s)
    (hs : RetiredNodes.step NUM_SLOTS s t a = some s') (hn : s.status n ≠ .destroyed)
    (hn' : s'.status n = .destroyed) :
    s.status n = .unlinked ∧ ∃ own exempt r, s.epoch.pc t = .reclaiming own exempt r ∧
      ∀ reader slot, (s.epoch.pc reader).section? = some slot → (reader = t → slot ≠ exempt) →
        s.unlinkedAt n ≤ s.epoch.enteredAt reader := by
  obtain ⟨hheld, own, exempt, r, hpc, hle⟩ := destroyed_of_step hs hn hn'
  obtain ⟨hoff, hst⟩ := h.enqueued n (.inr ⟨t, hheld⟩)
  refine ⟨hoff.1.resolve_right hn, own, exempt, r, hpc, fun reader slot hsec hne => ?_⟩
  have hin : reader ∈ s.epoch.insiders slot := (h.epoch.mem reader slot).2 hsec
  have hcl := h.epoch.at_pc t
  rw [hpc] at hcl
  have hlt : r < s.epoch.entryEpoch reader :=
    hcl.2 reader slot (h.epoch.lt reader slot hin) hin hne
  by_contra hlt'
  have := hst reader slot hin (not_le.1 hlt')
  omega

/-- A step that destroys a node finds nobody but its own thread in a section that began before the
node's final unlink. -/
theorem destroys_no_node_under_a_reader {s s' : State Tid} {t : Tid} {a : Act} {n : Node}
    (hr : (machine Tid NUM_SLOTS).Run CalledByRemove s)
    (hs : (machine Tid NUM_SLOTS).step s (t, a) = some s')
    (hn : s.status n ≠ .destroyed) (hn' : s'.status n = .destroyed) :
    s.status n = .unlinked ∧ ∀ reader ≠ t, ∀ slot,
      (s.epoch.pc reader).section? = some slot → s.unlinkedAt n ≤ s.epoch.enteredAt reader := by
  obtain ⟨hunlinked, _, _, _, -, hreaders⟩ := (run_inv (run_exemptsNoOther hr).1).destroys hs hn hn'
  exact ⟨hunlinked, fun reader hne slot hsec => hreaders reader slot hsec fun h => absurd h hne⟩

section Words

/-- Only the reclaimer's own steps change its counters. -/
theorem inWords_step {s s' : State Tid} {t : Tid} {a : Act}
    (h : EpochReclaimer.InWords s.epoch) (hfit : CountersFit s (t, a))
    (hs : step NUM_SLOTS s t a = some s') : EpochReclaimer.InWords s'.epoch := by
  have hkeep : s'.epoch.globalEpoch = s.epoch.globalEpoch
      ∧ s'.epoch.readerDepth = s.epoch.readerDepth → EpochReclaimer.InWords s'.epoch :=
    fun ⟨hg, hd⟩ => ⟨hg ▸ h.1, hd ▸ h.2⟩
  unfold RetiredNodes.step at hs
  split at hs
  · split_ifs at hs
    obtain ⟨e, he, rfl⟩ := Option.map_eq_some_iff.1 hs
    exact h.step hfit he
  · refine hkeep ?_
    unfold sectionStep at hs
    split at hs
    case h_8 => cases hs
    all_goals (try split_ifs at hs) <;> cases hs <;> exact ⟨rfl, rfl⟩
  · refine hkeep ?_
    unfold reclaimStep at hs
    split at hs
    case h_2 =>
      cases hs
      unfold freeStep
      split_ifs <;> exact ⟨rfl, rfl⟩
    case h_7 => cases hs
    all_goals (try split_ifs at hs) <;> cases hs <;> exact ⟨rfl, rfl⟩
  · cases hs

/-- While no counter is about to wrap, a step on the code's words is a step on the naturals. -/
theorem step_of_words {s s' : State Tid} {a : Tid × Act} (h : EpochReclaimer.InWords s.epoch)
    (hfit : CountersFit s a) (hs : (wordMachine Tid NUM_SLOTS).step s a = some s') :
    (machine Tid NUM_SLOTS).step s a = some s' ∧ EpochReclaimer.InWords s'.epoch := by
  obtain ⟨s₁, hs₁, rfl⟩ := Option.map_eq_some_iff.1 hs
  have hw := inWords_step h hfit hs₁
  rw [hw.wrap_eq]
  exact ⟨hs₁, hw⟩

/-- A run of the code's words in which no counter is about to wrap is a run on the naturals. -/
theorem run_of_words {G : State Tid → Tid × Act → Prop} {s : State Tid}
    (h : (wordMachine Tid NUM_SLOTS).Run (fun s a => G s a ∧ CountersFit s a) s) :
    (machine Tid NUM_SLOTS).Run G s ∧ EpochReclaimer.InWords s.epoch := by
  refine Machine.run_induction (I := fun s => (machine Tid NUM_SLOTS).Run G s
    ∧ EpochReclaimer.InWords s.epoch) ?_ ?_ h
  · rintro s rfl
    exact ⟨.init rfl, EpochReclaimer.inWords_start⟩
  · rintro s s' a - ⟨hr, hw⟩ ⟨hg, hfit⟩ hs
    obtain ⟨hs, hw'⟩ := step_of_words hw hfit hs
    exact ⟨hr.step hg hs, hw'⟩

/-- The same of the code's words, while no counter is about to wrap. -/
theorem words_destroy_under_no_reader {s s' : State Tid} {t : Tid} {a : Act} {n : Node}
    (hr : (wordMachine Tid NUM_SLOTS).Run (fun s a => CalledByRemove s a ∧ CountersFit s a) s)
    (hfit : CountersFit s (t, a))
    (hs : (wordMachine Tid NUM_SLOTS).step s (t, a) = some s')
    (hn : s.status n ≠ .destroyed) (hn' : s'.status n = .destroyed) :
    s.status n = .unlinked ∧ ∀ reader ≠ t, ∀ slot,
      (s.epoch.pc reader).section? = some slot → s.unlinkedAt n ≤ s.epoch.enteredAt reader := by
  obtain ⟨hrun, hw⟩ := run_of_words hr
  obtain ⟨hunlinked, _, _, _, -, hreaders⟩ :=
    (run_inv (run_exemptsNoOther hrun).1).destroys (step_of_words hw hfit hs).1 hn hn'
  exact ⟨hunlinked, fun reader hne slot hsec => hreaders reader slot hsec fun h => absurd h hne⟩

end Words

section Run

def enterSlot (t slot : ℕ) : List (ℕ × Act) :=
  (t, .epoch (.enter slot)) :: List.replicate 3 (t, .epoch .run)

/-- Thread 0 retires a node, and in two more calls of `remove()` the epoch moves on by two; thread 1
enters before the last. -/
def retireAndReclaim : List (ℕ × Act) :=
  enterSlot 0 0 ++ [(0, .link 7), (0, .unlink 7)] ++ List.replicate 5 (0, .work)
    ++ [(0, .epoch .leave), (0, .epoch .run), (0, .epoch .run)]
    ++ enterSlot 0 0 ++ (0, .epoch (.advanceAndReclaim 0)) :: List.replicate 7 (0, .epoch .run)
    ++ enterSlot 1 1
    ++ enterSlot 0 0 ++ (0, .epoch (.advanceAndReclaim 0)) :: List.replicate 9 (0, .epoch .run)
    ++ [(0, .work)]

theorem destroys_no_node_under_a_reader_run :
    ∃ s : State ℕ, s.status 7 = .unlinked ∧ (s.epoch.pc 1).section? = some 1
      ∧ s.unlinkedAt 7 ≤ s.epoch.enteredAt 1 := by
  obtain ⟨s, hs, hn, hsec, h⟩ : ∃ s, (machine ℕ 2).Run CalledByRemove s ∧
      s.status 7 ≠ .destroyed ∧ (s.epoch.pc 1).section? = some 1
        ∧ ((step 2 s 0 .work).any fun s' => s'.status 7 = .destroyed) = true :=
    Machine.exists_run retireAndReclaim rfl (by decide)
  obtain ⟨s', hs', hn'⟩ := (Option.any_eq_true _ _).1 h
  obtain ⟨h1, h2⟩ := destroys_no_node_under_a_reader hs hs' hn (of_decide_eq_true hn')
  exact ⟨s, h1, hsec, h2 1 (by decide) 1 hsec⟩

/-- While no exemption is taken from another reader, a step that destroys a node finds nobody in a
section that began before the node's final unlink, but a caller on the very slot it exempts. -/
theorem destroys_of_exemptsNoOther {s s' : State Tid} {t : Tid} {a : Act} {n : Node}
    (hr : (machine Tid NUM_SLOTS).Run ExemptsNoOther s)
    (hs : (machine Tid NUM_SLOTS).step s (t, a) = some s')
    (hn : s.status n ≠ .destroyed) (hn' : s'.status n = .destroyed) :
    s.status n = .unlinked ∧ ∃ own exempt r, s.epoch.pc t = .reclaiming own exempt r ∧
      ∀ reader slot, (s.epoch.pc reader).section? = some slot → (reader = t → slot ≠ exempt) →
        s.unlinkedAt n ≤ s.epoch.enteredAt reader :=
  (run_inv hr).destroys hs hn hn'

/-- Threads 0 and 1 read on slot 0, where thread 0 retires a node and leaves. -/
def retireBesideReader : List (ℕ × Act) :=
  enterSlot 0 0 ++ [(0, .link 7), (1, .epoch (.enter 0)), (1, .epoch .run), (1, .epoch .run),
    (0, .unlink 7)]
    ++ List.replicate 5 (0, .work) ++ [(0, .epoch .leave), (0, .epoch .run), (0, .epoch .run)]

/-- Thread 2, which reads nowhere, calls `advance_and_reclaim` on a slot twice. -/
def reclaimFromOutside (slot : ℕ) : List (ℕ × Act) :=
  (2, .epoch (.advanceAndReclaim slot)) :: List.replicate 5 (2, .epoch .run)
    ++ (2, .epoch (.advanceAndReclaim slot)) :: List.replicate 7 (2, .epoch .run)

theorem destroys_of_exemptsNoOther_outside :
    ∃ s : State ℕ, s.status 7 = .unlinked ∧ ∃ own exempt r,
      s.epoch.pc 2 = .reclaiming own exempt r ∧ ∀ reader slot,
        (s.epoch.pc reader).section? = some slot → (reader = 2 → slot ≠ exempt) →
          s.unlinkedAt 7 ≤ s.epoch.enteredAt reader := by
  obtain ⟨s, hs, hn, h⟩ : ∃ s, (machine ℕ 2).Run ExemptsNoOther s ∧ s.status 7 ≠ .destroyed
      ∧ ((step 2 s 2 .work).any fun s' => s'.status 7 = .destroyed) = true :=
    Machine.exists_run (List.flatten [retireBesideReader,
      [(1, .epoch .leave), (1, .epoch .run), (1, .epoch .run)], reclaimFromOutside 0,
      [(2, .work)]]) rfl (by decide)
  obtain ⟨s', hs', hn'⟩ := (Option.any_eq_true _ _).1 h
  exact ⟨s, destroys_of_exemptsNoOther hs hs' hn (of_decide_eq_true hn')⟩

/-- The reader left alone on slot 0 is taken for the caller, and what it may hold is destroyed. -/
theorem exempts_another_reader : ∃ s s' : State ℕ, (machine ℕ 2).Reachable s
    ∧ (machine ℕ 2).step s (2, .work) = some s'
    ∧ s.epoch.pc 2 = .reclaiming none 0 1
    ∧ s.status 7 ≠ .destroyed ∧ s'.status 7 = .destroyed
    ∧ (s.epoch.pc 1).section? = some 0 ∧ s.epoch.enteredAt 1 < s.unlinkedAt 7 := by
  obtain ⟨s, hs, hpc, hn, hsec, hlt, h⟩ : ∃ s, (machine ℕ 2).Reachable s
      ∧ s.epoch.pc 2 = .reclaiming none 0 1 ∧ s.status 7 ≠ .destroyed
      ∧ (s.epoch.pc 1).section? = some 0 ∧ s.epoch.enteredAt 1 < s.unlinkedAt 7
      ∧ ((step 2 s 2 .work).any fun s' => s'.status 7 = .destroyed) = true :=
    Machine.exists_run (List.flatten [retireBesideReader, reclaimFromOutside 0, [(2, .work)]]) rfl
      (by decide)
  obtain ⟨s', hs', hn'⟩ := (Option.any_eq_true _ _).1 h
  exact ⟨s, s', hs, hs', hpc, hn, of_decide_eq_true hn', hsec, hlt⟩

end Run

end MinStd.RetiredNodes
