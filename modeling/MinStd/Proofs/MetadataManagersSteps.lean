import MinStd.Proofs.MetadataManagersInv
import Mathlib.Data.Nat.ModEq

/-!
# The steps of the managers
-/

namespace MinStd.MetadataManagers

open Function ArenaRegions

variable {τ : Type*} [DecidableEq τ] {A : Arena} {s s' : State τ} {t u : τ} {x y : Pc} {i m w : ℕ}
  {z : Place τ}

/-! ### Slots -/

section Slots

variable {pc : τ → Pc} {place : ℕ → Place τ} {b : τ ⊕ ℕ}

theorem slot_update_pc : Slot (update pc t x) place m b ↔
    b = .inl t ∧ x.slot? = some m ∨ b ≠ .inl t ∧ Slot pc place m b := by
  rcases b with u | j
  · by_cases hu : u = t
    · subst hu
      simp [Slot]
    · simp [Slot, hu]
  · simp [Slot]

theorem slot_update : Slot (update pc t x) (update place i z) m b ↔
    b = .inl t ∧ x.slot? = some m ∨ b = .inr i ∧ z = .out ∧ managerFor i = m ∨
      b ≠ .inl t ∧ b ≠ .inr i ∧ Slot pc place m b := by
  rw [slot_update_pc]
  rcases b with u | j
  · simp [Slot]
  · by_cases hj : j = i
    · subst hj
      simp [Slot]
    · simp [Slot, hj]

variable (h : ∀ m, Managed (Slot pc place m) (s.stateAndActiveCount m))
include h

/-- A thread's slot goes to a record of the manager. -/
theorem slots_take (hslot : (pc t).slot? = some (managerFor i)) (hx : x.slot? = none)
    (hi : place i ≠ .out) (m : ℕ) :
    Managed (Slot (update pc t x) (update place i .out) m) (s.stateAndActiveCount m) := by
  have hnot : ¬ Slot pc place m (.inr i) := fun hs => hi hs.1
  by_cases hm : managerFor i = m
  · subst hm
    refine (h _).swap (x := .inl t) hslot hnot fun b => ?_
    rw [slot_update, hx]
    grind
  · refine (h m).congr fun b => ?_
    rw [slot_update, hx]
    have ht : ¬ Slot pc place m (.inl t) := fun hs => hm (Option.some.inj (hslot.symm.trans hs))
    grind

/-- A record's slot goes to a thread. -/
theorem slots_give (hslot : (pc t).slot? = none) (hx : x.slot? = some (managerFor i))
    (hi : place i = .out) (hz : z ≠ .out) (m : ℕ) :
    Managed (Slot (update pc t x) (update place i z) m) (s.stateAndActiveCount m) := by
  have hnot : ¬ Slot pc place m (.inl t) := fun hs => by simp [Slot, hslot] at hs
  by_cases hm : managerFor i = m
  · subst hm
    refine (h _).swap (x := .inr i) ⟨hi, rfl⟩ hnot fun b => ?_
    rw [slot_update, hx]
    grind
  · refine (h m).congr fun b => ?_
    rw [slot_update, hx]
    have ht : ¬ Slot pc place m (.inr i) := fun hs => hm hs.2
    grind

/-- Every slot stays where it is. -/
theorem slots_same (hslot : x.slot? = (pc t).slot?) (hi : place i ≠ .out) (hz : z ≠ .out) (m : ℕ) :
    Managed (Slot (update pc t x) (update place i z) m) (s.stateAndActiveCount m) := by
  refine (h m).congr fun b => ?_
  rw [slot_update, hslot]
  rcases b with u | j
  · by_cases hu : u = t
    · subst hu
      simp [Slot]
    · simp [hu]
  · by_cases hj : j = i
    · subst hj
      simp [Slot, hi, hz]
    · simp [hj]

end Slots

/-! ### Kinds of steps -/

/-- A thread goes on with what it has. -/
theorem Inv.goto (h : Inv s) (hpc : s.pc t = y) (hx : x.Ok (s.setPc t x) t)
    (hsame : x.slot? = y.slot? ∧ x.trims? = y.trims? ∧ x.clears? = y.clears?
      ∧ x.record? = y.record?) : Inv (s.setPc t x) := by
  subst hpc
  obtain ⟨hslot, htrim, hclear, hrecord⟩ := hsame
  exact { h with
    mine := fun u i hi => (same_update hrecord u).trans (h.mine u i hi)
    slots := fun m => (h.slots m).congr fun b => by
      rcases b with u | i
      · show (update s.pc t x u).slot? = some m ↔ _
        rw [same_update hslot]
        exact Iff.rfl
      · exact Iff.rfl
    trims := fun u v m hu hv => h.trims u v m ((same_update htrim u).symm.trans hu)
      ((same_update htrim v).symm.trans hv)
    closed := fun m hm => (h.closed m hm).imp fun u hu => (same_update htrim u).trans hu
    chain := fun m hm => h.chain m fun u hu => hm u ((same_update hclear u).trans hu)
    pc := ok_update h.pc rfl hx fun u _ => .of_eq rfl rfl rfl rfl rfl fun _ _ => rfl }

/-- The step of a thread that trims nothing and changes a record that is on no list. -/
theorem Inv.record_step (h : Inv s) (hpc : s'.pc = update s.pc t x)
    (hplace : s'.place = update s.place i z)
    (hlink : ∀ j, j ≠ i → s'.nextFreeHeader j = s.nextFreeHeader j)
    (hword : s'.stateAndActiveCount = s.stateAndActiveCount)
    (hhead : s'.localFreeHead = s.localFreeHead) (hcontents : s'.contents = s.contents)
    (hchanges : s'.changes = s.changes) (hfree : s.place i ≠ .free) (hzfree : z ≠ .free)
    (hi : ∀ u, s.place i = .hand u ∨ s.place i = .growing u → u = t)
    (hz : ∀ u, z = .hand u ∨ z = .growing u → u = t ∧ x.record? = some i)
    (hold : ∀ j, (s.pc t).record? = some j → j = i) (htrim : (s.pc t).trims? = none)
    (hxtrim : x.trims? = none)
    (hcounted : ∀ j, s'.place j ≠ .region ↔ j < s'.currentMetadataRecordCount)
    (hslots : ∀ m, Managed (Slot (update s.pc t x) (update s.place i z) m)
      (s.stateAndActiveCount m))
    (hcallers : ∀ j, s'.place j = .out ∧ s'.callers j = 1 ∨ s'.place j ≠ .out ∧ s'.callers j = 0)
    (hx : x.Ok s' t) : Inv s' := by
  have hzi : s'.place i = z := by rw [hplace, update_self]
  have hzj : ∀ j, j ≠ i → s'.place j = s.place j := fun j hj => by rw [hplace, update_of_ne hj]
  have hclear : ∀ m, (s.pc t).clears? ≠ some m := fun m hm => by
    cases htrim.symm.trans (Pc.trims?_of_clears? hm)
  have hclears : ∀ m, (∀ u, (s'.pc u).clears? ≠ some m) → ∀ u, (s.pc u).clears? ≠ some m := by
    intro m hm u
    by_cases hu : u = t
    · rw [hu]
      exact hclear m
    · have := hm u
      rwa [hpc, update_of_ne hu] at this
  have hnotFree : ∀ j, s.place j = .free → j ≠ i := by
    rintro j hj rfl
    exact hfree hj
  have hleaves : ∀ u, u ≠ t → Leaves u s s' := by
    refine fun u hu => ⟨fun j hj => ?_, fun m hm => ?_,
      fun m _ => ⟨by rw [hword], by rw [hcontents]⟩⟩
    · have hji : j ≠ i := by
        rintro rfl
        exact hu (hi u hj)
      exact ⟨hzj j hji, hlink j hji⟩
    · rw [hchanges, hhead]
      refine ⟨le_rfl, fun _ => ⟨rfl, fun j hj => hlink j (hnotFree j ?_)⟩⟩
      exact (h.top_free (h.not_clears (b := .inl u) hm) hj).1
  have hnone : x.trims? = (s.pc t).trims? := hxtrim.trans htrim.symm
  refine ⟨hcounted, fun u j hj => ?_, fun m => ?_, ?_, fun m hm => ?_, fun m => ?_, fun m hm => ?_,
    fun m j => ?_, hcallers, ok_update h.pc hpc hx hleaves⟩
  · by_cases hji : j = i
    · rw [hji, hzi] at hj
      obtain ⟨rfl, hrecord⟩ := hz u hj
      rw [hpc, update_self, hji]
      exact hrecord
    · rw [hzj j hji] at hj
      have hrecord := h.mine u j hj
      rw [hpc, update_of_ne]
      · exact hrecord
      · rintro rfl
        exact hji (hold j hrecord)
  · rw [hpc, hplace, hword]
    exact hslots m
  · intro u v m hu hv
    rw [hpc] at hu hv
    exact h.trims u v m ((same_update hnone u).symm.trans hu)
      ((same_update hnone v).symm.trans hv)
  · rw [hword] at hm
    obtain ⟨u, hu⟩ := h.closed m hm
    refine ⟨u, ?_⟩
    rw [hpc]
    exact (same_update hnone u).trans hu
  · rw [hhead, hchanges]
    exact h.tag m
  · unfold State.FreeList
    rw [hhead, hcontents]
    exact (h.chain m (hclears m hm)).congr fun j hj => hlink j (hnotFree j ((h.free m j).1 hj).1)
  · rw [hcontents, h.free]
    by_cases hji : j = i
    · rw [hji, hzi]
      exact iff_of_false (fun hj => hfree hj.1) fun hj => hzfree hj.1
    · rw [hzj j hji]

/-- A step that changes the word of one manager, which no other thread trims. -/
theorem Inv.manager (h : Inv s) (htrim : ∀ u, u ≠ t → (s.pc u).trims? ≠ some m)
    (hx : x.Ok ((s.setManager m w).setPc t x) t) (hxtrim : ∀ m', x.trims? = some m' → m' = m)
    (hold : ∀ m', (s.pc t).trims? = some m' → m' = m)
    (hclosed : w = TRIMMING_MASK → x.trims? = some m) (hclear : x.clears? = (s.pc t).clears?)
    (hrecord : x.record? = (s.pc t).record?)
    (hslot : Managed (Slot (update s.pc t x) s.place m) w)
    (hother : ∀ m', m' ≠ m → (x.slot? = some m' ↔ (s.pc t).slot? = some m')) :
    Inv ((s.setManager m w).setPc t x) := by
  have hword : ∀ m', m' ≠ m →
      ((s.setManager m w).setPc t x).stateAndActiveCount m' = s.stateAndActiveCount m' :=
    fun m' hm => update_of_ne hm _ _
  have hleaves : ∀ u, u ≠ t → Leaves u s ((s.setManager m w).setPc t x) :=
    fun u hu => .of_eq rfl rfl rfl rfl rfl fun m' hm' =>
      hword m' (by rintro rfl; exact htrim u hu hm')
  have htrims : ∀ u v m', (update s.pc t x u).trims? = some m' →
      (update s.pc t x v).trims? = some m' → u = v := by
    intro u v m' hu hv
    by_cases hut : u = t <;> by_cases hvt : v = t
    · rw [hut, hvt]
    · rw [hut, update_self] at hu
      rw [update_of_ne hvt, hxtrim m' hu] at hv
      exact absurd hv (htrim v hvt)
    · rw [hvt, update_self] at hv
      rw [update_of_ne hut, hxtrim m' hv] at hu
      exact absurd hu (htrim u hut)
    · rw [update_of_ne hut] at hu
      rw [update_of_ne hvt] at hv
      exact h.trims u v m' hu hv
  exact { h with
    mine := fun u i hi => (same_update hrecord u).trans (h.mine u i hi)
    slots := fun m' => by
      by_cases hm : m' = m
      · subst hm
        show Managed _ (update s.stateAndActiveCount m' w m')
        rw [update_self]
        exact hslot
      · rw [hword m' hm]
        refine (h.slots m').congr fun b => ?_
        show Slot (update s.pc t x) s.place m' b ↔ _
        rw [slot_update_pc]
        have hb := hother m' hm
        rcases b with u | i
        · by_cases hu : u = t
          · subst hu
            simpa [Slot] using hb
          · simp [Slot, hu]
        · simp [Slot]
    trims := htrims
    closed := fun m' hm' => by
      by_cases hm : m' = m
      · subst hm
        change update s.stateAndActiveCount m' w m' = _ at hm'
        rw [update_self] at hm'
        refine ⟨t, ?_⟩
        show (update s.pc t x t).trims? = _
        rw [update_self]
        exact hclosed hm'
      · rw [hword m' hm] at hm'
        obtain ⟨u, hu⟩ := h.closed m' hm'
        refine ⟨u, ?_⟩
        show (update s.pc t x u).trims? = _
        rw [update_of_ne]
        · exact hu
        · rintro rfl
          exact hm (hold m' hu)
    chain := fun m' hm => h.chain m' fun u hu => hm u ((same_update hclear u).trans hu)
    pc := ok_update h.pc rfl hx hleaves }

/-! ### Slots are reserved and released -/

/-- The thread has no slot, no record, and no manager that it trims. -/
def Pc.Bare (x : Pc) : Prop :=
  x.slot? = none ∧ x.trims? = none ∧ x.clears? = none ∧ x.record? = none

theorem Inv.move (h : Inv s) (hpc : s.pc t = y) (hy : y.Bare) (hx : x.Bare)
    (hok : x.Ok (s.setPc t x) t) : Inv (s.setPc t x) := by
  obtain ⟨h1, h2, h3, h4⟩ := hy
  obtain ⟨h5, h6, h7, h8⟩ := hx
  exact h.goto hpc hok ⟨h5.trans h1.symm, h6.trans h2.symm, h7.trans h3.symm, h8.trans h4.symm⟩

theorem growFrom_bare (count : ℕ) : (growFrom A count).Bare := by
  unfold growFrom
  split_ifs <;> exact ⟨rfl, rfl, rfl, rfl⟩

theorem searchFrom_bare (count manager : ℕ) : (searchFrom A count manager).Bare := by
  unfold searchFrom
  split_ifs
  · exact ⟨rfl, rfl, rfl, rfl⟩
  · exact growFrom_bare count

theorem After.pc_bare (after : After) : (after.pc A).Bare := by
  rcases after with _ | ⟨count, manager⟩ | count
  · exact ⟨rfl, rfl, rfl, rfl⟩
  · exact searchFrom_bare count manager
  · exact growFrom_bare count

omit [DecidableEq τ] in
theorem growFrom_ok (count : ℕ) : (growFrom A count).Ok s t := by
  unfold growFrom
  split_ifs <;> trivial

omit [DecidableEq τ] in
theorem searchFrom_ok (count manager : ℕ) : (searchFrom A count manager).Ok s t := by
  unfold searchFrom
  split_ifs
  · trivial
  · exact growFrom_ok count

omit [DecidableEq τ] in
theorem After.pc_ok (after : After) : (after.pc A).Ok s t := by
  rcases after with _ | ⟨count, manager⟩ | count
  · trivial
  · exact searchFrom_ok count manager
  · exact growFrom_ok count

theorem Inv.reserveFrom (h : Inv s) (what : Reserve) (word : ℕ) (hpc : (s.pc t).Bare) :
    Inv (s.setPc t (reserveFrom A what word)) := by
  unfold MetadataManagers.reserveFrom
  split_ifs with hbusy
  · rcases what with ⟨manager, count⟩ | count
    · exact h.move rfl hpc (searchFrom_bare count _) (searchFrom_ok count _)
    · exact h.move rfl hpc ⟨rfl, rfl, rfl, rfl⟩ trivial
  · exact h.move rfl hpc ⟨rfl, rfl, rfl, rfl⟩ ((not_or.1 hbusy).imp_left not_not.1)

theorem Inv.reserve (h : Inv s) {what : Reserve}
    (hpc : s.pc t = .reserveCas what (s.stateAndActiveCount what.manager)) :
    Inv ((s.setManager what.manager (s.stateAndActiveCount what.manager + 1)).setPc t
      (reserved what)) := by
  have hok := h.pc t
  rw [hpc] at hok
  have hslot : (reserved what).slot? = some what.manager := by rcases what with _ | _ <;> rfl
  have hhas : (reserved what).trims? = none ∧ (reserved what).clears? = none
      ∧ (reserved what).record? = none := by rcases what with _ | _ <;> exact ⟨rfl, rfl, rfl⟩
  obtain ⟨htrim, hclear, hrecord⟩ := hhas
  have hnot : ¬ Slot s.pc s.place what.manager (.inl t) := fun hs => by
    simp [Slot, hpc, Pc.slot?] at hs
  have hslots : Managed (Slot (update s.pc t (reserved what)) s.place what.manager)
      (s.stateAndActiveCount what.manager + 1) := by
    refine (h.slots _).add hok.1 hok.2 hnot fun b => ?_
    rw [slot_update_pc, hslot]
    grind
  refine h.manager (fun u _ hu => ?_) (by rcases what with _ | _ <;> trivial)
    (fun m' hm => by rw [htrim] at hm; cases hm) (fun m' hm => by rw [hpc] at hm; cases hm)
    (fun hw => ?_) (by rw [hclear, hpc]; rfl) (by rw [hrecord, hpc]; rfl) hslots fun m' hm => ?_
  · rw [h.trimming hu] at hok
    exact absurd hok.1 (by decide)
  · have hle := (hslots.counted (x := .inl t) (slot_update_pc.2 (.inl ⟨rfl, hslot⟩))).2
    rw [hw] at hle
    exact absurd hle (by decide)
  · rw [hslot, hpc]
    simpa [Pc.slot?] using hm.symm

theorem Inv.release (h : Inv s) {after : After} (hpc : s.pc t = .release m after) :
    Inv ((s.setManager m (releaseSlot (s.stateAndActiveCount m))).setPc t (after.pc A)) := by
  obtain ⟨hslot, htrim, hclear, hrecord⟩ := After.pc_bare (A := A) after
  have hhas : Slot s.pc s.place m (.inl t) := by
    show (s.pc t).slot? = some m
    rw [hpc]
    rfl
  rw [(h.slots m).releaseSlot_eq hhas]
  refine h.manager (fun u _ => h.not_trims hhas u) (After.pc_ok after)
    (fun m' hm => by rw [htrim] at hm; cases hm) (fun m' hm => by rw [hpc] at hm; cases hm)
    (fun hw => ?_) (by rw [hclear, hpc]; rfl) (by rw [hrecord, hpc]; rfl) ?_ fun m' hm => ?_
  · have hle := (h.slots m).counted hhas |>.2
    unfold TRIMMING_MASK at hw
    unfold ACTIVE_COUNT_MASK at hle
    omega
  · refine (h.slots m).drop hhas fun b => ?_
    rw [slot_update_pc, hslot]
    simp
  · rw [hslot, hpc]
    simpa [Pc.slot?] using hm.symm

/-! ### The list of a manager -/

/-- A pop looks at the head. -/
theorem Inv.look (h : Inv s) {count : ℕ} (hslot : (s.pc t).slot? = some m)
    (htrim : (s.pc t).trims? = none) (hrecord : (s.pc t).record? = none) :
    Inv (s.setPc t (popFrom m count (s.localFreeHead m) (s.changes m))) := by
  have hclear : (s.pc t).clears? = none := by
    rcases hc : (s.pc t).clears? with _ | m'
    · rfl
    · cases htrim.symm.trans (Pc.trims?_of_clears? hc)
  unfold popFrom
  split
  case h_1 current htop =>
    exact h.goto rfl ⟨htop, le_rfl, h.tag m, fun _ => rfl⟩
      ⟨hslot.symm, htrim.symm, hclear.symm, hrecord.symm⟩
  case h_2 => exact h.goto rfl trivial ⟨hslot.symm, htrim.symm, hclear.symm, hrecord.symm⟩

/-- A record of the manager goes on its list or comes off it. -/
theorem Inv.swap (h : Inv s) {head : Head} {l : List ℕ} (hi : managerFor i = m)
    (hslot : (s.pc t).slot? = some m) (htrim : (s.pc t).trims? = none)
    (hxslot : x.slot? = some m) (hxtrim : x.trims? = none)
    (htag : head.tag = ((s.localFreeHead m).tag + 1) % TAGS)
    (hchain : Linked some s.nextFreeHeader head.top l none)
    (hfree : ∀ j, managerFor j = m → (j ∈ l ↔ update s.place i z j = .free))
    (hl : ∀ j ∈ l, managerFor j = m) (hp : s.place i = .free ∨ s.place i = .hand t)
    (hz : z = .free ∨ z = .hand t ∧ x.record? = some i)
    (hold : ∀ j, (s.pc t).record? = some j → j = i)
    (hx : x.Ok (((s.setHead m head l).setPlace i z).setPc t x) t) :
    Inv (((s.setHead m head l).setPlace i z).setPc t x) := by
  have hzi : update s.place i z i = z := update_self _ _ _
  have hzj : ∀ j, j ≠ i → update s.place i z j = s.place j := fun j hj => update_of_ne hj _ _
  have hheadm : update s.localFreeHead m head m = head := update_self _ _ _
  have hout : s.place i ≠ .out ∧ z ≠ .out ∧ s.place i ≠ .region ∧ z ≠ .region := by
    rcases hp with hp | hp <;> rcases hz with rfl | ⟨rfl, -⟩ <;> rw [hp] <;> simp
  obtain ⟨hpout, hzout, hpregion, hzregion⟩ := hout
  have hnone : x.trims? = (s.pc t).trims? := hxtrim.trans htrim.symm
  have hclears : ∀ m', (∀ u, (update s.pc t x u).clears? ≠ some m') →
      ∀ u, (s.pc u).clears? ≠ some m' := by
    intro m' hm u hu
    by_cases hut : u = t
    · rw [hut] at hu
      cases htrim.symm.trans (Pc.trims?_of_clears? hu)
    · exact hm u (by rw [update_of_ne hut]; exact hu)
  have hleaves : ∀ u, u ≠ t → Leaves u s (((s.setHead m head l).setPlace i z).setPc t x) := by
    refine fun u hu => ⟨fun j hj => ⟨hzj j ?_, rfl⟩, fun m' hm => ?_, fun m' hm => ⟨rfl, ?_⟩⟩
    · rintro rfl
      rcases hp with hp | hp <;> rw [hp] at hj <;> rcases hj with hj | hj <;> cases hj
      exact hu rfl
    · show _ ≤ update s.changes m _ m' ∧ (update s.changes m _ m' = _ →
        update s.localFreeHead m head m' = _ ∧ _)
      by_cases hmm : m' = m
      · subst hmm
        rw [update_self]
        exact ⟨Nat.le_succ _, fun he => absurd he (Nat.succ_ne_self _)⟩
      · rw [update_of_ne hmm, update_of_ne hmm]
        exact ⟨le_rfl, fun _ => ⟨rfl, fun _ _ => rfl⟩⟩
    · refine update_of_ne ?_ _ _
      rintro rfl
      exact h.not_trims (b := .inl t) hslot u hm
  refine ⟨fun j => ?_, fun u j hj => ?_, slots_same h.slots (hxslot.trans hslot.symm) hpout hzout,
    fun u v m' hu hv => h.trims u v m' ((same_update hnone u).symm.trans hu)
      ((same_update hnone v).symm.trans hv),
    fun m' hm => (h.closed m' hm).imp fun u hu => (same_update hnone u).trans hu, fun m' => ?_,
    fun m' hm => ?_, fun m' j => ?_, fun j => ?_, ok_update h.pc rfl hx hleaves⟩
  · show update s.place i z j ≠ .region ↔ j < s.currentMetadataRecordCount
    rw [← h.counted]
    by_cases hj : j = i
    · rw [hj, hzi]
      exact iff_of_true hzregion hpregion
    · rw [hzj j hj]
  · change update s.place i z j = _ ∨ update s.place i z j = _ at hj
    show (update s.pc t x u).record? = some j
    by_cases hji : j = i
    · rw [hji, hzi] at hj
      rcases hz with rfl | ⟨rfl, hrecord⟩
      · rcases hj with hj | hj <;> cases hj
      · rcases hj with hj | hj <;> cases hj
        rw [hji, update_self]
        exact hrecord
    · rw [hzj j hji] at hj
      have hrecord := h.mine u j hj
      rw [update_of_ne]
      · exact hrecord
      · rintro rfl
        exact hji (hold j hrecord)
  · show (update s.localFreeHead m head m').tag = update s.changes m _ m' % TAGS
    by_cases hmm : m' = m
    · subst hmm
      rw [hheadm, update_self, htag, h.tag, Nat.mod_add_mod]
    · rw [update_of_ne hmm, update_of_ne hmm]
      exact h.tag m'
  · show Linked some s.nextFreeHeader (update s.localFreeHead m head m').top
      (update s.contents m l m') none
    by_cases hmm : m' = m
    · subst hmm
      rw [hheadm, update_self]
      exact hchain
    · rw [update_of_ne hmm, update_of_ne hmm]
      exact h.chain m' (hclears m' hm)
  · show j ∈ update s.contents m l m' ↔ update s.place i z j = .free ∧ managerFor j = m'
    by_cases hmm : m' = m
    · subst hmm
      rw [update_self]
      constructor
      · exact fun hj => ⟨(hfree j (hl j hj)).1 hj, hl j hj⟩
      · exact fun hj => (hfree j hj.2).2 hj.1
    · rw [update_of_ne hmm, h.free]
      by_cases hji : j = i
      · rw [hji, hi]
        exact iff_of_false (fun hj => hmm hj.2.symm) fun hj => hmm hj.2.symm
      · rw [hzj j hji]
  · show update s.place i z j = _ ∧ s.callers j = 1 ∨ update s.place i z j ≠ _ ∧ s.callers j = 0
    by_cases hji : j = i
    · subst hji
      rw [hzi]
      rcases h.callers j with ⟨hc, -⟩ | ⟨-, hc⟩
      · exact absurd hc hpout
      · exact .inr ⟨hzout, hc⟩
    · rw [hzj j hji]
      exact h.callers j

/-- A pop whose compare-and-swap finds the head that it read takes the top of the list. -/
theorem Inv.pop (h : Inv s) {count since : ℕ} {next : Option ℕ}
    (hpc : s.pc t = .popCas m count i (s.localFreeHead m) next since)
    (hlt : s.changes m < since + TAGS) :
    Inv (((s.setHead m ((s.localFreeHead m).change next) (s.contents m).tail).setPlace i
      (.hand t)).setPc t (.popClear i)) := by
  have hok := h.pc t
  rw [hpc] at hok
  obtain ⟨hsnap, hnext⟩ := hok
  have hslot : (s.pc t).slot? = some m := by rw [hpc]; rfl
  have hclear := h.not_clears (b := .inl t) hslot
  have hsince : since = s.changes m := by
    have h1 := hsnap.le
    have h2 := hsnap.tag.symm.trans (h.tag m)
    have h3 : TAGS ∣ s.changes m - since := (Nat.modEq_iff_dvd' h1).1 h2
    have h4 := Nat.eq_zero_of_dvd_of_lt h3 (by omega)
    omega
  obtain ⟨hplace, hmanager⟩ := h.top_free hclear hsnap.top
  have hchain := h.chain m hclear
  have hnodup := hchain.nodup (Option.some_injective _) (by simp)
  unfold State.FreeList at hchain
  rw [hsnap.top] at hchain
  obtain ⟨l, hl, hrest⟩ := hchain.unlink_head (Option.some_injective _) (by simp)
  have htail : (s.contents m).tail = l := by rw [hl, List.tail_cons]
  rw [hl] at hnodup
  obtain ⟨hout, -⟩ := List.nodup_cons.1 hnodup
  have hmem : ∀ j, j ∈ l ↔ j ∈ s.contents m ∧ j ≠ i := by
    intro j
    rw [hl, List.mem_cons]
    grind
  rw [htail]
  refine h.swap hmanager hslot (by rw [hpc]; rfl) (by rw [← hmanager]; rfl) rfl rfl ?_
    (fun j hj => ?_) (fun j hj => ((h.free m j).1 ((hmem j).1 hj).1).2) (.inl hplace)
    (.inr ⟨rfl, rfl⟩) (fun j hj => by rw [hpc] at hj; cases hj) (update_self _ _ _)
  · show Linked some s.nextFreeHeader next l none
    rw [hnext hsince]
    exact hrest
  · rw [hmem, h.free]
    by_cases hji : j = i
    · subst hji
      simp
    · rw [update_of_ne hji]
      simp [hj, hji]

/-- The record goes on the list of its manager. -/
theorem Inv.push (h : Inv s)
    (hpc : s.pc t = .pushCas i (s.localFreeHead (managerFor i))) :
    Inv (((s.setHead (managerFor i) ((s.localFreeHead (managerFor i)).change (some i))
      (i :: s.contents (managerFor i))).setPlace i .free).setPc t
        (.release (managerFor i) .done)) := by
  have hok := h.pc t
  rw [hpc] at hok
  obtain ⟨hplace, hlink⟩ := hok
  have hslot : (s.pc t).slot? = some (managerFor i) := by rw [hpc]; rfl
  refine h.swap rfl hslot (by rw [hpc]; rfl) rfl rfl rfl
    ((h.chain _ (h.not_clears (b := .inl t) hslot)).push hlink) (fun j hj => ?_) (fun j hj => ?_)
    (.inr hplace) (.inl rfl) (fun j hj => ?_) trivial
  · rw [List.mem_cons, h.free]
    by_cases hji : j = i
    · subst hji
      simp
    · rw [update_of_ne hji]
      simp [hj, hji]
  · rcases List.mem_cons.1 hj with rfl | hj
    · rfl
    · exact ((h.free _ j).1 hj).2
  · rw [hpc] at hj
    exact (Option.some.inj hj).symm

end MinStd.MetadataManagers
