import MinStd.Proofs.ArenaRegionsFrame

/-!
# The records' side keeps the invariant
-/

namespace MinStd.ArenaRegions

open Function

variable {τ : Type*} [DecidableEq τ] {A : Arena} {s s' : State τ} {t u : τ} {x y : Pc} {i m w : ℕ}
  {z z' : Place τ}

/-- A thread goes on with what it has. -/
theorem Inv.goto (h : Inv A s) (hpc : s.pc t = y) (hx : x.Ok A s t)
    (hsame : x.slot? = y.slot? ∧ x.grows? = y.grows? ∧ x.trims? = y.trims?
      ∧ x.builds? = y.builds?) : Inv A (s.setPc t x) := by
  subst hpc
  obtain ⟨hslot, hgrow, htrim, hbuild⟩ := hsame
  have hleaves : ∀ u, Leaves u s (s.setPc t x) := fun u => .of_eq rfl rfl rfl rfl rfl rfl rfl rfl
  exact { h with
    place := fun i => (h.place i).frame rfl rfl rfl fun _ _ _ hb => hb
    kept := fun p u hp => (h.kept p u hp).imp_right fun hb => by
      rw [State.setPc, same_update hbuild]
      exact hb
    growing := fun u i hi => by
      rw [State.setPc, same_update hgrow]
      exact h.growing u i hi
    slots := fun m => (h.slots m).same (same_update hslot) fun _ => rfl
    trims := fun u v m hu hv => h.trims u v m
      ((same_update htrim u).symm.trans hu) ((same_update htrim v).symm.trans hv)
    pc := ok_update h.pc rfl (hx.leaves (hleaves t) fun _ _ => rfl) (fun u _ => hleaves u)
      fun _ _ _ _ => rfl }

/-- The thread has no slot, no record to give back, no manager that it trims and no block. -/
def Pc.Bare (x : Pc) : Prop :=
  x.slot? = none ∧ x.grows? = none ∧ x.trims? = none ∧ x.builds? = none

theorem Inv.move (h : Inv A s) (hpc : s.pc t = y) (hy : y.Bare) (hx : x.Bare) (hok : x.Ok A s t) :
    Inv A (s.setPc t x) := by
  obtain ⟨h1, h2, h3, h4⟩ := hy
  obtain ⟨h5, h6, h7, h8⟩ := hx
  exact h.goto hpc hok ⟨h5.trans h1.symm, h6.trans h2.symm, h7.trans h3.symm, h8.trans h4.symm⟩

/-- A thread that has nothing moves and has nothing. -/
theorem Pc.Bare.update (hy : (s.pc t).Bare) (hx : x.Bare) (u : τ) :
    (update s.pc t x u).slot? = (s.pc u).slot? ∧ (update s.pc t x u).grows? = (s.pc u).grows?
      ∧ (update s.pc t x u).trims? = (s.pc u).trims?
      ∧ (update s.pc t x u).builds? = (s.pc u).builds? := by
  obtain ⟨h1, h2, h3, h4⟩ := hy
  obtain ⟨h5, h6, h7, h8⟩ := hx
  exact ⟨same_update (h5.trans h1.symm) u, same_update (h6.trans h2.symm) u,
    same_update (h7.trans h3.symm) u, same_update (h8.trans h4.symm) u⟩

/-! ### A step that changes one record -/

/-- A step that changes record `i`, and what the threads are at. -/
structure OnlyRecord (i : ℕ) (s s' : State τ) : Prop where
  word : s'.nextEmptyMemoryBlock = s.nextEmptyMemoryBlock
  tiles : s'.tiles = s.tiles
  holder : s'.holder = s.holder
  headers : s'.headers = s.headers
  blocks : s'.blocks = s.blocks
  managers : s'.stateAndActiveCount = s.stateAndActiveCount
  others : ∀ j, j ≠ i → s'.place j = s.place j ∧ s'.blockState j = s.blockState j
    ∧ s'.totalSize j = s.totalSize j ∧ s'.written j = s.written j

section OnlyRecord

variable (h : Inv A s) (ho : OnlyRecord i s s')
include h ho

omit [DecidableEq τ] h in
theorem OnlyRecord.leaves (hi : (s.place i).thread? ≠ some u) : Leaves u s s' :=
  .of_record hi ho.tiles ho.holder ho.headers ho.blocks ho.others

omit [DecidableEq τ] in
theorem Inv.record (hok : (s'.place i).Ok s' i) (hnames : (s'.place i).names? = (s.place i).names?)
    (hreturned : (s'.place i).Returned → (s.place i).Returned ∨
      ∀ p n, (p, n) ∈ s.tiles → (s.holder p).Checked → p + n + i < A.metadataStart)
    (hcounted : ∀ j, s'.place j ≠ .region ↔ j < s'.currentMetadataRecordCount)
    (hslots : ∀ m, Managed (Slot s'.pc s'.place m) (s.stateAndActiveCount m))
    (hgrow : ∀ u j, s'.place j = .growing u → (s'.pc u).grows? = some j)
    (hbuild : ∀ u, (s'.pc u).builds? = (s.pc u).builds?)
    (htrim : ∀ u, (s'.pc u).trims? = (s.pc u).trims?)
    (hpc : ∀ u, (s'.pc u).Ok A s' u) : Inv A s' where
  word := by rw [ho.word, ho.tiles, h.word]
  tower := ho.tiles ▸ h.tower
  frontier := ho.tiles ▸ h.frontier
  holder := by rw [ho.holder, ho.tiles]; exact h.holder
  blocks := by rw [ho.blocks, ho.tiles, ho.holder]; exact h.blocks
  nodup := ho.blocks ▸ h.nodup
  header := by rw [ho.blocks, ho.tiles, ho.headers]; exact h.header
  named p j := by
    rw [ho.holder, h.named]
    by_cases hj : j = i
    · rw [hj, hnames]
    · rw [(ho.others j hj).1]
  kept := by
    rw [ho.holder, ho.blocks]
    intro p u hp
    rw [hbuild]
    exact h.kept p u hp
  place j := by
    by_cases hj : j = i
    · rw [hj]
      exact hok
    · obtain ⟨hplace, hstate, hsize, hwritten⟩ := ho.others j hj
      rw [hplace]
      exact (h.place j).frame hwritten hstate hsize fun _ _ _ hb => by rwa [ho.blocks]
  counted := hcounted
  growing := hgrow
  cross := by
    rw [ho.tiles, ho.holder]
    intro p n hp hc j hj
    by_cases hji : j = i
    · rw [hji] at hj ⊢
      rcases hreturned hj with hj | hall
      · exact h.cross p n hp hc i hj
      · exact hall p n hp hc
    · rw [(ho.others j hji).1] at hj
      exact h.cross p n hp hc j hj
  slots := ho.managers ▸ hslots
  trims u v m hu hv := h.trims u v m ((htrim u).symm.trans hu) ((htrim v).symm.trans hv)
  pc := hpc

/-- The step of a thread that changes a record which no other thread has in a call. -/
theorem Inv.record_step (hpc : s'.pc = update s.pc t x) (hplace : s'.place = update s.place i z)
    (hi : ∀ u, (s.place i).thread? = some u → u = t) (hz : ∀ u, z = .growing u → u = t)
    (hok : z.Ok s' i) (hx : x.Ok A s' t) (hnames : z.names? = (s.place i).names?)
    (hreturned : z.Returned → (s.place i).Returned ∨
      ∀ p n, (p, n) ∈ s.tiles → (s.holder p).Checked → p + n + i < A.metadataStart)
    (hcounted : ∀ j, s'.place j ≠ .region ↔ j < s'.currentMetadataRecordCount)
    (hslots : ∀ m, Managed (Slot s'.pc s'.place m) (s.stateAndActiveCount m))
    (hgrow : ∀ j, s'.place j = .growing t → x.grows? = some j)
    (hbuild : x.builds? = (s.pc t).builds?) (htrim : x.trims? = (s.pc t).trims?) : Inv A s' := by
  have hzi : s'.place i = z := by rw [hplace, update_self]
  refine h.record ho (hzi ▸ hok) (hzi ▸ hnames) (hzi ▸ hreturned) hcounted hslots ?_
    (by rw [hpc]; exact same_update hbuild) (by rw [hpc]; exact same_update htrim)
    (ok_update h.pc hpc hx (fun u hu => ho.leaves fun hiu => hu (hi u hiu))
      fun _ _ _ _ => by rw [ho.managers])
  intro u j hj
  by_cases hu : u = t
  · subst hu
    rw [hpc, update_self]
    exact hgrow j hj
  · rw [hpc, update_of_ne hu]
    by_cases hji : j = i
    · subst hji
      exact absurd (hz u (hzi.symm.trans hj)) hu
    · exact h.growing u j ((ho.others j hji).1.symm.trans hj)

/-- The step of a thread that changes a record which is returned and stays so. -/
theorem Inv.replace (hpc : s'.pc = update s.pc t x) (hplace : s'.place = update s.place i z)
    (hcount : s'.currentMetadataRecordCount = s.currentMetadataRecordCount)
    (hi : ∀ u, (s.place i).thread? = some u → u = t) (hold : (s.place i).Returned)
    (hnew : z.Returned) (hok : z.Ok s' i) (hx : x.Ok A s' t)
    (hnames : z.names? = (s.place i).names?)
    (hslots : ∀ m, Managed (Slot (update s.pc t x) (update s.place i z) m)
      (s.stateAndActiveCount m))
    (hgrow : x.grows? = (s.pc t).grows?) (hbuild : x.builds? = (s.pc t).builds?)
    (htrim : x.trims? = (s.pc t).trims?) : Inv A s' := by
  have hne : ∀ {z : Place τ}, z.Returned → z ≠ .region := by
    rintro _ hr rfl
    exact hr
  refine h.record_step ho hpc hplace hi (fun u hu => ?_) hok hx hnames (fun _ => .inl hold)
    (fun j => ?_) (by rwa [hpc, hplace]) (fun j hj => ?_) hbuild htrim
  · rw [hu] at hnew
    exact hnew.elim
  · rw [hplace, hcount, ← h.counted]
    by_cases hj : j = i
    · rw [hj, update_self]
      exact iff_of_true (hne hnew) (hne hold)
    · rw [update_of_ne hj]
  · by_cases hji : j = i
    · rw [hji, hplace, update_self] at hj
      rw [hj] at hnew
      exact hnew.elim
    · rw [hgrow]
      exact h.growing t j ((ho.others j hji).1.symm.trans hj)

end OnlyRecord

/-! ### Slots -/

section Slots

variable {pc : τ → Pc} {place : ℕ → Place τ} {b : τ ⊕ ℕ}

theorem slot_update_pc : Slot (update pc t x) place m b ↔
    b = .inl t ∧ x.slot? = some m ∨ b ≠ .inl t ∧ Slot pc place m b := by
  rcases b with u | j
  · by_cases hu : u = t
    · subst hu
      simp [Slot]
    · simp [Slot, hu]
  · simp [Slot]

theorem slot_update : Slot (update pc t x) (update place i z) m b ↔
    b = .inl t ∧ x.slot? = some m ∨ b = .inr i ∧ z.slotted = true ∧ managerFor i = m ∨
      b ≠ .inl t ∧ b ≠ .inr i ∧ Slot pc place m b := by
  rw [slot_update_pc]
  rcases b with u | j
  · simp [Slot]
  · by_cases hj : j = i
    · subst hj
      simp [Slot]
    · simp [Slot, hj]

/-- A thread's slot goes to a record of the manager. -/
theorem Managed.take (h : ∀ m, Managed (Slot pc place m) (s.stateAndActiveCount m))
    (hslot : (pc t).slot? = some (managerFor i)) (hx : x.slot? = none)
    (hi : (place i).slotted = false) (hz : z.slotted = true) (m : ℕ) :
    Managed (Slot (update pc t x) (update place i z) m) (s.stateAndActiveCount m) := by
  have hnot : ¬ Slot pc place m (.inr i) := fun hs => by simp [Slot, hi] at hs
  by_cases hm : managerFor i = m
  · subst hm
    refine (h _).swap (x := .inl t) hslot hnot fun b => ?_
    rw [slot_update, hx, hz]
    grind
  · refine (h m).congr fun b => ?_
    rw [slot_update, hx, hz]
    have ht : ¬ Slot pc place m (.inl t) := fun hs => hm (Option.some.inj (hslot.symm.trans hs))
    grind

/-- A record's slot goes to a thread. -/
theorem Managed.give (h : ∀ m, Managed (Slot pc place m) (s.stateAndActiveCount m))
    (hslot : (pc t).slot? = none) (hx : x.slot? = some (managerFor i))
    (hi : (place i).slotted = true) (hz : z.slotted = false) (m : ℕ) :
    Managed (Slot (update pc t x) (update place i z) m) (s.stateAndActiveCount m) := by
  have hnot : ¬ Slot pc place m (.inl t) := fun hs => by simp [Slot, hslot] at hs
  by_cases hm : managerFor i = m
  · subst hm
    refine (h _).swap (x := .inr i) ⟨hi, rfl⟩ hnot fun b => ?_
    rw [slot_update, hx, hz]
    grind
  · refine (h m).congr fun b => ?_
    rw [slot_update, hx, hz]
    have ht : ¬ Slot pc place m (.inr i) := fun hs => hm hs.2
    grind

end Slots

/-- The step of a thread that changes a returned record, where each slot stays where it is. -/
theorem Inv.rewrite (h : Inv A s) (ho : OnlyRecord i s s') (hpc : s'.pc = update s.pc t x)
    (hplace : s'.place = update s.place i z)
    (hcount : s'.currentMetadataRecordCount = s.currentMetadataRecordCount) (hy : s.pc t = y)
    (hsame : x.slot? = y.slot? ∧ x.grows? = y.grows? ∧ x.trims? = y.trims? ∧ x.builds? = y.builds?)
    (hz : s.place i = z') (hkeep : z.slotted = z'.slotted ∧ z.names? = z'.names?)
    (hi : ∀ u, z'.thread? = some u → u = t) (hold : z'.Returned) (hnew : z.Returned)
    (hok : z.Ok s' i) (hx : x.Ok A s' t) : Inv A s' := by
  subst hy hz
  obtain ⟨hslot, hgrow, htrim, hbuild⟩ := hsame
  exact h.replace ho hpc hplace hcount hi hold hnew hok hx hkeep.2
    (fun m => (h.slots m).same (same_update hslot) (same_update hkeep.1)) hgrow hbuild htrim

omit [DecidableEq τ] in
/-- A trim has the word of its manager. -/
theorem Pc.Ok.trimming (h : (s.pc u).Ok A s u) (ht : (s.pc u).trims? = some m) :
    s.stateAndActiveCount m = TRIMMING_MASK := by
  unfold Pc.trims? at ht
  split at ht <;> cases ht
  all_goals
    rename_i hpc
    rw [hpc] at h
    exact h

/-- A step that changes the word of one manager, which no other thread trims. -/
theorem Inv.manager (h : Inv A s) (htrim : ∀ u, u ≠ t → (s.pc u).trims? ≠ some m)
    (hx : x.Ok A ((s.setManager m w).setPc t x) t) (hxtrim : ∀ m', x.trims? = some m' → m' = m)
    (hgrow : x.grows? = (s.pc t).grows?) (hbuild : x.builds? = (s.pc t).builds?)
    (hslot : Managed (Slot (update s.pc t x) s.place m) w)
    (hother : ∀ m', m' ≠ m → (x.slot? = some m' ↔ (s.pc t).slot? = some m')) :
    Inv A ((s.setManager m w).setPc t x) := by
  have hleaves : ∀ u, Leaves u s ((s.setManager m w).setPc t x) :=
    fun u => .of_eq rfl rfl rfl rfl rfl rfl rfl rfl
  have hword : ∀ m', m' ≠ m →
      ((s.setManager m w).setPc t x).stateAndActiveCount m' = s.stateAndActiveCount m' :=
    fun m' hm => update_of_ne hm _ _
  have htrims : ∀ u v m', (update s.pc t x u).trims? = some m' →
      (update s.pc t x v).trims? = some m' → u = v := by
    intro u v m' hu hv
    by_cases hut : u = t <;> by_cases hvt : v = t
    · rw [hut, hvt]
    · rw [hut, update_self] at hu
      rw [update_of_ne hvt, hxtrim m' hu] at hv
      exact absurd hv (htrim v hvt)
    · rw [hvt, update_self] at hv
      rw [update_of_ne hut, hxtrim m' hv] at hu
      exact absurd hu (htrim u hut)
    · rw [update_of_ne hut] at hu
      rw [update_of_ne hvt] at hv
      exact h.trims u v m' hu hv
  exact { h with
    place := fun i => (h.place i).frame rfl rfl rfl fun _ _ _ hb => hb
    kept := fun p u hp => (h.kept p u hp).imp_right fun hb => by
      show (update s.pc t x u).builds? = some p
      rw [same_update hbuild]
      exact hb
    growing := fun u i hi => by
      show (update s.pc t x u).grows? = some i
      rw [same_update hgrow]
      exact h.growing u i hi
    slots := fun m' => by
      by_cases hm : m' = m
      · subst hm
        show Managed _ (update s.stateAndActiveCount m' w m')
        rw [update_self]
        exact hslot
      · rw [hword m' hm]
        refine (h.slots m').congr fun b => ?_
        show Slot (update s.pc t x) s.place m' b ↔ _
        rw [slot_update_pc]
        have hb := hother m' hm
        rcases b with u | i
        · by_cases hu : u = t
          · subst hu
            simpa [Slot] using hb
          · simp [Slot, hu]
        · simp [Slot]
    trims := htrims
    pc := ok_update h.pc rfl hx (fun u _ => hleaves u) fun u hu m' hm' =>
        hword m' fun hm => htrim u hu (hm'.trans (congrArg some hm)) }

/-! ### Steps -/

section Steps

omit [DecidableEq τ] in
theorem Inv.returned_lt (h : Inv A s) {p n c : ℕ} (hroom : unpackFrontier s.nextEmptyMemoryBlock
    + (c + 1) < A.metadataStart) (hp : (p, n) ∈ s.tiles) : p + n + c < A.metadataStart := by
  have hfrontier : unpackFrontier s.nextEmptyMemoryBlock = frontierOf s.tiles := by
    rw [h.word, Tower.unpack_frontier h.frontier]
  have hle := (h.tower.mem_le hp).2
  omega

omit [DecidableEq τ] in
theorem After.Ok.of_place {after : After} (h : after.Ok s t)
    (hp : ∀ i b, s.place i = .batch t b → s'.place i = .batch t b) : after.Ok s' t := by
  rcases after with _ | _ | _ | rest <;> try trivial
  exact ⟨h.1, fun i hi => (h.2 i hi).imp fun b => hp i b⟩

theorem growFrom_bare (count : ℕ) : (growFrom A count).Bare := by
  unfold growFrom
  split_ifs <;> exact ⟨rfl, rfl, rfl, rfl⟩

theorem searchFrom_bare (count manager : ℕ) : (searchFrom A count manager).Bare := by
  unfold searchFrom
  split_ifs
  · exact ⟨rfl, rfl, rfl, rfl⟩
  · exact growFrom_bare count

theorem After.pc_bare (after : After) : (after.pc A).Bare := by
  rcases after with _ | ⟨count, manager⟩ | count | rest
  · exact ⟨rfl, rfl, rfl, rfl⟩
  · exact searchFrom_bare count manager
  · exact growFrom_bare count
  · exact ⟨rfl, rfl, rfl, rfl⟩

omit [DecidableEq τ] in
theorem growFrom_ok (count : ℕ) : (growFrom A count).Ok A s t := by
  unfold growFrom
  split_ifs <;> trivial

omit [DecidableEq τ] in
theorem searchFrom_ok (count manager : ℕ) : (searchFrom A count manager).Ok A s t := by
  unfold searchFrom
  split_ifs
  · trivial
  · exact growFrom_ok count

omit [DecidableEq τ] in
theorem After.Ok.pc {after : After} (h : after.Ok s t) : (after.pc A).Ok A s t := by
  rcases after with _ | ⟨count, manager⟩ | count | rest
  · trivial
  · exact searchFrom_ok count manager
  · exact growFrom_ok count
  · exact h

theorem Inv.reserveFrom (h : Inv A s) (what : Reserve) (word : ℕ) (hpc : (s.pc t).Bare) :
    Inv A (s.setPc t (reserveFrom A what word)) := by
  unfold ArenaRegions.reserveFrom
  split_ifs with hbusy
  · rcases what with ⟨manager, count⟩ | count
    · exact h.move rfl hpc (searchFrom_bare count _) (searchFrom_ok count _)
    · exact h.move rfl hpc ⟨rfl, rfl, rfl, rfl⟩ trivial
  · exact h.move rfl hpc ⟨rfl, rfl, rfl, rfl⟩ ((not_or.1 hbusy).imp_left not_not.1)

/-- A slot is reserved. -/
theorem Inv.reserve (h : Inv A s) {what : Reserve}
    (hpc : s.pc t = .reserveCas what (s.stateAndActiveCount what.manager)) :
    Inv A ((s.setManager what.manager (s.stateAndActiveCount what.manager + 1)).setPc t
      (reserved what)) := by
  have hok := h.pc t
  rw [hpc] at hok
  have hslot : (reserved what).slot? = some what.manager := by rcases what with _ | _ <;> rfl
  have hhas : (reserved what).grows? = none ∧ (reserved what).trims? = none
      ∧ (reserved what).builds? = none := by rcases what with _ | _ <;> exact ⟨rfl, rfl, rfl⟩
  obtain ⟨hgrow, htrim, hbuild⟩ := hhas
  have hnot : ¬ Slot s.pc s.place what.manager (.inl t) := fun hs => by
    simp [Slot, hpc, Pc.slot?] at hs
  refine h.manager (fun u _ hu => ?_) (by rcases what with _ | _ <;> trivial)
    (fun m' hm => by rw [htrim] at hm; cases hm) (by rw [hgrow, hpc]; rfl)
    (by rw [hbuild, hpc]; rfl) ?_ fun m' hm => ?_
  · rw [Pc.Ok.trimming (h.pc u) hu] at hok
    exact absurd hok.1 (by decide)
  · refine (h.slots _).add hok.1 hok.2 hnot fun b => ?_
    rw [slot_update_pc, hslot]
    grind
  · rw [hslot, hpc]
    simpa [Pc.slot?] using hm.symm

/-- A slot is given back. -/
theorem Inv.release (h : Inv A s) {after : After} (hpc : s.pc t = .release m after) :
    Inv A ((s.setManager m (releaseSlot (s.stateAndActiveCount m))).setPc t (after.pc A)) := by
  have hok := h.pc t
  rw [hpc] at hok
  obtain ⟨hslot, hgrow, htrim, hbuild⟩ := After.pc_bare (A := A) after
  have hhas : Slot s.pc s.place m (.inl t) := by
    show (s.pc t).slot? = some m
    rw [hpc]
    rfl
  rw [(h.slots m).releaseSlot_eq hhas]
  refine h.manager (fun u _ hu => ?_) (After.Ok.pc hok) (fun m' hm => by rw [htrim] at hm; cases hm)
    (by rw [hgrow, hpc]; rfl) (by rw [hbuild, hpc]; rfl) ?_ fun m' hm => ?_
  · have hle := ((h.slots m).counted hhas).2
    rw [Pc.Ok.trimming (h.pc u) hu] at hle
    exact absurd hle (by decide)
  · refine (h.slots m).drop hhas fun b => ?_
    rw [slot_update_pc, hslot]
    simp
  · rw [hslot, hpc]
    simpa [Pc.slot?] using hm.symm

/-- The record `count` is counted. -/
theorem Inv.grow (h : Inv A s) (hpc : s.pc t = .growCas s.currentMetadataRecordCount) :
    Inv A ({ s with
      currentMetadataRecordCount := s.currentMetadataRecordCount + 1
      place := update s.place s.currentMetadataRecordCount (.growing t)
      written := update s.written s.currentMetadataRecordCount false }.setPc t
        (.growRecheck s.currentMetadataRecordCount)) := by
  generalize hc : s.currentMetadataRecordCount = count at hpc ⊢
  have hregion : s.place count = .region := by
    by_contra hne
    exact absurd ((h.counted count).1 hne) (by omega)
  have hslot : ∀ u, (update s.pc t (.growRecheck count) u).slot? = (s.pc u).slot? :=
    same_update (by rw [hpc]; rfl)
  refine h.record_step (i := count) (z := .growing t) ⟨rfl, rfl, rfl, rfl, rfl, rfl, fun j hj =>
      ⟨update_of_ne hj _ _, rfl, rfl, update_of_ne hj _ _⟩⟩ rfl rfl ?_ (fun u hu => ?_)
    (update_self _ _ _) (update_self _ _ _) (by rw [hregion]; rfl) (fun hr => hr.elim) (fun j => ?_)
    (fun m => (h.slots m).same hslot fun j => ?_) (fun j hj => ?_) (by rw [hpc]; rfl)
    (by rw [hpc]; rfl)
  · rw [hregion]
    intro u hu
    cases hu
  · cases hu
    rfl
  · show update s.place count (.growing t) j ≠ _ ↔ j < count + 1
    by_cases hj : j = count
    · rw [hj, update_self]
      simp
    · rw [update_of_ne hj, h.counted, hc]
      omega
  · refine same_update ?_ j
    rw [hregion]
    rfl
  · by_cases hjc : j = count
    · rw [hjc]
      rfl
    · have hgrow := h.growing t j ((update_of_ne hjc _ _).symm.trans hj)
      rw [hpc] at hgrow
      cases hgrow

omit [DecidableEq τ] in
/-- A thread has grown one record at a time. -/
theorem Inv.not_growing (h : Inv A s) {j : ℕ} (hpc : (s.pc t).grows? = some i)
    (hz : z ≠ .growing t) : update s.place i z j ≠ .growing t := by
  by_cases hj : j = i
  · rwa [hj, update_self]
  · rw [update_of_ne hj]
    intro hplace
    exact hj (Option.some.inj ((h.growing t j hplace).symm.trans hpc))

/-- The grown record does not overlap and is returned. -/
theorem Inv.keep_grown (h : Inv A s) {count : ℕ} (hpc : s.pc t = .growRecheck count)
    (hroom : ¬ A.metadataStart ≤ unpackFrontier s.nextEmptyMemoryBlock + (count + 1)) :
    Inv A ((s.setPlace count (.hand t)).setPc t .idle) := by
  have hplace : s.place count = .growing t := by
    have hok := h.pc t
    rwa [hpc] at hok
  have hslot : (s.pc t).slot? = some (managerFor count) := by rw [hpc]; rfl
  refine h.record_step (i := count) (z := .hand t) ⟨rfl, rfl, rfl, rfl, rfl, rfl, fun j hj =>
      ⟨update_of_ne hj _ _, rfl, rfl, rfl⟩⟩ rfl rfl ?_ (fun u hu => by cases hu) ?_ trivial
    (by rw [hplace]; rfl) (fun _ => .inr fun p n hp _ => ?_) (fun j => ?_)
    (Managed.take h.slots hslot rfl (by rw [hplace]; rfl) rfl) (fun j hj => ?_)
    (by rw [hpc]; rfl) (by rw [hpc]; rfl)
  · rw [hplace]
    intro u hu
    cases hu
    rfl
  · intro hwritten
    have hok := h.place count
    rw [hplace] at hok
    exact absurd (hok.symm.trans hwritten) (by decide)
  · exact h.returned_lt (by omega) hp
  · show update s.place count (.hand t) j ≠ _ ↔ j < s.currentMetadataRecordCount
    rw [← h.counted]
    by_cases hj : j = count
    · rw [hj, update_self, hplace]
      simp
    · rw [update_of_ne hj]
  · exact absurd hj (h.not_growing (by rw [hpc]; rfl) (by simp))

/-- The topmost record is taken off again. -/
theorem Inv.undo_grown (h : Inv A s) {count : ℕ} (hpc : s.pc t = .growUndo count)
    (htop : s.currentMetadataRecordCount = count + 1) :
    Inv A ({ s with
      currentMetadataRecordCount := count
      place := update s.place count .region }.setPc t (.release (managerFor count) .done)) := by
  have hplace : s.place count = .growing t := by
    have hok := h.pc t
    rwa [hpc] at hok
  refine h.record_step (i := count) (z := .region) ⟨rfl, rfl, rfl, rfl, rfl, rfl, fun j hj =>
      ⟨update_of_ne hj _ _, rfl, rfl, rfl⟩⟩ rfl rfl ?_ (fun u hu => by cases hu) ?_ trivial
    (by rw [hplace]; rfl) (fun hr => hr.elim) (fun j => ?_)
    (fun m => (h.slots m).same (same_update (by rw [hpc]; rfl))
      (same_update (by rw [hplace]; rfl)))
    (fun j hj => ?_) (by rw [hpc]; rfl) (by rw [hpc]; rfl)
  · rw [hplace]
    intro u hu
    cases hu
    rfl
  · have hok := h.place count
    rw [hplace] at hok
    exact hok
  · show update s.place count .region j ≠ _ ↔ j < count
    by_cases hj : j = count
    · rw [hj, update_self]
      simp
    · rw [update_of_ne hj, h.counted, htop]
      omega
  · exact absurd hj (h.not_growing (by rw [hpc]; rfl) (by simp))

/-- The record's word says that it is free. -/
theorem Inv.recycle_store (h : Inv A s) {after : After} (hpc : s.pc t = .recycleStore i after) :
    Inv A ({ (s.setWord i ⟨none, .METADATA_AVAILABLE, (s.blockState i).version⟩) with
      written := update s.written i true }.setPc t (.recyclePush i after)) := by
  have hok := h.pc t
  rw [hpc] at hok
  obtain ⟨hplace, hafter⟩ := hok
  refine h.rewrite (z := .hand t) ⟨rfl, rfl, rfl, rfl, rfl, rfl, fun j hj => ⟨rfl,
      update_of_ne hj _ _, rfl, update_of_ne hj _ _⟩⟩ rfl
    (by rw [← hplace]; exact (update_eq_self _ _).symm) rfl hpc ⟨rfl, rfl, rfl, rfl⟩ hplace
    ⟨rfl, rfl⟩ (fun u hu => (Option.some.inj hu).symm) trivial trivial (fun _ => ?_)
    ⟨hplace, hafter⟩
  show (update s.blockState i _ i).state ≠ _
  rw [update_self]
  exact fun hstate => by cases hstate

/-- The record goes on the free list of its manager. -/
theorem Inv.recycle_push (h : Inv A s) {after : After} (hpc : s.pc t = .recyclePush i after) :
    Inv A ((s.setPlace i .free).setPc t (.release (managerFor i) after)) := by
  have hok := h.pc t
  rw [hpc] at hok
  obtain ⟨hplace, hafter⟩ := hok
  have hword := h.place i
  rw [hplace] at hword
  refine h.replace ⟨rfl, rfl, rfl, rfl, rfl, rfl, fun j hj => ⟨update_of_ne hj _ _, rfl, rfl, rfl⟩⟩
    rfl rfl rfl (fun u hu => ?_) (by rw [hplace]; trivial) trivial hword ?_ (by rw [hplace]; rfl)
    (Managed.give h.slots (by rw [hpc]; rfl) rfl (by rw [hplace]; rfl) rfl) (by rw [hpc]; rfl)
    (by rw [hpc]; rfl) (by rw [hpc]; rfl)
  · rw [hplace] at hu
    exact (Option.some.inj hu).symm
  · exact hafter.of_place fun j b hj =>
      (update_of_ne (by rintro rfl; simp [hplace] at hj) _ _).trans hj

/-- A record is taken from the free list of its manager. -/
theorem Inv.pop (h : Inv A s) {count : ℕ} (hpc : s.pc t = .recordPop (managerFor i) count)
    (hplace : s.place i = .free) : Inv A ((s.setPlace i (.hand t)).setPc t .idle) := by
  have hword := h.place i
  rw [hplace] at hword
  refine h.replace ⟨rfl, rfl, rfl, rfl, rfl, rfl, fun j hj => ⟨update_of_ne hj _ _, rfl, rfl, rfl⟩⟩
    rfl rfl rfl (fun u hu => ?_) (by rw [hplace]; trivial) trivial hword trivial
    (by rw [hplace]; rfl) (Managed.take h.slots (by rw [hpc]; rfl) rfl (by rw [hplace]; rfl) rfl)
    (by rw [hpc]; rfl) (by rw [hpc]; rfl) (by rw [hpc]; rfl)
  rw [hplace] at hu
  cases hu

theorem Inv.runRecord (h : Inv A s) {spurious : Bool} (hs : runRecord A s t spurious = some s') :
    Inv A s' := by
  have hok := h.pc t
  unfold ArenaRegions.runRecord at hs
  split at hs
  case h_1 hpc =>
    cases hs
    exact h.move hpc ⟨rfl, rfl, rfl, rfl⟩ (searchFrom_bare _ _) (searchFrom_ok _ _)
  case h_2 hpc =>
    cases hs
    exact h.move hpc ⟨rfl, rfl, rfl, rfl⟩ (growFrom_bare _) (growFrom_ok _)
  case h_3 what hpc =>
    cases hs
    exact h.reserveFrom what _ (by rw [hpc]; exact ⟨rfl, rfl, rfl, rfl⟩)
  case h_4 what word hpc =>
    split_ifs at hs with hword <;> cases hs
    · obtain ⟨rfl, -⟩ := hword
      exact h.reserve hpc
    · exact h.reserveFrom what _ (by rw [hpc]; exact ⟨rfl, rfl, rfl, rfl⟩)
  case h_5 count hpc =>
    split_ifs at hs <;> cases hs
    · exact h.goto hpc trivial ⟨rfl, rfl, rfl, rfl⟩
    · exact h.goto hpc trivial ⟨rfl, rfl, rfl, rfl⟩
  case h_6 count hpc =>
    split_ifs at hs with hcount <;> cases hs
    · subst hcount
      exact h.grow hpc
    · exact h.goto hpc trivial ⟨rfl, rfl, rfl, rfl⟩
  case h_7 count hpc =>
    rw [hpc] at hok
    split_ifs at hs with hroom <;> cases hs
    · exact h.goto hpc hok ⟨rfl, rfl, rfl, rfl⟩
    · exact h.keep_grown hpc hroom
  case h_8 count hpc =>
    rw [hpc] at hok
    split_ifs at hs with htop <;> cases hs
    · exact h.undo_grown hpc htop
    · exact h.goto hpc hok ⟨rfl, rfl, rfl, rfl⟩
  case h_9 manager after hpc =>
    cases hs
    exact h.release hpc
  case h_10 index after hpc =>
    cases hs
    exact h.recycle_store hpc
  case h_11 index after hpc =>
    cases hs
    exact h.recycle_push hpc
  case h_12 => cases hs

end Steps

/-! ### Trims -/

section Trims

omit [DecidableEq τ] in
theorem Inv.trims_ne (h : Inv A s) {v : τ} (hv : (s.pc v).trims? = some m) (hu : u ≠ v) :
    (s.pc u).trims? ≠ some m := fun hm => hu (h.trims u v m hm hv)

/-- A trim takes a manager of which nobody has a slot. -/
theorem Inv.trim_claim (h : Inv A s) {count : ℕ} (hpc : s.pc t = .trimClaim count)
    (hword : s.stateAndActiveCount (managerFor (count - 1)) = 0) :
    Inv A ((s.setManager (managerFor (count - 1)) TRIMMING_MASK).setPc t (.trimCheck count)) := by
  refine h.manager (fun u _ hu => ?_) (update_self _ _ _) (fun m' hm => (Option.some.inj hm).symm)
    (by rw [hpc]; rfl) (by rw [hpc]; rfl) (.inl ⟨rfl, fun b hb => ?_⟩) fun m' hm => ?_
  · have htrim := Pc.Ok.trimming (h.pc u) hu
    rw [hword] at htrim
    cases htrim
  · have hslots := h.slots (managerFor (count - 1))
    rw [hword] at hslots
    rw [slot_update_pc] at hb
    rcases hslots with ⟨hzero, -⟩ | ⟨hcount, -⟩
    · cases hzero
    · rcases hb with ⟨-, hb⟩ | ⟨-, hb⟩
      · cases hb
      · exact hcount.eq_zero_iff.1 rfl b hb
  · rw [hpc]
    exact Iff.rfl

/-- A manager is open again. -/
theorem Inv.trim_open (h : Inv A s) (hpc : s.pc t = .trimOpen m) :
    Inv A ((s.setManager m 0).setPc t .trimLoad) := by
  have hok := h.pc t
  rw [hpc] at hok
  refine h.manager (fun u hu => h.trims_ne (by rw [hpc]; rfl) hu) trivial (fun m' hm => by cases hm)
    (by rw [hpc]; rfl) (by rw [hpc]; rfl) (.inr ⟨.empty fun b hb => ?_, Nat.zero_le _⟩)
    fun m' hm => ?_
  · have hslots := h.slots m
    rw [hok] at hslots
    rw [slot_update_pc] at hb
    rcases hslots with ⟨-, hnone⟩ | ⟨-, hle⟩
    · rcases hb with ⟨-, hb⟩ | ⟨-, hb⟩
      · cases hb
      · exact hnone b hb
    · exact absurd hle (by decide)
  · rw [hpc]
    exact Iff.rfl

omit [DecidableEq τ] in
theorem Pc.slot?_of_grows? (h : x.grows? = some i) : x.slot? = some (managerFor i) := by
  rcases x <;> cases h <;> rfl

omit [DecidableEq τ] in
/-- The records of a manager of which nobody has a slot are free or not counted. -/
theorem Inv.trimmed (h : Inv A s) {count : ℕ} (hcount : s.currentMetadataRecordCount = count)
    (hword : s.stateAndActiveCount (managerFor (count - 1)) = TRIMMING_MASK)
    (hi : managerFor (count - 1) * METADATA_RECORDS_PER_BLOCK ≤ i) :
    s.place i = .region ∨ s.place i = .free := by
  have hnone : ∀ b, ¬ Slot s.pc s.place (managerFor (count - 1)) b := by
    have hslots := h.slots (managerFor (count - 1))
    rw [hword] at hslots
    rcases hslots with ⟨-, hnone⟩ | ⟨-, hle⟩
    · exact hnone
    · exact absurd hle (by decide)
  by_cases hregion : s.place i = .region
  · exact .inl hregion
  have hmanager : managerFor i = managerFor (count - 1) := by
    have hlt := (h.counted i).1 hregion
    unfold managerFor METADATA_RECORDS_PER_BLOCK at hi ⊢
    omega
  have hslot := hnone (.inr i)
  have hgrow : ∀ u, s.place i ≠ .growing u := by
    intro u hu
    refine hnone (.inl u) ?_
    rw [← hmanager]
    exact Pc.slot?_of_grows? (h.growing u i hu)
  rcases hp : s.place i with _ | u | _ | _ | _ | _ | _ | _ | _ | _ | _ | _ <;>
    first
    | exact absurd hp hregion
    | exact absurd hp (hgrow u)
    | exact .inr rfl
    | exact absurd ⟨by rw [hp]; rfl, hmanager⟩ hslot

/-- The records of the last manager are taken off. -/
theorem Inv.trim_shrink (h : Inv A s) {count : ℕ} (hpc : s.pc t = .trimShrink count)
    (hcount : s.currentMetadataRecordCount = count) :
    Inv A ({ s with
      currentMetadataRecordCount := managerFor (count - 1) * METADATA_RECORDS_PER_BLOCK
      place := fun i => if managerFor (count - 1) * METADATA_RECORDS_PER_BLOCK ≤ i then .region
        else s.place i
      written := fun i => if managerFor (count - 1) * METADATA_RECORDS_PER_BLOCK ≤ i then false
        else s.written i }.setPc t (.trimOpen (managerFor (count - 1)))) := by
  have hok := h.pc t
  rw [hpc] at hok
  have hle : managerFor (count - 1) * METADATA_RECORDS_PER_BLOCK ≤ count := by
    unfold managerFor METADATA_RECORDS_PER_BLOCK
    omega
  have htrimmed := fun i => h.trimmed (i := i) hcount hok
  generalize managerFor (count - 1) * METADATA_RECORDS_PER_BLOCK = new at hle htrimmed ⊢
  -- a place stays, or the record was free
  have hcases : ∀ i, i < new ∧ (if new ≤ i then .region else s.place i) = s.place i
      ∧ (if new ≤ i then false else s.written i) = s.written i ∨
      new ≤ i ∧ (if new ≤ i then .region else s.place i) = .region
        ∧ (if new ≤ i then false else s.written i) = false
        ∧ (s.place i = .region ∨ s.place i = .free) := by
    intro i
    by_cases hi : new ≤ i
    · exact .inr ⟨hi, if_pos hi, if_pos hi, htrimmed i hi⟩
    · exact .inl ⟨not_le.1 hi, if_neg hi, if_neg hi⟩
  have hleaves : ∀ u, Leaves u s ({ s with
      currentMetadataRecordCount := new
      place := fun i => if new ≤ i then .region else s.place i
      written := fun i => if new ≤ i then false else s.written i }.setPc t
        (.trimOpen (managerFor (count - 1)))) := by
    refine fun u => ⟨fun p n l hl _ => ⟨hl, rfl⟩, fun i hi => ?_, fun _ _ => rfl, fun _ _ _ => rfl,
      fun _ _ hp => hp⟩
    rcases hcases i with ⟨-, hplace, hwritten⟩ | ⟨-, -, -, hp | hp⟩
    · exact ⟨hplace, rfl, rfl, hwritten⟩
    · rw [hp] at hi
      cases hi
    · rw [hp] at hi
      cases hi
  have hpc' : Pc.builds? (.trimOpen (managerFor (count - 1))) = (s.pc t).builds?
      ∧ Pc.grows? (.trimOpen (managerFor (count - 1))) = (s.pc t).grows? := by
    rw [hpc]
    exact ⟨rfl, rfl⟩
  exact { h with
    named := fun p i => by
      refine (h.named p i).trans ?_
      show _ ↔ Place.names? (if new ≤ i then .region else s.place i) = _
      rcases hcases i with ⟨-, hplace, -⟩ | ⟨-, hplace, -, hp | hp⟩
      · rw [hplace]
      · rw [hplace, hp]
      · rw [hplace, hp]
        exact Iff.rfl
    kept := fun p u hp => (h.kept p u hp).imp_right fun hb => by
      show (update s.pc t _ u).builds? = some p
      rw [same_update hpc'.1]
      exact hb
    place := fun i => by
      show Place.Ok _ i (if new ≤ i then .region else s.place i)
      rcases hcases i with ⟨-, hplace, hwritten⟩ | ⟨-, hplace, hwritten, -⟩
      · rw [hplace]
        exact (h.place i).frame hwritten rfl rfl fun _ _ _ hb => hb
      · rw [hplace]
        exact hwritten
    counted := fun i => by
      show (if new ≤ i then .region else s.place i) ≠ .region ↔ i < new
      rcases hcases i with ⟨hi, hplace, -⟩ | ⟨hi, hplace, -⟩
      · rw [hplace, h.counted, hcount]
        omega
      · rw [hplace]
        exact iff_of_false (not_not.2 rfl) (not_lt.2 hi)
    growing := fun u i hi => by
      show (update s.pc t _ u).grows? = some i
      rw [same_update hpc'.2]
      rcases hcases i with ⟨-, hplace, -⟩ | ⟨-, hplace, -⟩
      · exact h.growing u i (hplace.symm.trans hi)
      · exact absurd (hplace.symm.trans hi) (by simp)
    cross := fun p n hp hc i hi => by
      change Place.Returned (if new ≤ i then .region else s.place i) at hi
      rcases hcases i with ⟨-, hplace, -⟩ | ⟨-, hplace, -⟩ <;> rw [hplace] at hi
      · exact h.cross p n hp hc i hi
      · exact hi.elim
    slots := fun m => (h.slots m).same (same_update (by rw [hpc]; rfl)) fun i => by
      show Place.slotted (if new ≤ i then .region else s.place i) = _
      rcases hcases i with ⟨-, hplace, -⟩ | ⟨-, hplace, -, hp | hp⟩
      · rw [hplace]
      · rw [hplace, hp]
      · rw [hplace, hp]
        rfl
    trims := fun u v m hu hv => h.trims u v m
      ((same_update (by rw [hpc]; rfl) u).symm.trans hu)
      ((same_update (by rw [hpc]; rfl) v).symm.trans hv)
    pc := ok_update h.pc rfl hok (fun u _ => hleaves u) fun _ _ _ _ => rfl }

theorem Inv.runTrim (h : Inv A s) (hs : runTrim A s t = some s') : Inv A s' := by
  have hok := h.pc t
  unfold ArenaRegions.runTrim at hs
  split at hs
  case h_1 hpc =>
    split_ifs at hs <;> cases hs
    · exact h.goto hpc trivial ⟨rfl, rfl, rfl, rfl⟩
    · exact h.goto hpc trivial ⟨rfl, rfl, rfl, rfl⟩
  case h_2 count hpc =>
    split_ifs at hs with hword <;> cases hs
    · exact h.trim_claim hpc hword
    · exact h.goto hpc trivial ⟨rfl, rfl, rfl, rfl⟩
  case h_3 count hpc =>
    rw [hpc] at hok
    split_ifs at hs <;> cases hs
    · exact h.goto hpc hok ⟨rfl, rfl, rfl, rfl⟩
    · exact h.goto hpc hok ⟨rfl, rfl, rfl, rfl⟩
  case h_4 count hpc =>
    rw [hpc] at hok
    split_ifs at hs with hcount <;> cases hs
    · exact h.trim_shrink hpc hcount
    · exact h.goto hpc hok ⟨rfl, rfl, rfl, rfl⟩
  case h_5 manager hpc =>
    cases hs
    exact h.trim_open hpc
  case h_6 => cases hs

end Trims

end MinStd.ArenaRegions
