import MinStd.MetadataManagers
import MinStd.Proofs.ArenaRegionsFrame

/-!
# The managers keep their records

A slot of a manager is held by a call that takes or gives back one of its records, or by a record
that is with a caller, so a trim that finds none takes off free records only.  A pop holds a slot
while it stands at its compare-and-swap, so no trim empties the list meanwhile, and the tag says
whether the head has changed.
-/

namespace MinStd.MetadataManagers

open Function ArenaRegions

variable {τ : Type*} {A : Arena} {s s' : State τ} {t u : τ} {x y : Pc} {i m w : ℕ} {z : Place τ}

/-! ### What the calls know -/

namespace Pc

/-- The manager that the thread holds a slot of. -/
def slot? : Pc → Option ℕ
  | popLoad manager _ => some manager
  | popLink manager _ _ _ _ => some manager
  | popCas manager _ _ _ _ _ => some manager
  | popClear current => some (managerFor current)
  | growFrontier count => some (managerFor count)
  | growCas count => some (managerFor count)
  | growRecheck count => some (managerFor count)
  | growUndo count => some (managerFor count)
  | release manager _ => some manager
  | pushLoad index => some (managerFor index)
  | pushStore index _ => some (managerFor index)
  | pushCas index _ => some (managerFor index)
  | _ => none

/-- The manager that the thread trims. -/
def trims? : Pc → Option ℕ
  | trimCheck count => some (managerFor (count - 1))
  | trimShrink count => some (managerFor (count - 1))
  | trimClear manager => some manager
  | trimOpen manager => some manager
  | _ => none

theorem slot?_of_record? (h : x.record? = some i) : x.slot? = some (managerFor i) := by
  rcases x <;> cases h <;> rfl

theorem trims?_of_clears? (h : x.clears? = some m) : x.trims? = some m := by
  rcases x <;> cases h
  rfl

end Pc

def Slot (pc : τ → Pc) (place : ℕ → Place τ) (m : ℕ) : τ ⊕ ℕ → Prop
  | .inl t => (pc t).slot? = some m
  | .inr i => place i = .out ∧ managerFor i = m

/-- A head that was read when it had changed `since` times. -/
structure Snapshot (s : State τ) (m current : ℕ) (head : Head) (since : ℕ) : Prop where
  top : head.top = some current
  le : since ≤ s.changes m
  tag : head.tag = since % TAGS
  head : since = s.changes m → s.localFreeHead m = head

def Pc.Ok (s : State τ) (t : τ) : Pc → Prop
  | reserveCas _ word => word &&& TRIMMING_MASK = 0
      ∧ word &&& ACTIVE_COUNT_MASK ≠ ACTIVE_COUNT_MASK
  | popLink manager _ current head since => Snapshot s manager current head since
  | popCas manager _ current head next since => Snapshot s manager current head since
      ∧ (since = s.changes manager → next = s.nextFreeHeader current)
  | popClear current => s.place current = .hand t
  | growRecheck count => s.place count = .growing t
  | growUndo count => s.place count = .growing t
  | pushLoad index => s.place index = .hand t
  | pushStore index _ => s.place index = .hand t
  | pushCas index head => s.place index = .hand t ∧ s.nextFreeHeader index = head.top
  | trimCheck count => s.stateAndActiveCount (managerFor (count - 1)) = TRIMMING_MASK
  | trimShrink count => s.stateAndActiveCount (managerFor (count - 1)) = TRIMMING_MASK
  | trimClear manager => s.stateAndActiveCount manager = TRIMMING_MASK ∧ s.contents manager = []
  | trimOpen manager => s.stateAndActiveCount manager = TRIMMING_MASK
  | _ => True

/-- The count counts the records, a record in a call is that call's, and the lists are of the free
records, unless a trim is about to empty them. -/
structure Inv (s : State τ) : Prop where
  counted : ∀ i, s.place i ≠ .region ↔ i < s.currentMetadataRecordCount
  mine : ∀ t i, s.place i = .hand t ∨ s.place i = .growing t → (s.pc t).record? = some i
  slots : ∀ m, Managed (Slot s.pc s.place m) (s.stateAndActiveCount m)
  trims : ∀ t u m, (s.pc t).trims? = some m → (s.pc u).trims? = some m → t = u
  closed : ∀ m, s.stateAndActiveCount m = TRIMMING_MASK → ∃ t, (s.pc t).trims? = some m
  tag : ∀ m, (s.localFreeHead m).tag = s.changes m % TAGS
  chain : ∀ m, (∀ t, (s.pc t).clears? ≠ some m) → s.FreeList m (s.contents m)
  free : ∀ m i, i ∈ s.contents m ↔ s.place i = .free ∧ managerFor i = m
  callers : ∀ i, s.place i = .out ∧ s.callers i = 1 ∨ s.place i ≠ .out ∧ s.callers i = 0
  pc : ∀ t, (s.pc t).Ok s t

/-! ### What others leave -/

/-- What a step leaves to thread `u`: the record of its call, the head of a manager that it holds a
slot of, unless the head has changed, and a manager that it trims. -/
structure Leaves (u : τ) (s s' : State τ) : Prop where
  record : ∀ i, s.place i = .hand u ∨ s.place i = .growing u →
    s'.place i = s.place i ∧ s'.nextFreeHeader i = s.nextFreeHeader i
  heads : ∀ m, (s.pc u).slot? = some m → s.changes m ≤ s'.changes m
    ∧ (s'.changes m = s.changes m → s'.localFreeHead m = s.localFreeHead m
      ∧ ∀ i, (s.localFreeHead m).top = some i → s'.nextFreeHeader i = s.nextFreeHeader i)
  trims : ∀ m, (s.pc u).trims? = some m →
    s'.stateAndActiveCount m = s.stateAndActiveCount m ∧ s'.contents m = s.contents m

theorem Leaves.of_eq (hplace : s'.place = s.place) (hlink : s'.nextFreeHeader = s.nextFreeHeader)
    (hhead : s'.localFreeHead = s.localFreeHead) (hchanges : s'.changes = s.changes)
    (hcontents : s'.contents = s.contents) (htrims : ∀ m, (s.pc u).trims? = some m →
      s'.stateAndActiveCount m = s.stateAndActiveCount m) : Leaves u s s' where
  record i _ := ⟨congrFun hplace i, congrFun hlink i⟩
  heads m _ := ⟨(congrFun hchanges m).ge, fun _ => ⟨congrFun hhead m, fun i _ => congrFun hlink i⟩⟩
  trims m hm := ⟨htrims m hm, congrFun hcontents m⟩

theorem Snapshot.leaves (hl : Leaves u s s') {current since : ℕ} {head : Head}
    (hm : (s.pc u).slot? = some m) (h : Snapshot s m current head since) :
    Snapshot s' m current head since := by
  obtain ⟨hle, hsame⟩ := hl.heads m hm
  refine ⟨h.top, h.le.trans hle, h.tag, fun he => ?_⟩
  have hsince := h.le
  rw [(hsame (by omega)).1]
  exact h.head (by omega)

theorem Pc.Ok.leaves (hl : Leaves u s s') (hpc : s.pc u = x) (h : x.Ok s u) : x.Ok s' u := by
  have hslot := congrArg Pc.slot? hpc
  have htrim := congrArg Pc.trims? hpc
  rcases x with _ | _ | _ | what | ⟨what, word⟩ | ⟨manager, count⟩ |
    ⟨manager, count, current, head, since⟩ |
    ⟨manager, count, current, head, next, since⟩ | current | count | count | count | count |
    ⟨manager, after⟩ | index | ⟨index, head⟩ | ⟨index, head⟩ | _ |
    count | count | count | manager | manager <;> try exact h
  case popLink => exact h.leaves hl hslot
  case popCas =>
    obtain ⟨hsnap, hnext⟩ := h
    obtain ⟨hle, hsame⟩ := hl.heads manager hslot
    refine ⟨hsnap.leaves hl hslot, fun he => ?_⟩
    have hsince := hsnap.le
    have hlink := (hsame (by omega)).2 current
    rw [hsnap.head (by omega)] at hlink
    rw [hlink hsnap.top]
    exact hnext (by omega)
  case popClear | pushLoad | pushStore => exact (hl.record _ (.inl h)).1.trans h
  case growRecheck | growUndo => exact (hl.record _ (.inr h)).1.trans h
  case pushCas =>
    obtain ⟨hplace, hlink⟩ := hl.record _ (.inl h.1)
    exact ⟨hplace.trans h.1, hlink.trans h.2⟩
  case trimCheck | trimShrink | trimOpen => exact (hl.trims _ htrim).1.trans h
  case trimClear =>
    obtain ⟨hword, hcontents⟩ := hl.trims _ htrim
    exact ⟨hword.trans h.1, hcontents.trans h.2⟩

/-- A trim has the word of its manager. -/
theorem Inv.trimming (h : Inv s) (ht : (s.pc u).trims? = some m) :
    s.stateAndActiveCount m = TRIMMING_MASK := by
  have hok := h.pc u
  unfold Pc.trims? at ht
  split at ht <;> cases ht
  all_goals
    rename_i hpc
    rw [hpc] at hok
  · exact hok
  · exact hok
  · exact hok.1
  · exact hok

/-- While a slot of a manager is held, nobody trims the manager. -/
theorem Inv.not_trims (h : Inv s) {b : τ ⊕ ℕ} (hb : Slot s.pc s.place m b) (u : τ) :
    (s.pc u).trims? ≠ some m := by
  intro hu
  have hle := ((h.slots m).counted hb).2
  rw [h.trimming hu] at hle
  exact absurd hle (by decide)

theorem Inv.not_clears (h : Inv s) {b : τ ⊕ ℕ} (hb : Slot s.pc s.place m b) (u : τ) :
    (s.pc u).clears? ≠ some m := fun hu => h.not_trims hb u (Pc.trims?_of_clears? hu)

/-- The top of a list that is not about to be emptied is free. -/
theorem Inv.top_free (h : Inv s) (hclear : ∀ t, (s.pc t).clears? ≠ some m)
    (htop : (s.localFreeHead m).top = some i) : s.place i = .free ∧ managerFor i = m := by
  have hchain := h.chain m hclear
  unfold State.FreeList at hchain
  rw [htop] at hchain
  obtain ⟨l, hl, -⟩ := hchain.unlink_head (Option.some_injective _) (by simp)
  exact (h.free m i).1 (by rw [hl]; exact List.mem_cons_self)

section Update

variable [DecidableEq τ]

theorem ok_update (h : ∀ u, (s.pc u).Ok s u) (hpc : s'.pc = update s.pc t x) (hx : x.Ok s' t)
    (hl : ∀ u, u ≠ t → Leaves u s s') : ∀ u, (s'.pc u).Ok s' u := by
  intro u
  rw [hpc]
  by_cases hu : u = t
  · rw [hu, update_self]
    exact hx
  · rw [update_of_ne hu]
    exact Pc.Ok.leaves (hl u hu) rfl (h u)

end Update

end MinStd.MetadataManagers
