import MinStd.Proofs.ArenaRegionsInv

/-!
# What a step leaves to the other threads
-/

namespace MinStd.ArenaRegions

open Function

variable {τ : Type*} {A : Arena} {s s' : State τ} {t u : τ} {x : Pc}

/-- What a step leaves to thread `u`: the blocks it builds and the records it has in a call. -/
structure Leaves (u : τ) (s s' : State τ) : Prop where
  tile : ∀ p n l, (p, n) :: l <:+ s.tiles → s.holder p = .reserved u ∨ s.holder p = .kept u →
    (p, n) :: l <:+ s'.tiles ∧ s'.holder p = s.holder p
  record : ∀ i, (s.place i).thread? = some u → s'.place i = s.place i
    ∧ s'.blockState i = s.blockState i ∧ s'.totalSize i = s.totalSize i
    ∧ s'.written i = s.written i
  size : ∀ p, s.holder p = .kept u →
    (s'.headers p).sizeIncludingHeader = (s.headers p).sizeIncludingHeader
  link : ∀ i b, s.place i = .claimed u b →
    (s'.headers b).previousBlock = (s.headers b).previousBlock
  blocks : ∀ p, s.holder p = .kept u → p ∉ s.blocks.map Prod.fst → p ∉ s'.blocks.map Prod.fst

section Leaves

variable (hl : Leaves u s s')
include hl

theorem Built.leaves {size tag : ℕ} (h : Built s size tag)
    (hh : s.holder (unpackFrontier tag) = .reserved u ∨ s.holder (unpackFrontier tag) = .kept u) :
    Built s' size tag ∧ s'.holder (unpackFrontier tag) = s.holder (unpackFrontier tag) := by
  obtain ⟨l, hsuffix, htag⟩ := h
  obtain ⟨htiles, hholder⟩ := hl.tile _ _ _ hsuffix hh
  exact ⟨⟨l, htiles, htag⟩, hholder⟩

theorem Batch.leaves {l : List ℕ} (h : Batch s u l) : Batch s' u l := by
  refine ⟨h.1, fun i hi => ?_⟩
  obtain ⟨b, hb⟩ := h.2 i hi
  exact ⟨b, (hl.record i (by rw [hb]; rfl)).1.trans hb⟩

theorem After.Ok.leaves {after : After} (h : after.Ok s u) : after.Ok s' u := by
  rcases after with _ | _ | _ | rest <;> try trivial
  exact Batch.leaves hl h

theorem Ends.leaves {tag i : ℕ} (h : Ends s u tag i) : Ends s' u tag i := by
  obtain ⟨b, hb, he⟩ := h
  obtain ⟨hplace, -, hsize, -⟩ := hl.record i (by rw [hb]; rfl)
  exact ⟨b, hplace.trans hb, by rwa [hsize]⟩

theorem Claims.leaves {roll : Roll} {tag i : ℕ} {word : BlockState}
    (h : Claims s u roll tag i word) : Claims s' u roll tag i word := by
  obtain ⟨b, hb, hword⟩ := h.place
  obtain ⟨hplace, hstate, hsize, -⟩ := hl.record i (by rw [hb]; rfl)
  refine ⟨?_, ⟨b, hplace.trans hb, hword⟩, hstate.trans h.word, h.batch.leaves hl⟩
  have hfound := h.found
  rcases roll with _ | _
  · exact hfound
  · unfold Roll.Found at hfound ⊢
    rwa [hsize]

theorem Pc.Ok.leaves
    (htrim : ∀ m, x.trims? = some m → s'.stateAndActiveCount m = s.stateAndActiveCount m)
    (h : x.Ok A s u) : x.Ok A s' u := by
  rcases x with _ | size | ⟨size, tag⟩ | ⟨size, tag⟩ | ⟨size, tag⟩ | ⟨size, tag⟩ | ⟨size, tag⟩ |
    ⟨size, tag⟩ | ⟨size, tag⟩ | _ | _ | what | ⟨what, word⟩ | ⟨manager, count⟩ | count | count |
    count | count | ⟨manager, after⟩ | ⟨index, after⟩ | ⟨index, after⟩ | ⟨index, block⟩ |
    ⟨index, block⟩ | ⟨index, block⟩ | _ | _ | ⟨tag, prev⟩ | ⟨tag, prev, index⟩ |
    ⟨tag, prev, index⟩ | batch | batch | ⟨tag, before, after⟩ | ⟨tag, before, index, after⟩ |
    ⟨roll, tag, index, word⟩ | ⟨roll, tag, index, word⟩ | ⟨roll, tag, index, word, prev⟩ |
    ⟨roll, index, word⟩ | index | ⟨index, word⟩ | rest | rest | _ | count | count | count |
    manager <;> try exact h
  -- a block that may have to be given back
  case blockRecheck | blockUndo | blockUndoCheck =>
    obtain ⟨hbuilt, hholder⟩ := h.1.leaves hl (.inl h.2)
    exact ⟨hbuilt, hholder.trans h.2⟩
  -- a block that is kept
  case blockSize =>
    obtain ⟨hbuilt, hholder⟩ := h.1.leaves hl (.inr h.2.1)
    exact ⟨hbuilt, hholder.trans h.2.1, hl.blocks _ h.2.1 h.2.2⟩
  case blockLink =>
    obtain ⟨hbuilt, hholder⟩ := h.1.leaves hl (.inr h.2.1)
    exact ⟨hbuilt, hholder.trans h.2.1, hl.blocks _ h.2.1 h.2.2.1, (hl.size _ h.2.1).trans h.2.2.2⟩
  -- a record in the thread's hands
  case growRecheck | growUndo => exact (hl.record _ (by rw [h]; rfl)).1.trans h
  case release => exact After.Ok.leaves hl h
  case recycleStore | recyclePush =>
    exact ⟨(hl.record _ (by rw [h.1]; rfl)).1.trans h.1, After.Ok.leaves hl h.2⟩
  case useIndex | useState => exact (hl.record _ (by rw [h]; rfl)).1.trans h
  case useSize =>
    obtain ⟨hplace, hword, -, hwritten⟩ := hl.record index (by rw [h.1]; rfl)
    exact ⟨hplace.trans h.1, hwritten.trans h.2.1, by rw [hword]; exact h.2.2⟩
  -- a batch
  case batchLock | batchLoad | unlock | publish => exact Batch.leaves hl h
  case batchScan => exact Batch.leaves hl h
  case batchState => exact ⟨h.1.leaves hl, h.2.leaves hl⟩
  -- a rollback
  case claim =>
    rcases roll with _ | ⟨before, after⟩
    · exact h
    · obtain ⟨hbatch, hends, hword⟩ := h
      have hstate : s'.blockState index = s.blockState index := by
        obtain ⟨b, hb, -⟩ := hends
        exact (hl.record _ (by rw [hb]; rfl)).2.1
      exact ⟨hbatch.leaves hl, hends.leaves hl, hstate.trans hword⟩
  case previous => exact Claims.leaves hl h
  case rollCas =>
    obtain ⟨b, hb, hword⟩ := h.1.place
    refine ⟨h.1.leaves hl, ?_⟩
    rw [h.2, hword]
    exact (hl.link _ b hb).symm
  case restore =>
    obtain ⟨tag, h⟩ := h
    exact ⟨tag, h.leaves hl⟩
  case markLoad => exact (hl.record _ (by rw [h]; rfl)).1.trans h
  case markCas =>
    obtain ⟨hplace, hword, -⟩ := hl.record index (by rw [h.1]; rfl)
    exact ⟨hplace.trans h.1, hword.trans h.2⟩
  -- a trim
  case trimCheck | trimShrink | trimOpen => exact (htrim _ rfl).trans h

end Leaves

/-- A step that changes no record but `i`. -/
theorem Leaves.of_record {i : ℕ} (hi : (s.place i).thread? ≠ some u) (htiles : s'.tiles = s.tiles)
    (hholder : s'.holder = s.holder) (hheaders : s'.headers = s.headers)
    (hblocks : s'.blocks = s.blocks)
    (hrecords : ∀ j, j ≠ i → s'.place j = s.place j ∧ s'.blockState j = s.blockState j
      ∧ s'.totalSize j = s.totalSize j ∧ s'.written j = s.written j) : Leaves u s s' where
  tile p n l hsuffix _ := by
    rw [htiles, hholder]
    exact ⟨hsuffix, rfl⟩
  record j hj := hrecords j (by rintro rfl; exact hi hj)
  size _ _ := by rw [hheaders]
  link _ _ _ := by rw [hheaders]
  blocks _ _ hp := by rwa [hblocks]

/-- A step that changes only what the threads are at, the flag, or the frontier word. -/
theorem Leaves.of_eq (htiles : s'.tiles = s.tiles) (hholder : s'.holder = s.holder)
    (hheaders : s'.headers = s.headers) (hblocks : s'.blocks = s.blocks)
    (hplace : s'.place = s.place) (hstate : s'.blockState = s.blockState)
    (hsize : s'.totalSize = s.totalSize) (hwritten : s'.written = s.written) : Leaves u s s' where
  tile p n l hsuffix _ := by
    rw [htiles, hholder]
    exact ⟨hsuffix, rfl⟩
  record j _ := by
    rw [hplace, hstate, hsize, hwritten]
    exact ⟨rfl, rfl, rfl, rfl⟩
  size _ _ := by rw [hheaders]
  link _ _ _ := by rw [hheaders]
  blocks _ _ hp := by rwa [hblocks]

/-- What the word of a record says does not change with the rest. -/
theorem Place.Ok.frame {i : ℕ} {z : Place τ} (h : z.Ok s i) (hwritten : s'.written i = s.written i)
    (hstate : s'.blockState i = s.blockState i) (hsize : s'.totalSize i = s.totalSize i)
    (hblocks : ∀ b n, z.names? = some b → (b, n) ∈ s.blocks → (b, n) ∈ s'.blocks) : z.Ok s' i := by
  have hnames : ∀ b state, z.names? = some b → Names s i b state → Names s' i b state :=
    fun b state hz hn => ⟨hwritten.trans hn.written, by rw [hstate]; exact hn.block,
      by rw [hstate]; exact hn.state, by rw [hsize]; exact hblocks b _ hz hn.size⟩
  have hfree : Unavailable s i → Unavailable s' i := fun hu => by
    rwa [Unavailable, hwritten, hstate]
  rcases z with _ | _ | _ | ⟨_, b⟩ | b | b | ⟨_, b⟩ | b | ⟨_, b⟩ | _ | _ | _
  case region | growing => exact hwritten.trans h
  case hand | rolled | reclaimed | free => exact hfree h
  case storing =>
    refine ⟨hfree h.1, ?_⟩
    obtain ⟨⟨_, n⟩, hb, rfl⟩ := List.mem_map.1 h.2
    exact List.mem_map_of_mem (hblocks _ n rfl hb)
  all_goals exact hnames b _ rfl h

section Update

variable [DecidableEq τ]

theorem same_update {ι γ β : Type*} [DecidableEq ι] {f : γ → β} {g : ι → γ} {i : ι} {c : γ}
    (hc : f c = f (g i)) (j : ι) : f (update g i c j) = f (g j) := by
  by_cases hj : j = i
  · rw [hj, update_self, hc]
  · rw [update_of_ne hj]

/-- The invariant of the threads, when one moves and leaves to the others what they have. -/
theorem ok_update (h : ∀ u, (s.pc u).Ok A s u) (hpc : s'.pc = update s.pc t x)
    (hx : x.Ok A s' t) (hl : ∀ u, u ≠ t → Leaves u s s')
    (htrim : ∀ u, u ≠ t → ∀ m, (s.pc u).trims? = some m →
      s'.stateAndActiveCount m = s.stateAndActiveCount m) : ∀ u, (s'.pc u).Ok A s' u := by
  intro u
  rw [hpc]
  by_cases hu : u = t
  · rw [hu, update_self]
    exact hx
  · rw [update_of_ne hu]
    exact Pc.Ok.leaves (hl u hu) (htrim u hu) (h u)

end Update

/-! ### Slots -/

section Slots

variable {pc pc' : τ → Pc} {place place' : ℕ → Place τ} {m w : ℕ} {P Q : τ ⊕ ℕ → Prop}

theorem Managed.congr (h : Managed P w) (hiff : ∀ x, Q x ↔ P x) : Managed Q w := by
  rcases h with ⟨hw, hnone⟩ | ⟨hcount, hle⟩
  · exact .inl ⟨hw, fun x hx => hnone x ((hiff x).1 hx)⟩
  · exact .inr ⟨hcount.congr hiff, hle⟩

theorem Managed.same (h : Managed (Slot pc place m) w) (hpc : ∀ u, (pc' u).slot? = (pc u).slot?)
    (hplace : ∀ i, (place' i).slotted = (place i).slotted) : Managed (Slot pc' place' m) w := by
  refine h.congr fun x => ?_
  rcases x with u | i
  · show (pc' u).slot? = _ ↔ (pc u).slot? = _
    rw [hpc]
  · show (place' i).slotted = _ ∧ _ ↔ (place i).slotted = _ ∧ _
    rw [hplace]

/-- A word that counts some slot is not the one of a trim. -/
theorem Managed.counted {x : τ ⊕ ℕ} (h : Managed P w) (hx : P x) :
    CountOf P w ∧ w ≤ ACTIVE_COUNT_MASK := by
  rcases h with ⟨-, hnone⟩ | h
  · exact absurd hx (hnone x)
  · exact h

/-- A slot that is given back is counted down. -/
theorem Managed.releaseSlot_eq {x : τ ⊕ ℕ} (h : Managed P w) (hx : P x) :
    releaseSlot w = w - 1 := by
  obtain ⟨hcount, hle⟩ := h.counted hx
  have hpos := hcount.pos hx
  unfold ACTIVE_COUNT_MASK at hle
  unfold releaseSlot
  omega

variable [DecidableEq τ]

theorem Managed.drop {x : τ ⊕ ℕ} (h : Managed P w) (hx : P x) (hQ : ∀ y, Q y ↔ y ≠ x ∧ P y) :
    Managed Q (w - 1) := by
  obtain ⟨hcount, hle⟩ := h.counted hx
  exact .inr ⟨hcount.drop hx hQ, (Nat.sub_le _ _).trans hle⟩

theorem Managed.swap {x y : τ ⊕ ℕ} (h : Managed P w) (hx : P x) (hy : ¬ P y)
    (hQ : ∀ z, Q z ↔ z = y ∨ z ≠ x ∧ P z) : Managed Q w := by
  obtain ⟨hcount, hle⟩ := h.counted hx
  exact .inr ⟨hcount.swap hx hy hQ, hle⟩

/-- A slot is reserved where the word is neither that of a trim nor full. -/
theorem Managed.add {x : τ ⊕ ℕ} (h : Managed P w) (htrim : w &&& TRIMMING_MASK = 0)
    (hfull : w &&& ACTIVE_COUNT_MASK ≠ ACTIVE_COUNT_MASK) (hx : ¬ P x)
    (hQ : ∀ y, Q y ↔ y = x ∨ P y) : Managed Q (w + 1) := by
  rcases h with ⟨rfl, -⟩ | ⟨hcount, hle⟩
  · exact absurd htrim (by decide)
  · refine .inr ⟨hcount.add hx hQ, ?_⟩
    rcases hle.lt_or_eq with hlt | rfl
    · exact hlt
    · exact absurd (by decide) hfull

end Slots

end MinStd.ArenaRegions
