import MinStd.Proofs.MetadataManagersRecords

/-!
# The managers keep their records
-/

namespace MinStd.MetadataManagers

open Function ArenaRegions

variable {τ : Type*} [DecidableEq τ] {A : Arena} {s s' : State τ} {t u : τ} {x y : Pc} {i m w : ℕ}
  {z : Place τ}

/-! ### Steps -/

omit [DecidableEq τ] in
/-- The frontier moves. -/
theorem Inv.frontier (h : Inv s) (frontier : ℕ) : Inv { s with frontier := frontier } := by
  have hleaves : ∀ u, Leaves u s { s with frontier := frontier } :=
    fun u => .of_eq rfl rfl rfl rfl rfl fun _ _ => rfl
  exact { h with pc := fun u => Pc.Ok.leaves (hleaves u) rfl (h.pc u) }

omit [DecidableEq τ] in
/-- Memory that is no counted record is written. -/
theorem Inv.write_record (h : Inv s) (hi : s.currentMetadataRecordCount ≤ i) (link : Option ℕ) :
    Inv (s.setLink i link) := by
  have hregion : s.place i = .region := by
    by_contra hne
    exact absurd ((h.counted i).1 hne) (not_lt.2 hi)
  have hold : ∀ j, s.place j ≠ .region → update s.nextFreeHeader i link j = s.nextFreeHeader j :=
    fun j hj => update_of_ne (by rintro rfl; exact hj hregion) _ _
  have hleaves : ∀ u, Leaves u s (s.setLink i link) := fun u => {
    record := fun j hj => ⟨rfl, hold j (by rcases hj with hj | hj <;> rw [hj] <;> simp)⟩
    heads := fun m hm => ⟨le_rfl, fun _ => ⟨rfl, fun j hj =>
      hold j (by rw [(h.top_free (h.not_clears (b := .inl u) hm) hj).1]; simp)⟩⟩
    trims := fun _ _ => ⟨rfl, rfl⟩ }
  exact { h with
    chain := fun m hm => (h.chain m hm).congr fun j hj =>
      hold j (by rw [((h.free m j).1 hj).1]; simp)
    pc := fun u => Pc.Ok.leaves (hleaves u) rfl (h.pc u) }

theorem Inv.runRecord (h : Inv s) {spurious : Bool} (hg : Unwrapped s (.run t spurious))
    (hs : runRecord A s t spurious = some s') : Inv s' := by
  have hok := h.pc t
  unfold MetadataManagers.runRecord at hs
  split at hs
  case h_1 hpc =>
    cases hs
    exact h.move hpc ⟨rfl, rfl, rfl, rfl⟩ (searchFrom_bare _ _) (searchFrom_ok _ _)
  case h_2 hpc =>
    cases hs
    exact h.move hpc ⟨rfl, rfl, rfl, rfl⟩ (growFrom_bare _) (growFrom_ok _)
  case h_3 what hpc =>
    cases hs
    exact h.reserveFrom what _ (by rw [hpc]; exact ⟨rfl, rfl, rfl, rfl⟩)
  case h_4 what word hpc =>
    split_ifs at hs with hword <;> cases hs
    · obtain ⟨rfl, -⟩ := hword
      exact h.reserve hpc
    · exact h.reserveFrom what _ (by rw [hpc]; exact ⟨rfl, rfl, rfl, rfl⟩)
  case h_5 manager count hpc =>
    cases hs
    exact h.look (by rw [hpc]; rfl) (by rw [hpc]; rfl) (by rw [hpc]; rfl)
  case h_6 manager count current head since hpc =>
    rw [hpc] at hok
    cases hs
    exact h.goto hpc ⟨⟨hok.top, hok.le, hok.tag, hok.head⟩, fun _ => rfl⟩ ⟨rfl, rfl, rfl, rfl⟩
  case h_7 manager count current head next since hpc =>
    split_ifs at hs with hhead <;> cases hs
    · subst hhead
      exact h.pop hpc (hg (manager, since) (by rw [hpc]; rfl))
    · exact h.look (by rw [hpc]; rfl) (by rw [hpc]; rfl) (by rw [hpc]; rfl)
  case h_8 current hpc =>
    cases hs
    exact h.return_popped hpc
  case h_9 count hpc =>
    split_ifs at hs <;> cases hs
    · exact h.goto hpc trivial ⟨rfl, rfl, rfl, rfl⟩
    · exact h.goto hpc trivial ⟨rfl, rfl, rfl, rfl⟩
  case h_10 count hpc =>
    split_ifs at hs with hcount <;> cases hs
    · subst hcount
      exact h.grow hpc
    · exact h.goto hpc trivial ⟨rfl, rfl, rfl, rfl⟩
  case h_11 count hpc =>
    rw [hpc] at hok
    split_ifs at hs <;> cases hs
    · exact h.goto hpc hok ⟨rfl, rfl, rfl, rfl⟩
    · exact h.return_grown hpc
  case h_12 count hpc =>
    rw [hpc] at hok
    split_ifs at hs with htop <;> cases hs
    · exact h.undo hpc htop
    · exact h.goto hpc hok ⟨rfl, rfl, rfl, rfl⟩
  case h_13 => cases hs

theorem Inv.runRecycle (h : Inv s) (hs : runRecycle A s t = some s') : Inv s' := by
  have hok := h.pc t
  unfold MetadataManagers.runRecycle at hs
  split at hs
  case h_1 index hpc =>
    rw [hpc] at hok
    cases hs
    exact h.goto hpc hok ⟨rfl, rfl, rfl, rfl⟩
  case h_2 index head hpc =>
    cases hs
    exact h.store_link hpc
  case h_3 index head hpc =>
    rw [hpc] at hok
    split_ifs at hs with hhead <;> cases hs
    · subst hhead
      exact h.push hpc
    · exact h.goto hpc hok.1 ⟨rfl, rfl, rfl, rfl⟩
  case h_4 manager after hpc =>
    cases hs
    exact h.release hpc
  case h_5 => cases hs

theorem Inv.runTrim (h : Inv s) (hs : runTrim A s t = some s') : Inv s' := by
  have hok := h.pc t
  unfold MetadataManagers.runTrim at hs
  split at hs
  case h_1 hpc =>
    split_ifs at hs <;> cases hs
    · exact h.goto hpc trivial ⟨rfl, rfl, rfl, rfl⟩
    · exact h.goto hpc trivial ⟨rfl, rfl, rfl, rfl⟩
  case h_2 count hpc =>
    split_ifs at hs with hword <;> cases hs
    · exact h.trim_claim hpc hword
    · exact h.goto hpc trivial ⟨rfl, rfl, rfl, rfl⟩
  case h_3 count hpc =>
    rw [hpc] at hok
    split_ifs at hs <;> cases hs
    · exact h.goto hpc hok ⟨rfl, rfl, rfl, rfl⟩
    · exact h.goto hpc hok ⟨rfl, rfl, rfl, rfl⟩
  case h_4 count hpc =>
    rw [hpc] at hok
    split_ifs at hs with hcount <;> cases hs
    · exact h.trim_shrink hpc hcount
    · exact h.goto hpc hok ⟨rfl, rfl, rfl, rfl⟩
  case h_5 manager hpc =>
    cases hs
    exact h.trim_clear hpc
  case h_6 manager hpc =>
    cases hs
    exact h.trim_open hpc
  case h_7 => cases hs

theorem Inv.step (h : Inv s) {a : Action τ} (hg : Unwrapped s a) (hs : step A s a = some s') :
    Inv s' := by
  rcases a with ⟨t, c⟩ | ⟨t, spurious⟩ | frontier | ⟨index, link⟩
  case call =>
    rw [MetadataManagers.step] at hs
    split_ifs at hs with hpc
    rcases c with _ | index | _
    case record | trim =>
      cases hs
      exact h.goto hpc trivial ⟨rfl, rfl, rfl, rfl⟩
    case recycle =>
      rw [stepCall] at hs
      split_ifs at hs with hi
      cases hs
      exact h.recycle hpc hi
  case run =>
    simp only [MetadataManagers.step, Option.or_eq_some_iff] at hs
    rcases hs with hs | ⟨-, hs | ⟨-, hs⟩⟩
    · exact h.runRecord hg hs
    · exact h.runRecycle hs
    · exact h.runTrim hs
  case frontier =>
    cases hs
    exact h.frontier frontier
  case writeRecord =>
    rw [MetadataManagers.step] at hs
    split_ifs at hs with hi
    cases hs
    exact h.write_record hi link

omit [DecidableEq τ] in
theorem inv_start (h : Start s) : Inv s where
  counted i := by rw [h.place, h.currentMetadataRecordCount]; simp
  mine t i hi := by rw [h.place] at hi; rcases hi with hi | hi <;> cases hi
  slots m := by
    rw [h.stateAndActiveCount]
    refine .inr ⟨.empty fun b hb => ?_, Nat.zero_le _⟩
    rcases b with u | i
    · rw [Slot, h.pc] at hb
      cases hb
    · rw [Slot, h.place] at hb
      cases hb.1
  trims t u m ht := by rw [h.pc] at ht; cases ht
  closed m hm := by rw [h.stateAndActiveCount] at hm; cases hm
  tag m := by rw [h.localFreeHead, h.changes]; rfl
  chain m _ := by rw [State.FreeList, h.localFreeHead, h.contents]; rfl
  free m i := by rw [h.contents, h.place]; simp
  callers i := by rw [h.place, h.callers]; simp
  pc t := by rw [h.pc]; trivial

theorem inv_of_run (h : (machine A).Run Unwrapped s) : Inv s :=
  Machine.run_induction (G := Unwrapped) (fun _ h => inv_start h)
    (fun _ _ _ _ h hg hs => h.step hg hs) h

/-! ### What the invariant says -/

omit [DecidableEq τ] in
/-- A manager's word without the trimming bit counts the slots. -/
theorem Inv.word_counts (h : Inv s) (hw : s.stateAndActiveCount m &&& TRIMMING_MASK = 0) :
    CountOf (Slot s.pc s.place m) (s.stateAndActiveCount m)
      ∧ s.stateAndActiveCount m &&& ACTIVE_COUNT_MASK = s.stateAndActiveCount m := by
  rcases h.slots m with ⟨hword, -⟩ | ⟨hcount, hle⟩
  · rw [hword] at hw
    exact absurd hw (by decide)
  · refine ⟨hcount, ?_⟩
    have hmask : ACTIVE_COUNT_MASK = 2 ^ 31 - 1 := by decide
    rw [hmask] at hle ⊢
    rw [Nat.and_two_pow_sub_one_eq_mod, Nat.mod_eq_of_lt (by omega)]

omit [DecidableEq τ] in
theorem Inv.freeList (h : Inv s) (hclear : ∀ t, (s.pc t).clears? ≠ some m) {l : List ℕ}
    (hl : s.FreeList m l) : l = s.contents m :=
  hl.unique (Option.some_injective _) (by simp) (h.chain m hclear)

omit [DecidableEq τ] in
/-- A counted record that is not free has a slot of its manager. -/
theorem Inv.holder (h : Inv s) (hi : i < s.currentMetadataRecordCount) (hfree : s.place i ≠ .free) :
    s.place i = .out ∨ ∃ t, (s.pc t).record? = some i := by
  have hregion := (h.counted i).2 hi
  rcases hp : s.place i with _ | u | u | _ | _
  · exact absurd hp hregion
  · exact .inr ⟨u, h.mine u i (.inr hp)⟩
  · exact .inr ⟨u, h.mine u i (.inl hp)⟩
  · exact .inl rfl
  · exact absurd hp hfree

omit [DecidableEq τ] in
/-- Records of a manager that are not free are no more than its slots. -/
theorem Inv.card_le (h : Inv s) {n : ℕ} (hn : CountOf (Slot s.pc s.place m) n) {S : Finset ℕ}
    (hS : ∀ i ∈ S, i < s.currentMetadataRecordCount ∧ managerFor i = m ∧ s.place i ≠ .free) :
    S.card ≤ n := by
  classical
  obtain ⟨T, hT, rfl⟩ := hn
  -- the slot of a record is that of the thread that has it, or its own
  have hslot : ∀ i ∈ S, ∃ b ∈ T, b = .inr i ∨ ∃ t, b = .inl t ∧ (s.pc t).record? = some i := by
    intro i hi
    obtain ⟨hlt, hmanager, hfree⟩ := hS i hi
    rcases h.holder hlt hfree with hout | ⟨t, ht⟩
    · exact ⟨.inr i, (hT _).2 ⟨hout, hmanager⟩, .inl rfl⟩
    · exact ⟨.inl t, (hT _).2 (hmanager ▸ Pc.slot?_of_record? ht), .inr ⟨t, rfl, ht⟩⟩
  choose! f hf hof using hslot
  refine Finset.card_le_card_of_injOn f hf fun i hi j hj hij => ?_
  rcases hof i hi with hfi | ⟨t, hfi, hti⟩ <;> rcases hof j hj with hfj | ⟨u, hfj, huj⟩
  · exact Sum.inr_injective (hfi.symm.trans (hij.trans hfj))
  · cases hfi.symm.trans (hij.trans hfj)
  · cases hfi.symm.trans (hij.trans hfj)
  · obtain rfl := Sum.inl_injective (hfi.symm.trans (hij.trans hfj))
    exact Option.some_injective _ (hti.symm.trans huj)

omit [DecidableEq τ] in
theorem Inv.correct (h : Inv s) : Correct s where
  active m hw l hl S hS := by
    obtain ⟨hcount, hmask⟩ := h.word_counts hw
    have hclear : ∀ t, (s.pc t).clears? ≠ some m := by
      intro t ht
      rw [h.trimming (Pc.trims?_of_clears? ht)] at hw
      exact absurd hw (by decide)
    rw [hmask]
    refine h.card_le hcount fun i hi => ?_
    obtain ⟨hlt, hmanager, hout⟩ := hS i hi
    rw [h.freeList hclear hl, h.free] at hout
    exact ⟨hlt, hmanager, fun hfree => hout ⟨hfree, hmanager⟩⟩
  quiescent hidle m := by
    have hslots := h.slots m
    have hnone : ∀ t, ¬ Slot s.pc s.place m (.inl t) := fun t ht => by
      change (s.pc t).slot? = _ at ht
      rw [hidle t] at ht
      cases ht
    have hw : s.stateAndActiveCount m &&& TRIMMING_MASK = 0 := by
      rcases hslots with ⟨hword, -⟩ | ⟨-, hle⟩
      · obtain ⟨t, ht⟩ := h.closed m hword
        rw [hidle t] at ht
        cases ht
      · have hmask : ACTIVE_COUNT_MASK < 2 ^ 31 := by decide
        rw [show TRIMMING_MASK = 2 ^ 31 by decide, Nat.and_two_pow,
          Nat.testBit_lt_two_pow (hle.trans_lt hmask), Bool.toNat_false, Nat.zero_mul]
    obtain ⟨hcount, hmask⟩ := h.word_counts hw
    refine ⟨hw, s.contents m, h.chain m (fun t ht => ?_), ?_⟩
    · rw [hidle t] at ht
      cases ht
    rw [hmask]
    refine (hcount.inr hnone).congr fun i => ⟨fun hi => ?_, fun hi => ?_⟩
    · obtain ⟨hlt, hmanager, hout⟩ := hi
      rw [h.free] at hout
      rcases h.holder hlt (fun hfree => hout ⟨hfree, hmanager⟩) with hp | ⟨t, ht⟩
      · exact ⟨hp, hmanager⟩
      · rw [hidle t] at ht
        cases ht
    · obtain ⟨hout, hmanager⟩ := hi
      refine ⟨(h.counted i).1 (by rw [hout]; simp), hmanager, fun hi => ?_⟩
      have hfree := ((h.free m i).1 hi).1
      rw [hout] at hfree
      cases hfree
  kept i hi := by
    rcases h.callers i with ⟨hout, -⟩ | ⟨-, hc⟩
    · exact (h.counted i).1 (by rw [hout]; simp)
    · omega
  one i := by
    rcases h.callers i with ⟨-, hc⟩ | ⟨-, hc⟩ <;> omega
  free m hclear := by
    have hchain := h.chain m hclear
    refine ⟨s.contents m, hchain, hchain.nodup (Option.some_injective _) (by simp), fun i hi => ?_⟩
    obtain ⟨hfree, hmanager⟩ := (h.free m i).1 hi
    refine ⟨(h.counted i).1 (by rw [hfree]; simp), hmanager, ?_⟩
    rcases h.callers i with ⟨hout, -⟩ | ⟨-, hc⟩
    · rw [hfree] at hout
      cases hout
    · exact hc
  lost i hi := by
    by_cases hfree : s.place i = .free
    · have hmem := (h.free (managerFor i) i).2 ⟨hfree, rfl⟩
      refine .inr (.inr ⟨s.contents (managerFor i), h.chain _ fun t ht => ?_, hmem⟩)
      have hok := h.pc t
      unfold Pc.clears? at ht
      split at ht <;> cases ht
      rename_i hpc
      rw [hpc] at hok
      rw [hok.2] at hmem
      cases hmem
    · rcases h.holder hi hfree with hout | ht
      · rcases h.callers i with ⟨-, hc⟩ | ⟨hne, -⟩
        · exact .inl (by omega)
        · exact absurd hout hne
      · exact .inr (.inl ht)

/-- While no tag comes round between the read of a head and the compare-and-swap on it, the managers
are right in every state. -/
theorem managers_of_run (h : (machine A).Run Unwrapped s) : Correct s := (inv_of_run h).correct

omit [DecidableEq τ] in
theorem Inv.place_of_record (h : Inv s) (ht : (s.pc t).record? = some i) :
    s.place i = .hand t ∨ s.place i = .growing t := by
  have hok := h.pc t
  unfold Pc.record? at ht
  split at ht <;> cases ht <;> rename_i hpc <;> rw [hpc] at hok
  · exact .inl hok
  · exact .inr hok
  · exact .inr hok
  · exact .inl hok
  · exact .inl hok
  · exact .inl hok.1

omit [DecidableEq τ] in
theorem Inv.trims_records (h : Inv s) : Trims s where
  discards t count hpc hcount i hi := by
    have hword := h.trimming (m := managerFor (count - 1)) (u := t) (by rw [hpc]; rfl)
    have hplace := h.trimmed hcount hword hi
    have hout : s.place i ≠ .out := by rcases hplace with hp | ⟨hp, -⟩ <;> rw [hp] <;> simp
    refine ⟨(h.callers i).resolve_left (fun hc => hout hc.1) |>.2, fun u hu => ?_⟩
    rcases h.place_of_record hu with hp' | hp' <;> rcases hplace with hp | ⟨hp, -⟩ <;>
      rw [hp] at hp' <;> cases hp'
  bars t m ht := by
    rw [h.trimming (Pc.trims?_of_clears? ht)]
    decide
  opens t m hpc := by
    have hclear : ∀ u, (s.pc u).clears? ≠ some m := by
      intro u hu
      obtain rfl := h.trims t u m (by rw [hpc]; rfl) (Pc.trims?_of_clears? hu)
      rw [hpc] at hu
      cases hu
    refine ⟨s.contents m, h.chain m hclear, fun i hi => (h.counted i).1 ?_⟩
    rw [((h.free m i).1 hi).1]
    simp
  calls t i ht := by
    have hplace := h.place_of_record ht
    refine ⟨(h.counted i).1 ?_, ((h.callers i).resolve_left fun hc => ?_).2⟩
    · rcases hplace with hp | hp <;> rw [hp] <;> simp
    · rcases hplace with hp | hp <;> rw [hp] at hc <;> cases hc.1

/-- And what the trims discard and leave is right. -/
theorem records_of_run (h : (machine A).Run Unwrapped s) : Correct s ∧ Trims s :=
  ⟨(inv_of_run h).correct, (inv_of_run h).trims_records⟩

/-! ### A run -/

def runs (t : Bool) (n : ℕ) : List (Action (Bool)) := List.replicate n (.run t false)

def roomyArena : Arena := ⟨4096, 4999, 1, by decide, by decide⟩

def start : State (Bool) where
  frontier := 0
  currentMetadataRecordCount := 0
  stateAndActiveCount _ := 0
  localFreeHead _ := ⟨none, 0⟩
  nextFreeHeader _ := none
  pc _ := .idle
  place _ := .region
  contents _ := []
  changes _ := 0
  callers _ := 0

theorem start_start : Start start := ⟨rfl, rfl, rfl, rfl, rfl, rfl, rfl, rfl⟩

/-- Thread `true` reads the head while record 0 is on it, and swaps it after record 1 has come. -/
def overtaken : List (Action (Bool)) :=
  .call false .record :: runs false 6 ++ .call false .record :: runs false 10
    ++ .call false (.recycle 0) :: runs false 4 ++ .call true .record :: runs true 5
    ++ .call false (.recycle 1) :: runs false 4 ++ runs true 4

theorem managers_of_run_overtaken : ∃ s : State (Bool), (machine roomyArena).Run Unwrapped s
    ∧ s.callers 1 = 1 ∧ s.contents 0 = [0] ∧ Correct s := by
  obtain ⟨s, hs, hcallers, hcontents⟩ : ∃ s : State (Bool), (machine roomyArena).Run Unwrapped s
      ∧ s.callers 1 = 1 ∧ s.contents 0 = [0] :=
    Machine.exists_run overtaken start_start (by decide +kernel)
  exact ⟨s, hs, hcallers, hcontents, managers_of_run hs⟩

/-- Record 0 is taken and given back, and a trim is about to take it off. -/
def trims : List (Action Bool) :=
  .call false .record :: runs false 6 ++ .call false (.recycle 0) :: runs false 4
    ++ .call true .trim :: runs true 3

theorem records_of_run_trims : ∃ s : State Bool,
    s.pc true = .trimShrink 1 ∧ Correct s ∧ Trims s := by
  obtain ⟨s, hs, hpc⟩ : ∃ s : State Bool, (machine roomyArena).Run Unwrapped s
      ∧ s.pc true = .trimShrink 1 := Machine.exists_run trims start_start (by decide +kernel)
  exact ⟨s, hpc, records_of_run hs⟩

/-! ### A tag that comes round -/

/-- Records 0, 1 and 2 are on the list.  Thread `true` is about to pop 0 and put 1 in its place,
when thread `false` pops all three and gives 0 back. -/
def stalls : List (Action Bool) :=
  .call false .record :: runs false 6 ++ .call false .record :: runs false 10
    ++ .call false .record :: runs false 10 ++ .call false (.recycle 2) :: runs false 4
    ++ .call false (.recycle 1) :: runs false 4 ++ .call false (.recycle 0) :: runs false 4
    ++ .call true .record :: runs true 5 ++ .call false .record :: runs false 7
    ++ .call false .record :: runs false 7 ++ .call false .record :: runs false 7
    ++ .call false (.recycle 0) :: runs false 4

/-- Thread `false` takes record 0 and gives it back. -/
def lap : List (Action Bool) :=
  .call false .record :: runs false 7 ++ .call false (.recycle 0) :: runs false 4

/-- Thread `true` makes its exchange, and thread `false` takes what is then on the list. -/
def handsOut : List (Action Bool) := runs true 2 ++ .call false .record :: runs false 7

/-- Thread `true` stands before its compare-and-swap, while record 1 is with a caller. -/
structure Stalled (tag : ℕ) (s : State Bool) : Prop where
  count : s.currentMetadataRecordCount = 3
  word : s.stateAndActiveCount 0 = 3
  head : s.localFreeHead 0 = ⟨some 0, tag⟩
  link : s.nextFreeHeader 0 = none
  popper : s.pc true = .popCas 0 3 0 ⟨some 0, 3⟩ (some 1) 3
  idle : s.pc false = .idle
  caller : s.callers 1 = 1

namespace Stalled

attribute [local simp] Machine.exec machine step stepCall MetadataManagers.runRecord runRecycle
  State.setPc State.setManager State.setHead State.setPlace State.setLink State.give Head.change
  searchFrom reserveFrom reserved popFrom managerFor METADATA_RECORDS_PER_BLOCK Reserve.manager
  TRIMMING_MASK ACTIVE_COUNT_MASK releaseSlot After.pc runs List.replicate

variable {tag : ℕ} {s : State Bool}

theorem lap (h : Stalled tag s) : ∃ s', (machine roomyArena).exec (fun _ _ => True) s lap = some s'
    ∧ Stalled ((tag + 2) % TAGS) s' := by
  obtain ⟨hcount, hword, hhead, hlink, hpopper, hidle, hcaller⟩ := h
  simp [MetadataManagers.lap, hcount, hword, hhead, hlink, hidle]
  constructor <;> simp [TAGS, hpopper, hcaller, Nat.add_assoc]

theorem handsOut (h : Stalled 3 s) : ∃ s',
    (machine roomyArena).exec (fun _ _ => True) s handsOut = some s' ∧ s'.callers 1 = 2 := by
  obtain ⟨hcount, hword, hhead, -, hpopper, hidle, hcaller⟩ := h
  simp [MetadataManagers.handsOut, hcount, hword, hhead, hpopper, hidle, hcaller]

end Stalled

/-- After 65536 changes the head is as thread `true` read it, and record 1 goes to a second
caller. -/
theorem two_callers_of_tag : ∃ s : State Bool, (machine roomyArena).Reachable s
    ∧ s.callers 1 = 2 := by
  obtain ⟨s, hs, hcount, hword, hhead, hlink, hpopper, hidle, hcaller⟩ :
      ∃ s : State Bool, (machine roomyArena).Reachable s ∧ s.currentMetadataRecordCount = 3
        ∧ s.stateAndActiveCount 0 = 3 ∧ s.localFreeHead 0 = ⟨some 0, 7⟩
        ∧ s.nextFreeHeader 0 = none ∧ s.pc true = .popCas 0 3 0 ⟨some 0, 3⟩ (some 1) 3
        ∧ s.pc false = .idle ∧ s.callers 1 = 1 :=
    Machine.exists_run stalls start_start (by decide +kernel)
  have hstart : Stalled ((7 + 2 * 0) % TAGS) s :=
    ⟨hcount, hword, hhead.trans (by decide), hlink, hpopper, hidle, hcaller⟩
  obtain ⟨s, hs, h⟩ := Machine.Run.rounds (I := fun i => Stalled ((7 + 2 * i) % TAGS))
    (fun i s hs h => by
      obtain ⟨s', he, h'⟩ := h.lap
      refine ⟨s', hs.exec he, ?_⟩
      rwa [Nat.mod_add_mod, Nat.add_assoc, ← Nat.mul_succ] at h') 32766 hs hstart
  obtain ⟨s', he, h'⟩ := Stalled.handsOut (s := s) (by simpa [TAGS] using h)
  exact ⟨s', hs.exec he, h'⟩

end MinStd.MetadataManagers
