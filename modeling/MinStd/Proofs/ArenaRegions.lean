import MinStd.Proofs.ArenaRegionsRolls

/-!
# The two regions stay apart
-/

namespace MinStd.ArenaRegions

open Function

variable {τ : Type*} [DecidableEq τ] {A : Arena} {s s' : State τ} {t u : τ} {i block : ℕ}

/-! ### Calls -/

/-- A record goes back to its caller's hands. -/
theorem Inv.recycle (h : Inv A s) (hpc : s.pc t = .idle)
    (hplace : s.place i = .hand t ∨ s.place i = .reclaimed) :
    Inv A ((s.setPlace i (.hand t)).setPc t (.recycleStore i .done)) := by
  have hword := h.place i
  have hhas : (∀ u, (s.place i).thread? = some u → u = t) ∧ (s.place i).Returned
      ∧ (s.place i).slotted = true ∧ (s.place i).names? = none := by
    rcases hplace with hp | hp
    · rw [hp]
      exact ⟨fun u hu => (Option.some.inj hu).symm, trivial, rfl, rfl⟩
    · rw [hp]
      exact ⟨fun u hu => (by cases hu), trivial, rfl, rfl⟩
  have hfree : Unavailable s i := by rcases hplace with hp | hp <;> rw [hp] at hword <;> exact hword
  obtain ⟨hthread, hold, hslot, hnames⟩ := hhas
  exact h.rewrite ⟨rfl, rfl, rfl, rfl, rfl, rfl, fun j hj => ⟨update_of_ne hj _ _, rfl, rfl, rfl⟩⟩
    rfl rfl rfl hpc ⟨rfl, rfl, rfl, rfl⟩ rfl ⟨hslot.symm, hnames.symm⟩ hthread hold trivial hfree
    ⟨update_self _ _ _, trivial⟩

/-- A free block is taken from the bins. -/
theorem Inv.reuse (h : Inv A s) (hpc : s.pc t = .idle) (hplace : s.place i = .bin block) :
    Inv A (((s.setWord i { s.blockState i with state := .LOCKED }).setPlace i
      (.storing t block)).setPc t (.useIndex i block)) := by
  have hnames := h.place i
  rw [hplace] at hnames
  refine h.rewrite ⟨rfl, rfl, rfl, rfl, rfl, rfl, fun j hj =>
      ⟨update_of_ne hj _ _, update_of_ne hj _ _, rfl, rfl⟩⟩ rfl rfl rfl hpc ⟨rfl, rfl, rfl, rfl⟩
    hplace ⟨rfl, rfl⟩ (fun u hu => by cases hu) trivial trivial
    ⟨fun _ => ?_, List.mem_map_of_mem hnames.size⟩ (update_self _ _ _)
  show (update s.blockState i _ i).state ≠ _
  rw [update_self]
  exact fun hstate => by cases hstate

/-- A record is for a new block. -/
theorem Inv.store (h : Inv A s) (hpc : s.pc t = .idle) (hplace : s.place i = .hand t)
    (hholder : s.holder block = .kept t) :
    Inv A (((s.setPlace i (.storing t block)).setHolder block (.named i)).setPc t
      (.useIndex i block)) := by
  have hword := h.place i
  rw [hplace] at hword
  have hmem : block ∈ s.blocks.map Prod.fst := by
    rcases h.kept block t hholder with hm | hb
    · exact hm
    · rw [hpc] at hb
      cases hb
  have hnew : update s.holder block (.named i) block = .named i := update_self _ _ _
  have hold : ∀ q, q ≠ block → update s.holder block (.named i) q = s.holder q :=
    fun q hq => update_of_ne hq _ _
  have hzi : update s.place i (.storing t block) i = .storing t block := update_self _ _ _
  have hzj : ∀ j, j ≠ i → update s.place i (.storing t block) j = s.place j :=
    fun j hj => update_of_ne hj _ _
  have hbare := Pc.Bare.update (s := s) (t := t) (x := .useIndex i block)
    (by rw [hpc]; exact ⟨rfl, rfl, rfl, rfl⟩) ⟨rfl, rfl, rfl, rfl⟩
  exact { h with
    holder := fun q => by
      show update s.holder block (.named i) q ≠ _ ↔ _
      by_cases hq : q = block
      · subst hq
        rw [hnew]
        exact iff_of_true (by simp) ((h.holder q).1 (by rw [hholder]; simp))
      · rw [hold q hq]
        exact h.holder q
    blocks := fun c hc => by
      obtain ⟨hm, hchecked⟩ := h.blocks c hc
      refine ⟨hm, ?_⟩
      show (update s.holder block (.named i) c.1).Checked
      by_cases hq : c.1 = block
      · rw [hq, hnew]
        trivial
      · rwa [hold _ hq]
    named := fun q j => by
      show update s.holder block (.named i) q = _
        ↔ (update s.place i (.storing t block) j).names? = _
      by_cases hq : q = block
      · subst hq
        rw [hnew]
        by_cases hj : j = i
        · subst hj
          rw [hzi]
          exact iff_of_true rfl rfl
        · rw [hzj j hj, ← h.named, hholder]
          exact iff_of_false (fun he => hj (Holder.named.inj he).symm) (by simp)
      · rw [hold q hq, h.named]
        by_cases hj : j = i
        · subst hj
          rw [hzi, hplace]
          exact iff_of_false (by simp [Place.names?]) fun he => hq (Option.some.inj he).symm
        · rw [hzj j hj]
    kept := fun q u hq => by
      refine (h.kept q u ?_).imp_right fun hb => (hbare u).2.2.2.trans hb
      rwa [← hold q (by rintro rfl; cases hnew.symm.trans hq)]
    place := fun j => by
      show Place.Ok _ j (update s.place i (.storing t block) j)
      by_cases hj : j = i
      · subst hj
        rw [hzi]
        exact ⟨hword, hmem⟩
      · rw [hzj j hj]
        exact (h.place j).frame rfl rfl rfl fun _ _ _ hb => hb
    counted := fun j => by
      show update s.place i (.storing t block) j ≠ .region ↔ j < s.currentMetadataRecordCount
      rw [← h.counted]
      by_cases hj : j = i
      · subst hj
        rw [hzi, hplace]
        simp
      · rw [hzj j hj]
    growing := fun u j hj => by
      refine (hbare u).2.1.trans (h.growing u j ?_)
      rwa [← hzj j (by rintro rfl; cases hzi.symm.trans hj)]
    cross := fun q n hq hchecked j hj => by
      refine h.cross q n hq ?_ j ?_
      · by_cases hqb : q = block
        · subst hqb
          rw [hholder]
          trivial
        · rwa [← hold q hqb]
      · change (update s.place i (.storing t block) j).Returned at hj
        by_cases hji : j = i
        · subst hji
          rw [hplace]
          trivial
        · rwa [hzj j hji] at hj
    slots := fun m => (h.slots m).same (fun u => (hbare u).1) (same_update (by rw [hplace]; rfl))
    trims := fun u v m hu hv => h.trims u v m ((hbare u).2.2.1.symm.trans hu)
      ((hbare v).2.2.1.symm.trans hv)
    pc := ok_update h.pc rfl hzi (fun u hu => {
      tile := fun q n l hl hq => ⟨hl, hold q (by
        rintro rfl
        rw [hholder] at hq
        rcases hq with hq | hq <;> cases hq
        exact hu rfl)⟩
      record := fun j hj => ⟨hzj j (by rintro rfl; rw [hplace] at hj; cases hj; exact hu rfl),
        rfl, rfl, rfl⟩
      size := fun _ _ => rfl
      link := fun _ _ _ => rfl
      blocks := fun _ _ hq => hq }) fun _ _ _ _ => rfl }

/-- A thread has the records that it takes from a pending list. -/
theorem Inv.take_batch (h : Inv A s) (hpc : s.pc t = .idle) {records : List ℕ}
    (hnodup : records.Nodup) (hpending : ∀ i ∈ records, IsPending (s.place i) = true) :
    Inv A ((takeBatch s t records).setPc t (.batchLock records)) := by
  have htaken : ∀ i ∈ records, ∃ b, s.place i = .pending b
      ∧ (takeBatch s t records).place i = .batch t b := by
    intro i hi
    have hp := hpending i hi
    rcases hpl : s.place i with _ | _ | _ | _ | _ | b | _ | _ | _ | _ | _ | _ <;>
      rw [hpl] at hp <;> cases hp
    refine ⟨b, rfl, ?_⟩
    simp only [takeBatch, if_pos hi, hpl]
  have hrest : ∀ i, i ∉ records → (takeBatch s t records).place i = s.place i := by
    intro i hi
    simp only [takeBatch, if_neg hi]
  have hbare := Pc.Bare.update (s := s) (t := t) (x := .batchLock records)
    (by rw [hpc]; exact ⟨rfl, rfl, rfl, rfl⟩) ⟨rfl, rfl, rfl, rfl⟩
  generalize hplace : (takeBatch s t records).place = place at htaken hrest
  have hs' : (takeBatch s t records).setPc t (.batchLock records) =
      { s with place := place }.setPc t (.batchLock records) := by
    rw [← hplace]
    rfl
  have hsame : ∀ i, ((place i).names? = (s.place i).names?
      ∧ (place i).slotted = (s.place i).slotted ∧ ((place i).Returned ↔ (s.place i).Returned))
      ∧ (place i ≠ .region ↔ s.place i ≠ .region) := by
    intro i
    by_cases hi : i ∈ records
    · obtain ⟨b, hp, hp'⟩ := htaken i hi
      rw [hp, hp']
      exact ⟨⟨rfl, rfl, Iff.rfl⟩, iff_of_true (by simp) (by simp)⟩
    · rw [hrest i hi]
      exact ⟨⟨rfl, rfl, Iff.rfl⟩, Iff.rfl⟩
  rw [hs']
  exact { h with
    named := fun q j => (h.named q j).trans (by rw [← (hsame j).1.1]; exact Iff.rfl)
    kept := fun q u hq => (h.kept q u hq).imp_right fun hb => (hbare u).2.2.2.trans hb
    place := fun i => by
      show Place.Ok _ i (place i)
      by_cases hi : i ∈ records
      · obtain ⟨b, hp, hp'⟩ := htaken i hi
        have hn := h.place i
        rw [hp] at hn
        rw [hp']
        exact ⟨hn.written, hn.block, hn.state, hn.size⟩
      · rw [hrest i hi]
        exact (h.place i).frame rfl rfl rfl fun _ _ _ hb => hb
    counted := fun i => (hsame i).2.trans (h.counted i)
    growing := fun u i hi => by
      refine (hbare u).2.1.trans (h.growing u i ?_)
      by_cases hr : i ∈ records
      · obtain ⟨b, -, hp'⟩ := htaken i hr
        cases hp'.symm.trans hi
      · rwa [← hrest i hr]
    cross := fun q n hq hchecked i hi => h.cross q n hq hchecked i ((hsame i).1.2.2.1 hi)
    slots := fun m => (h.slots m).same (fun u => (hbare u).1) fun i => (hsame i).1.2.1
    trims := fun u v m hu hv => h.trims u v m ((hbare u).2.2.1.symm.trans hu)
      ((hbare v).2.2.1.symm.trans hv)
    pc := ok_update h.pc rfl ⟨hnodup, fun i hi => (htaken i hi).imp fun _ hb => hb.2⟩ (fun u _ => {
      tile := fun _ _ _ hl _ => ⟨hl, rfl⟩
      record := fun i hi => by
        refine ⟨hrest i fun hr => ?_, rfl, rfl, rfl⟩
        obtain ⟨b, hp, -⟩ := htaken i hr
        rw [hp] at hi
        cases hi
      size := fun _ _ => rfl
      link := fun _ _ _ => rfl
      blocks := fun _ _ hq => hq }) fun _ _ _ _ => rfl }

theorem Inv.stepCall (h : Inv A s) (hpc : s.pc t = .idle) {c : Call}
    (hs : stepCall s t c = some s') : Inv A s' := by
  rcases c with size | _ | index | ⟨index, block⟩ | index | _ | records | _
  case block =>
    rw [ArenaRegions.stepCall] at hs
    split_ifs at hs with hsize
    cases hs
    exact h.goto hpc hsize.1 ⟨rfl, rfl, rfl, rfl⟩
  case record | walk | trim =>
    cases hs
    exact h.goto hpc trivial ⟨rfl, rfl, rfl, rfl⟩
  case recycle =>
    rw [ArenaRegions.stepCall] at hs
    split_ifs at hs with hplace
    cases hs
    exact h.recycle hpc hplace
  case store =>
    rw [ArenaRegions.stepCall] at hs
    split_ifs at hs with hplace
    cases hs
    exact h.store hpc hplace.1 hplace.2
  case reuse =>
    simp only [ArenaRegions.stepCall] at hs
    split at hs <;> cases hs
    case h_1 block hplace => exact h.reuse hpc hplace
  case batch =>
    rw [ArenaRegions.stepCall] at hs
    split_ifs at hs with hrecords
    cases hs
    exact h.take_batch hpc hrecords.1 hrecords.2

/-! ### What others do -/

omit [DecidableEq τ] in
/-- A block is freed. -/
theorem Inv.deallocate (h : Inv A s) (hplace : s.place i = .live block) :
    Inv A ((s.setWord i ⟨some block, .DEALLOCATED_PENDING,
      ((s.blockState i).version + 1) % 4096⟩).setPlace i (.pending block)) := by
  have hnames := h.place i
  rw [hplace] at hnames
  have hzi : update s.place i (Place.pending block) i = .pending block := update_self _ _ _
  have hzj : ∀ j, j ≠ i → update s.place i (.pending block) j = s.place j :=
    fun j hj => update_of_ne hj _ _
  have hword := update_self i (⟨some block, .DEALLOCATED_PENDING,
    ((s.blockState i).version + 1) % 4096⟩ : BlockState) s.blockState
  have ho : OnlyRecord i s ((s.setWord i ⟨some block, .DEALLOCATED_PENDING,
      ((s.blockState i).version + 1) % 4096⟩).setPlace i (.pending block)) :=
    ⟨rfl, rfl, rfl, rfl, rfl, rfl, fun j hj => ⟨hzj j hj, update_of_ne hj _ _, rfl, rfl⟩⟩
  have hslot : (Place.pending block : Place τ).slotted = (s.place i).slotted := by rw [hplace]; rfl
  have hthread : ∀ u, (s.place i).thread? ≠ some u := fun u hu => by rw [hplace] at hu; cases hu
  refine h.record ho ?_ ?_ (fun _ => .inl (by rw [hplace]; trivial)) (fun j => ?_)
    (fun m => (h.slots m).same (fun _ => rfl) (same_update hslot)) (fun u j hj => ?_)
    (fun _ => rfl) (fun _ => rfl) fun u => (h.pc u).leaves (ho.leaves (hthread u)) fun _ _ => rfl
  · show Place.Ok _ i (update s.place i (.pending block) i)
    rw [hzi]
    exact ⟨hnames.written, congrArg BlockState.block hword, congrArg BlockState.state hword,
      hnames.size⟩
  · show (update s.place i (.pending block) i).names? = _
    rw [hzi, hplace]
    rfl
  · show update s.place i (.pending block) j ≠ .region ↔ j < s.currentMetadataRecordCount
    rw [← h.counted]
    by_cases hj : j = i
    · subst hj
      rw [hzi, hplace]
      simp
    · rw [hzj j hj]
  · refine h.growing u j ?_
    rwa [← hzj j (by rintro rfl; cases hzi.symm.trans hj)]

omit [DecidableEq τ] in
/-- Memory of the region that is no record is written. -/
theorem Inv.write_record (h : Inv A s) (hplace : s.place i = .region) (word : BlockState) :
    Inv A (s.setWord i word) := by
  have hok := h.place i
  rw [hplace] at hok
  have ho : OnlyRecord i s (s.setWord i word) :=
    ⟨rfl, rfl, rfl, rfl, rfl, rfl, fun j hj => ⟨rfl, update_of_ne hj _ _, rfl, rfl⟩⟩
  have hthread : ∀ u, (s.place i).thread? ≠ some u := fun u hu => by rw [hplace] at hu; cases hu
  refine h.record ho ?_ rfl (fun hr => .inl hr) h.counted h.slots h.growing (fun _ => rfl)
    (fun _ => rfl) fun u => (h.pc u).leaves (ho.leaves (hthread u)) fun _ _ => rfl
  show Place.Ok _ i (s.place i)
  rw [hplace]
  exact hok

omit [DecidableEq τ] in
/-- Memory that is no header of a block is written. -/
theorem Inv.write_header (h : Inv A s) (hholder : s.holder block = .none) (hd : Header) :
    Inv A (s.setHeader block hd) := by
  have hold : ∀ q, s.holder q ≠ .none → update s.headers block hd q = s.headers q :=
    fun q hq => update_of_ne (by rintro rfl; exact hq hholder) _ _
  have hleaves : ∀ u, Leaves u s (s.setHeader block hd) := fun u => {
    tile := fun _ _ _ hl _ => ⟨hl, rfl⟩
    record := fun _ _ => ⟨rfl, rfl, rfl, rfl⟩
    size := fun q hq => congrArg Header.sizeIncludingHeader (hold q (by rw [hq]; simp))
    link := fun j b hb => congrArg Header.previousBlock
      (hold b (by rw [(h.named b j).2 (by rw [hb]; rfl)]; simp))
    blocks := fun _ _ hq => hq }
  exact { h with
    header := fun b l hb hl => by
      show (update s.headers block hd b.1).sizeIncludingHeader = _
        ∧ (update s.headers block hd b.1).previousBlock = _
      have hchecked := (h.blocks b hb).2
      rw [hold _ fun hnone => by rw [hnone] at hchecked; exact hchecked]
      exact h.header b l hb hl
    place := fun j => (h.place j).frame rfl rfl rfl fun _ _ _ hb => hb
    pc := fun u => (h.pc u).leaves (hleaves u) fun _ _ => rfl }

/-! ### Runs -/

omit [DecidableEq τ] in
theorem inv_start (h : Start s) : Inv A s where
  word := by rw [h.nextEmptyMemoryBlock, h.tiles]; rfl
  tower := by rw [h.tiles]; trivial
  frontier := by rw [h.tiles]; exact Nat.zero_le _
  holder p := by rw [h.holder, h.tiles]; simp
  blocks b hb := by rw [h.blocks] at hb; cases hb
  nodup := by rw [h.blocks]; exact List.nodup_nil
  header b l hb := by rw [h.blocks] at hb; cases hb
  named p i := by rw [h.holder, h.place]; exact iff_of_false (by simp) (by simp [Place.names?])
  kept p t hp := by rw [h.holder] at hp; cases hp
  place i := by rw [h.place]; exact congrFun h.written i
  counted i := by rw [h.place, h.currentMetadataRecordCount]; simp
  growing t i hi := by rw [h.place] at hi; cases hi
  cross p n hp := by rw [h.tiles] at hp; cases hp
  slots m := by
    rw [h.stateAndActiveCount]
    refine .inr ⟨.empty fun b hb => ?_, Nat.zero_le _⟩
    rcases b with u | i
    · rw [Slot, h.pc] at hb
      cases hb
    · rw [Slot, h.place] at hb
      cases hb.1
  trims t u m ht := by rw [h.pc] at ht; cases ht
  pc t := by rw [h.pc]; trivial

theorem Inv.step (h : Inv A s) {a : Action τ} (hg : ClaimsWritten s a)
    (hs : step A s a = some s') : Inv A s' := by
  rcases a with ⟨t, c⟩ | ⟨t, spurious⟩ | ⟨t, index⟩ | index | ⟨index, word⟩ | ⟨block, hd⟩
  case call =>
    rw [ArenaRegions.step] at hs
    split_ifs at hs with hpc
    exact h.stepCall hpc hs
  case run =>
    simp only [ArenaRegions.step, Option.or_eq_some_iff] at hs
    rcases hs with hs | ⟨-, hs | ⟨-, hs | ⟨-, hs⟩⟩⟩
    · exact h.runRecord hs
    · exact h.runTrim hs
    · exact h.runBlock hs
    · exact h.runRoll hg hs
  case pop =>
    simp only [ArenaRegions.step] at hs
    split at hs
    case h_1 manager count hpc =>
      cases hs
      exact h.goto hpc trivial ⟨rfl, rfl, rfl, rfl⟩
    case h_2 manager count i hpc =>
      split_ifs at hs with hplace
      obtain ⟨hfree, rfl⟩ := hplace
      cases hs
      exact h.pop hpc hfree
    case h_3 => cases hs
  case deallocate =>
    simp only [ArenaRegions.step] at hs
    split at hs <;> cases hs
    case h_1 block hplace => exact h.deallocate hplace
  case writeRecord =>
    rw [ArenaRegions.step] at hs
    split_ifs at hs with hplace
    cases hs
    exact h.write_record hplace word
  case writeHeader =>
    rw [ArenaRegions.step] at hs
    split_ifs at hs with hholder
    cases hs
    exact h.write_header hholder hd

theorem inv_of_run (h : (machine A).Run ClaimsWritten s) : Inv A s :=
  Machine.run_induction (G := ClaimsWritten) (fun _ h => inv_start h)
    (fun _ _ _ _ h hg hs => h.step hg hs) h

omit [DecidableEq τ] in
/-- Two blocks of a tower have no unit in common. -/
theorem Tower.apart {l : List (ℕ × ℕ)} (h : Tower l) {b c : ℕ × ℕ} (hb : b ∈ l) (hc : c ∈ l)
    (hne : b.1 ≠ c.1) : b.1 + b.2 ≤ c.1 ∨ c.1 + c.2 ≤ b.1 := by
  induction l with
  | nil => cases hb
  | cons x l ih =>
    obtain ⟨hx, -, hl⟩ := h
    rcases List.mem_cons.1 hb with rfl | hbl <;> rcases List.mem_cons.1 hc with rfl | hcl
    · exact absurd rfl hne
    · exact .inr ((hl.mem_le hcl).2.trans hx.ge)
    · exact .inl ((hl.mem_le hbl).2.trans hx.ge)
    · exact ih hl hbl hcl

omit [DecidableEq τ] in
theorem Inv.apart (h : Inv A s) : Apart A s where
  records b hb i hi u hle hlt := by
    obtain ⟨hm, hc⟩ := h.blocks b hb
    have hroom := h.cross b.1 b.2 hm hc i hi
    omega
  blocks := (List.pairwise_map.1 h.nodup).imp_of_mem fun hb hc hne =>
    h.tower.apart (h.blocks _ hb).1 (h.blocks _ hc).1 hne

/-- As long as no walk claims a record whose word nobody has stored since it was grown, the blocks
and the records that are returned stay apart. -/
theorem apart_of_claimsWritten (h : (machine A).Run ClaimsWritten s) : Apart A s :=
  (inv_of_run h).apart

def runs (t : Fin 3) (n : ℕ) : List (Action (Fin 3)) := List.replicate n (.run t false)

/-- Record `index` is grown, after a look at the free list of the manager unless it is the first. -/
def grows (t : Fin 3) : ℕ → List (Action (Fin 3))
  | 0 => .call t .record :: runs t 6
  | _ + 1 => .call t .record :: runs t 3 ++ .pop t none :: runs t 6

/-- Thread 0 allocates a block and names it in record `index`. -/
def allocates (index block size : ℕ) : List (Action (Fin 3)) :=
  grows 0 index ++ .call 0 (.block size) :: runs 0 6 ++ .call 0 (.store index block) :: runs 0 3

/-- The first of two blocks is freed, and a maintenance window puts it in the bins. -/
def freed : List (Action (Fin 3)) :=
  allocates 0 0 2 ++ allocates 1 2 2 ++ .deallocate 0 :: .call 0 (.batch [0]) :: runs 0 7
    ++ .call 0 .walk :: runs 0 7 ++ .call 0 .trim :: runs 0 2

/-- Memory that another resource has used before: headers that say record 2 and block 0, and records
that say that block 4 is free. -/
def used : State (Fin 3) where
  nextEmptyMemoryBlock := packFrontier 0 none
  frontierReclaimInProgress := false
  currentMetadataRecordCount := 0
  stateAndActiveCount _ := 0
  headers _ := ⟨2, 0, some 0⟩
  blockState _ := ⟨some 4, .AVAILABLE, 0⟩
  totalSize _ := 0
  pc _ := .idle
  tiles := []
  holder _ := .none
  place _ := .region
  written _ := false
  blocks := []

theorem used_start : Start used := ⟨rfl, rfl, rfl, rfl, rfl, rfl, rfl, rfl, rfl, rfl⟩

def smallArena : Arena := ⟨4096, 5000, 1, by decide, by decide⟩

theorem apart_of_claimsWritten_run : ∃ s : State (Fin 3), (machine smallArena).Run ClaimsWritten s
    ∧ s.blocks = [(0, 4)] ∧ s.place 0 = .reclaimed ∧ Apart smallArena s := by
  obtain ⟨s, hs, hblocks, hplace⟩ : ∃ s : State (Fin 3), (machine smallArena).Run ClaimsWritten s
      ∧ s.blocks = [(0, 4)] ∧ s.place 0 = .reclaimed :=
    Machine.exists_run (freed ++ .deallocate 1 :: .call 1 (.batch [1]) :: runs 1 14
      ++ .call 2 .walk :: runs 2 13 ++ .call 1 (.block 4) :: runs 1 6) used_start
      (by decide +kernel)
  exact ⟨s, hs, hblocks, hplace, apart_of_claimsWritten hs⟩

/-- Thread 0 has reserved block 4 for its record 2 and stored neither; thread 2 finds no room and
walks down the blocks; thread 1 allocates. -/
def staleWalk : List (Action (Fin 3)) :=
  freed ++ grows 0 2 ++ .call 0 (.block 3) :: runs 0 4
    ++ grows 2 3 ++ .call 2 (.block 5010) :: runs 2 2 ++ .call 2 .walk :: runs 2 18
    ++ grows 1 4 ++ .call 1 (.block 4) :: runs 1 6

/-- A walk that trusts what is left in the header of a reserved block and in a grown record rolls
back the block and follows its link below a block in use. -/
theorem stale_walk_overlaps : ∃ s : State (Fin 3), (machine smallArena).Reachable s
    ∧ s.place 1 = .live 2 ∧ ¬ Apart smallArena s := by
  obtain ⟨s, hs, hblocks, hplace⟩ : ∃ s : State (Fin 3), (machine smallArena).Reachable s
      ∧ s.blocks = [(0, 4), (2, 2)] ∧ s.place 1 = .live 2 :=
    Machine.exists_run staleWalk used_start (by decide +kernel)
  refine ⟨s, hs, hplace, fun hapart => ?_⟩
  have hpair := hapart.blocks
  rw [hblocks] at hpair
  exact absurd hpair (by decide)

end MinStd.ArenaRegions
