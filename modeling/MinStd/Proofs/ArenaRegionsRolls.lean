import MinStd.Proofs.ArenaRegionsBlocks

/-!
# Rolling the frontier back keeps the invariant
-/

namespace MinStd.ArenaRegions

open Function

variable {τ : Type*} [DecidableEq τ] {A : Arena} {s s' : State τ} {t u : τ} {x y : Pc}
  {i b tag : ℕ} {l : List (ℕ × ℕ)} {roll : Roll} {word : BlockState} {z : Place τ}

section

omit [DecidableEq τ]

theorem Inv.flag (h : Inv A s) (busy : Bool) :
    Inv A { s with frontierReclaimInProgress := busy } := by
  have hleaves : ∀ u, Leaves u s { s with frontierReclaimInProgress := busy } :=
    fun u => .of_eq rfl rfl rfl rfl rfl rfl rfl rfl
  exact { h with
    place := fun i => (h.place i).frame rfl rfl rfl fun _ _ _ hb => hb
    pc := fun u => (h.pc u).leaves (hleaves u) fun _ _ => rfl }

theorem Batch.of_place {l : List ℕ} (h : Batch s t l) (hp : ∀ i ∈ l, s'.place i = s.place i) :
    Batch s' t l :=
  ⟨h.1, fun i hi => (h.2 i hi).imp fun _ hb => (hp i hi).trans hb⟩

theorem Batch.sublist {l l' : List ℕ} (h : Batch s t l) (hl : l'.Sublist l) : Batch s t l' :=
  ⟨h.1.sublist hl, fun i hi => h.2 i (hl.subset hi)⟩

theorem Batch.nil : Batch s t [] := ⟨List.nodup_nil, fun _ hi => absurd hi List.not_mem_nil⟩

/-- A block that ends where the topmost does is the topmost. -/
theorem Tower.predOf_of_end {p n : ℕ} (h : Tower l) (hm : (p, n) ∈ l) (he : p + n = frontierOf l) :
    predOf l = some p := by
  rcases l with _ | ⟨⟨q, m⟩, l⟩
  · cases hm
  · obtain ⟨hq, hpos, hl⟩ := h
    rcases List.mem_cons.1 hm with hx | hm
    · cases hx
      rfl
    · have hle := (hl.mem_le hm).2
      have hend : p + n = q + m := he
      omega

/-- Only the record of a free block says that its block is available. -/
theorem Inv.bin_of_available (h : Inv A s) (hwritten : s.written i = true)
    (hstate : (s.blockState i).state = .AVAILABLE) : ∃ b, s.place i = .bin b := by
  have hok := h.place i
  have hnames : ∀ {b state}, Names s i b state → state ≠ .AVAILABLE → False :=
    fun hn hne => hne (hn.state.symm.trans hstate)
  rcases hp : s.place i with _ | _ | _ | ⟨_, b⟩ | b | b | ⟨_, b⟩ | b | ⟨_, b⟩ | _ | _ | _ <;>
    rw [hp] at hok
  case region | growing => cases hwritten.symm.trans hok
  case hand | rolled | reclaimed | free => exact absurd hstate (hok hwritten)
  case storing => exact absurd hstate (hok.1 hwritten)
  case bin => exact ⟨b, rfl⟩
  all_goals exact (hnames hok (by decide)).elim

/-- What a rollback that finds its record's word unchanged may claim. -/
theorem Inv.claimable (h : Inv A s) (hok : (Pc.claim roll tag i word).Ok A s t)
    (hword : s.blockState i = word) (hwritten : roll = .walk → s.written i = true) :
    ∃ b, word.block = some b ∧ (s.place i = .bin b ∨ s.place i = .batch t b)
      ∧ Names s i b word.state ∧ roll.Found s tag i word ∧ Batch s t roll.rest ∧ i ∉ roll.rest := by
  rcases roll with _ | ⟨before, after⟩
  · obtain ⟨hstate, hsome, hpred⟩ := hok
    obtain ⟨b, hp⟩ := h.bin_of_available (hwritten rfl) (by rw [hword]; exact hstate)
    have hn := h.place i
    rw [hp] at hn
    refine ⟨b, by rw [← hword]; exact hn.block, .inl hp, ?_, ⟨hstate, hsome, hpred⟩, .nil,
      List.not_mem_nil⟩
    rw [hstate]
    exact hn
  · obtain ⟨hbatch, ⟨b, hp, hend⟩, -⟩ := hok
    have hn := h.place i
    rw [hp] at hn
    have hblock : word.block = some b := by
      rw [← hword]
      exact hn.block
    have hstate : word.state = .DEALLOCATED_PENDING := by
      rw [← hword]
      exact hn.state
    have hsub : (before ++ after).Sublist (before ++ i :: after) :=
      (List.Sublist.refl _).append (List.sublist_cons_self _ _)
    refine ⟨b, hblock, .inr hp, ?_, ⟨hstate, ?_⟩, hbatch.sublist hsub, ?_⟩
    · rw [hstate]
      exact hn
    · rw [hblock, Option.map_some, hend]
    · exact (List.nodup_cons.1 (List.nodup_middle.1 hbatch.1)).1

end

/-- A rollback claims the block of a record. -/
theorem Inv.claim (h : Inv A s) (hpc : s.pc t = .claim roll tag i word)
    (hword : s.blockState i = word) (hwritten : roll = .walk → s.written i = true) :
    Inv A (((s.setWord i { word with state := .FRONTIER_RECLAIM_IN_PROGRESS }).setPlace i
      (.claimed t (word.block.getD 0))).setPc t (.previous roll tag i word)) := by
  have hok := h.pc t
  rw [hpc] at hok
  obtain ⟨b, hblock, hplace, hnames, hfound, hbatch, hout⟩ := h.claimable hok hword hwritten
  have hthread : ∀ u, (s.place i).thread? = some u → u = t := by
    intro u hu
    rcases hplace with hp | hp <;> rw [hp] at hu <;> cases hu
    rfl
  have hhas : (s.place i).Returned ∧ (s.place i).names? = some b ∧ (s.place i).slotted = true := by
    rcases hplace with hp | hp <;> rw [hp] <;> exact ⟨trivial, rfl, rfl⟩
  have hb : word.block.getD 0 = b := by rw [hblock, Option.getD_some]
  have hnew : update s.blockState i { word with state := .FRONTIER_RECLAIM_IN_PROGRESS } i =
      { word with state := .FRONTIER_RECLAIM_IN_PROGRESS } := update_self _ _ _
  rw [hb]
  refine h.rewrite ⟨rfl, rfl, rfl, rfl, rfl, rfl, fun j hj =>
      ⟨update_of_ne hj _ _, update_of_ne hj _ _, rfl, rfl⟩⟩ rfl rfl rfl hpc ⟨rfl, rfl, rfl, rfl⟩ rfl
    ⟨hhas.2.2.symm, hhas.2.1.symm⟩ hthread hhas.1 trivial
    ⟨hnames.written, (congrArg BlockState.block hnew).trans hblock, congrArg BlockState.state hnew,
      hnames.size⟩
    ⟨?_, ⟨b, update_self _ _ _, hblock⟩, hnew, hbatch.of_place fun j hj =>
      update_of_ne (by rintro rfl; exact hout hj) _ _⟩
  rcases roll with _ | _ <;> exact hfound

section Claims

variable (h : Inv A s) (hc : Claims s t roll tag i word)
include h hc

omit [DecidableEq τ] in
/-- The claimed block is the topmost while the frontier word is the one that was read. -/
theorem Inv.claimed_top (htag : s.nextEmptyMemoryBlock = tag) : ∃ b l, word.block = some b
    ∧ s.place i = .claimed t b ∧ s.tiles = (b, s.totalSize i) :: l ∧ (b, s.totalSize i) ∈ s.blocks
    ∧ (s.headers b).previousBlock = predOf l := by
  obtain ⟨b, hplace, hblock⟩ := hc.place
  have hnames := h.place i
  rw [hplace] at hnames
  have hm := (h.blocks _ hnames.size).1
  obtain ⟨l, hl⟩ := Tower.exists_suffix hm
  have hpred : predOf s.tiles = some b := by
    have hfound := hc.found
    rcases roll with _ | _
    · rw [← h.unpack_predecessor, htag, hfound.2.2, hblock]
    · have hend := hfound.2
      rw [hblock, ← htag, h.unpack_frontier] at hend
      exact h.tower.predOf_of_end hm (Option.some.inj hend)
  obtain ⟨n, l', htiles⟩ := predOf_eq_some hpred
  have hall : (b, n) :: l' <:+ s.tiles := by rw [htiles]
  obtain ⟨rfl, rfl⟩ := h.tower.unique hall hl
  exact ⟨b, _, hblock, hplace, htiles, hnames.size, (h.header _ _ hnames.size hl).2⟩

/-- The topmost block is rolled back. -/
theorem Inv.roll_top (htag : s.nextEmptyMemoryBlock = tag) (hbare : (s.pc t).Bare) (hxb : x.Bare)
    (hz : z = .rolled t ∨ z = .hand t) {prev : Option ℕ}
    (hprev : prev = (s.headers (word.block.getD 0)).previousBlock)
    (hx : x.Ok A ({ s with
      nextEmptyMemoryBlock := packFrontier (word.block.getD 0) prev
      tiles := s.tiles.tail
      holder := update s.holder (word.block.getD 0) .none
      blocks := s.blocks.filter fun c => c.1 ≠ word.block.getD 0
      place := update s.place i z }.setPc t x) t) :
    Inv A ({ s with
      nextEmptyMemoryBlock := packFrontier (word.block.getD 0) prev
      tiles := s.tiles.tail
      holder := update s.holder (word.block.getD 0) .none
      blocks := s.blocks.filter fun c => c.1 ≠ word.block.getD 0
      place := update s.place i z }.setPc t x) := by
  obtain ⟨b, l, hblock, hplace, htiles, hmem, hlink⟩ := h.claimed_top hc htag
  have hb : word.block.getD 0 = b := by rw [hblock, Option.getD_some]
  have hstate : (s.blockState i).state = .FRONTIER_RECLAIM_IN_PROGRESS := by rw [hc.word]
  have hholder : s.holder b = .named i := (h.named b i).2 (by rw [hplace]; rfl)
  rw [hb] at hprev hx ⊢
  rw [htiles, List.tail_cons] at hx ⊢
  have htower := h.tower
  rw [htiles] at htower
  have hsuffix : l <:+ s.tiles := htiles ▸ List.suffix_cons _ _
  have hold : ∀ q, q ≠ b → update s.holder b .none q = s.holder q :=
    fun q hq => update_of_ne hq _ _
  have hgone : update s.holder b .none b = .none := update_self _ _ _
  have hkeep : ∀ c, c.1 ≠ b → c ∈ s.blocks → c ∈ s.blocks.filter fun c => c.1 ≠ b :=
    fun c hne hc => List.mem_filter.2 ⟨hc, decide_eq_true hne⟩
  have hother : ∀ c j, s.holder c = .named j → j ≠ i → c ≠ b := by
    rintro _ j hj hji rfl
    exact hji (Holder.named.inj (hj.symm.trans hholder))
  have hzi : update s.place i z i = z := update_self _ _ _
  have hzj : ∀ j, j ≠ i → update s.place i z j = s.place j := fun j hj => update_of_ne hj _ _
  have hznames : z.names? = none := by rcases hz with rfl | rfl <;> rfl
  have hpc := Pc.Bare.update hbare hxb
  exact {
    word := by rw [hprev, hlink, htower.1]; rfl
    tower := htower.2.2
    frontier := (h.tower.frontierOf_le hsuffix).trans h.frontier
    holder := h.holder_tail htiles
    blocks := fun c hc => by
      obtain ⟨hc, hne⟩ := List.mem_filter.1 hc
      replace hne := of_decide_eq_true hne
      obtain ⟨hm, hchecked⟩ := h.blocks c hc
      rw [htiles] at hm
      refine ⟨(List.mem_cons.1 hm).resolve_left (by rintro rfl; exact hne rfl), ?_⟩
      show (update s.holder b .none c.1).Checked
      rwa [hold _ hne]
    nodup := h.nodup.sublist (List.filter_sublist.map _)
    header := fun c l' hc hl' => h.header c l' (List.mem_filter.1 hc).1 (hl'.trans hsuffix)
    named := fun q j => by
      show update s.holder b .none q = _ ↔ (update s.place i z j).names? = _
      by_cases hj : j = i
      · subst hj
        rw [hzi, hznames]
        refine iff_of_false (fun hq => ?_) (by simp)
        by_cases hqb : q = b
        · subst hqb
          cases hgone.symm.trans hq
        · rw [hold q hqb, h.named, hplace] at hq
          exact hqb (Option.some.inj hq).symm
      · rw [hzj j hj, ← h.named]
        by_cases hqb : q = b
        · subst hqb
          rw [hgone]
          exact iff_of_false (by simp) fun hq => hother q j hq hj rfl
        · rw [hold q hqb]
    kept := fun q u hq => by
      have hqb : q ≠ b := by
        rintro rfl
        cases hgone.symm.trans hq
      change update s.holder b .none q = _ at hq
      rw [hold q hqb] at hq
      refine (h.kept q u hq).imp (fun hm => ?_) fun hbuild => (hpc u).2.2.2.trans hbuild
      obtain ⟨c, hc, rfl⟩ := List.mem_map.1 hm
      exact List.mem_map_of_mem (hkeep c hqb hc)
    place := fun j => by
      show Place.Ok _ j (update s.place i z j)
      by_cases hj : j = i
      · subst hj
        rw [hzi]
        have hun : Unavailable s j := fun _ => by rw [hstate]; decide
        rcases hz with rfl | rfl <;> exact hun
      · rw [hzj j hj]
        exact (h.place j).frame rfl rfl rfl fun c m hc hm =>
          hkeep _ (hother c j ((h.named c j).2 hc) hj) hm
    counted := fun j => by
      show update s.place i z j ≠ .region ↔ j < s.currentMetadataRecordCount
      rw [← h.counted]
      by_cases hj : j = i
      · subst hj
        rw [hzi, hplace]
        rcases hz with rfl | rfl <;> simp
      · rw [hzj j hj]
    growing := fun u j hj => by
      refine (hpc u).2.1.trans (h.growing u j ?_)
      change update s.place i z j = _ at hj
      rwa [hzj] at hj
      rintro rfl
      rw [hzi] at hj
      rcases hz with rfl | rfl <;> cases hj
    cross := fun q m hq hchecked j hj => by
      have hqb := h.top_ne htiles hq
      refine h.cross q m (htiles ▸ List.mem_cons_of_mem _ hq) ?_ j ?_
      · rwa [← hold q hqb]
      · change (update s.place i z j).Returned at hj
        by_cases hji : j = i
        · subst hji
          rw [hplace]
          trivial
        · rwa [hzj j hji] at hj
    slots := fun m => (h.slots m).same (fun u => (hpc u).1)
      (same_update (by rw [hplace]; rcases hz with rfl | rfl <;> rfl))
    trims := fun u v m hu hv => h.trims u v m ((hpc u).2.2.1.symm.trans hu)
      ((hpc v).2.2.1.symm.trans hv)
    pc := ok_update h.pc rfl hx (fun u hu => {
      tile := fun q m l' hl' hq => by
        have hqb : q ≠ b := by
          rintro rfl
          rw [hholder] at hq
          rcases hq with hq | hq <;> cases hq
        exact ⟨suffix_tail htiles hqb hl', hold q hqb⟩
      record := fun j hj => ⟨hzj j (by rintro rfl; rw [hplace] at hj; cases hj; exact hu rfl),
        rfl, rfl, rfl⟩
      size := fun _ _ => rfl
      link := fun _ _ _ => rfl
      blocks := fun q _ hout hm => hout ((List.filter_sublist.map _).subset hm) })
      fun _ _ _ _ => rfl }

omit h [DecidableEq τ] in
theorem Claims.notMem_rest : i ∉ roll.rest := by
  intro hi
  obtain ⟨b, hplace, -⟩ := hc.place
  obtain ⟨b', hbatch⟩ := hc.batch.2 i hi
  cases hplace.symm.trans hbatch

omit h [DecidableEq τ] in
/-- A rollback that did not get its block has its batch again. -/
theorem Claims.lost_ok (hs' : ∀ j, j ≠ i → s'.place j = s.place j)
    (hi : ∀ before after, roll = .batch before after → ∃ b, s'.place i = .batch t b) :
    (roll.lost i).Ok A s' t := by
  have hout := hc.notMem_rest
  have hbatch := hc.batch.of_place fun j hj => hs' j (by rintro rfl; exact hout hj)
  rcases roll with _ | ⟨before, after⟩
  · exact .nil
  · refine ⟨List.nodup_middle.2 (List.nodup_cons.2 ⟨hout, hbatch.1⟩), fun j hj => ?_⟩
    rcases List.mem_cons.1 (List.perm_middle.mem_iff.1 hj) with rfl | hj
    · exact hi before after rfl
    · exact hbatch.2 j hj

/-- A rollback whose frontier moved gives the block back. -/
theorem Inv.restore (hpc : s.pc t = .restore roll i word) :
    Inv A (((s.setWord i word).setPlace i (roll.back t (word.block.getD 0))).setPc t
      (roll.lost i)) := by
  obtain ⟨b, hplace, hblock⟩ := hc.place
  have hnames := h.place i
  rw [hplace] at hnames
  have hb : word.block.getD 0 = b := by rw [hblock, Option.getD_some]
  have hnew : update s.blockState i word i = word := update_self _ _ _
  have hback : (roll.back t b).Returned ∧ (roll.back t b).slotted = true
      ∧ (roll.back t b).names? = some b := by
    rcases roll with _ | _ <;> exact ⟨trivial, rfl, rfl⟩
  have hbare : (roll.lost i).Bare := by rcases roll with _ | _ <;> exact ⟨rfl, rfl, rfl, rfl⟩
  rw [hb]
  refine h.rewrite ⟨rfl, rfl, rfl, rfl, rfl, rfl, fun j hj =>
      ⟨update_of_ne hj _ _, update_of_ne hj _ _, rfl, rfl⟩⟩ rfl rfl rfl hpc hbare hplace hback.2
    (fun u hu => (Option.some.inj hu).symm) trivial hback.1 ?_
    (hc.lost_ok (fun j hj => update_of_ne hj _ _) fun before after hr => ⟨b, ?_⟩)
  · have hblock' := (congrArg BlockState.block hnew).trans hblock
    have hfound := hc.found
    rcases roll with _ | _
    · exact ⟨hnames.written, hblock', (congrArg BlockState.state hnew).trans hfound.1, hnames.size⟩
    · exact ⟨hnames.written, hblock', (congrArg BlockState.state hnew).trans hfound.1, hnames.size⟩
  · subst hr
    exact update_self _ _ _

end Claims

/-- The record of a block that was rolled back is marked. -/
theorem Inv.mark (h : Inv A s) (hpc : s.pc t = .markCas i word) :
    Inv A (((s.setWord i { word with state := .FRONTIER_RECLAIMED }).setPlace i
      .reclaimed).setPc t .walkLoad) := by
  have hok := h.pc t
  rw [hpc] at hok
  obtain ⟨hplace, -⟩ := hok
  refine h.rewrite ⟨rfl, rfl, rfl, rfl, rfl, rfl, fun j hj =>
      ⟨update_of_ne hj _ _, update_of_ne hj _ _, rfl, rfl⟩⟩ rfl rfl rfl hpc ⟨rfl, rfl, rfl, rfl⟩
    hplace ⟨rfl, rfl⟩ (fun u hu => (Option.some.inj hu).symm) trivial trivial (fun _ => ?_) trivial
  show (update s.blockState i _ i).state ≠ _
  rw [update_self]
  exact fun hstate => by cases hstate

/-- A record of a batch goes to the bins. -/
theorem Inv.publish (h : Inv A s) {rest : List ℕ} (hpc : s.pc t = .publish (i :: rest)) :
    Inv A (((s.setWord i { s.blockState i with state := .AVAILABLE }).setPlace i
      (.bin ((s.blockState i).block.getD 0))).setPc t (.publish rest)) := by
  have hok := h.pc t
  rw [hpc] at hok
  obtain ⟨b, hplace⟩ := hok.2 i List.mem_cons_self
  have hnames := h.place i
  rw [hplace] at hnames
  have hb : (s.blockState i).block.getD 0 = b := by rw [hnames.block, Option.getD_some]
  have hnew : update s.blockState i { s.blockState i with state := .AVAILABLE } i =
      { s.blockState i with state := .AVAILABLE } := update_self _ _ _
  obtain ⟨hout, -⟩ := List.nodup_cons.1 hok.1
  rw [hb]
  exact h.rewrite ⟨rfl, rfl, rfl, rfl, rfl, rfl, fun j hj =>
      ⟨update_of_ne hj _ _, update_of_ne hj _ _, rfl, rfl⟩⟩ rfl rfl rfl hpc ⟨rfl, rfl, rfl, rfl⟩
    hplace ⟨rfl, rfl⟩ (fun u hu => (Option.some.inj hu).symm) trivial trivial
    ⟨hnames.written, (congrArg BlockState.block hnew).trans hnames.block,
      congrArg BlockState.state hnew, hnames.size⟩
    ((Batch.sublist hok (List.sublist_cons_self _ _)).of_place fun j hj =>
      update_of_ne (by rintro rfl; exact hout hj) _ _)

omit [DecidableEq τ] in
theorem Batch.append_cons {before after : List ℕ} :
    Batch s t (before ++ i :: after) ↔ Batch s t ((before ++ [i]) ++ after) := by
  rw [List.append_assoc, List.singleton_append]

theorem Inv.runRoll (h : Inv A s) {spurious : Bool} (hg : ClaimsWritten s (.run t spurious))
    (hs : runRoll s t = some s') : Inv A s' := by
  have hok := h.pc t
  unfold ArenaRegions.runRoll at hs
  split at hs
  case h_1 hpc =>
    split_ifs at hs <;> cases hs
    · exact h.goto hpc trivial ⟨rfl, rfl, rfl, rfl⟩
    · exact (h.flag true).goto hpc trivial ⟨rfl, rfl, rfl, rfl⟩
  case h_2 hpc =>
    split at hs <;> cases hs
    case h_1 => exact h.goto hpc .nil ⟨rfl, rfl, rfl, rfl⟩
    case h_2 prev hprev => exact h.goto hpc hprev ⟨rfl, rfl, rfl, rfl⟩
  case h_3 tag prev hpc =>
    rw [hpc] at hok
    cases hs
    exact h.goto hpc hok ⟨rfl, rfl, rfl, rfl⟩
  case h_4 tag prev index hpc =>
    rw [hpc] at hok
    split_ifs at hs <;> cases hs
    · exact h.goto hpc .nil ⟨rfl, rfl, rfl, rfl⟩
    · exact h.goto hpc hok ⟨rfl, rfl, rfl, rfl⟩
  case h_5 tag prev index hpc =>
    rw [hpc] at hok
    split_ifs at hs with hfree <;> cases hs
    · refine h.goto hpc ⟨hfree.2, ?_, ?_⟩ ⟨rfl, rfl, rfl, rfl⟩
      · rw [hfree.1]
        rfl
      · exact Eq.trans hok hfree.1.symm
    · exact h.goto hpc .nil ⟨rfl, rfl, rfl, rfl⟩
  case h_6 batch hpc =>
    rw [hpc] at hok
    split_ifs at hs <;> cases hs
    · exact h.goto hpc hok ⟨rfl, rfl, rfl, rfl⟩
    · exact (h.flag true).goto hpc hok ⟨rfl, rfl, rfl, rfl⟩
  case h_7 batch hpc =>
    rw [hpc] at hok
    cases hs
    exact h.goto hpc hok ⟨rfl, rfl, rfl, rfl⟩
  case h_8 tag before hpc =>
    rw [hpc] at hok
    cases hs
    exact h.goto hpc (by simpa [Pc.Ok] using hok) ⟨rfl, rfl, rfl, rfl⟩
  case h_9 tag before index after hpc =>
    rw [hpc] at hok
    split_ifs at hs with hends <;> cases hs
    · obtain ⟨b, hplace⟩ := hok.2 index (List.mem_append_right _ List.mem_cons_self)
      have hnames := h.place index
      rw [hplace] at hnames
      have hend := hends.2
      rw [hnames.block] at hend
      exact h.goto hpc ⟨hok, b, hplace, Option.some.inj hend⟩ ⟨rfl, rfl, rfl, rfl⟩
    · exact h.goto hpc (Batch.append_cons.1 hok) ⟨rfl, rfl, rfl, rfl⟩
  case h_10 tag before index after hpc =>
    rw [hpc] at hok
    split_ifs at hs <;> cases hs
    · exact h.goto hpc ⟨hok.1, hok.2, rfl⟩ ⟨rfl, rfl, rfl, rfl⟩
    · exact h.goto hpc hok.1 ⟨rfl, rfl, rfl, rfl⟩
  case h_11 roll tag index word hpc =>
    split_ifs at hs with hword <;> cases hs
    · refine h.claim hpc hword ?_
      rintro rfl
      refine hg (index, word) ?_ hword
      simp only [Action.claims?, hpc, Option.mem_some_iff]
    · rw [hpc] at hok
      rcases roll with _ | _
      · exact h.goto hpc .nil ⟨rfl, rfl, rfl, rfl⟩
      · exact h.goto hpc hok.1 ⟨rfl, rfl, rfl, rfl⟩
  case h_12 roll tag index word hpc =>
    rw [hpc] at hok
    cases hs
    exact h.goto hpc ⟨hok, rfl⟩ ⟨rfl, rfl, rfl, rfl⟩
  case h_13 roll tag index word prev hpc =>
    rw [hpc] at hok
    obtain ⟨hc, hprev⟩ := hok
    have hbare : (s.pc t).Bare := by rw [hpc]; exact ⟨rfl, rfl, rfl, rfl⟩
    split_ifs at hs with htag <;> cases hs
    · rcases roll with _ | ⟨before, after⟩
      · exact h.roll_top hc htag hbare ⟨rfl, rfl, rfl, rfl⟩ (.inl rfl) hprev (update_self _ _ _)
      · have hout := hc.notMem_rest
        exact h.roll_top hc htag hbare ⟨rfl, rfl, rfl, rfl⟩ (.inr rfl) hprev
          ⟨update_self _ _ _, hc.batch.of_place fun j hj =>
            update_of_ne (by rintro rfl; exact hout hj) _ _⟩
    · exact h.goto hpc ⟨tag, hc⟩ ⟨rfl, rfl, rfl, rfl⟩
  case h_14 roll index word hpc =>
    rw [hpc] at hok
    obtain ⟨tag, hc⟩ := hok
    rw [if_pos hc.word] at hs
    cases hs
    exact h.restore hc hpc
  case h_15 index hpc =>
    rw [hpc] at hok
    cases hs
    exact h.goto hpc ⟨hok, rfl⟩ ⟨rfl, rfl, rfl, rfl⟩
  case h_16 index word hpc =>
    split_ifs at hs <;> cases hs
    · exact h.mark hpc
    · exact h.goto hpc trivial ⟨rfl, rfl, rfl, rfl⟩
  case h_17 rest hpc =>
    rw [hpc] at hok
    cases hs
    exact (h.flag false).goto hpc hok ⟨rfl, rfl, rfl, rfl⟩
  case h_18 hpc =>
    cases hs
    exact h.goto hpc trivial ⟨rfl, rfl, rfl, rfl⟩
  case h_19 index rest hpc =>
    rw [hpc] at hok
    split_ifs at hs <;> cases hs
    · exact h.publish hpc
    · exact h.goto hpc (Batch.sublist hok (List.sublist_cons_self _ _)) ⟨rfl, rfl, rfl, rfl⟩
  case h_20 => cases hs

end MinStd.ArenaRegions
