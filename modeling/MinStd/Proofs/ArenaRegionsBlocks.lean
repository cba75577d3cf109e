import MinStd.Proofs.ArenaRegionsRecords

/-!
# The blocks' side keeps the invariant
-/

namespace MinStd.ArenaRegions

open Function

variable {τ : Type*} [DecidableEq τ] {A : Arena} {s s' : State τ} {t u : τ} {x y : Pc}
  {i p n size tag : ℕ} {l : List (ℕ × ℕ)}

section

omit [DecidableEq τ]

theorem Inv.unpack_frontier (h : Inv A s) :
    unpackFrontier s.nextEmptyMemoryBlock = frontierOf s.tiles := by
  rw [h.word, Tower.unpack_frontier h.frontier]

theorem Inv.unpack_predecessor (h : Inv A s) :
    unpackPredecessor s.nextEmptyMemoryBlock = predOf s.tiles := by
  rw [h.word, h.tower.unpack_predecessor h.frontier]

theorem Inv.not_mem_blocks (h : Inv A s) (hp : ¬ (s.holder p).Checked) :
    p ∉ s.blocks.map Prod.fst := by
  intro hm
  obtain ⟨b, hb, rfl⟩ := List.mem_map.1 hm
  exact hp (h.blocks b hb).2

theorem Inv.not_mem_tiles (h : Inv A s) : frontierOf s.tiles ∉ s.tiles.map Prod.fst := by
  intro hm
  obtain ⟨⟨p, n⟩, hp, he⟩ := List.mem_map.1 hm
  obtain ⟨hpos, hle⟩ := h.tower.mem_le hp
  have hp : p = frontierOf s.tiles := he
  omega

/-- The block a thread builds is where its word says. -/
theorem Built.mem (h : Built s size tag) : (unpackFrontier tag, size) ∈ s.tiles := by
  obtain ⟨l, hl, -⟩ := h
  exact hl.mem List.mem_cons_self

section Top

variable (h : Inv A s) (htiles : s.tiles = (p, n) :: l)
include h htiles

theorem Inv.top_ne {q m : ℕ} (hq : (q, m) ∈ l) : q ≠ p := by
  have htower := h.tower
  rw [htiles] at htower
  obtain ⟨hpos, hle⟩ := htower.2.2.mem_le hq
  have hp := htower.1
  omega

omit h in
theorem suffix_tail {q m : ℕ} {l' : List (ℕ × ℕ)} (hq : q ≠ p)
    (hl : (q, m) :: l' <:+ s.tiles) : (q, m) :: l' <:+ l := by
  rw [htiles] at hl
  rcases List.suffix_cons_iff.1 hl with he | hl
  · cases he
    exact absurd rfl hq
  · exact hl

theorem Inv.holder_tail (q : ℕ) : update s.holder p .none q ≠ .none ↔ q ∈ l.map Prod.fst := by
  by_cases hq : q = p
  · subst hq
    rw [update_self]
    refine iff_of_false (not_not.2 rfl) fun hm => ?_
    obtain ⟨⟨r, m⟩, hr, he⟩ := List.mem_map.1 hm
    exact h.top_ne htiles hr he
  · rw [update_of_ne hq, h.holder, htiles]
    simp [hq]

end Top

end

/-! ### Blocks -/

/-- A block is reserved at the frontier. -/
theorem Inv.reserve_block (h : Inv A s) (hpc : s.pc t = .blockCas size s.nextEmptyMemoryBlock) :
    Inv A ({ s with
      nextEmptyMemoryBlock := packFrontier (unpackFrontier s.nextEmptyMemoryBlock + size)
        (some (unpackFrontier s.nextEmptyMemoryBlock))
      tiles := (unpackFrontier s.nextEmptyMemoryBlock, size) :: s.tiles
      holder := update s.holder (unpackFrontier s.nextEmptyMemoryBlock)
        (.reserved t) }.setPc t (.blockRecheck size s.nextEmptyMemoryBlock)) := by
  have hok := h.pc t
  rw [hpc] at hok
  obtain ⟨hsize, hroom⟩ := hok
  have hnone : s.holder (frontierOf s.tiles) = .none := by
    by_contra hne
    exact h.not_mem_tiles ((h.holder _).1 hne)
  have hne : ∀ p n, (p, n) ∈ s.tiles → p ≠ frontierOf s.tiles := by
    rintro p n hp rfl
    exact h.not_mem_tiles (List.mem_map_of_mem hp)
  have hholder : ∀ p, p ≠ frontierOf s.tiles →
      update s.holder (frontierOf s.tiles) (.reserved t) p = s.holder p :=
    fun p hp => update_of_ne hp _ _
  have hnew : update s.holder (frontierOf s.tiles) (.reserved t) (frontierOf s.tiles) =
      .reserved t := update_self _ _ _
  have hbare := Pc.Bare.update (s := s) (t := t) (x := .blockRecheck size s.nextEmptyMemoryBlock)
    (by rw [hpc]; exact ⟨rfl, rfl, rfl, rfl⟩) ⟨rfl, rfl, rfl, rfl⟩
  have hunpack := h.unpack_frontier
  rw [hunpack] at hroom ⊢
  exact {
    word := rfl
    tower := ⟨rfl, hsize, h.tower⟩
    frontier := hroom
    holder := fun p => by
      show update s.holder _ _ p ≠ _ ↔ p ∈ (_ :: s.tiles).map Prod.fst
      by_cases hp : p = frontierOf s.tiles
      · subst hp
        simp
      · rw [hholder p hp, h.holder]
        simp [hp]
    blocks := fun b hb => by
      obtain ⟨hm, hc⟩ := h.blocks b hb
      refine ⟨List.mem_cons_of_mem _ hm, ?_⟩
      show (update s.holder _ _ b.1).Checked
      rwa [hholder _ (hne b.1 b.2 hm)]
    nodup := h.nodup
    header := fun b l hb hl => by
      rcases List.suffix_cons_iff.1 hl with he | hl
      · cases he
        exact absurd rfl (hne _ _ (h.blocks _ hb).1)
      · exact h.header b l hb hl
    named := fun p i => by
      show update s.holder _ _ p = _ ↔ _
      by_cases hp : p = frontierOf s.tiles
      · subst hp
        rw [update_self]
        refine iff_of_false (by simp) fun hnames => ?_
        rw [(h.named _ i).2 hnames] at hnone
        cases hnone
      · rw [hholder p hp]
        exact h.named p i
    kept := fun p u hp => by
      show _ ∨ (update s.pc t _ u).builds? = some p
      rw [(hbare u).2.2.2]
      refine h.kept p u ?_
      rwa [← hholder p (by rintro rfl; cases hnew.symm.trans hp)]
    place := fun i => (h.place i).frame rfl rfl rfl fun _ _ _ hb => hb
    counted := h.counted
    growing := fun u i hi => (hbare u).2.1.trans (h.growing u i hi)
    cross := fun p n hp hc i hi => by
      rcases List.mem_cons.1 hp with he | hp
      · cases he
        change Holder.Checked (update s.holder _ (.reserved t) (frontierOf s.tiles)) at hc
        rw [hnew] at hc
        exact hc.elim
      · refine h.cross p n hp ?_ i hi
        rwa [← hholder p (hne p n hp)]
    slots := fun m => (h.slots m).same (fun u => (hbare u).1) fun _ => rfl
    trims := fun u v m hu hv => h.trims u v m ((hbare u).2.2.1.symm.trans hu)
      ((hbare v).2.2.1.symm.trans hv)
    pc := ok_update h.pc rfl ⟨⟨s.tiles, by rw [hunpack]; exact List.suffix_rfl, h.word⟩, by
        rw [hunpack]; exact update_self _ _ _⟩ (fun u _ => {
      tile := fun p n l hl _ => ⟨hl.trans (List.suffix_cons _ _),
        hholder p (hne p n (hl.mem List.mem_cons_self))⟩
      record := fun _ _ => ⟨rfl, rfl, rfl, rfl⟩
      size := fun _ _ => rfl
      link := fun _ _ _ => rfl
      blocks := fun _ _ hp => hp }) fun _ _ _ _ => rfl }

section Reserved

variable (h : Inv A s) (hbare : (s.pc t).Bare) (hbuilt : Built s size tag)
  (hholder : s.holder (unpackFrontier tag) = .reserved t)
include h hbare hbuilt hholder

/-- The block does not overlap and is kept. -/
theorem Inv.keep_block (hroom : ¬ Overlaps A s (unpackFrontier tag + size)) :
    Inv A ((s.setHolder (unpackFrontier tag) (.kept t)).setPc t
      (.blockSize size tag)) := by
  have hmem := hbuilt.mem
  have hbuilds : Pc.builds? (.blockSize size tag) = some (unpackFrontier tag) := rfl
  have hout : unpackFrontier tag ∉ s.blocks.map Prod.fst :=
    h.not_mem_blocks (by rw [hholder]; exact id)
  have hok : Pc.Ok A ((s.setHolder (unpackFrontier tag) (.kept t)).setPc t
      (.blockSize size tag)) t (.blockSize size tag) := ⟨hbuilt, update_self _ _ _, hout⟩
  obtain ⟨hslot, hgrow, htrim, hnone⟩ := hbare
  generalize unpackFrontier tag = f at *
  have hnew : update s.holder f (.kept t) f = .kept t := update_self _ _ _
  have hold : ∀ q, q ≠ f → update s.holder f (.kept t) q = s.holder q :=
    fun q hq => update_of_ne hq _ _
  exact { h with
    holder := fun q => by
      show update s.holder f (.kept t) q ≠ _ ↔ _
      by_cases hq : q = f
      · subst hq
        rw [hnew]
        exact iff_of_true (by simp) (List.mem_map_of_mem hmem)
      · rw [hold q hq]
        exact h.holder q
    blocks := fun b hb => by
      obtain ⟨hm, hc⟩ := h.blocks b hb
      refine ⟨hm, ?_⟩
      show (update s.holder f (.kept t) b.1).Checked
      rwa [hold _ (by rintro rfl; exact hout (List.mem_map_of_mem hb))]
    named := fun q i => by
      show update s.holder f (.kept t) q = _ ↔ _
      by_cases hq : q = f
      · subst hq
        rw [hnew]
        refine iff_of_false (by simp) fun hnames => ?_
        cases ((h.named q i).2 hnames).symm.trans hholder
      · rw [hold q hq]
        exact h.named q i
    kept := fun q u hq => by
      show _ ∨ (update s.pc t _ u).builds? = some q
      change update s.holder f (.kept t) q = _ at hq
      by_cases hqf : q = f
      · subst hqf
        cases hnew.symm.trans hq
        rw [update_self]
        exact .inr hbuilds
      · rw [hold q hqf] at hq
        refine (h.kept q u hq).imp_right fun hb => ?_
        rwa [update_of_ne (by rintro rfl; cases hnone.symm.trans hb)]
    place := fun i => (h.place i).frame rfl rfl rfl fun _ _ _ hb => hb
    growing := fun u i hi => (same_update hgrow.symm u).trans (h.growing u i hi)
    cross := fun q n hq hc i hi => by
      by_cases hqf : q = f
      · subst hqf
        have hn : n = size := by
          obtain ⟨l, hl⟩ := Tower.exists_suffix hq
          obtain ⟨l', hl'⟩ := Tower.exists_suffix hmem
          exact (h.tower.unique hl hl').1
        have hi : i < s.currentMetadataRecordCount := by
          refine (h.counted i).1 fun hregion => ?_
          change (s.place i).Returned at hi
          rw [hregion] at hi
          exact hi
        unfold Overlaps at hroom
        omega
      · refine h.cross q n hq ?_ i hi
        rwa [← hold q hqf]
    slots := fun m => (h.slots m).same (same_update hslot.symm) fun _ => rfl
    trims := fun u v m hu hv => h.trims u v m ((same_update htrim.symm u).symm.trans hu)
      ((same_update htrim.symm v).symm.trans hv)
    pc := ok_update h.pc rfl hok (fun u hu => {
      tile := fun q n l hl hq => ⟨hl, hold q (by
        rintro rfl
        rw [hholder] at hq
        rcases hq with hq | hq <;> cases hq
        exact hu rfl)⟩
      record := fun _ _ => ⟨rfl, rfl, rfl, rfl⟩
      size := fun _ _ => rfl
      link := fun _ _ _ => rfl
      blocks := fun _ _ hp => hp }) fun _ _ _ _ => rfl }

/-- The topmost block is taken off again. -/
theorem Inv.undo_block (htop : s.nextEmptyMemoryBlock =
    packFrontier (unpackFrontier tag + size)
      (some (unpackFrontier tag))) :
    Inv A ({ s with
      nextEmptyMemoryBlock := tag
      tiles := s.tiles.tail
      holder := update s.holder (unpackFrontier tag) .none }.setPc t .idle) := by
  obtain ⟨l, hl, htag⟩ := hbuilt
  have hout : unpackFrontier tag ∉ s.blocks.map Prod.fst :=
    h.not_mem_blocks (by rw [hholder]; exact id)
  have htiles : s.tiles = (unpackFrontier tag, size) :: l := by
    have hle := (h.tower.mem_le (hl.mem List.mem_cons_self)).2
    have hfrontier := h.frontier
    have hlt := A.lt
    have hpred := h.unpack_predecessor
    rw [htop, unpackPredecessor_pack fun b hb => by cases hb; omega] at hpred
    obtain ⟨n, l', htiles⟩ := predOf_eq_some hpred.symm
    have hall : (unpackFrontier tag, n) :: l' <:+ s.tiles := by rw [htiles]
    obtain ⟨rfl, rfl⟩ := h.tower.unique hl hall
    exact htiles
  obtain ⟨hslot, hgrow, htrim, hnone⟩ := hbare
  generalize unpackFrontier tag = f at *
  have htower := h.tower
  rw [htiles] at htower
  have hsub : ∀ b, b ∈ l → b ∈ s.tiles := fun b hb => htiles ▸ List.mem_cons_of_mem _ hb
  have hsuffix : l <:+ s.tiles := htiles ▸ List.suffix_cons _ _
  have hold : ∀ q, q ≠ f → update s.holder f .none q = s.holder q :=
    fun q hq => update_of_ne hq _ _
  have hgone : update s.holder f .none f = .none := update_self _ _ _
  have htail : s.tiles.tail = l := by rw [htiles, List.tail_cons]
  rw [htail]
  exact { h with
    word := htag
    tower := htower.2.2
    frontier := (h.tower.frontierOf_le hsuffix).trans h.frontier
    holder := h.holder_tail htiles
    blocks := fun b hb => by
      have hne : b.1 ≠ f := by
        rintro rfl
        exact hout (List.mem_map_of_mem hb)
      obtain ⟨hm, hc⟩ := h.blocks b hb
      rw [htiles] at hm
      refine ⟨(List.mem_cons.1 hm).resolve_left (by rintro rfl; exact hne rfl), ?_⟩
      show (update s.holder f .none b.1).Checked
      rwa [hold _ hne]
    header := fun b l' hb hl' => h.header b l' hb (hl'.trans hsuffix)
    named := fun q i => by
      show update s.holder f .none q = _ ↔ _
      by_cases hq : q = f
      · subst hq
        rw [hgone]
        refine iff_of_false (by simp) fun hnames => ?_
        cases ((h.named q i).2 hnames).symm.trans hholder
      · rw [hold q hq]
        exact h.named q i
    kept := fun q u hq => by
      show _ ∨ (update s.pc t .idle u).builds? = some q
      rw [same_update (show Pc.builds? .idle = _ from hnone.symm)]
      refine h.kept q u ?_
      rwa [← hold q (by rintro rfl; cases hgone.symm.trans hq)]
    place := fun i => (h.place i).frame rfl rfl rfl fun _ _ _ hb => hb
    growing := fun u i hi => (same_update hgrow.symm u).trans (h.growing u i hi)
    cross := fun q n hq hc i hi => by
      refine h.cross q n (hsub _ hq) ?_ i hi
      rwa [← hold q (h.top_ne htiles hq)]
    slots := fun m => (h.slots m).same (same_update hslot.symm) fun _ => rfl
    trims := fun u v m hu hv => h.trims u v m ((same_update htrim.symm u).symm.trans hu)
      ((same_update htrim.symm v).symm.trans hv)
    pc := ok_update h.pc rfl trivial (fun u hu => {
      tile := fun q n l' hl' hq => by
        have hne : q ≠ f := by
          rintro rfl
          rw [hholder] at hq
          rcases hq with hq | hq <;> cases hq
          exact hu rfl
        exact ⟨suffix_tail htiles hne hl', hold q hne⟩
      record := fun _ _ => ⟨rfl, rfl, rfl, rfl⟩
      size := fun _ _ => rfl
      link := fun _ _ _ => rfl
      blocks := fun _ _ hp => hp }) fun _ _ _ _ => rfl }

end Reserved

/-- A thread stores to the header of a block, and what the block's size and its link say is left as
it is, or the block is not returned yet. -/
theorem Inv.store_header (h : Inv A s) {hd : Header}
    (hx : x.Ok A ((s.setHeader p hd).setPc t x) t)
    (hsame : x.slot? = (s.pc t).slot? ∧ x.grows? = (s.pc t).grows? ∧ x.trims? = (s.pc t).trims?
      ∧ x.builds? = (s.pc t).builds?)
    (hp : p ∈ s.blocks.map Prod.fst ∨ s.holder p ≠ .kept t →
      hd.sizeIncludingHeader = (s.headers p).sizeIncludingHeader
        ∧ hd.previousBlock = (s.headers p).previousBlock) :
    Inv A ((s.setHeader p hd).setPc t x) := by
  obtain ⟨hslot, hgrow, htrim, hbuild⟩ := hsame
  have hother : ∀ q, q ≠ p → update s.headers p hd q = s.headers q :=
    fun q hq => update_of_ne hq _ _
  have hnew : update s.headers p hd p = hd := update_self _ _ _
  exact { h with
    header := fun b l hb hl => by
      show (update s.headers p hd b.1).sizeIncludingHeader = _
        ∧ (update s.headers p hd b.1).previousBlock = _
      have hheader := h.header b l hb hl
      by_cases hbp : b.1 = p
      · obtain ⟨h1, h2⟩ := hp (.inl (hbp ▸ List.mem_map_of_mem hb))
        rw [hbp] at hheader ⊢
        rw [hnew, h1, h2]
        exact hheader
      · rw [hother _ hbp]
        exact hheader
    kept := fun q u hq => (h.kept q u hq).imp_right fun hb => (same_update hbuild u).trans hb
    place := fun i => (h.place i).frame rfl rfl rfl fun _ _ _ hb => hb
    growing := fun u i hi => (same_update hgrow u).trans (h.growing u i hi)
    slots := fun m => (h.slots m).same (same_update hslot) fun _ => rfl
    trims := fun u v m hu hv => h.trims u v m ((same_update htrim u).symm.trans hu)
      ((same_update htrim v).symm.trans hv)
    pc := ok_update h.pc rfl hx (fun u hu => {
      tile := fun _ _ _ hl _ => ⟨hl, rfl⟩
      record := fun _ _ => ⟨rfl, rfl, rfl, rfl⟩
      size := fun q hq => by
        show (update s.headers p hd q).sizeIncludingHeader = _
        by_cases hqp : q = p
        · subst hqp
          rw [hnew]
          exact (hp (.inr fun hk => hu (by cases hq.symm.trans hk; rfl))).1
        · rw [hother q hqp]
      link := fun i b hb => by
        show (update s.headers p hd b).previousBlock = _
        by_cases hbp : b = p
        · subst hbp
          rw [hnew]
          have hholder := (h.named b i).2 (by rw [hb]; rfl)
          exact (hp (.inr fun hk => by cases hholder.symm.trans hk)).2
        · rw [hother b hbp]
      blocks := fun _ _ hq => hq }) fun _ _ _ _ => rfl }

/-- The size of a block is stored. -/
theorem Inv.size_block (h : Inv A s) (hpc : s.pc t = .blockSize size tag) :
    Inv A ((s.setHeader (unpackFrontier tag)
      { s.headers (unpackFrontier tag) with sizeIncludingHeader := size }).setPc t
        (.blockLink size tag)) := by
  have hok := h.pc t
  rw [hpc] at hok
  obtain ⟨hbuilt, hholder, hout⟩ := hok
  refine h.store_header ⟨hbuilt, hholder, hout, ?_⟩ (by rw [hpc]; exact ⟨rfl, rfl, rfl, rfl⟩)
    fun hp => ?_
  · show (update s.headers _ _ _).sizeIncludingHeader = size
    rw [update_self]
  · rcases hp with hp | hp
    · exact absurd hp hout
    · exact absurd hholder hp

/-- The link of a block is stored, and the block is returned. -/
theorem Inv.link_block (h : Inv A s) (hpc : s.pc t = .blockLink size tag) :
    Inv A ({ (s.setHeader (unpackFrontier tag)
      { s.headers (unpackFrontier tag) with
        previousBlock := unpackPredecessor tag }) with
      blocks := (unpackFrontier tag, size) :: s.blocks }.setPc t .idle) := by
  have hok := h.pc t
  rw [hpc] at hok
  obtain ⟨hbuilt, hholder, hout, hsize⟩ := hok
  have hmem := hbuilt.mem
  have hheader : ∀ l, (unpackFrontier tag, size) :: l <:+ s.tiles →
      unpackPredecessor tag = predOf l := by
    obtain ⟨l', hl', rfl⟩ := hbuilt
    intro l hl
    obtain ⟨-, rfl⟩ := h.tower.unique hl hl'
    have hsuffix := (List.suffix_cons _ _).trans hl
    rw [(h.tower.suffix hsuffix).unpack_predecessor
      ((h.tower.frontierOf_le hsuffix).trans h.frontier)]
  have hbuild : (s.pc t).builds? = some (unpackFrontier tag) := by
    rw [hpc]
    rfl
  have hhas : (s.pc t).slot? = none ∧ (s.pc t).grows? = none ∧ (s.pc t).trims? = none := by
    rw [hpc]
    exact ⟨rfl, rfl, rfl⟩
  obtain ⟨hslot, hgrow, htrim⟩ := hhas
  generalize unpackFrontier tag = f at *
  generalize hhd : ({ s.headers f with
    previousBlock := unpackPredecessor tag } : Header) = hd
  have hother : ∀ q, q ≠ f → update s.headers f hd q = s.headers q :=
    fun q hq => update_of_ne hq _ _
  have hnew : update s.headers f hd f = hd := update_self _ _ _
  exact { h with
    blocks := fun b hb => by
      rcases List.mem_cons.1 hb with rfl | hb
      · refine ⟨hmem, ?_⟩
        show (s.holder f).Checked
        rw [hholder]
        trivial
      · exact h.blocks b hb
    nodup := List.nodup_cons.2 ⟨hout, h.nodup⟩
    header := fun b l hb hl => by
      show (update s.headers f hd b.1).sizeIncludingHeader = _
        ∧ (update s.headers f hd b.1).previousBlock = _
      rcases List.mem_cons.1 hb with rfl | hb'
      · rw [hnew, ← hhd]
        exact ⟨hsize, hheader l hl⟩
      · have hne : b.1 ≠ f := fun he => hout (he ▸ List.mem_map_of_mem hb')
        rw [hother _ hne]
        exact h.header b l hb' hl
    kept := fun q u hq => by
      by_cases hqf : q = f
      · exact .inl (by rw [hqf]; exact List.mem_cons_self)
      · refine (h.kept q u hq).imp (List.mem_cons_of_mem _) fun hb => ?_
        show (update s.pc t .idle u).builds? = some q
        rw [update_of_ne]
        · exact hb
        · rintro rfl
          exact hqf (Option.some.inj (hb.symm.trans hbuild))
    place := fun i => (h.place i).frame rfl rfl rfl fun _ _ _ hb => List.mem_cons_of_mem _ hb
    growing := fun u i hi => (same_update hgrow.symm u).trans (h.growing u i hi)
    slots := fun m => (h.slots m).same (same_update hslot.symm) fun _ => rfl
    trims := fun u v m hu hv => h.trims u v m ((same_update htrim.symm u).symm.trans hu)
      ((same_update htrim.symm v).symm.trans hv)
    pc := ok_update h.pc rfl trivial (fun u hu => {
      tile := fun _ _ _ hl _ => ⟨hl, rfl⟩
      record := fun _ _ => ⟨rfl, rfl, rfl, rfl⟩
      size := fun q hq => by
        show (update s.headers f hd q).sizeIncludingHeader = _
        rw [hother q (by rintro rfl; cases hholder.symm.trans hq; exact hu rfl)]
      link := fun i b hb => by
        show (update s.headers f hd b).previousBlock = _
        have hnamed := (h.named b i).2 (by rw [hb]; rfl)
        rw [hother b (by rintro rfl; cases hholder.symm.trans hnamed)]
      blocks := fun q hq hout' hm => by
        rcases List.mem_cons.1 hm with rfl | hm
        · cases hholder.symm.trans hq
          exact hu rfl
        · exact hout' hm }) fun _ _ _ _ => rfl }

/-- A record's word names its block. -/
theorem Inv.use_state (h : Inv A s) {block : ℕ} (hpc : s.pc t = .useState i block) :
    Inv A ({ (s.setWord i ⟨some block, .IN_USE, (s.blockState i).version⟩) with
      written := update s.written i true }.setPc t (.useSize i block)) := by
  have hplace := h.pc t
  rw [hpc] at hplace
  change s.place i = .storing t block at hplace
  have hword := h.place i
  rw [hplace] at hword
  have hnew : update s.blockState i ⟨some block, .IN_USE, (s.blockState i).version⟩ i =
      ⟨some block, .IN_USE, (s.blockState i).version⟩ := update_self _ _ _
  refine h.rewrite (z := .storing t block) ⟨rfl, rfl, rfl, rfl, rfl, rfl, fun j hj => ⟨rfl,
      update_of_ne hj _ _, rfl, update_of_ne hj _ _⟩⟩ rfl
    (by rw [← hplace]; exact (update_eq_self _ _).symm) rfl hpc ⟨rfl, rfl, rfl, rfl⟩ hplace
    ⟨rfl, rfl⟩ (fun u hu => (Option.some.inj hu).symm) trivial trivial ⟨fun _ => ?_, hword.2⟩
    ⟨hplace, update_self _ _ _, congrArg BlockState.block hnew, congrArg BlockState.state hnew⟩
  show (update s.blockState i _ i).state ≠ _
  rw [hnew]
  exact fun hstate => by cases hstate

/-- A record has the size of its block, and the block is in use. -/
theorem Inv.use_size (h : Inv A s) {block : ℕ} (hpc : s.pc t = .useSize i block) :
    Inv A ({ (s.setPlace i (.live block)) with
      totalSize := update s.totalSize i (s.headers block).sizeIncludingHeader }.setPc t .idle) := by
  have hok := h.pc t
  rw [hpc] at hok
  obtain ⟨hplace, hwritten, hblock, hstate⟩ := hok
  have hword := h.place i
  rw [hplace] at hword
  have hsize : (block, (s.headers block).sizeIncludingHeader) ∈ s.blocks := by
    obtain ⟨⟨p, n⟩, hb, rfl⟩ := List.mem_map.1 hword.2
    obtain ⟨l, hl⟩ := Tower.exists_suffix (h.blocks _ hb).1
    have hheader := (h.header _ l hb hl).1
    change (s.headers p).sizeIncludingHeader = n at hheader
    rwa [hheader]
  refine h.rewrite (z := .live block) ⟨rfl, rfl, rfl, rfl, rfl, rfl, fun j hj =>
      ⟨update_of_ne hj _ _, rfl, update_of_ne hj _ _, rfl⟩⟩ rfl rfl rfl hpc ⟨rfl, rfl, rfl, rfl⟩
    hplace ⟨rfl, rfl⟩ (fun u hu => (Option.some.inj hu).symm) trivial trivial
    ⟨hwritten, hblock, hstate, ?_⟩ trivial
  show (block, update s.totalSize i _ i) ∈ s.blocks
  rwa [update_self]

theorem Inv.runBlock (h : Inv A s) (hs : runBlock A s t = some s') : Inv A s' := by
  have hok := h.pc t
  unfold ArenaRegions.runBlock at hs
  split at hs
  case h_1 size hpc =>
    cases hs
    rw [hpc] at hok
    exact h.goto hpc hok ⟨rfl, rfl, rfl, rfl⟩
  case h_2 size tag hpc =>
    rw [hpc] at hok
    split_ifs at hs with hroom <;> cases hs
    · exact h.goto hpc trivial ⟨rfl, rfl, rfl, rfl⟩
    · refine h.goto hpc ⟨hok, ?_⟩ ⟨rfl, rfl, rfl, rfl⟩
      unfold Overlaps at hroom
      omega
  case h_3 size tag hpc =>
    rw [hpc] at hok
    split_ifs at hs with hword <;> cases hs
    · subst hword
      exact h.reserve_block hpc
    · exact h.goto hpc hok.1 ⟨rfl, rfl, rfl, rfl⟩
  case h_4 size tag hpc =>
    rw [hpc] at hok
    split_ifs at hs with hroom <;> cases hs
    · exact h.goto hpc hok ⟨rfl, rfl, rfl, rfl⟩
    · exact h.keep_block (by rw [hpc]; exact ⟨rfl, rfl, rfl, rfl⟩) hok.1 hok.2 hroom
  case h_5 size tag hpc =>
    rw [hpc] at hok
    split_ifs at hs with htop <;> cases hs
    · exact h.undo_block (by rw [hpc]; exact ⟨rfl, rfl, rfl, rfl⟩) hok.1 hok.2 htop
    · exact h.goto hpc hok ⟨rfl, rfl, rfl, rfl⟩
  case h_6 size tag hpc =>
    rw [hpc] at hok
    split_ifs at hs with hroom <;> cases hs
    · exact h.goto hpc hok ⟨rfl, rfl, rfl, rfl⟩
    · exact h.keep_block (by rw [hpc]; exact ⟨rfl, rfl, rfl, rfl⟩) hok.1 hok.2 hroom
  case h_7 size tag hpc =>
    cases hs
    exact h.size_block hpc
  case h_8 size tag hpc =>
    cases hs
    exact h.link_block hpc
  case h_9 index block hpc =>
    rw [hpc] at hok
    cases hs
    exact h.store_header hok (by rw [hpc]; exact ⟨rfl, rfl, rfl, rfl⟩) fun _ => ⟨rfl, rfl⟩
  case h_10 index block hpc =>
    cases hs
    exact h.use_state hpc
  case h_11 index block hpc =>
    cases hs
    exact h.use_size hpc
  case h_12 => cases hs

end MinStd.ArenaRegions
