import MinStd.SingleBlockAlone
import MinStd.Proofs.SingleBlockLists
import Mathlib.Data.List.Pairwise

/-!
# One thread's blocks and lists

A block freed is flagged and on the list of its requested size, until a scan finds it in use and
takes it off (`Chains`); its class stays, since it is reused only for requests of its class.  A scan
changes links and flags only (`Scanned`), follows a list to its end, and finds a free block that
fits, if there is one.  Blocks are carved one above the other (`Memory`), and those in use are the
callers' (`Callers`).
-/

namespace MinStd.SingleBlockResource.Alone

open Function

variable {B : Buffer} {s s' : State} {lists : ℕ → List Block} {b c : Block} {r q : Request}
variable {bin k fuel bytes alignment header following : ℕ} {previous : Option Block} {p : Ptr}

/-! ### The lists -/

/-- Each bin's list ends at the marker and has the flagged blocks of its sizes. -/
structure Chains (s : State) (lists : ℕ → List Block) : Prop where
  chain : ∀ k, Linked .block s.nextDeallocated (s.head k) (lists k) .endOfListMarker
  mem_iff : ∀ k b, b ∈ lists k ↔ b ∈ s.carved ∧ s.onFreeList b = true ∧ s.home b = k

theorem Chains.of_fields (h : Chains s lists) (hnext : s'.nextDeallocated = s.nextDeallocated)
    (hhead : s'.head = s.head) (hcarved : s'.carved = s.carved)
    (hflag : s'.onFreeList = s.onFreeList) (hhome : s'.home = s.home) : Chains s' lists := by
  refine ⟨fun k => ?_, fun k b => ?_⟩
  · rw [hnext, hhead]
    exact h.chain k
  · rw [hcarved, hflag, hhome]
    exact h.mem_iff k b

theorem Chains.nodup (h : Chains s lists) (k : ℕ) : (lists k).Nodup :=
  (h.chain k).nodup block_injective block_ne_marker

/-- A listed block leads to another one or to the end. -/
theorem Chains.next_ne_null (h : Chains s lists) (hb : b ∈ lists k) :
    s.nextDeallocated b ≠ .null := by
  rcases (h.chain k).next_of_mem hb with hn | ⟨c, -, hn⟩ <;> rw [hn] <;> exact Ptr.noConfusion

theorem Chains.length_le (h : Chains s lists) (k : ℕ) : (lists k).length ≤ s.carved.length :=
  (h.nodup k).length_le_of_subset fun b hb => ((h.mem_iff k b).1 hb).1

theorem pushFree_onFreeList (s : State) (b : Block) (bin : ℕ) :
    (pushFree s b bin).onFreeList = update s.onFreeList b true := by
  unfold pushFree
  split_ifs with hf
  · exact (update_eq_self_iff.2 hf.symm).symm
  · rfl

theorem pushFree_fields (s : State) (b : Block) (bin : ℕ) :
    (pushFree s b bin).nextEmptyBlock = s.nextEmptyBlock
      ∧ (pushFree s b bin).actualSize = s.actualSize
      ∧ (pushFree s b bin).requestedSize = s.requestedSize ∧ (pushFree s b bin).inUse = s.inUse
      ∧ (pushFree s b bin).carved = s.carved := by
  unfold pushFree
  split_ifs <;> exact ⟨rfl, rfl, rfl, rfl, rfl⟩

theorem Chains.pushFree (h : Chains s lists) (hb : b ∈ s.carved) :
    ∃ lists', Chains (pushFree s b (s.home b)) lists' := by
  unfold Alone.pushFree
  split_ifs with hf
  · exact ⟨lists, h⟩
  · have hnot : ∀ k, b ∉ lists k := fun k hm => hf ((h.mem_iff k b).1 hm).2.1
    refine ⟨update lists (s.home b) (b :: lists (s.home b)), fun k => ?_, fun k c => ?_⟩
    · by_cases hk : k = s.home b
      · subst hk
        show Linked _ (update s.nextDeallocated b _) (update s.head _ _ _) _ _
        rw [update_self, update_self]
        exact ((h.chain _).update (hnot _) _).push (update_self ..)
      · show Linked _ (update s.nextDeallocated b _) (update s.head _ _ _) _ _
        rw [update_of_ne hk, update_of_ne hk]
        exact (h.chain k).update (hnot k) _
    · show c ∈ update lists (s.home b) _ k
        ↔ c ∈ s.carved ∧ update s.onFreeList b true c = true ∧ s.home c = k
      by_cases hc : c = b
      · subst hc
        rw [update_self]
        by_cases hk : k = s.home c
        · subst hk
          simp [hb]
        · rw [update_of_ne hk]
          simp [hnot k, Ne.symm hk]
      · rw [update_of_ne hc, ← h.mem_iff k c]
        by_cases hk : k = s.home b
        · subst hk
          simp [hc]
        · rw [update_of_ne hk]

/-! ### The scan -/

/-- The scan is at a link of the list. -/
structure AtLink (s : State) (lists : ℕ → List Block) (k : ℕ) (previous : Option Block) (p : Ptr) :
    Prop where
  link : s.linkTo k previous = p
  mem : ∀ b ∈ previous, b ∈ lists k

/-- What a scan leaves: all but the links, and the flags of blocks in use. -/
structure Scanned (s s' : State) : Prop where
  nextEmptyBlock : s'.nextEmptyBlock = s.nextEmptyBlock
  actualSize : s'.actualSize = s.actualSize
  requestedSize : s'.requestedSize = s.requestedSize
  inUse : s'.inUse = s.inUse
  totalAllocations : s'.totalAllocations = s.totalAllocations
  totalDeallocations : s'.totalDeallocations = s.totalDeallocations
  carved : s'.carved = s.carved
  live : s'.live = s.live
  flag : ∀ b, s.inUse b = false → s'.onFreeList b = s.onFreeList b

theorem Scanned.refl (s : State) : Scanned s s :=
  ⟨rfl, rfl, rfl, rfl, rfl, rfl, rfl, rfl, fun _ _ => rfl⟩

theorem Scanned.trans {s'' : State} (h : Scanned s s') (h' : Scanned s' s'') : Scanned s s'' :=
  ⟨h'.1.trans h.1, h'.2.trans h.2, h'.3.trans h.3, h'.4.trans h.4, h'.5.trans h.5, h'.6.trans h.6,
    h'.7.trans h.7, h'.8.trans h.8,
    fun b hb => (h'.flag b (by rw [h.inUse]; exact hb)).trans (h.flag b hb)⟩

theorem Scanned.fits (h : Scanned s s') : s'.Fits r b ↔ s.Fits r b := by
  unfold State.Fits
  rw [h.actualSize]

/-- A block in use is unlinked. -/
theorem scanned_unlink (huse : s.inUse b = true) :
    Scanned s (unlinkBlock s bin previous b p) := by
  have hflag : ∀ s' : State, ∀ c, s.inUse c = false → (s'.setFlag b false).onFreeList c
      = s'.onFreeList c := fun s' c hc => update_of_ne (by rintro rfl; simp [huse] at hc) _ _
  unfold unlinkBlock
  rw [if_pos huse]
  cases previous with
  | none => exact ⟨rfl, rfl, rfl, rfl, rfl, rfl, rfl, rfl, fun c hc => hflag _ c hc⟩
  | some a => exact ⟨rfl, rfl, rfl, rfl, rfl, rfl, rfl, rfl, fun c hc => hflag _ c hc⟩

theorem linkTo_setLinkTo (s : State) (k : ℕ) (previous : Option Block) (p : Ptr) :
    (s.setLinkTo k previous p).linkTo k previous = p := by
  cases previous with
  | none => exact update_self k _ _
  | some a => exact update_self a _ _

/-- A scan's link is taken past a block of its list. -/
theorem Chains.setLinkTo (h : Chains s lists) (hat : AtLink s lists k previous (.block b)) (j : ℕ) :
    Linked .block (s.setLinkTo k previous (s.nextDeallocated b)).nextDeallocated
      ((s.setLinkTo k previous (s.nextDeallocated b)).head j)
      (if j = k then (lists k).erase b else lists j) .endOfListMarker := by
  obtain ⟨hlink, hmem⟩ := hat
  cases previous with
  | none =>
    replace hlink : s.head k = .block b := hlink
    show Linked _ s.nextDeallocated (update s.head k _ j) _ _
    by_cases hj : j = k
    · subst hj
      rw [if_pos rfl, update_self]
      have hchain := h.chain j
      rw [hlink] at hchain
      obtain ⟨l, hl, hrest⟩ := hchain.unlink_head block_injective block_ne_marker
      rw [hl, List.erase_cons_head]
      exact hrest
    · rw [if_neg hj, update_of_ne hj]
      exact h.chain j
  | some a =>
    have ha := hmem a rfl
    show Linked _ (update s.nextDeallocated a _) (s.head j) _ _
    by_cases hj : j = k
    · subst hj
      rw [if_pos rfl]
      exact ((h.chain j).unlink_after block_injective block_ne_marker ha hlink).1
    · rw [if_neg hj]
      refine (h.chain j).update (fun haj => hj ?_) _
      rw [← ((h.mem_iff j a).1 haj).2.2, ((h.mem_iff k a).1 ha).2.2]

theorem Chains.unlink (h : Chains s lists) (hb : b ∈ lists k) (huse : s.inUse b = true)
    (hat : AtLink s lists k previous (.block b)) :
    Chains (unlinkBlock s k previous b (s.nextDeallocated b))
      (fun j => if j = k then (lists k).erase b else lists j) := by
  unfold unlinkBlock
  rw [if_pos huse]
  refine ⟨fun j => h.setLinkTo hat j, fun j c => ?_⟩
  have hfields : (s.setLinkTo k previous (s.nextDeallocated b)).carved = s.carved
      ∧ (s.setLinkTo k previous (s.nextDeallocated b)).home = s.home
      ∧ (s.setLinkTo k previous (s.nextDeallocated b)).onFreeList = s.onFreeList := by
    cases previous <;> exact ⟨rfl, rfl, rfl⟩
  obtain ⟨hcarved, hhome, hflag⟩ := hfields
  show c ∈ (if j = k then _ else _) ↔ c ∈ (s.setLinkTo k previous _).carved
    ∧ update (s.setLinkTo k previous _).onFreeList b false c = true
    ∧ (s.setLinkTo k previous _).home c = j
  rw [hcarved, hhome, hflag]
  have hbk := (h.mem_iff k b).1 hb
  by_cases hc : c = b
  · subst hc
    rw [update_self]
    refine iff_of_false (fun hm => ?_) (by simp)
    split_ifs at hm with hj
    · exact (h.nodup k).not_mem_erase hm
    · exact hj (((h.mem_iff j c).1 hm).2.2.symm.trans hbk.2.2)
  · rw [update_of_ne hc, ← h.mem_iff j c]
    split_ifs with hj
    · rw [List.mem_erase_of_ne hc, hj]
    · rfl

/-- The scan ends.  It has seen every block of the rest of the list, or it has found a free one that
fits. -/
theorem scanLoop_spec : ∀ {rest : List Block} {fuel : ℕ} {s : State} {lists : ℕ → List Block}
    {previous : Option Block} {p : Ptr}, Chains s lists → AtLink s lists r.bin previous p →
    Linked .block s.nextDeallocated p rest .endOfListMarker → (∀ b ∈ rest, b ∈ lists r.bin) →
    rest.length < fuel → ∃ found s', scanLoop r fuel s previous p = some (found, s') ∧ Scanned s s'
      ∧ (∃ lists', Chains s' lists')
      ∧ (found = none → ∀ b ∈ rest, s.inUse b = false → ¬ s.Fits r b)
      ∧ ∀ b ∈ found, b ∈ rest ∧ s.inUse b = false ∧ s.Fits r b
  | [], fuel + 1, s, lists, previous, p, h, _, hrest, _, _ => by
    obtain rfl := Linked.nil_iff.1 hrest
    exact ⟨none, s, rfl, .refl s, ⟨lists, h⟩, by simp, by simp⟩
  | b :: rest, fuel + 1, s, lists, previous, p, h, hat, hrest, hsub, hfuel => by
    obtain rfl := hrest.1
    have hrest' := hrest.2
    have hb := hsub b List.mem_cons_self
    have hnd := hrest.nodup block_injective block_ne_marker
    have hbrest := (List.nodup_cons.1 hnd).1
    have hfuel' : rest.length < fuel := by simpa using hfuel
    simp only [scanLoop, if_neg (h.next_ne_null hb)]
    split_ifs with hfit huse
    · exact ⟨some b, s, rfl, .refl s, ⟨lists, h⟩, by simp,
        fun c hc => Option.some.inj hc ▸ ⟨List.mem_cons_self, hfit⟩⟩
    · have hscan : Scanned s (unlinkBlock s r.bin previous b (s.nextDeallocated b)) :=
        scanned_unlink huse.1
      have hsub' : ∀ c ∈ rest, c ∈ (lists r.bin).erase b := fun c hc =>
        (List.mem_erase_of_ne (by rintro rfl; exact hbrest hc)).2
          (hsub c (List.mem_cons_of_mem _ hc))
      have hat' : AtLink (unlinkBlock s r.bin previous b (s.nextDeallocated b))
          (fun j => if j = r.bin then (lists r.bin).erase b else lists j) r.bin previous
          (s.nextDeallocated b) := by
        unfold unlinkBlock
        rw [if_pos huse.1]
        refine ⟨?_, fun a ha => ?_⟩
        · have := linkTo_setLinkTo s r.bin previous (s.nextDeallocated b)
          cases previous <;> exact this
        · rw [if_pos rfl]
          refine (List.mem_erase_of_ne ?_).2 (hat.mem a ha)
          rintro rfl
          obtain rfl := ha
          exact hrest.notMem_of_next block_injective block_ne_marker hat.link List.mem_cons_self
      have hlinks : Linked .block (unlinkBlock s r.bin previous b
          (s.nextDeallocated b)).nextDeallocated (s.nextDeallocated b) rest .endOfListMarker := by
        unfold unlinkBlock
        rw [if_pos huse.1]
        cases previous with
        | none => exact hrest'
        | some a =>
          refine hrest'.update (fun ha => ?_) _
          exact hrest.notMem_of_next block_injective block_ne_marker hat.link
            (List.mem_cons_of_mem _ ha)
      obtain ⟨found, s', hrun, hs', hlists', hnone, hsome⟩ := scanLoop_spec
        (h.unlink hb huse.1 hat) hat' hlinks (fun c hc => by rw [if_pos rfl]; exact hsub' c hc)
        hfuel'
      refine ⟨found, s', hrun, hscan.trans hs', hlists', fun hf c hc hfree => ?_, fun c hc => ?_⟩
      · rcases List.mem_cons.1 hc with rfl | hc
        · rw [huse.1] at hfree
          exact nomatch hfree
        · rw [← hscan.fits]
          exact hnone hf c hc (by rw [hscan.inUse]; exact hfree)
      · obtain ⟨h1, h2, h3⟩ := hsome c hc
        rw [hscan.inUse] at h2
        exact ⟨List.mem_cons_of_mem _ h1, h2, hscan.fits.1 h3⟩
    · have hat' : AtLink s lists r.bin (some b) (s.nextDeallocated b) :=
        ⟨rfl, fun a ha => Option.some.inj ha ▸ hb⟩
      obtain ⟨found, s', hrun, hs', hlists', hnone, hsome⟩ := scanLoop_spec h hat' hrest'
        (fun c hc => hsub c (List.mem_cons_of_mem _ hc)) hfuel'
      refine ⟨found, s', hrun, hs', hlists', fun hf c hc hfree => ?_, fun c hc => ?_⟩
      · rcases List.mem_cons.1 hc with rfl | hc
        · exact fun hfits => hfit ⟨hfree, hfits⟩
        · exact hnone hf c hc hfree
      · obtain ⟨h1, h2⟩ := hsome c hc
        exact ⟨List.mem_cons_of_mem _ h1, h2⟩

/-! ### The memory and the callers -/

/-- The blocks are carved one above the other, inside the buffer. -/
structure Memory (B : Buffer) (s : State) : Prop where
  inside : ∀ b : ℕ, b ∈ s.carved → B.block ≤ b ∧ BLOCK_HEADER_SIZE ≤ s.actualSize b
    ∧ b + s.actualSize b ≤ s.nextEmptyBlock ∧ s.nextEmptyBlock < B.endOfBlock
  apart : s.carved.Pairwise fun b c : ℕ => c + s.actualSize c ≤ b
  first : roundUp B.block DEFAULT_ALIGNMENT < WORD64 → B.block ≤ s.nextEmptyBlock

/-- The blocks in use are those handed out, each for a request it fits. -/
structure Callers (s : State) : Prop where
  live : ∀ b r, (b, r) ∈ s.live → b ∈ s.carved ∧ s.inUse b = true ∧ s.requestedSize b = r.bytes
    ∧ s.Fits r b
  held : ∀ b ∈ s.carved, s.inUse b = true → ∃ r, (b, r) ∈ s.live
  nodup : (s.live.map Prod.fst).Nodup

structure Inv (B : Buffer) (s : State) : Prop where
  memory : Memory B s
  callers : Callers s
  chains : ∃ lists, Chains s lists
  free : ∀ b ∈ s.carved, s.inUse b = false → s.onFreeList b = true

theorem Memory.of_fields (h : Memory B s) (hnext : s'.nextEmptyBlock = s.nextEmptyBlock)
    (hactual : s'.actualSize = s.actualSize) (hcarved : s'.carved = s.carved) : Memory B s' := by
  obtain ⟨h1, h2, h3⟩ := h
  refine ⟨?_, ?_, ?_⟩
  · rwa [hcarved, hactual, hnext]
  · rwa [hcarved, hactual]
  · rwa [hnext]

theorem Inv.scanned (h : Inv B s) (hs : Scanned s s') (hlists : ∃ lists, Chains s' lists) :
    Inv B s' := by
  obtain ⟨hlive, hheld, hnodup⟩ := h.callers
  refine ⟨h.memory.of_fields hs.nextEmptyBlock hs.actualSize hs.carved,
    ⟨fun b r hb => ?_, fun b hb huse => ?_, ?_⟩, hlists, fun b hb hfree => ?_⟩
  · rw [hs.live] at hb
    rw [hs.carved, hs.inUse, hs.requestedSize, hs.fits]
    exact hlive b r hb
  · rw [hs.live]
    rw [hs.carved] at hb
    rw [hs.inUse] at huse
    exact hheld b hb huse
  · rw [hs.live]
    exact hnodup
  · rw [hs.carved] at hb
    rw [hs.inUse] at hfree
    rw [hs.flag b hfree]
    exact h.free b hb hfree

/-- No free block is handed out. -/
theorem Callers.notMem_of_free (h : Callers s) (hfree : s.inUse b = false) :
    b ∉ s.live.map Prod.fst := by
  intro hm
  obtain ⟨⟨c, q⟩, hq, rfl⟩ := List.mem_map.1 hm
  have := (h.live c q hq).2.1
  simp [hfree] at this

/-- A free block that fits a request of its class is handed out for it. -/
theorem Inv.claim (h : Inv B s) (hb : b ∈ s.carved) (hfree : s.inUse b = false)
    (hhome : s.home b = r.bin) (hfit : s.Fits r b) : Inv B (claim s r b) := by
  obtain ⟨lists, hlists⟩ := h.chains
  have hcall := h.callers
  have hhome' : (Alone.claim s r b).home = s.home := by
    funext c
    show deallocationBin (update s.requestedSize b r.bytes c) = s.home c
    by_cases hc : c = b
    · subst hc
      rw [update_self, hhome]
      rfl
    · rw [update_of_ne hc]
      rfl
  refine ⟨h.memory.of_fields rfl rfl rfl, ⟨fun c q hc => ?_, fun c hc huse => ?_, ?_⟩,
    ⟨lists, hlists.of_fields rfl rfl rfl rfl hhome'⟩, fun c hc hf => ?_⟩
  · show c ∈ s.carved ∧ update s.inUse b true c = true
      ∧ update s.requestedSize b r.bytes c = q.bytes ∧ s.Fits q c
    rcases List.mem_cons.1 hc with he | hq
    · obtain ⟨rfl, rfl⟩ := Prod.mk.inj he
      rw [update_self, update_self]
      exact ⟨hb, rfl, rfl, hfit⟩
    · have hne : c ≠ b := by
        rintro rfl
        exact hcall.notMem_of_free hfree (List.mem_map.2 ⟨(c, q), hq, rfl⟩)
      rw [update_of_ne hne, update_of_ne hne]
      exact hcall.live c q hq
  · show ∃ q, (c, q) ∈ (b, r) :: s.live
    by_cases hcb : c = b
    · subst hcb
      exact ⟨r, List.mem_cons_self⟩
    · replace huse : update s.inUse b true c = true := huse
      rw [update_of_ne hcb] at huse
      obtain ⟨q, hq⟩ := hcall.held c hc huse
      exact ⟨q, List.mem_cons_of_mem _ hq⟩
  · show (((b, r) :: s.live).map Prod.fst).Nodup
    rw [List.map_cons]
    exact List.nodup_cons.2 ⟨hcall.notMem_of_free hfree, hcall.nodup⟩
  · replace hf : update s.inUse b true c = false := hf
    have hcb : c ≠ b := by
      rintro rfl
      rw [update_self] at hf
      exact nomatch hf
    rw [update_of_ne hcb] at hf
    exact h.free c hc hf

/-! ### The tail -/

/-- The tail cannot hold the request with its header, its padding and 16 bytes more. -/
def TailFull (B : Buffer) (s : State) (r : Request) : Prop :=
  B.endOfBlock < roundUp (s.nextEmptyBlock + BLOCK_HEADER_SIZE) r.alignment + r.bytes
    + DEFAULT_ALIGNMENT

theorem Inv.carve (h : Inv B s) (hc : Carved B s.nextEmptyBlock r header following)
    (hfirst : B.block ≤ s.nextEmptyBlock) : Inv B (initBlock s r header following) := by
  obtain ⟨habove, haligned, hlarge, hbelow⟩ := hc
  obtain ⟨lists, hlists⟩ := h.chains
  have hcall := h.callers
  have hend : B.endOfBlock < WORD64 := B.fits
  have hsub : sub64 following header = following - header := sub64_eq (by omega) (by omega)
  -- the new block is above the others
  have hne : ∀ c ∈ s.carved, c ≠ header := by
    rintro c hc rfl
    obtain ⟨-, h1, h2, -⟩ := h.memory.inside c hc
    unfold BLOCK_HEADER_SIZE at h1
    omega
  have hnot : header ∉ s.carved := fun hm => hne header hm rfl
  have hlisted : ∀ k, header ∉ lists k := fun k hm => hnot ((hlists.mem_iff k header).1 hm).1
  refine ⟨⟨fun c hc => ?_, ?_, fun hw => ?_⟩, ⟨fun c q hc => ?_, fun c hc huse => ?_, ?_⟩,
    ⟨lists, fun k => ?_, fun k c => ?_⟩, fun c hc hf => ?_⟩
  · show B.block ≤ c ∧ _ ≤ update s.actualSize header _ c
      ∧ c + update s.actualSize header _ c ≤ following ∧ following < B.endOfBlock
    rcases List.mem_cons.1 hc with rfl | hc
    · rw [update_self, hsub]
      omega
    · rw [update_of_ne (hne c hc)]
      have := h.memory.inside c hc
      omega
  · show (header :: s.carved).Pairwise fun b c : ℕ => c + update s.actualSize header _ c ≤ b
    refine List.pairwise_cons.2 ⟨fun c hc => ?_, h.memory.apart.imp_of_mem fun {a c} _ hc hle => ?_⟩
    · rw [update_of_ne (hne c hc)]
      have := (h.memory.inside c hc).2.2.1
      omega
    · rw [update_of_ne (hne c hc)]
      exact hle
  · have := h.memory.first hw
    show B.block ≤ following
    omega
  · show c ∈ header :: s.carved ∧ update s.inUse header true c = true
      ∧ update s.requestedSize header r.bytes c = q.bytes
      ∧ q.bytes + BLOCK_HEADER_SIZE ≤ update s.actualSize header _ c ∧ _
    rcases List.mem_cons.1 hc with he | hc
    · obtain ⟨rfl, rfl⟩ := Prod.mk.inj he
      rw [update_self, update_self, update_self, hsub]
      exact ⟨List.mem_cons_self, rfl, rfl, by omega, haligned⟩
    · obtain ⟨h1, h2, h3, h4⟩ := hcall.live c q hc
      rw [update_of_ne (hne c h1), update_of_ne (hne c h1), update_of_ne (hne c h1)]
      exact ⟨List.mem_cons_of_mem _ h1, h2, h3, h4⟩
  · show ∃ q, (c, q) ∈ (header, r) :: s.live
    rcases List.mem_cons.1 hc with rfl | hc
    · exact ⟨r, List.mem_cons_self⟩
    · replace huse : update s.inUse header true c = true := huse
      rw [update_of_ne (hne c hc)] at huse
      obtain ⟨q, hq⟩ := hcall.held c hc huse
      exact ⟨q, List.mem_cons_of_mem _ hq⟩
  · show (((header, r) :: s.live).map Prod.fst).Nodup
    rw [List.map_cons]
    refine List.nodup_cons.2 ⟨fun hm => ?_, hcall.nodup⟩
    obtain ⟨⟨c, q⟩, hq, rfl⟩ := List.mem_map.1 hm
    exact hnot (hcall.live c q hq).1
  · exact (hlists.chain k).update (hlisted k) _
  · show c ∈ lists k ↔ c ∈ header :: s.carved ∧ update s.onFreeList header false c = true
      ∧ deallocationBin (update s.requestedSize header r.bytes c) = k
    by_cases hch : c = header
    · subst hch
      rw [update_self]
      simp [hlisted k]
    · rw [update_of_ne hch, update_of_ne hch, hlists.mem_iff k c]
      simp only [List.mem_cons, hch, false_or]
      rfl
  · replace hf : update s.inUse header true c = false := hf
    show update s.onFreeList header false c = true
    rcases List.mem_cons.1 hc with rfl | hc
    · rw [update_self] at hf
      exact nomatch hf
    · rw [update_of_ne (hne c hc)] at hf ⊢
      exact h.free c hc hf

/-! ### The calls -/

/-- What an allocation gives: a free block of the class that fits, a block off the tail, or nothing
when there is neither. -/
structure Allocates (B : Buffer) (s : State) (bytes : ℕ) (r : Request)
    (res : Option Block × State) : Prop where
  inv : Inv B res.2
  reuse : ∀ b ∈ res.1, b ∈ s.carved → s.inUse b = false ∧ s.home b = r.bin ∧ s.Fits r b
  null : res.1 = none → TooLarge bytes r ∨ TailFull B s r ∧ ¬ (GateOpen s ∧ FreeFit s r)

/-- The search ends, and it finds a free block of the class that fits if the gate is open and there
is one. -/
theorem Inv.search (h : Inv B s) (r : Request) : ∃ found s', search s r = some (found, s')
    ∧ Scanned s s' ∧ Inv B s' ∧ (found = none → ¬ (GateOpen s ∧ FreeFit s r))
    ∧ ∀ b ∈ found, b ∈ s.carved ∧ s.inUse b = false ∧ s.home b = r.bin ∧ s.Fits r b := by
  obtain ⟨lists, hlists⟩ := h.chains
  unfold Alone.search
  split_ifs with hgate
  · obtain ⟨found, s', hrun, hs', hlists', hnone, hsome⟩ := scanLoop_spec hlists
      (show AtLink s lists r.bin none _ from ⟨rfl, by simp⟩) (hlists.chain r.bin)
      (fun _ hb => hb) (Nat.lt_succ_of_le (hlists.length_le r.bin))
    refine ⟨found, s', hrun, hs', h.scanned hs' hlists', fun hf hfree => ?_, fun b hb => ?_⟩
    · obtain ⟨-, b, hb, h1, h2, h3⟩ := hfree
      exact hnone hf b ((hlists.mem_iff _ b).2 ⟨hb, h.free b hb h1, h2⟩) h1 h3
    · obtain ⟨h1, h2, h3⟩ := hsome b hb
      obtain ⟨h4, -, h5⟩ := (hlists.mem_iff _ b).1 h1
      exact ⟨h4, h2, h5, h3⟩
  · exact ⟨none, s, rfl, .refl s, h, fun _ hfree => hgate hfree.1, by simp⟩

theorem Inv.allocate (h : Inv B s) (hg : NoWrap B s (.allocate bytes alignment)) :
    ∃ res, allocate B s bytes alignment = some res
      ∧ Allocates B s bytes (.of bytes alignment) res := by
  unfold Alone.allocate
  split_ifs with hlarge
  · exact ⟨_, rfl, h, by simp, fun _ => .inl hlarge⟩
  · obtain ⟨found, s', hrun, hs', h', hnone, hsome⟩ := h.search (.of bytes alignment)
    rw [hrun]
    refine ⟨_, rfl, ?_⟩
    cases found with
    | some b =>
      obtain ⟨h1, h2, h3, h4⟩ := hsome b rfl
      refine ⟨h'.claim ?_ ?_ ?_ (hs'.fits.2 h4), fun c hc _ => Option.some.inj hc ▸ ⟨h2, h3, h4⟩,
        fun hf => nomatch hf⟩
      · rw [hs'.carved]
        exact h1
      · rw [hs'.inUse]
        exact h2
      · unfold State.home
        rw [hs'.requestedSize]
        exact h3
    | none =>
      obtain ⟨hfirst, hwrap⟩ := hg hlarge (hnone rfl)
      have hnext := hs'.nextEmptyBlock
      have hwrap' : roundUp (s'.nextEmptyBlock + BLOCK_HEADER_SIZE)
          (Request.of bytes alignment).alignment < WORD64 := by
        rw [hnext]
        exact hwrap
      have hspec := carve_spec (B := B) hwrap'
      simp only [carveBlock]
      cases hcarve : SingleBlockResource.carve B s'.nextEmptyBlock (.of bytes alignment) with
      | none =>
        rw [hcarve] at hspec
        simp only at hspec
        refine ⟨h', by simp, fun _ => .inr ⟨?_, hnone rfl⟩⟩
        unfold TailFull
        rwa [hnext] at hspec
      | some res =>
        obtain ⟨header, following⟩ := res
        rw [hcarve] at hspec
        have hle := h'.memory.first hfirst
        refine ⟨h'.carve hspec.2 hle, fun c hc hcs => ?_, fun hf => nomatch hf⟩
        obtain rfl := Option.some.inj hc
        rw [← hs'.carved] at hcs
        obtain ⟨-, h1, h2, -⟩ := h'.memory.inside header hcs
        have h3 := hspec.2.above
        unfold BLOCK_HEADER_SIZE at h1
        omega

theorem deallocate_eq_self (h : s.inUse b = false ∨ s.requestedSize b ≠ bytes) :
    deallocate s b bytes = s := if_pos (.inr h)

theorem Inv.deallocate (h : Inv B s) (hb : b ∈ s.carved) (bytes : ℕ) :
    Inv B (deallocate s b bytes) := by
  unfold Alone.deallocate
  split_ifs with hc
  · exact h
  · have huse : s.inUse b = true := by
      by_contra hf
      exact hc (.inr (.inl (by simpa using hf)))
    have hsize : s.requestedSize b = bytes := by
      by_contra hne
      exact hc (.inr (.inr hne))
    obtain ⟨lists, hlists⟩ := h.chains
    have hcall := h.callers
    generalize hs₁ : ({ s with inUse := update s.inUse b false } : State) = s₁
    have hchains : Chains s₁ lists := by
      rw [← hs₁]
      exact hlists.of_fields rfl rfl rfl rfl rfl
    have hbin : deallocationBin bytes = s₁.home b := by
      rw [← hs₁, ← hsize]
      rfl
    obtain ⟨lists', hlists'⟩ := hchains.pushFree (b := b) (by rw [← hs₁]; exact hb)
    obtain ⟨h1, h2, h3, h4, h5⟩ := pushFree_fields s₁ b (s₁.home b)
    have h6 := pushFree_onFreeList s₁ b (s₁.home b)
    rw [hbin]
    rw [show s₁.nextEmptyBlock = s.nextEmptyBlock by rw [← hs₁]] at h1
    rw [show s₁.actualSize = s.actualSize by rw [← hs₁]] at h2
    rw [show s₁.requestedSize = s.requestedSize by rw [← hs₁]] at h3
    rw [show s₁.inUse = update s.inUse b false by rw [← hs₁]] at h4
    rw [show s₁.carved = s.carved by rw [← hs₁]] at h5
    rw [show s₁.onFreeList = s.onFreeList by rw [← hs₁]] at h6
    generalize pushFree s₁ b (s₁.home b) = s₂ at *
    refine ⟨h.memory.of_fields h1 h2 h5, ⟨fun c q hq => ?_, fun c hcm hcu => ?_, ?_⟩,
      ⟨lists', hlists'.of_fields rfl rfl rfl rfl rfl⟩, fun c hcm hf => ?_⟩
    · obtain ⟨hq, hne⟩ := List.mem_filter.1 hq
      have hcb : c ≠ b := by simpa using hne
      obtain ⟨h7, h8, h9, h10⟩ := hcall.live c q hq
      show c ∈ s₂.carved ∧ s₂.inUse c = true ∧ s₂.requestedSize c = q.bytes
        ∧ q.bytes + BLOCK_HEADER_SIZE ≤ s₂.actualSize c ∧ _
      rw [h5, h4, h3, h2, update_of_ne hcb]
      exact ⟨h7, h8, h9, h10⟩
    · replace hcm : c ∈ s₂.carved := hcm
      replace hcu : s₂.inUse c = true := hcu
      rw [h5] at hcm
      rw [h4] at hcu
      have hcb : c ≠ b := by
        rintro rfl
        rw [update_self] at hcu
        exact nomatch hcu
      rw [update_of_ne hcb] at hcu
      obtain ⟨q, hq⟩ := hcall.held c hcm hcu
      exact ⟨q, List.mem_filter.2 ⟨hq, by simpa using hcb⟩⟩
    · exact hcall.nodup.sublist (List.filter_sublist.map _)
    · replace hcm : c ∈ s₂.carved := hcm
      replace hf : s₂.inUse c = false := hf
      show s₂.onFreeList c = true
      rw [h5] at hcm
      rw [h4] at hf
      rw [h6]
      by_cases hcb : c = b
      · subst hcb
        exact update_self ..
      · rw [update_of_ne hcb] at hf ⊢
        exact h.free c hcm hf

/-! ### The result -/

theorem inv_start (h : Start B s) : Inv B s := by
  obtain ⟨hnext, hhead, -, -, hcarved, hlive⟩ := h
  refine ⟨⟨by simp [hcarved], by simp [hcarved], fun hw => ?_⟩,
    ⟨by simp [hlive], by simp [hcarved], by simp [hlive]⟩,
    ⟨fun _ => [], fun k => ?_, by simp [hcarved]⟩, by simp [hcarved]⟩
  · rw [hnext, alignPointer_eq (by decide) hw]
    exact le_roundUp _ (by decide)
  · rw [hhead]
    exact Linked.nil_iff.2 rfl

theorem Inv.step {a : Action} (h : Inv B s) (hg : NoWrap B s a) (hs : step B s a = some s') :
    Inv B s' := by
  rcases a with ⟨bytes, alignment⟩ | ⟨b, bytes⟩
  · simp only [Alone.step] at hs
    split_ifs at hs
    obtain ⟨res, hres, halloc⟩ := h.allocate hg
    rw [hres] at hs
    obtain rfl := Option.some.inj hs
    exact halloc.inv
  · simp only [Alone.step] at hs
    split_ifs at hs with hb
    obtain rfl := Option.some.inj hs
    exact h.deallocate hb bytes

theorem inv_of_run (h : (machine B).Run (NoWrap B) s) : Inv B s :=
  Machine.run_induction (fun _ => inv_start) (fun _ _ _ _ ih hg hs => ih.step hg hs) h

/-- The blocks handed out lie apart in the buffer, each aligned and long enough for its request, and
are the ones in use; each list ends and has, once each, the flagged blocks of its class, among them
all that are free; an allocation ends, and reuses only a free block of its class that fits; and
freeing a free block, or with a wrong size, does nothing. -/
structure Correct (B : Buffer) (s : State) : Prop where
  payload : ∀ (b : ℕ) r, (b, r) ∈ s.live → B.block ≤ b ∧ (b + BLOCK_HEADER_SIZE) % r.alignment = 0
    ∧ b + BLOCK_HEADER_SIZE + r.bytes ≤ B.endOfBlock
  disjoint : ∀ (b c : ℕ) r q, (b, r) ∈ s.live → (c, q) ∈ s.live → b ≠ c →
    b + BLOCK_HEADER_SIZE + r.bytes ≤ c ∨ c + BLOCK_HEADER_SIZE + q.bytes ≤ b
  nodup : (s.live.map Prod.fst).Nodup
  inUse : ∀ b ∈ s.carved, s.inUse b = true ↔ ∃ r, (b, r) ∈ s.live
  lists : ∀ k, ∃ l, Linked .block s.nextDeallocated (s.head k) l .endOfListMarker ∧ l.Nodup
    ∧ ∀ b, b ∈ l ↔ b ∈ s.carved ∧ s.onFreeList b = true ∧ s.home b = k
  freed : ∀ b ∈ s.carved, s.inUse b = false → s.onFreeList b = true
  allocates : ∀ bytes alignment, NoWrap B s (.allocate bytes alignment) →
    ∃ res, allocate B s bytes alignment = some res ∧ ∀ b ∈ res.1, b ∈ s.carved →
      s.inUse b = false ∧ s.home b = deallocationBin bytes ∧ s.Fits (.of bytes alignment) b
  again : ∀ b ∈ s.carved, ∀ bytes, s.inUse b = false ∨ s.requestedSize b ≠ bytes →
    deallocate s b bytes = s

theorem Memory.disjoint (h : Memory B s) {b c : ℕ} (hb : b ∈ s.carved) (hc : c ∈ s.carved)
    (hne : b ≠ c) : b + s.actualSize b ≤ c ∨ c + s.actualSize c ≤ b := by
  let R : ℕ → ℕ → Prop := fun b c => c + s.actualSize c ≤ b ∨ b + s.actualSize b ≤ c
  have hsymm : Std.Symm R := ⟨fun _ _ hor => hor.symm⟩
  have hpair : s.carved.Pairwise R := h.apart.imp fun hle => .inl hle
  exact (hpair.forall hb hc hne).symm

theorem Inv.correct (h : Inv B s) : Correct B s := by
  refine ⟨fun b r hb => ?_, fun b c r q hb hc hne => ?_, h.callers.nodup,
    fun b hb => ⟨h.callers.held b hb, fun ⟨r, hr⟩ => (h.callers.live b r hr).2.1⟩, fun k => ?_,
    h.free, fun bytes alignment hg => ?_, fun b _ bytes => deallocate_eq_self⟩
  · obtain ⟨h1, -, -, h2, h3⟩ := h.callers.live b r hb
    have := h.memory.inside b h1
    exact ⟨this.1, h3, by omega⟩
  · obtain ⟨h1, -, -, h2, -⟩ := h.callers.live b r hb
    obtain ⟨h3, -, -, h4, -⟩ := h.callers.live c q hc
    have := h.memory.disjoint h1 h3 hne
    omega
  · obtain ⟨lists, hlists⟩ := h.chains
    exact ⟨lists k, hlists.chain k, hlists.nodup k, hlists.mem_iff k⟩
  · obtain ⟨res, hres, halloc⟩ := h.allocate hg
    exact ⟨res, hres, halloc.reuse⟩

theorem apart_of_noWrap (h : (machine B).Run (NoWrap B) s) : Correct B s := (inv_of_run h).correct

def State.new (start : ℕ) : State :=
  ⟨start, fun _ => .endOfListMarker, fun _ => .null, fun _ => 0, fun _ => 0, fun _ => false,
    fun _ => false, 0, 0, [], []⟩

/-- A block is freed twice, another with a wrong size; the first is reused while it is listed, freed
again, and reused once more. -/
theorem apart_of_noWrap_reused : ∃ s : State, (machine ⟨4096, 4096, by decide⟩).Run
    (NoWrap ⟨4096, 4096, by decide⟩) s ∧ s.totalDeallocations = 2 ∧ s.live.length = 2
      ∧ Correct ⟨4096, 4096, by decide⟩ s := by
  have hrun : ∃ s : State, (machine ⟨4096, 4096, by decide⟩).Run (NoWrap ⟨4096, 4096, by decide⟩) s
      ∧ s.totalDeallocations = 2 ∧ s.live.length = 2 :=
    Machine.exists_run (s := .new 4096)
      [.allocate 100 16, .allocate 100 16, .deallocate 4096 100, .deallocate 4096 100,
        .deallocate 4256 99, .allocate 60 16, .deallocate 4096 60, .allocate 100 16]
      ⟨by decide, rfl, rfl, rfl, rfl, rfl⟩ (by decide)
  obtain ⟨s, hs, h1, h2⟩ := hrun
  exact ⟨s, hs, h1, h2, apart_of_noWrap hs⟩

/-- 1024 bytes in the upper half of the addresses. -/
def upper : Buffer := ⟨2 ^ 63, 1024, by decide⟩

/-- Rounding up to 2^63 wraps to 0, and the block handed out is not in the buffer. -/
theorem wrapped_block_outside : ∃ s : State, (machine upper).Reachable s
    ∧ (2 ^ 64 - 48, Request.of 16 (2 ^ 63)) ∈ s.live ∧ ¬ Correct upper s := by
  have hrun : ∃ s : State, (machine upper).Reachable s
      ∧ (2 ^ 64 - 48, Request.of 16 (2 ^ 63)) ∈ s.live :=
    Machine.exists_run (s := .new (2 ^ 63)) [.allocate 16 (2 ^ 63)]
      ⟨by decide, rfl, rfl, rfl, rfl, rfl⟩ (by decide)
  obtain ⟨s, hs, hlive⟩ := hrun
  refine ⟨s, hs, hlive, fun h => ?_⟩
  have := (h.payload _ _ hlive).2.2
  exact absurd this (by decide)

/-! ### Null -/

/-- Nothing is handed out only where the tail cannot hold the request, and the gate is closed or no
free block of the class fits. -/
theorem full_of_null (h : (machine B).Run (NoWrap B) s)
    (hg : NoWrap B s (.allocate bytes alignment))
    (hnull : allocate B s bytes alignment = some (none, s')) :
    TooLarge bytes (.of bytes alignment) ∨ TailFull B s (.of bytes alignment)
      ∧ ¬ (GateOpen s ∧ FreeFit s (.of bytes alignment)) := by
  obtain ⟨res, hres, halloc⟩ := (inv_of_run h).allocate hg
  obtain rfl := Option.some.inj (hres.symm.trans hnull)
  exact halloc.null rfl

/-- Room for ten blocks of 64 bytes. -/
def ten : Buffer := ⟨4096, 656, by decide⟩

theorem full_of_null_ten : ∃ s : State, (machine ten).Run (NoWrap ten) s
    ∧ (TooLarge 16 (.of 16 16) ∨ TailFull ten s (.of 16 16)
      ∧ ¬ (GateOpen s ∧ FreeFit s (.of 16 16))) := by
  have hrun : ∃ s : State, (machine ten).Run (NoWrap ten) s ∧ NoWrap ten s (.allocate 16 16)
      ∧ (allocate ten s 16 16).map Prod.fst = some none :=
    Machine.exists_run (s := .new 4096) (List.replicate 10 (.allocate 16 16))
      ⟨by decide, rfl, rfl, rfl, rfl, rfl⟩ (by decide)
  obtain ⟨s, hs, hg, hnull⟩ := hrun
  obtain ⟨⟨-, s'⟩, hres, rfl⟩ := Option.map_eq_some_iff.1 hnull
  exact ⟨s, hs, full_of_null hs hg hres⟩

/-- One of ten blocks is freed: the gate is closed, and the block is not found. -/
theorem null_beside_free_block : ∃ s : State, (machine ten).Run (NoWrap ten) s
    ∧ (allocate ten s 16 16).map Prod.fst = some none ∧ FreeFit s (.of 16 16) :=
  Machine.exists_run (s := .new 4096)
    (List.replicate 10 (.allocate 16 16) ++ [.deallocate 4096 16])
    ⟨by decide, rfl, rfl, rfl, rfl, rfl⟩ (by decide)

end MinStd.SingleBlockResource.Alone
