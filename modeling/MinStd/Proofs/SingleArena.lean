import MinStd.Proofs.SingleArenaCalls

/-!
# What every run of the single-arena resource keeps
-/

namespace MinStd.SingleArena

open Function SizeClasses
open ArenaRegions (BlockState AllocationState Header packFrontier unpackFrontier unpackPredecessor
  managerFor NO_PREDECESSOR METADATA_RECORDS_PER_BLOCK Tower frontierOf predOf wordOf)

variable {R : Resource} {s s' : State} {x x' : System} {tiles : List (ℕ × ℕ)}
  {place place' : ℕ → Place} {i j p n bin : ℕ} {a b : Block} {live : List Block} {r : Request}

/-! ### The blocks handed out -/

/-- The record in use is the block's. -/
structure Holds (R : Resource) (s : State) (place : ℕ → Place) (b : Block) (i : ℕ) : Prop where
  used : place i = .used
  block : s.blockOf i = some b.header
  requestedSize : (s.records i).requestedSize = b.bytes
  alignment : (s.records i).alignment = b.alignment
  accepted : ¬ Refused R b.bytes b.alignment
  bin : freeBlockBinIndex R.policy (s.records i).totalSize
    = freeBlockBinIndex R.policy (totalSize b.bytes)

/-- The blocks handed out are those of the records in use. -/
structure Ledger (R : Resource) (s : State) (place : ℕ → Place) (live : List Block) : Prop where
  held : ∀ b ∈ live, ∃ i, Holds R s place b i
  listed : ∀ i, place i = .used → ∃ b ∈ live, s.blockOf i = some b.header
  nodup : (live.map Block.header).Nodup

theorem Holds.congr (h : Holds R s place b i) (hp : place' i = .used)
    (hr : s'.records i = s.records i) : Holds R s' place' b i := by
  obtain ⟨-, h2, h3, h4, h5, h6⟩ := h
  unfold State.blockOf at h2
  rw [← hr] at h2 h3 h4 h6
  exact ⟨hp, h2, h3, h4, h5, h6⟩

/-- The record of a block is found through its header. -/
theorem Inv.index_of_block (h : Inv R s tiles place) (hi : (place i).named = true)
    (hp : s.blockOf i = some p) : (s.headers p).metadataIndex = i ∧ ∃ n, (p, n) ∈ tiles
      ∧ (s.records i).totalSize = n * 64 := by
  obtain ⟨q, n, hq, hix, hb, hs⟩ := h.named_tile hi
  obtain rfl := Option.some.inj (hb.symm.trans hp)
  exact ⟨hix, n, hq, hs⟩

theorem Inv.used_unique (h : Inv R s tiles place) (hi : place i = .used) (hj : place j = .used)
    (hb : s.blockOf i = some p) (hb' : s.blockOf j = some p) : i = j :=
  (h.index_of_block (by rw [hi]; rfl) hb).1.symm.trans (h.index_of_block (by rw [hj]; rfl) hb').1

namespace Ledger

theorem same (h : Ledger R s place live) (hs : SameUsed s place s' place') :
    Ledger R s' place' live := by
  refine ⟨fun b hb => ?_, fun i hi => ?_, h.nodup⟩
  · obtain ⟨i, hi⟩ := h.held b hb
    exact ⟨i, hi.congr ((hs.used i).2 hi.used) (hs.records i hi.used)⟩
  · have hu := (hs.used i).1 hi
    obtain ⟨b, hb, he⟩ := h.listed i hu
    refine ⟨b, hb, ?_⟩
    rw [State.blockOf, hs.records i hu]
    exact he

theorem granted (h : Ledger R s place live) {cpu bytes alignment : ℕ}
    (hacc : ¬ Refused R bytes alignment)
    (hg : Granted R s place (requestOf R cpu bytes alignment) p s' tiles place' i) :
    Ledger R s' place' (⟨p, bytes, alignment⟩ :: live) := by
  obtain ⟨-, hlt, hdvd, -⟩ := of_not_refused hacc
  have hle := Nat.le_of_dvd (by decide) hdvd
  have hold : ∀ b ∈ live, ∃ j, j ≠ i ∧ Holds R s' place' b j := fun b hb => by
    obtain ⟨j, hj⟩ := h.held b hb
    have hji : j ≠ i := fun he => hg.fresh (he ▸ hj.used)
    exact ⟨j, hji, hj.congr ((hg.others j hji).2 hj.used) (hg.records j hji hj.used)⟩
  refine ⟨fun b hb => ?_, fun j hj => ?_, List.nodup_cons.2 ⟨fun hm => ?_, h.nodup⟩⟩
  · rcases List.mem_cons.1 hb with rfl | hb
    · refine ⟨i, hg.used, hg.block, hg.requestedSize.trans (Nat.mod_eq_of_lt hlt),
        hg.alignment.trans (Nat.mod_eq_of_lt ?_), hacc, hg.bin⟩
      show alignment < 256
      omega
    · obtain ⟨j, -, hj⟩ := hold b hb
      exact ⟨j, hj⟩
  · rcases eq_or_ne j i with rfl | hji
    · exact ⟨_, List.mem_cons_self, hg.block⟩
    · have hu := (hg.others j hji).1 hj
      obtain ⟨b, hb, he⟩ := h.listed j hu
      refine ⟨b, List.mem_cons_of_mem _ hb, ?_⟩
      rw [State.blockOf, hg.records j hji hu]
      exact he
  · obtain ⟨b, hb, hbp⟩ := List.mem_map.1 hm
    obtain ⟨j, hji, hj⟩ := hold b hb
    refine hji (hg.inv.used_unique hj.used hg.used ?_ hg.block)
    rw [hj.block, hbp]

theorem released (h : Ledger R s place live) (hinv : Inv R s tiles place) {header : ℕ}
    (hheld : Held s place header) {tiles' : List (ℕ × ℕ)}
    (hr : Released R s place (s.headers header).metadataIndex s' tiles' place') :
    Ledger R s' place' (live.filter fun b => some b.header ≠ some header) := by
  refine ⟨fun b hb => ?_, fun j hj => ?_, (h.nodup.sublist ((List.filter_sublist).map _))⟩
  · obtain ⟨hb, hne⟩ := List.mem_filter.1 hb
    obtain ⟨j, hj⟩ := h.held b hb
    have hji : j ≠ (s.headers header).metadataIndex := by
      rintro rfl
      exact absurd (hj.block.symm.trans hheld.2) (of_decide_eq_true hne)
    exact ⟨j, hj.congr ((hr.used j).2 ⟨hj.used, hji⟩) (hr.records j hji hj.used)⟩
  · obtain ⟨hu, hji⟩ := (hr.used j).1 hj
    obtain ⟨b, hb, he⟩ := h.listed j hu
    refine ⟨b, List.mem_filter.2 ⟨hb, decide_eq_true fun hbh => hji ?_⟩, ?_⟩
    · exact hinv.used_unique hu hheld.1 (he.trans hbh) hheld.2
    · rw [State.blockOf, hr.records j hji hu]
      exact he

/-- A pointer to a block handed out is one that the resource holds. -/
theorem held_iff (h : Ledger R s place live) (hinv : Inv R s tiles place) (header : ℕ) :
    Held s place header ↔ ∃ b ∈ live, b.header = header := by
  constructor
  · rintro ⟨hu, hb⟩
    obtain ⟨b, hm, he⟩ := h.listed _ hu
    exact ⟨b, hm, Option.some.inj (he.symm.trans hb)⟩
  · rintro ⟨b, hm, rfl⟩
    obtain ⟨i, hi⟩ := h.held b hm
    obtain ⟨hix, -⟩ := hinv.index_of_block (by rw [hi.used]; rfl) hi.block
    rw [Held, hix]
    exact ⟨hi.used, hi.block⟩

end Ledger

/-! ### Between calls -/

/-- What holds between two calls. -/
structure Between (R : Resource) (x : System) (tiles : List (ℕ × ℕ)) (place : ℕ → Place) :
    Prop where
  inv : Inv R x.arena tiles place
  settled : ∀ i, (place i).settled = true
  tidy : Tidy x.arena
  ledger : Ledger R x.arena place x.live

theorem between_of_start (h : Start x) : Between R x [] fun _ => .region := by
  have hnil : ∀ {κ : Type} {k : ℕ → κ} {P : Place → Prop}, ¬ P .region →
      Filed (fun _ => []) (fun _ : ℕ => P .region) k := fun hP =>
    ⟨fun q i => by simp [hP], fun _ => List.nodup_nil⟩
  obtain ⟨h1, -, h3, h4, h5, h6, h7, h8, h9, h10, h11⟩ := h
  refine ⟨⟨⟨trivial, h1, ?_, ?_, ?_⟩, ?_, ?_, ?_, ?_, ?_, ?_, ?_, ?_, ?_⟩, fun _ => rfl,
    ⟨h3, fun k => by rw [h9], fun k => by rw [h8, h7]; rfl⟩, ?_⟩
  · rw [h4]
    exact R.layout.2.2.2.1
  · intro p n l hs
    exact absurd (hs.mem List.mem_cons_self) (by simp)
  · simp
  · simp [h4]
  · simp [h4]
  · simp [Place.state?]
  · simp
  · simp [Place.named]
  · rw [h5]
    exact hnil (P := (· = .free)) (by simp)
  · rw [h7]
    exact hnil (P := (· = .pending)) (by simp)
  · rw [h10]
    exact hnil (P := fun y => y = .binned ∨ y = .reclaimed) (by simp)
  · intro m
    simp [h4, h5, h6, groupSize]
  · rw [h11]
    exact ⟨by simp, by simp, List.nodup_nil⟩

namespace Between

theorem doAllocate (h : Between R x tiles place) (cpu bytes alignment : ℕ) :
    ∃ out tiles' place', doAllocate R x.arena cpu bytes alignment = some out
      ∧ Between R (x.allocated bytes alignment out) tiles' place'
      ∧ (out.1 = none → ¬ Refused R bytes alignment →
        NoneFree R out.2 place' (requestOf R cpu bytes alignment).bin
          ∧ (NoRecord R out.2 ∨ Drained R out.2 tiles' place')) := by
  unfold SingleArena.doAllocate
  split_ifs with href
  · exact ⟨_, tiles, place, rfl, h, fun _ hn => absurd href hn⟩
  · obtain ⟨out, hout, hans⟩ := h.inv.allocateRequest h.settled h.tidy
      (requestOf_bin cpu href).1
    refine ⟨out, ?_⟩
    rw [hout]
    cases hans with
    | refused hinv hset htidy hsame hnone hwhy =>
      exact ⟨_, _, rfl, ⟨hinv, hset, htidy, h.ledger.same hsame⟩, fun _ _ => ⟨hnone, hwhy⟩⟩
    | granted hg =>
      exact ⟨_, _, rfl, ⟨hg.inv, hg.settled, hg.tidy, h.ledger.granted href hg⟩,
        fun he => by cases he⟩

theorem doTryDeallocate (h : Between R x tiles place) (header : ℕ) :
    ∃ out tiles' place', doTryDeallocate R x.arena (some header) = some out
      ∧ Between R (x.deallocated (some header) out) tiles' place'
      ∧ (out.1 = true ↔ ∃ b ∈ x.live, b.header = header) ∧ (out.1 = false → out.2 = x.arena) := by
  rw [← h.ledger.held_iff h.inv header]
  rcases h.inv.doTryDeallocate h.settled h.tidy header with
    ⟨hn, hout⟩ | ⟨hheld, s', tiles', place', hout, hrel⟩
  · rw [hout]
    exact ⟨_, tiles, place, rfl, h, by simp [hn], fun _ => rfl⟩
  · rw [hout]
    exact ⟨_, tiles', place', rfl, ⟨hrel.inv, hrel.settled, hrel.tidy,
      h.ledger.released h.inv hheld hrel⟩, by simp [hheld], fun he => by cases he⟩

/-- The record that the header of a block names. -/
theorem header (h : Between R x tiles place) (hp : (p, n) ∈ tiles) : ∃ i,
    i < x.arena.currentMetadataRecordCount ∧ x.arena.blockOf i = some p
      ∧ (x.arena.records i).totalSize = n * 64 ∧ (x.arena.state i = .IN_USE
        ∨ x.arena.state i = .DEALLOCATED_PENDING ∨ x.arena.state i = .AVAILABLE) := by
  obtain ⟨h1, h2, h3⟩ := h.inv.names p n hp
  have hset := h.settled (x.arena.headers p).metadataIndex
  have hst := h.inv.state (x.arena.headers p).metadataIndex
  refine ⟨_, h.inv.lt_count (fun he => by rw [he] at h1; cases h1), h2, h3, ?_⟩
  rcases hpl : place (x.arena.headers p).metadataIndex <;> rw [hpl] at h1 hset hst <;> first
    | exact absurd h1 (by decide)
    | exact absurd hset (by decide)
    | exact .inl (hst _ rfl)
    | exact .inr (.inl (hst _ rfl))
    | exact .inr (.inr (hst _ rfl))

theorem isHeader (h : Between R x tiles place) (hp : (p, n) ∈ tiles) : IsHeader x.arena p := by
  obtain ⟨i, hi, hb, -, hs⟩ := h.header hp
  exact ⟨i, hi, hb, hs⟩

theorem step (h : Between R x tiles place) {a : Action} (hs : step R x a = some x') :
    ∃ tiles' place', Between R x' tiles' place' := by
  cases a with
  | allocate cpu bytes alignment =>
    obtain ⟨out, tiles', place', hout, hb, -⟩ := h.doAllocate cpu bytes alignment
    change (SingleArena.doAllocate R x.arena cpu bytes alignment).map _ = _ at hs
    rw [hout] at hs
    cases hs
    exact ⟨tiles', place', hb⟩
  | deallocate header =>
    change (SingleArena.doTryDeallocate R x.arena header).map _ = _ at hs
    rcases header with _ | header
    · cases hs
      refine ⟨tiles, place, ?_⟩
      have : x.deallocated none (true, x.arena) = x := by simp [System.deallocated]
      rw [this]
      exact h
    · obtain ⟨out, tiles', place', hout, hb, -⟩ := h.doTryDeallocate header
      rw [hout] at hs
      cases hs
      exact ⟨tiles', place', hb⟩
  | writeHeader unit hd =>
    change (if _ then _ else _) = _ at hs
    split_ifs at hs with hu
    cases hs
    exact ⟨tiles, place, h.inv.setHeader (fun n hn => hu (h.isHeader hn)) hd, h.settled,
      ⟨h.tidy.idle, h.tidy.closed, h.tidy.counted⟩, h.ledger.same ⟨fun _ => .rfl, fun _ _ => rfl⟩⟩
  | writeRecord i rec =>
    change (if _ then _ else _) = _ at hs
    split_ifs at hs with hi
    cases hs
    have hi := not_lt.1 hi
    refine ⟨tiles, place, h.inv.setRecord hi rec, h.settled,
      ⟨h.tidy.idle, h.tidy.closed, h.tidy.counted⟩, h.ledger.same ⟨fun _ => .rfl, fun j hj => ?_⟩⟩
    refine update_of_ne ?_ ..
    rintro rfl
    rw [(h.inv.region j).2 hi] at hj
    cases hj

end Between

theorem between_of_reachable (h : (machine R).Reachable x) :
    ∃ tiles place, Between R x tiles place := by
  refine Machine.reachable_induction (I := fun x => ∃ tiles place, Between R x tiles place)
    (fun x h0 => ⟨[], _, between_of_start h0⟩) ?_ h
  rintro x x' a - ⟨tiles, place, hb⟩ hs
  exact hb.step hs

/-! ### Memory -/

namespace Resource

variable (R : Resource)

/-- The address of a unit of the arena. -/
def addressOf (unit : ℕ) : ℕ := R.allocationBase + unit * DEFAULT_ALIGNMENT

def recordAddress (i : ℕ) : ℕ := R.addressOf (R.metadataStart - i)

end Resource

namespace Block

variable (R : Resource) (b : Block)

/-- The pointer that was returned. -/
def pointer : ℕ := R.addressOf b.header + ALLOCATION_HEADER_SIZE

/-- The end of what the caller may write. -/
def finish : ℕ := b.pointer R + b.bytes

end Block

/-- The memory of the blocks handed out is the caller's, aligned, below the records and each block's
own.  Every call returns; the pointers of these blocks can be asked about and deallocated, and no
other pointer. -/
structure Sound (R : Resource) (x : System) : Prop where
  inside : ∀ b ∈ x.live, R.block ≤ R.addressOf b.header
    ∧ ∀ i < x.arena.currentMetadataRecordCount, b.finish R ≤ R.recordAddress i
  records : ∀ i < x.arena.currentMetadataRecordCount,
    R.recordAddress i + ALLOCATION_METADATA_SIZE ≤ R.block + R.blockSize
  counted : x.live ≠ [] → 0 < x.arena.currentMetadataRecordCount
  aligned : ∀ b ∈ x.live, b.alignment ∣ b.pointer R
  apart : x.live.Pairwise fun a b =>
    a.finish R ≤ R.addressOf b.header ∨ b.finish R ≤ R.addressOf a.header
  known : ∀ b ∈ x.live,
    getAllocationInfo x.arena b.header = ⟨some b.header, .IN_USE, b.bytes, b.alignment⟩
  allocate : ∀ cpu bytes alignment, ∃ out, doAllocate R x.arena cpu bytes alignment = some out
  deallocate : ∀ header, ∃ out, doTryDeallocate R x.arena (some header) = some out
    ∧ (out.1 = true ↔ ∃ b ∈ x.live, b.header = header) ∧ (out.1 = false → out.2 = x.arena)

/-- The tile of a block handed out has room for what was asked for. -/
theorem Between.tile (h : Between R x tiles place) (hb : b ∈ x.live) :
    ∃ i n, Holds R x.arena place b i ∧ (x.arena.headers b.header).metadataIndex = i
      ∧ (b.header, n) ∈ tiles ∧ b.finish R ≤ R.addressOf (b.header + n) := by
  obtain ⟨i, hi⟩ := h.ledger.held b hb
  obtain ⟨hix, n, hn, hsize⟩ := h.inv.index_of_block (by rw [hi.used]; rfl) hi.block
  refine ⟨i, n, hi, hix, hn, ?_⟩
  obtain ⟨k, hk, hkn⟩ := h.inv.blocks.size _ _ hn
  have hfirst := (requestOf_bin 0 hi.accepted).2.1
  have hbin := hi.bin
  rw [hsize, ← hkn, freeBlockBinIndex_binSize hk] at hbin
  change roundUp (b.bytes + 64) ≤ binSize R.policy (freeBlockBinIndex R.policy (totalSize b.bytes))
    at hfirst
  rw [← hbin, hkn] at hfirst
  have hle := le_roundUp (b.bytes + 64)
  unfold Block.finish Block.pointer Resource.addressOf DEFAULT_ALIGNMENT ALLOCATION_HEADER_SIZE
  omega

theorem arena_sound_of_reachable (h : (machine R).Reachable x) : Sound R x := by
  obtain ⟨tiles, place, hb⟩ := between_of_reachable h
  obtain ⟨hbase, hmod, hend, -⟩ := R.layout
  have hroom := hb.inv.blocks.room
  refine ⟨fun b hm => ⟨?_, fun i hi => ?_⟩, fun i hi => ?_, fun hne => ?_, fun b hm => ?_, ?_,
    fun b hm => ?_, fun cpu bytes alignment => ?_, fun header => ?_⟩
  · exact hbase.trans (Nat.le_add_right _ _)
  · obtain ⟨-, n, -, -, hn, hfin⟩ := hb.tile hm
    have hle := (hb.inv.blocks.tower.mem_le hn).2
    refine hfin.trans (Nat.add_le_add_left (Nat.mul_le_mul_right _ ?_) _)
    omega
  · show R.allocationBase + (R.metadataStart - i) * 64 + 64 ≤ _
    omega
  · obtain ⟨b, hm⟩ := List.exists_mem_of_ne_nil _ hne
    obtain ⟨i, hi⟩ := hb.ledger.held b hm
    exact (Nat.zero_le i).trans_lt (hb.inv.lt_count (by simp [hi.used]))
  · obtain ⟨i, hi⟩ := hb.ledger.held b hm
    refine (of_not_refused hi.accepted).2.2.1.trans (Nat.dvd_of_mod_eq_zero ?_)
    show (R.allocationBase + b.header * 64 + 64) % 64 = 0
    omega
  · refine (List.pairwise_map.1 hb.ledger.nodup).imp_of_mem fun {a b} ha hm hne => ?_
    obtain ⟨-, n, -, -, hn, hfa⟩ := hb.tile ha
    obtain ⟨-, m, -, -, hm', hfb⟩ := hb.tile hm
    refine (hb.inv.blocks.tower.apart hn hm' hne).imp (fun hle => hfa.trans ?_)
      fun hle => hfb.trans ?_
    · exact Nat.add_le_add_left (Nat.mul_le_mul_right _ hle) _
    · exact Nat.add_le_add_left (Nat.mul_le_mul_right _ hle) _
  · obtain ⟨i, -, hi, hix, -⟩ := hb.tile hm
    have hlt := hb.inv.lt_count (i := i) (by simp [hi.used])
    have hst : x.arena.state i = .IN_USE := hb.inv.state i _ (by rw [hi.used]; rfl)
    unfold getAllocationInfo
    rw [hix]
    dsimp only
    rw [if_pos hlt, hst, hi.requestedSize, hi.alignment]
  · obtain ⟨out, -, -, hout, -⟩ := hb.doAllocate cpu bytes alignment
    exact ⟨out, hout⟩
  · obtain ⟨out, -, -, hout, -, hiff, hsame⟩ := hb.doTryDeallocate header
    exact ⟨out, hout, hiff, hsame⟩

/-! ### Payloads -/

/-- The end of the block in memory, and of its payload. -/
def Block.payloadEnd (R : Resource) (s : State) (b : Block) : ℕ :=
  R.addressOf b.header + (s.headers b.header).sizeIncludingHeader

/-- Payloads are the callers' own, aligned, long enough and between the base and the records; the
record of each block is counted, IN_USE and names it alone; and exactly the pointers of these blocks
are accepted. -/
structure Contract (R : Resource) (x : System) : Prop where
  base : ∀ b ∈ x.live, R.allocationBase < b.pointer R
  aligned : ∀ b ∈ x.live, DEFAULT_ALIGNMENT ∣ b.pointer R
  long : ∀ b ∈ x.live, b.pointer R + b.bytes ≤ b.payloadEnd R x.arena
  below : ∀ b ∈ x.live, ∀ i < x.arena.currentMetadataRecordCount,
    b.payloadEnd R x.arena ≤ R.recordAddress i
  disjoint : x.live.Pairwise fun a b =>
    a.payloadEnd R x.arena ≤ b.pointer R ∨ b.payloadEnd R x.arena ≤ a.pointer R
  record : ∀ b ∈ x.live, ∃ i < x.arena.currentMetadataRecordCount,
    (x.arena.headers b.header).metadataIndex = i ∧ x.arena.state i = .IN_USE
      ∧ ∀ c ∈ x.live, x.arena.blockOf i = some c.header ↔ c = b
  accepted : ∀ b ∈ x.live, ∃ s', doTryDeallocate R x.arena (some b.header) = some (true, s')
    ∧ b.header ∉ (x.deallocated (some b.header) (true, s')).live.map Block.header
  refused : ∀ header ∉ x.live.map Block.header,
    doTryDeallocate R x.arena (some header) = some (false, x.arena)
  returns : ∀ cpu bytes alignment, ∃ out, doAllocate R x.arena cpu bytes alignment = some out

theorem Between.payloadEnd (h : Between R x tiles place) (hn : (b.header, n) ∈ tiles) :
    b.payloadEnd R x.arena = R.addressOf (b.header + n) := by
  obtain ⟨l₁, l₂, rfl⟩ := List.append_of_mem hn
  have hback := (h.inv.blocks.back _ _ l₂ (List.suffix_append l₁ _)).2
  rw [Block.payloadEnd, hback]
  unfold Resource.addressOf DEFAULT_ALIGNMENT
  omega

theorem contract_of_reachable (h : (machine R).Reachable x) : Contract R x := by
  obtain ⟨tiles, place, hb⟩ := between_of_reachable h
  obtain ⟨-, hmod, -⟩ := R.layout
  have hroom := hb.inv.blocks.room
  have hanswer := fun header => hb.doTryDeallocate header
  refine ⟨fun b hm => ?_, fun b hm => Nat.dvd_of_mod_eq_zero ?_, fun b hm => ?_, fun b hm i hi => ?_,
    ?_, fun b hm => ?_, fun b hm => ?_, fun header hnot => ?_, fun cpu bytes alignment => ?_⟩
  · show R.allocationBase < R.allocationBase + b.header * 64 + 64
    omega
  · show (R.allocationBase + b.header * 64 + 64) % 64 = 0
    omega
  · obtain ⟨-, n, -, -, hn, hfin⟩ := hb.tile hm
    rw [hb.payloadEnd hn]
    exact hfin
  · obtain ⟨-, n, -, -, hn, -⟩ := hb.tile hm
    have hle := (hb.inv.blocks.tower.mem_le hn).2
    rw [hb.payloadEnd hn]
    refine Nat.add_le_add_left (Nat.mul_le_mul_right _ ?_) _
    omega
  · refine (List.pairwise_map.1 hb.ledger.nodup).imp_of_mem fun {a b} ha hm hne => ?_
    obtain ⟨-, n, -, -, hn, -⟩ := hb.tile ha
    obtain ⟨-, m, -, -, hm', -⟩ := hb.tile hm
    have below : ∀ {c d : Block} {k : ℕ}, c.header + k ≤ d.header →
        R.addressOf (c.header + k) ≤ d.pointer R := fun hle =>
      (Nat.add_le_add_left (Nat.mul_le_mul_right _ hle) _).trans (Nat.le_add_right _ _)
    rw [hb.payloadEnd hn, hb.payloadEnd hm']
    exact (hb.inv.blocks.tower.apart hn hm' hne).imp below below
  · obtain ⟨i, -, hi, hix, -⟩ := hb.tile hm
    refine ⟨i, hb.inv.lt_count (by simp [hi.used]), hix,
      hb.inv.state i _ (by rw [hi.used]; rfl), fun c hc => ?_⟩
    rw [hi.block, Option.some.injEq]
    exact ⟨fun he => (List.inj_on_of_nodup_map hb.ledger.nodup hm hc he).symm, fun he => he ▸ rfl⟩
  · obtain ⟨⟨answer, s'⟩, -, -, hout, -, hiff, -⟩ := hanswer b.header
    obtain rfl : answer = true := hiff.2 ⟨b, hm, rfl⟩
    exact ⟨s', hout, by simp [System.deallocated]⟩
  · obtain ⟨⟨answer, s'⟩, -, -, hout, -, hiff, hsame⟩ := hanswer header
    have hfalse : answer = false := by
      rw [Bool.eq_false_iff]
      exact fun ht => hnot (List.mem_map.2 (hiff.1 ht))
    subst hfalse
    obtain rfl : s' = x.arena := hsame rfl
    exact hout
  · obtain ⟨out, -, -, hout, -⟩ := hb.doAllocate cpu bytes alignment
    exact ⟨out, hout⟩

/-! ### Records -/

/-- The blocks cover the arena up to the frontier, and each counted record is either in use, for a
block that was handed out, or once in the list that its state says. -/
structure Accounted (R : Resource) (x : System) : Prop where
  covered : ∀ unit < unpackFrontier x.arena.nextEmptyMemoryBlock,
    ∃ i < x.arena.currentMetadataRecordCount, ∃ p, x.arena.blockOf i = some p ∧ p ≤ unit
      ∧ (unit + 1) * 64 ≤ p * 64 + (x.arena.records i).totalSize
      ∧ (x.arena.state i = .IN_USE ∨ x.arena.state i = .DEALLOCATED_PENDING
        ∨ x.arena.state i = .AVAILABLE)
  state : ∀ i < x.arena.currentMetadataRecordCount, x.arena.state i ∈
    [.IN_USE, .DEALLOCATED_PENDING, .AVAILABLE, .FRONTIER_RECLAIMED, .METADATA_AVAILABLE]
  used : ∀ i < x.arena.currentMetadataRecordCount, x.arena.state i = .IN_USE →
    ∃ b ∈ x.live, x.arena.blockOf i = some b.header
  pending : Filed x.arena.pending (fun i => i < x.arena.currentMetadataRecordCount
    ∧ x.arena.state i = .DEALLOCATED_PENDING) (x.arena.targetShard R)
  bins : Filed x.arena.bins (fun i => i < x.arena.currentMetadataRecordCount
    ∧ (x.arena.state i = .AVAILABLE ∨ x.arena.state i = .FRONTIER_RECLAIMED)) (x.arena.binKey R)
  free : Filed x.arena.localFree (fun i => i < x.arena.currentMetadataRecordCount
    ∧ x.arena.state i = .METADATA_AVAILABLE) managerFor
  active : ∀ m, x.arena.stateAndActiveCount m + (x.arena.localFree m).length
    = groupSize x.arena.currentMetadataRecordCount m
  pendingCount : ∀ shard, x.arena.pendingCount shard = (x.arena.pending shard).length

theorem exists_tile {l : List (ℕ × ℕ)} (h : Tower l) {unit : ℕ} (hu : unit < frontierOf l) :
    ∃ p n, (p, n) ∈ l ∧ p ≤ unit ∧ unit < p + n := by
  induction l with
  | nil => exact absurd hu (Nat.not_lt_zero _)
  | cons t l ih =>
    obtain ⟨p, n⟩ := t
    obtain ⟨hp, -, hl⟩ := h
    rcases Nat.lt_or_ge unit p with hlt | hge
    · obtain ⟨q, m, hq, hle, hlt⟩ := ih hl (hp ▸ hlt)
      exact ⟨q, m, List.mem_cons_of_mem _ hq, hle, hlt⟩
    · exact ⟨p, n, List.mem_cons_self, hge, hu⟩

/-- The state word of a record that no call has says where it is. -/
theorem Between.state_iff (h : Between R x tiles place) (i : ℕ) :
    (i < x.arena.currentMetadataRecordCount ∧ x.arena.state i = .DEALLOCATED_PENDING
        ↔ place i = .pending)
      ∧ (i < x.arena.currentMetadataRecordCount ∧ x.arena.state i = .AVAILABLE ↔ place i = .binned)
      ∧ (i < x.arena.currentMetadataRecordCount ∧ x.arena.state i = .FRONTIER_RECLAIMED
        ↔ place i = .reclaimed)
      ∧ (i < x.arena.currentMetadataRecordCount ∧ x.arena.state i = .METADATA_AVAILABLE
        ↔ place i = .free)
      ∧ (i < x.arena.currentMetadataRecordCount ∧ x.arena.state i = .IN_USE ↔ place i = .used)
      ∧ (i < x.arena.currentMetadataRecordCount → x.arena.state i ∈
        [.IN_USE, .DEALLOCATED_PENDING, .AVAILABLE, .FRONTIER_RECLAIMED, .METADATA_AVAILABLE]) := by
  have hst := h.inv.state i
  have hset := h.settled i
  have hreg := h.inv.region i
  rcases hp : place i <;> rw [hp] at hst hset hreg
  case region =>
    have hle := hreg.1 rfl
    simp [not_lt.2 hle]
  case hand | stolen | locked => exact absurd hset (by decide)
  all_goals
    have hlt : i < x.arena.currentMetadataRecordCount :=
      not_le.1 fun hle => by simpa using hreg.2 hle
    rw [hst _ rfl]
    simp [hlt]

theorem accounted_of_reachable (h : (machine R).Reachable x) : Accounted R x := by
  obtain ⟨tiles, place, hb⟩ := between_of_reachable h
  have hinv := hb.inv
  refine ⟨fun unit hu => ?_, fun i hi => (hb.state_iff i).2.2.2.2.2 hi, fun i hi hs => ?_,
    hinv.pending.congr (fun i => (hb.state_iff i).1) fun _ _ => rfl,
    hinv.bins.congr (fun i => ?_) fun _ _ => rfl,
    hinv.free.congr (fun i => (hb.state_iff i).2.2.2.1) fun _ _ => rfl, hinv.slots,
    hb.tidy.counted⟩
  · rw [Inv.unpack_frontier hinv.blocks] at hu
    obtain ⟨p, n, hp, hle, hlt⟩ := exists_tile hinv.blocks.tower hu
    obtain ⟨i, hi, hbi, hsize, hst⟩ := hb.header hp
    exact ⟨i, hi, p, hbi, hle, by omega, hst⟩
  · exact hb.ledger.listed i ((hb.state_iff i).2.2.2.2.1.1 ⟨hi, hs⟩)
  · rw [and_or_left, (hb.state_iff i).2.1, (hb.state_iff i).2.2.1]

/-! ### Refusals -/

/-- No block is waiting to be given back, and the topmost one is a block that was handed out. -/
structure WorkedOff (x : System) : Prop where
  pending : ∀ i < x.arena.currentMetadataRecordCount, x.arena.state i ≠ .DEALLOCATED_PENDING
  top : unpackFrontier x.arena.nextEmptyMemoryBlock = 0
    ∨ ∃ b ∈ x.live, unpackPredecessor x.arena.nextEmptyMemoryBlock = some b.header

/-- No AVAILABLE block of the bin is left, and no record can be had or maintenance has nothing to
do. -/
structure Exhausted (R : Resource) (x : System) (bin : ℕ) : Prop where
  bin : ∀ i < x.arena.currentMetadataRecordCount, x.arena.state i = .AVAILABLE →
    freeBlockBinIndex R.policy (x.arena.records i).totalSize ≠ bin
  reason : NoRecord R x.arena ∨ WorkedOff x

theorem Between.workedOff (h : Between R x tiles place) (hd : Drained R x.arena tiles place) :
    WorkedOff x := by
  have hnone : ∀ i, place i ≠ .pending := fun i hi => by
    have hm := h.inv.pending.mem hi
    unfold State.targetShard at hm
    rw [hd.pending _ (Nat.mod_lt _ R.shards_pos)] at hm
    exact absurd hm (by simp)
  refine ⟨fun i hi hs => hnone i ((h.state_iff i).1.1 ⟨hi, hs⟩), ?_⟩
  rw [Inv.unpack_frontier h.inv.blocks, Inv.unpack_predecessor h.inv.blocks]
  rcases tiles with _ | ⟨⟨p, n⟩, rest⟩
  · exact .inl rfl
  · have htop := hd.top p rfl
    obtain ⟨h1, h2, -⟩ := h.inv.names p n List.mem_cons_self
    have hset := h.settled (x.arena.headers p).metadataIndex
    have hused : place (x.arena.headers p).metadataIndex = .used := by
      have hpend := hnone (x.arena.headers p).metadataIndex
      rcases hp : place (x.arena.headers p).metadataIndex <;>
          rw [hp] at h1 hset htop hpend <;> first
        | rfl
        | exact absurd h1 (by decide)
        | exact absurd hset (by decide)
        | exact absurd rfl htop
        | exact absurd rfl hpend
    obtain ⟨b, hb, he⟩ := h.ledger.listed _ hused
    exact .inr ⟨b, hb, congrArg some (Option.some.inj (h2.symm.trans he))⟩

theorem exhausted_of_reachable (h : (machine R).Reachable x) {cpu bytes alignment : ℕ}
    (hacc : ¬ Refused R bytes alignment)
    (hout : doAllocate R x.arena cpu bytes alignment = some (none, s')) :
    Exhausted R ⟨s', x.live⟩ (freeBlockBinIndex R.policy (totalSize bytes)) := by
  obtain ⟨tiles, place, hb⟩ := between_of_reachable h
  obtain ⟨out, tiles', place', hout', hb', hwhy⟩ := hb.doAllocate cpu bytes alignment
  obtain rfl := Option.some.inj (hout.symm.trans hout')
  obtain ⟨hnone, hreason⟩ := hwhy rfl hacc
  change Between R ⟨s', x.live⟩ tiles' place' at hb'
  exact ⟨fun i hi hs hbin => hnone i hbin ((hb'.state_iff i).2.1.1 ⟨hi, hs⟩),
    hreason.imp_right hb'.workedOff⟩

/-! ### A run -/

/-- Room for two blocks of the largest size. -/
def roomForTwo : Resource where
  block := 4096
  blockSize := 265000
  cpuShards := 1
  policy :=
    { maxBinBytes := 131072
      maxWastePercent := 25
      le_max := by decide
      aligned_lt := by decide
      waste_pos := by decide
      waste_le := by decide }
  shards_pos := by decide
  units_lt := by decide
  usable := by decide +kernel
  fits := by decide
  maintenanceWindowThreshold := 2
  threshold_pos := Nat.two_pos
  managerCapacity := 1
  metadataStart := 4105
  addressBinSize := 33125
  managerCapacity_eq := by decide +kernel
  metadataStart_eq := by decide +kernel
  addressBinSize_eq := by decide +kernel

/-- The resource after its constructor. -/
def unused : System where
  arena :=
    { nextEmptyMemoryBlock := packFrontier 0 none
      frontierReclaimInProgress := false
      currentMetadataRecordCount := 0
      localFree := fun _ => []
      stateAndActiveCount := fun _ => 0
      pending := fun _ => []
      pendingCount := fun _ => 0
      maintenanceWindowOpen := fun _ => false
      bins := fun _ => []
      headers := fun _ => ⟨0, 0, none⟩
      records := fun _ => ⟨⟨none, .INVALID, 0⟩, 0, 0, 0, 0⟩ }
  live := []

theorem unused_start : Start unused := by constructor <;> rfl

/-- The first of three blocks is deallocated, and again, and then the second.  A window puts both
into their bins, and the first is handed out again. -/
def reuses : List Action :=
  [.allocate 0 131000 16, .allocate 0 64 64, .allocate 1 100 8, .deallocate (some 0),
    .writeHeader 1 ⟨7, 0, none⟩, .deallocate (some 0),
    .writeRecord 5 ⟨⟨some 0, .IN_USE, 0⟩, 1, 2, 3, 4⟩, .deallocate (some 2048),
    .allocate 0 130000 32]

theorem reused : ∃ x, (machine roomForTwo).Reachable x
    ∧ (x.live.map Block.header, x.arena.bins (1, 3)) = ([0, 2050], [1]) :=
  Machine.exists_run reuses unused_start (by decide +kernel)

theorem arena_sound_of_reachable_reused : ∃ x, (machine roomForTwo).Reachable x
    ∧ x.live.map Block.header = [0, 2050] ∧ Sound roomForTwo x := by
  obtain ⟨x, hx, he⟩ := reused
  exact ⟨x, hx, congrArg Prod.fst he, arena_sound_of_reachable hx⟩

theorem contract_of_reachable_reused : ∃ x, (machine roomForTwo).Reachable x
    ∧ x.live.map Block.header = [0, 2050] ∧ Contract roomForTwo x := by
  obtain ⟨x, hx, he⟩ := reused
  exact ⟨x, hx, congrArg Prod.fst he, contract_of_reachable hx⟩

theorem accounted_of_reachable_reused : ∃ x, (machine roomForTwo).Reachable x
    ∧ x.arena.bins (1, 3) = [1] ∧ Accounted roomForTwo x := by
  obtain ⟨x, hx, he⟩ := reused
  exact ⟨x, hx, congrArg Prod.snd he, accounted_of_reachable hx⟩

/-- The freed block is of a larger size than what is asked for last. -/
def fills : List Action :=
  [.allocate 0 131000 16, .allocate 0 131000 8, .deallocate (some 0), .allocate 0 64 64]

theorem exhausted_of_reachable_full : ∃ x s', (machine roomForTwo).Reachable x
    ∧ doAllocate roomForTwo x.arena 0 100000 16 = some (none, s')
    ∧ x.live.map Block.header = [4096, 2048] ∧ Exhausted roomForTwo ⟨s', x.live⟩
      (freeBlockBinIndex roomForTwo.policy (totalSize 100000)) := by
  obtain ⟨x, hx, he⟩ : ∃ x, (machine roomForTwo).Reachable x ∧ (x.live.map Block.header,
      (doAllocate roomForTwo x.arena 0 100000 16).map Prod.fst) = ([4096, 2048], some none) :=
    Machine.exists_run fills unused_start (by decide +kernel)
  obtain ⟨hlive, hfound⟩ := Prod.mk.inj he
  obtain ⟨⟨found, s'⟩, hout, hnone⟩ := Option.map_eq_some_iff.1 hfound
  obtain rfl : found = none := hnone
  exact ⟨x, s', hx, hout, hlive, exhausted_of_reachable hx (by decide +kernel) hout⟩

end MinStd.SingleArena
