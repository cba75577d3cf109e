import MinStd.StaticArenaThreads
import MinStd.Proofs.StaticArena
import Mathlib.Data.Nat.ModEq

/-!
# No unit of the static arena has two owners

A thread writes only the link cells and the headers of blocks it has (`Only`), so what the bins and
the other threads rely on stays (`PcOk.frame`).  A step then either passes blocks between the thread
and one bin, with the bin's head (`Inv.swap`), or leaves the bins alone (`Inv.alone`), or deals with
the callers or the bump pointer.  A pop's compare-and-swap succeeds only on the head it read, since
the counter has not come round, and so on the link it read.
-/

namespace MinStd.StaticArena.Threads

open Function

variable {τ : Type*} {B : Buffer}

theorem toNode_toLink (p : Option ℕ) : toNode (toLink p) = p := by
  cases p <;> rfl

theorem blockCount_lt : B.blockCount + 1 < 2 ^ 64 := by
  unfold Buffer.blockCount UINT32_MAX
  simp only
  split_ifs <;> omega

theorem dvd_blockOf (c : ℕ) : 64 ∣ B.blockOf c :=
  Nat.dvd_add (dvd_alignUp _) (Nat.dvd_mul_left ..)

theorem blockOf_cellOf {p : ℕ} (hp : 64 ∣ p) (hle : B.arenaStart ≤ p) :
    B.blockOf (B.cellOf p) = p := by
  have hdvd : 64 ∣ B.arenaStart := dvd_alignUp _
  unfold Buffer.blockOf Buffer.cellOf MIN_ALIGNMENT
  omega

/-! ### The invariant -/

/-- The cell's block, by its header, is of the bin. -/
def Binned (B : Buffer) (s : State τ) (bin c : ℕ) : Prop :=
  BlockSize (s.headers (B.blockOf c)) ∧ getBin (s.headers (B.blockOf c)) = bin

/-- The walk of a search that comes from `prev` is at `c`. -/
def LedFrom (s : State τ) (S : Search) (prev : Option ℕ) (c : ℕ) : Prop :=
  match prev with
  | none => S.stolenList = some c
  | some q => q ∈ S.cells ∧ s.next q = some c

/-- What is known of the best fit found. -/
structure BestOk (B : Buffer) (s : State τ) (S : Search) (c : ℕ) : Prop where
  le : blockSizeFor S.bytes ≤ S.bestFitSize
  size : s.headers (B.blockOf c) = S.bestFitSize

/-- A search goes over a private list. -/
structure SearchOk (B : Buffer) (s : State τ) (S : Search) : Prop where
  chain : Linked some s.next S.stolenList S.cells none
  binned : ∀ c ∈ S.cells, Binned B s 7 c
  best : ∀ c, S.bestFit = some c → c ∈ S.cells ∧ BestOk B s S c ∧ LedFrom s S S.bestFitPrev c

/-- The rest of a stolen list, from `p` on, without the best fit. -/
structure RestOk (B : Buffer) (s : State τ) (S : Search) (p : Option ℕ) : Prop where
  chain : Linked some s.next p S.cells none
  binned : ∀ c ∈ S.cells, Binned B s 7 c
  best : ∀ c, S.bestFit = some c → BestOk B s S c

def NextOk (B : Buffer) (s : State τ) : Next → Prop
  | .pieces _ _ rest => ∀ b ∈ rest, BlockSize b.len
  | .rePush S next => RestOk B s S next
  | .done => True

/-- A head word read when the bin's head had changed `since` times. -/
structure Snapshot (B : Buffer) (s : State τ) (bin tag since : ℕ) : Prop where
  le : since ≤ s.changes bin
  counter : B.headCodec.unpackCounter tag = since % B.headCodec.counters
  head : since = s.changes bin → s.heads bin = tag

/-- The bin is a class bin whose blocks are large enough. -/
def ClassFor (bytes bin : ℕ) : Prop := getBin (blockSizeFor bytes) ≤ bin ∧ bin < 7

def PcOk (B : Buffer) (s : State τ) : Pc → Prop
  | .bumpCas bytes expected => HasRoom B expected (blockSizeFor bytes)
  | .popLoad bytes bin => ClassFor bytes bin
  | .popLink bytes bin tag since => ClassFor bytes bin ∧ Snapshot B s bin tag since
  | .popCas bytes bin tag since link => ClassFor bytes bin ∧ Snapshot B s bin tag since
      ∧ ∀ c, B.headCodec.unpackPtr tag = some c → since = s.changes bin → link = s.links c
  | .popClear bytes bin cell => ClassFor bytes bin ∧ Binned B s bin cell
  | .searchSize S current => SearchOk B s S ∧ current ∈ S.cells ∧ LedFrom s S S.prev current
  | .searchLink S current => SearchOk B s S ∧ current ∈ S.cells ∧ S.prev = some current
  | .bestLink S best => SearchOk B s S ∧ S.bestFit = some best
  | .unlinkBest S best prev afterBest => SearchOk B s S ∧ S.bestFit = some best
      ∧ S.bestFitPrev = some prev ∧ afterBest = s.links best
  | .clearBest S best => RestOk B s S S.stolenList ∧ S.bestFit = some best
  | .rePushLink S current => RestOk B s S (some current)
  | .pushHeader block k => BlockSize block.len ∧ NextOk B s k
  | .pushLoad cell bin k => Binned B s bin cell ∧ NextOk B s k
  | .pushLink cell bin _ k => Binned B s bin cell ∧ NextOk B s k
  | .pushCas cell bin tag k => Binned B s bin cell ∧ NextOk B s k
      ∧ s.next cell = B.headCodec.unpackPtr tag
  | _ => True

/-- A bin's head leads through its list, counts its changes, and the list's blocks are its own. -/
structure BinOk (B : Buffer) (s : State τ) (b : ℕ) : Prop where
  chain : Linked some s.next (B.headCodec.unpackPtr (s.heads b)) (s.lists b) none
  counter : B.headCodec.unpackCounter (s.heads b) = s.changes b % B.headCodec.counters
  binned : ∀ c ∈ s.lists b, Binned B s b c

structure Inv (B : Buffer) (s : State τ) : Prop where
  tiles : Tiles (s.holdings B) B.arenaStart s.currentPtr
  whole : ∀ w, ∀ b ∈ s.holdings B w, Whole b
  start : B.arenaStart ≤ s.currentPtr
  bump : 64 ∣ s.currentPtr
  last : s.currentPtr ≤ B.arenaEnd
  bins : ∀ b, BinOk B s b
  pc : ∀ t, PcOk B s (s.pc t)

/-! ### What others do not change -/

section Frame

variable {s s' : State τ}

/-- The words and headers of some cells are the same. -/
structure Same (B : Buffer) (s s' : State τ) (cells : List ℕ) : Prop where
  links : ∀ c ∈ cells, s'.links c = s.links c
  headers : ∀ c ∈ cells, s'.headers (B.blockOf c) = s.headers (B.blockOf c)

/-- A bin's head has changed, or is the same with its node's link. -/
structure Later (B : Buffer) (s s' : State τ) (b : ℕ) : Prop where
  le : s.changes b ≤ s'.changes b
  head : s'.changes b = s.changes b → s'.heads b = s.heads b
    ∧ ∀ c, B.headCodec.unpackPtr (s.heads b) = some c → s'.links c = s.links c

variable {S : Search} {cells : List ℕ} {p : Option ℕ} {c bin tag since : ℕ}

theorem Same.mono (h : Same B s s' cells) {l : List ℕ} (hl : ∀ c ∈ l, c ∈ cells) :
    Same B s s' l :=
  ⟨fun c hc => h.links c (hl c hc), fun c hc => h.headers c (hl c hc)⟩

theorem Same.next (h : Same B s s' cells) (hc : c ∈ cells) : s'.next c = s.next c :=
  congrArg toNode (h.links c hc)

theorem Same.binned (h : Same B s s' cells) (hc : c ∈ cells) (hb : Binned B s bin c) :
    Binned B s' bin c := by
  unfold Binned
  rwa [h.headers c hc]

theorem Same.bestOk (h : Same B s s' cells) (hc : c ∈ cells) (hb : BestOk B s S c) :
    BestOk B s' S c := ⟨hb.le, (h.headers c hc).trans hb.size⟩

theorem Same.ledFrom (h : Same B s s' S.cells) {prev : Option ℕ} (hl : LedFrom s S prev c) :
    LedFrom s' S prev c := by
  cases prev with
  | none => exact hl
  | some q => exact ⟨hl.1, (h.next hl.1).trans hl.2⟩

theorem Same.searchOk (h : Same B s s' S.cells) (hs : SearchOk B s S) : SearchOk B s' S := by
  refine ⟨hs.chain.congr fun c hc => h.next hc, fun c hc => h.binned hc (hs.binned c hc),
    fun c hc => ?_⟩
  obtain ⟨hmem, hbest, hled⟩ := hs.best c hc
  exact ⟨hmem, h.bestOk hmem hbest, h.ledFrom hled⟩

theorem Same.restOk (h : Same B s s' (S.bestFit.toList ++ S.cells)) (hr : RestOk B s S p) :
    RestOk B s' S p := by
  have hcells : Same B s s' S.cells := h.mono fun c hc => List.mem_append_right _ hc
  refine ⟨hr.chain.congr fun c hc => hcells.next hc, fun c hc => hcells.binned hc (hr.binned c hc),
    fun c hc => h.bestOk ?_ (hr.best c hc)⟩
  rw [hc]
  simp

theorem Same.nextOk {k : Next} (h : Same B s s' k.cells) (hk : NextOk B s k) : NextOk B s' k := by
  cases k with
  | pieces block bytes rest => exact hk
  | rePush S next => exact h.restOk hk
  | done => trivial

theorem Snapshot.later (h : Snapshot B s bin tag since) (hl : Later B s s' bin) :
    Snapshot B s' bin tag since := by
  refine ⟨h.le.trans hl.le, h.counter, fun he => ?_⟩
  have hsame : s'.changes bin = s.changes bin := le_antisymm (he ▸ h.le) hl.le
  rw [(hl.head hsame).1]
  exact h.head (he.trans hsame)

/-- What a thread knows stays while nobody writes its blocks and the heads only go on. -/
theorem PcOk.frame {x : Pc} (h : PcOk B s x) (hsame : Same B s s' x.cells)
    (hlater : ∀ b, Later B s s' b) : PcOk B s' x := by
  cases x with
  | popLink bytes bin tag since => exact ⟨h.1, h.2.later (hlater bin)⟩
  | popCas bytes bin tag since link =>
    obtain ⟨hclass, hsnap, hlink⟩ := h
    refine ⟨hclass, hsnap.later (hlater bin), fun c hc he => ?_⟩
    have hchanges : s'.changes bin = s.changes bin :=
      le_antisymm (he ▸ hsnap.le) (hlater bin).le
    have hhead := hsnap.head (he.trans hchanges)
    rw [((hlater bin).head hchanges).2 c (by rw [hhead, hc])]
    exact hlink c hc (he.trans hchanges)
  | popClear bytes bin cell => exact ⟨h.1, hsame.binned List.mem_cons_self h.2⟩
  | searchSize S current => exact ⟨hsame.searchOk h.1, h.2.1, hsame.ledFrom h.2.2⟩
  | searchLink S current => exact ⟨hsame.searchOk h.1, h.2⟩
  | bestLink S best => exact ⟨hsame.searchOk h.1, h.2⟩
  | unlinkBest S best prev afterBest =>
    obtain ⟨hs, hbest, hprev, hafter⟩ := h
    exact ⟨hsame.searchOk hs, hbest, hprev,
      hafter.trans (hsame.links best (hs.best best hbest).1).symm⟩
  | clearBest S best =>
    refine ⟨Same.restOk (hsame.mono fun c hc => ?_) h.1, h.2⟩
    rwa [h.2] at hc
  | rePushLink S current => exact hsame.restOk h
  | pushHeader block k => exact ⟨h.1, hsame.nextOk h.2⟩
  | pushLoad cell bin k =>
    exact ⟨hsame.binned List.mem_cons_self h.1,
      Same.nextOk (hsame.mono fun c hc => List.mem_cons_of_mem _ hc) h.2⟩
  | pushLink cell bin tag k =>
    exact ⟨hsame.binned List.mem_cons_self h.1,
      Same.nextOk (hsame.mono fun c hc => List.mem_cons_of_mem _ hc) h.2⟩
  | pushCas cell bin tag k =>
    exact ⟨hsame.binned List.mem_cons_self h.1,
      Same.nextOk (hsame.mono fun c hc => List.mem_cons_of_mem _ hc) h.2.1,
      (hsame.next List.mem_cons_self).trans h.2.2⟩
  | _ => exact h

theorem Same.blocks (h : Same B s s' cells) :
    B.blocks s'.headers cells = B.blocks s.headers cells := by
  refine List.map_congr_left fun c hc => ?_
  unfold freed
  rw [h.headers c hc]

/-- A bin's head and list are not changed. -/
structure KeptHead (s s' : State τ) (b : ℕ) : Prop where
  changes : s'.changes b = s.changes b
  heads : s'.heads b = s.heads b
  lists : s'.lists b = s.lists b

theorem BinOk.kept {b : ℕ} (h : BinOk B s b) (hkept : KeptHead s s' b)
    (hsame : Same B s s' (s.lists b)) : BinOk B s' b := by
  obtain ⟨hchain, hcounter, hbinned⟩ := h
  obtain ⟨hchanges, hheads, hlists⟩ := hkept
  refine ⟨?_, ?_, ?_⟩
  · rw [hheads, hlists]
    exact hchain.congr fun c hc => hsame.next hc
  · rwa [hheads, hchanges]
  · rw [hlists]
    exact fun c hc => hsame.binned hc (hbinned c hc)

end Frame

/-! ### Who writes what -/

section Ownership

variable {s s' : State τ} {t u : τ} {p : Pc} {c : ℕ} {b : Span} {w v : Holder τ} {l l' : List Span}

/-- Blocks are cut another way, or put in another order. -/
structure Recut (l l' : List Span) : Prop where
  cover : ∀ x, cover l' x = cover l x
  whole : ∀ b ∈ l', Whole b

theorem Recut.of_perm (hl : ∀ b ∈ l, Whole b) (h : l'.Perm l) : Recut l l' :=
  ⟨fun _ => cover_perm h, fun b hb => hl b (h.mem_iff.1 hb)⟩

/-- What a step of a holder writes: the link cells and the headers of its blocks. -/
structure Only (B : Buffer) (s s' : State τ) (w : Holder τ) : Prop where
  links : ∀ c, (∀ b ∈ s.holdings B w, ¬ b.Meets (B.blockOf c)) → s'.links c = s.links c
  headers : ∀ x, (∀ b ∈ s.holdings B w, ¬ b.Meets x) → s'.headers x = s.headers x

theorem mem_blocks {headers : ℕ → ℕ} {cells : List ℕ} (hc : c ∈ cells) :
    freed headers (B.blockOf c) ∈ B.blocks headers cells := List.mem_map_of_mem hc

theorem mem_operation (hc : c ∈ (s.pc t).cells) :
    freed s.headers (B.blockOf c) ∈ s.holdings B (.operation t) :=
  List.mem_append_left _ (mem_blocks hc)

/-- The blocks of another holder are not written. -/
theorem Inv.elsewhere (h : Inv B s) (honly : Only B s s' w) (hvw : v ≠ w) {cells : List ℕ}
    (hcells : ∀ c ∈ cells, freed s.headers (B.blockOf c) ∈ s.holdings B v) :
    Same B s s' cells := by
  have hne : ∀ c ∈ cells, ∀ b ∈ s.holdings B w, ¬ b.Meets (B.blockOf c) := by
    intro c hc b hb hx
    exact hvw (h.tiles.eq_of_meets hb (hcells c hc) hx (h.whole _ _ (hcells c hc)).meets).1.symm
  exact ⟨fun c hc => honly.links c (hne c hc), fun c hc => honly.headers _ (hne c hc)⟩

theorem Inv.sameBin (h : Inv B s) (honly : Only B s s' w) {b : ℕ} (hb : .bin b ≠ w) :
    Same B s s' (s.lists b) := h.elsewhere honly hb fun _ => mem_blocks

/-- A bin's head is kept, or changes with what the bin has. -/
def HeadOk (B : Buffer) (s s' : State τ) (v : Holder τ) (b : ℕ) : Prop :=
  KeptHead s s' b ∨ .bin b = v ∧ s.changes b < s'.changes b ∧ BinOk B s' b

theorem Inv.later (h : Inv B s) (honly : Only B s s' w) {b : ℕ} (hw : .bin b ≠ w)
    (hb : HeadOk B s s' v b) : Later B s s' b := by
  rcases hb with hb | ⟨-, hb, -⟩
  · refine ⟨hb.changes.ge, fun _ => ⟨hb.heads, fun c hc => (h.sameBin honly hw).links c ?_⟩⟩
    have hchain := (h.bins b).chain
    rw [hc] at hchain
    obtain ⟨l, hl, -⟩ := hchain.unlink_head (Option.some_injective _) (by simp)
    rw [hl]
    exact List.mem_cons_self
  · exact ⟨hb.le, fun he => absurd he hb.ne'⟩

theorem Inv.sameOther (h : Inv B s) (honly : Only B s s' w) (hu : .operation u ≠ w)
    (hpc : s'.pc u = s.pc u) : s'.holdings B (.operation u) = s.holdings B (.operation u) := by
  unfold State.holdings Pc.held
  simp only
  rw [hpc, (h.elsewhere honly hu fun _ => mem_operation).blocks]

theorem Inv.pcOther (h : Inv B s) (honly : Only B s s' w) (hw : ∀ b, .bin b ≠ w)
    (hheads : ∀ b, HeadOk B s s' v b) (hu : .operation u ≠ w) (hpc : s'.pc u = s.pc u) :
    PcOk B s' (s'.pc u) := by
  rw [hpc]
  exact (h.pc u).frame (h.elsewhere honly hu fun _ => mem_operation)
    fun b => h.later honly (hw b) (hheads b)

theorem Inv.keptBin (h : Inv B s) (honly : Only B s s' w) {b : ℕ} (hw : .bin b ≠ w)
    (hb : KeptHead s s' b) : s'.holdings B (.bin b) = s.holdings B (.bin b) ∧ BinOk B s' b := by
  refine ⟨?_, (h.bins b).kept hb (h.sameBin honly hw)⟩
  unfold State.holdings
  simp only
  rw [hb.lists, (h.sameBin honly hw).blocks]

/-- A step of `w`, which passes blocks between it and `v`. -/
theorem Inv.change (h : Inv B s) (honly : Only B s s' w) (hw : ∀ b, .bin b ≠ w) (hwv : w ≠ v)
    (hheads : ∀ b, HeadOk B s s' v b) (hlive : s'.live = s.live ∨ .callers = v)
    (hpc : ∀ u, .operation u ≠ w → s'.pc u = s.pc u)
    (hpcw : ∀ u, .operation u = w → PcOk B s' (s'.pc u)) (hv : ∀ u, .operation u ≠ v)
    (hcurrent : s'.currentPtr = s.currentPtr)
    (hsum : ∀ x, cover (s'.holdings B w) x + cover (s'.holdings B v) x
      = cover (s.holdings B w) x + cover (s.holdings B v) x)
    (hwhole : ∀ b ∈ s'.holdings B w, Whole b) (hwholev : ∀ b ∈ s'.holdings B v, Whole b) :
    Inv B s' := by
  have hsame : ∀ u, u ≠ w → u ≠ v → s'.holdings B u = s.holdings B u := by
    intro u huw huv
    cases u with
    | callers =>
      show reserved s'.live = reserved s.live
      rw [hlive.resolve_right huv]
    | bin b => exact (h.keptBin honly huw ((hheads b).resolve_right fun hb => huv hb.1)).1
    | operation u => exact h.sameOther honly huw (hpc u huw)
  refine ⟨?_, fun u b hb => ?_, hcurrent ▸ h.start, hcurrent ▸ h.bump, hcurrent ▸ h.last,
    fun b => ?_, fun u => ?_⟩
  · rw [hcurrent]
    exact h.tiles.move hwv hsame hsum
  · rcases eq_or_ne u w with rfl | huw
    · exact hwhole b hb
    · rcases eq_or_ne u v with rfl | huv
      · exact hwholev b hb
      · rw [hsame u huw huv] at hb
        exact h.whole u b hb
  · rcases hheads b with hb | hb
    · exact (h.keptBin honly (hw b) hb).2
    · exact hb.2.2
  · rcases eq_or_ne (.operation u) w with huw | huw
    · exact hpcw u huw
    · exact h.pcOther honly hw hheads huw (hpc u huw)

end Ownership

/-! ### Where a thread turns next -/

section Turns

variable {s : State τ} {S : Search} {k : Next} {block size bytes bin tag : ℕ}

/-- The place suits the state, and has the blocks `l`. -/
structure Turns (B : Buffer) (s : State τ) (l : List Span) (p : Pc) : Prop where
  ok : PcOk B s p
  cut : Recut l (p.held B s.headers)

theorem Recut.nil : Recut [] [] := ⟨fun _ => rfl, by simp⟩

theorem turns_enterBin (h : getBin (blockSizeFor bytes) ≤ bin) : Turns B s [] (enterBin bytes bin) := by
  unfold enterBin
  split_ifs with hbin
  · exact ⟨⟨h, hbin⟩, .nil⟩
  · exact ⟨trivial, .nil⟩

theorem turns_enterBump {expected : ℕ} : Turns B s [] (enterBump B bytes expected) := by
  unfold enterBump
  split_ifs with hroom
  · exact ⟨hroom, .nil⟩
  · exact turns_enterBin le_rfl

theorem turns_enterPop (h : ClassFor bytes bin) (hbin : BinOk B s bin) :
    Turns B s [] (enterPop B bytes bin (s.heads bin) (s.changes bin)) := by
  unfold enterPop
  split_ifs with htag
  · exact turns_enterBin (h.1.trans (Nat.le_succ _))
  · exact ⟨⟨h, le_rfl, hbin.counter, fun _ => rfl⟩, .nil⟩

theorem turns_split (hblock : 64 ∣ block) (hsize : 64 ∣ size) (hle : blockSizeFor bytes ≤ size) :
    Turns B s [⟨block, size⟩] (split block size bytes) := by
  have hm := (blockSizeFor_spec bytes).1
  unfold split
  split_ifs with hlt
  · obtain ⟨hpieces, hcover⟩ :=
      freePieces_spec (Nat.dvd_add hblock hm.dvd) (Nat.dvd_sub hsize hm.dvd)
    cases hl : freePieces (block + blockSizeFor bytes) (size - blockSizeFor bytes) with
    | nil =>
      -- there is a remainder
      have hx := hcover (block + blockSizeFor bytes)
      rw [hl, cover_nil, if_pos ⟨le_rfl, Nat.lt_add_of_pos_right (by simpa using hlt)⟩] at hx
      cases hx
    | cons piece rest =>
      rw [hl] at hpieces hcover
      refine ⟨⟨(hpieces piece List.mem_cons_self).2,
        fun b hb => (hpieces b (List.mem_cons_of_mem _ hb)).2⟩, fun x => ?_, fun b hb => ?_⟩
      · show cover (piece :: ⟨block, blockSizeFor bytes⟩ :: rest) x = _
        have hx := hcover x
        have hs := meets_split (x := x) block (blockSizeFor bytes) (size - blockSizeFor bytes)
        rw [Nat.add_sub_cancel' hle] at hs
        simp only [cover_cons, cover_nil] at hx ⊢
        omega
      · replace hb : b ∈ piece :: ⟨block, blockSizeFor bytes⟩ :: rest := hb
        rcases List.mem_cons.1 hb with rfl | hb
        · have := hpieces b List.mem_cons_self
          exact ⟨this.1, this.2.dvd, this.2.pos⟩
        · rcases List.mem_cons.1 hb with rfl | hb
          · exact ⟨hblock, hm.dvd, hm.pos⟩
          · have := hpieces b (List.mem_cons_of_mem _ hb)
            exact ⟨this.1, this.2.dvd, this.2.pos⟩
  · obtain rfl : blockSizeFor bytes = size := by omega
    refine ⟨trivial, fun x => rfl, fun b hb => ?_⟩
    obtain rfl := List.mem_singleton.1 (show b ∈ [⟨block, blockSizeFor bytes⟩] from hb)
    exact ⟨hblock, hm.dvd, hm.pos⟩

theorem turns_enterRePush {p : Option ℕ} (h : RestOk B s S p)
    (hwhole : ∀ b ∈ B.blocks s.headers (S.bestFit.toList ++ S.cells), Whole b) :
    Turns B s (B.blocks s.headers (S.bestFit.toList ++ S.cells)) (enterRePush B S p) := by
  cases p with
  | some current =>
    exact ⟨h, .of_perm hwhole (.of_eq (List.append_nil _))⟩
  | none =>
    have hcells : S.cells = [] := by
      have hchain := h.chain
      cases hl : S.cells with
      | nil => rfl
      | cons c l =>
        rw [hl] at hchain
        cases hchain.1
    rw [hcells, List.append_nil] at hwhole ⊢
    unfold enterRePush finishSearch
    cases hbest : S.bestFit with
    | none => exact ⟨trivial, .nil⟩
    | some best =>
      rw [hbest] at hwhole
      obtain ⟨hblock, hsize, -⟩ := hwhole _ List.mem_cons_self
      obtain ⟨hle, heq⟩ := h.best best hbest
      show Turns B s [⟨B.blockOf best, s.headers (B.blockOf best)⟩] _
      rw [← heq]
      exact turns_split hblock hsize (heq ▸ hle)

theorem turns_enterSearch {p : Option ℕ} (h : SearchOk B s S)
    (hp : ∀ c, p = some c → c ∈ S.cells ∧ LedFrom s S S.prev c)
    (hwhole : ∀ b ∈ B.blocks s.headers S.cells, Whole b) :
    Turns B s (B.blocks s.headers S.cells) (enterSearch B S p) := by
  cases p with
  | some current =>
    exact ⟨⟨h, hp current rfl⟩, .of_perm hwhole (.of_eq (List.append_nil _))⟩
  | none =>
    unfold enterSearch
    cases hbest : S.bestFit with
    | some best =>
      exact ⟨⟨h, hbest⟩, .of_perm hwhole (.of_eq (List.append_nil _))⟩
    | none =>
      have hturns := turns_enterRePush (S := S) (p := S.stolenList) ⟨h.chain, h.binned, by simp [hbest]⟩
        (by simpa [hbest] using hwhole)
      simpa [hbest] using hturns

theorem turns_resume (h : NextOk B s k) (hwhole : ∀ b ∈ B.blocks s.headers k.cells ++ k.spans, Whole b) :
    Turns B s (B.blocks s.headers k.cells ++ k.spans) (k.resume B) := by
  cases k with
  | done => exact ⟨trivial, .nil⟩
  | rePush S next =>
    unfold Next.cells Next.spans at hwhole ⊢
    rw [List.append_nil] at hwhole ⊢
    exact turns_enterRePush h hwhole
  | pieces block bytes rest =>
    cases rest with
    | nil => exact ⟨trivial, .of_perm hwhole (.refl _)⟩
    | cons piece rest =>
      exact ⟨⟨h piece List.mem_cons_self, fun b hb => h b (List.mem_cons_of_mem _ hb)⟩,
        .of_perm hwhole (.swap ..)⟩

end Turns

/-! ### The kinds of step -/

section Kinds

variable [DecidableEq τ] {s s' : State τ} {t : τ} {p : Pc} {c bin tag link : ℕ} {list : List ℕ}
  {w : Holder τ}

theorem PcOk.setPc {x : Pc} (h : PcOk B s x) : PcOk B (s.setPc t p) x :=
  h.frame ⟨fun _ _ => rfl, fun _ _ => rfl⟩ fun _ => ⟨le_rfl, fun _ => ⟨rfl, fun _ _ => rfl⟩⟩

theorem setPc_of_ne {u : τ} (hu : (.operation u : Holder τ) ≠ .operation t) :
    (s.setPc t p).pc u = s.pc u := update_of_ne (by rintro rfl; exact hu rfl) _ _

theorem holdings_setPc : (s.setPc t p).holdings B (.operation t) = p.held B s.headers := by
  show Pc.held B s.headers (update s.pc t p t) = _
  rw [update_self]

/-- The parts of the state that a step on links and headers keeps. -/
structure Quiet (s s' : State τ) : Prop where
  pc : s'.pc = s.pc
  heads : s'.heads = s.heads
  lists : s'.lists = s.lists
  changes : s'.changes = s.changes
  live : s'.live = s.live
  currentPtr : s'.currentPtr = s.currentPtr

/-- A step that changes no bin's head. -/
theorem Inv.alone (h : Inv B s) (honly : Only B s s' (.operation t)) (hq : Quiet s s')
    (ht : Turns B s' ((s.pc t).held B s.headers) p) : Inv B (s'.setPc t p) := by
  have hheld : (s'.setPc t p).holdings B (.operation t) = p.held B s'.headers := holdings_setPc
  have hlive : (s'.setPc t p).holdings B .callers = s.holdings B .callers := by
    show reserved s'.live = reserved s.live
    rw [hq.live]
  refine h.change (w := .operation t) (v := .callers) ⟨honly.links, honly.headers⟩ (by simp)
    (by simp) (fun b => .inl ⟨?_, ?_, ?_⟩) (.inr rfl) (fun u hu => ?_) (fun u hu => ?_) (by simp)
    hq.currentPtr (fun x => ?_) (fun b hb => ?_) fun b hb => ?_
  · exact congrFun hq.changes b
  · exact congrFun hq.heads b
  · exact congrFun hq.lists b
  · rw [setPc_of_ne hu, hq.pc]
  · obtain rfl : u = t := by simpa using hu
    show PcOk B _ (update s'.pc u p u)
    rw [update_self]
    exact ht.ok.setPc
  · rw [hheld, hlive, ht.cut.cover]
    rfl
  · rw [hheld] at hb
    exact ht.cut.whole b hb
  · rw [hlive] at hb
    exact h.whole .callers b hb

theorem Inv.goOn (h : Inv B s) (ht : Turns B s ((s.pc t).held B s.headers) p) :
    Inv B (s.setPc t p) :=
  h.alone ⟨fun _ _ => rfl, fun _ _ => rfl⟩ ⟨rfl, rfl, rfl, rfl, rfl, rfl⟩ ht

/-- A store to the link of one of the thread's cells. -/
theorem Inv.store (h : Inv B s) (hc : c ∈ (s.pc t).cells)
    (ht : Turns B (s.storeLink c link) ((s.pc t).held B s.headers) p) :
    Inv B ((s.storeLink c link).setPc t p) := by
  refine h.alone ⟨fun d hd => update_of_ne ?_ _ _, fun _ _ => rfl⟩ ⟨rfl, rfl, rfl, rfl, rfl, rfl⟩ ht
  rintro rfl
  have hmem := mem_operation (B := B) hc
  exact hd _ hmem (h.whole _ _ hmem).meets

/-- A store of the size of one of the thread's blocks. -/
theorem Inv.header (h : Inv B s) {b : Span} (hb : b ∈ (s.pc t).spans)
    (ht : Turns B { s with headers := update s.headers b.start b.len }
      ((s.pc t).held B s.headers) p) :
    Inv B ({ s with headers := update s.headers b.start b.len }.setPc t p) := by
  refine h.alone ⟨fun _ _ => rfl, fun x hx => update_of_ne ?_ _ _⟩ ⟨rfl, rfl, rfl, rfl, rfl, rfl⟩ ht
  rintro rfl
  have hmem : b ∈ s.holdings B (.operation t) := List.mem_append_right _ hb
  exact hx _ hmem (h.whole _ _ hmem).meets

/-- A change of a bin's head. -/
theorem Inv.swap (h : Inv B s) (hbin : BinOk B (s.setHead bin tag list) bin)
    (hp : PcOk B (s.setHead bin tag list) p) (hwhole : ∀ b ∈ p.held B s.headers, Whole b)
    (hsum : ∀ x, cover (p.held B s.headers) x + cover (B.blocks s.headers list) x
      = cover ((s.pc t).held B s.headers) x + cover (B.blocks s.headers (s.lists bin)) x) :
    Inv B ((s.setHead bin tag list).setPc t p) := by
  have hlists : ((s.setHead bin tag list).setPc t p).holdings B (.bin bin)
      = B.blocks s.headers list := by
    show B.blocks s.headers (update s.lists bin list bin) = _
    rw [update_self]
  have hheld : ((s.setHead bin tag list).setPc t p).holdings B (.operation t)
      = p.held B s.headers := holdings_setPc
  refine h.change (w := .operation t) (v := .bin bin) ⟨fun _ _ => rfl, fun _ _ => rfl⟩ (by simp)
    (by simp) (fun b => ?_) (.inl rfl) (fun u hu => setPc_of_ne hu) (fun u hu => ?_) (by simp) rfl
    (fun x => ?_) (fun b hb => ?_) fun b hb => ?_
  · rcases eq_or_ne b bin with rfl | hb
    · refine .inr ⟨rfl, ?_, hbin.chain, hbin.counter, hbin.binned⟩
      show s.changes b < update s.changes b _ b
      rw [update_self]
      exact Nat.lt_succ_self _
    · exact .inl ⟨update_of_ne hb _ _, update_of_ne hb _ _, update_of_ne hb _ _⟩
  · obtain rfl : u = t := by simpa using hu
    show PcOk B _ (update s.pc u p u)
    rw [update_self]
    exact hp.setPc
  · rw [hheld, hlists, hsum]
    rfl
  · rw [hheld] at hb
    exact hwhole b hb
  · rw [hlists] at hb
    obtain ⟨c, hc, rfl⟩ := List.mem_map.1 hb
    have hsize : BlockSize (s.headers (B.blockOf c)) := by
      refine (hbin.binned c ?_).1
      show c ∈ update s.lists bin list bin
      rwa [update_self]
    exact ⟨dvd_blockOf c, hsize.dvd, hsize.pos⟩

/-- Blocks pass between the thread and the callers. -/
theorem Inv.passed (h : Inv B s) {live : List (ℕ × ℕ)}
    (hp : PcOk B { s with live := live } p)
    (hwhole : ∀ b ∈ p.held B s.headers, Whole b) (hlive : ∀ b ∈ reserved live, Whole b)
    (hsum : ∀ x, cover (p.held B s.headers) x + cover (reserved live) x
      = cover ((s.pc t).held B s.headers) x + cover (reserved s.live) x) :
    Inv B ({ s with live := live }.setPc t p) := by
  have hheld : ({ s with live := live }.setPc t p).holdings B (.operation t)
      = p.held B s.headers := holdings_setPc
  refine h.change (w := .operation t) (v := .callers) ⟨fun _ _ => rfl, fun _ _ => rfl⟩ (by simp)
    (by simp) (fun b => .inl ⟨rfl, rfl, rfl⟩) (.inr rfl) (fun u hu => setPc_of_ne hu)
    (fun u hu => ?_) (by simp) rfl (fun x => ?_) (fun b hb => ?_) hlive
  · obtain rfl : u = t := by simpa using hu
    show PcOk B _ (update s.pc u p u)
    rw [update_self]
    exact hp.setPc
  · rw [hheld]
    exact hsum x
  · rw [hheld] at hb
    exact hwhole b hb

omit [DecidableEq τ] in
/-- A caller's store changes no header of a free block. -/
theorem Inv.write (h : Inv B s) {q n offset : ℕ} (hq : (q, n) ∈ s.live)
    (ho : offset < blockSizeFor n) (v : ℕ) :
    Inv B { s with headers := update s.headers (q + offset) v } := by
  have honly : Only B s { s with headers := update s.headers (q + offset) v } .callers := by
    refine ⟨fun _ _ => rfl, fun x hx => update_of_ne ?_ _ _⟩
    rintro rfl
    exact hx ⟨q, blockSizeFor n⟩ (List.mem_map_of_mem hq)
      ⟨Nat.le_add_right .., Nat.add_lt_add_left ho q⟩
  have hbin := fun b => h.keptBin honly (b := b) (by simp) ⟨rfl, rfl, rfl⟩
  refine h.change (v := .bin 0) honly (by simp) (by simp) (fun b => .inl ⟨rfl, rfl, rfl⟩)
    (.inl rfl) (fun _ _ => rfl) (by simp) (by simp) rfl (fun x => ?_) (h.whole .callers)
    fun b hb => ?_
  · rw [(hbin 0).1]
    rfl
  · rw [(hbin 0).1] at hb
    exact h.whole (.bin 0) b hb

/-- A new block from the bump pointer. -/
theorem Inv.bumped (h : Inv B s) {bytes : ℕ} (hroom : HasRoom B s.currentPtr (blockSizeFor bytes))
    (hnone : (s.pc t).held B s.headers = []) :
    Inv B ({ s with currentPtr := alignUp s.currentPtr + blockSizeFor bytes }.setPc t
      (.handOut (alignUp s.currentPtr) bytes)) := by
  have hm := (blockSizeFor_spec bytes).1
  obtain ⟨-, hroom⟩ := hroom
  rw [alignUp_of_dvd h.bump] at hroom ⊢
  have hlast := h.last
  let s' : State τ := { s with currentPtr := s.currentPtr + blockSizeFor bytes }.setPc t
    (.handOut s.currentPtr bytes)
  have honly : Only B s s' (.operation t) := ⟨fun _ _ => rfl, fun _ _ => rfl⟩
  have hheld : s'.holdings B (.operation t) = [⟨s.currentPtr, blockSizeFor bytes⟩] := holdings_setPc
  have hsame : ∀ w, w ≠ .operation t → s'.holdings B w = s.holdings B w := by
    intro w hw
    cases w with
    | operation u => exact h.sameOther honly hw (setPc_of_ne hw)
    | _ => rfl
  have hbins : ∀ b, BinOk B s' b :=
    fun b => (h.keptBin honly (by simp) ⟨rfl, rfl, rfl⟩).2
  refine ⟨h.tiles.extend (v := .operation t) (blockSizeFor bytes) h.start hsame fun x => ?_,
    fun w b hb => ?_, h.start.trans (Nat.le_add_right ..), Nat.dvd_add h.bump hm.dvd, ?_, hbins,
    fun u => ?_⟩
  · show cover (s'.holdings B (.operation t)) x = _
    rw [hheld, cover_cons, cover_nil]
    show _ = _ + cover ((s.pc t).held B s.headers) x
    rw [hnone, cover_nil]
  · rcases eq_or_ne w (.operation t) with rfl | hw
    · replace hb : b ∈ s'.holdings B (.operation t) := hb
      rw [hheld] at hb
      obtain rfl := List.mem_singleton.1 hb
      exact ⟨h.bump, hm.dvd, hm.pos⟩
    · exact h.whole w b (hsame w hw ▸ hb)
  · show s.currentPtr + blockSizeFor bytes ≤ _
    omega
  · rcases eq_or_ne u t with rfl | hu
    · show PcOk B s' (update s.pc u _ u)
      rw [update_self]
      trivial
    · have hu' : (.operation u : Holder τ) ≠ .operation t := by simpa using hu
      exact h.pcOther (v := .callers) honly (by simp) (fun b => .inl ⟨rfl, rfl, rfl⟩) hu'
        (setPc_of_ne hu')

end Kinds

/-! ### The steps -/

section Facts

variable {s : State τ} {t : τ} {c bin link : ℕ} {list : List ℕ}

theorem next_storeLink : (s.storeLink c link).next = update s.next c (toNode link) := by
  funext d
  show toNode (update s.links c link d) = _
  rcases eq_or_ne d c with rfl | hd
  · rw [update_self, update_self]
  · rw [update_of_ne hd, update_of_ne hd]
    rfl

theorem Inv.held_whole (h : Inv B s) (t : τ) : ∀ b ∈ (s.pc t).held B s.headers, Whole b :=
  h.whole (.operation t)

theorem Inv.cells_nodup (h : Inv B s) (t : τ) : (s.pc t).cells.Nodup := by
  have hnd := h.tiles.nodup (w := .operation t) fun b hb => (h.whole _ b hb).2.2
  exact (List.nodup_append.1 hnd).1.of_map

/-- A cell that is held is a cell of the arena. -/
theorem Inv.fits (h : Inv B s) {w : Holder τ}
    (hc : freed s.headers (B.blockOf c) ∈ s.holdings B w) : c < B.blockCount := by
  have hlt := (h.tiles.inside hc (h.whole _ _ hc).meets).2
  have hlast := h.last
  unfold Buffer.arenaEnd at hlast
  unfold freed Buffer.blockOf MIN_ALIGNMENT at *
  simp only at hlt
  omega

theorem binOk_setHead {ptr : Option ℕ} {n : ℕ} (hfits : B.headCodec.Fits ptr)
    (hchain : Linked some s.next ptr list none) (hbinned : ∀ c ∈ list, Binned B s bin c)
    (hn : n % B.headCodec.counters = (s.changes bin + 1) % B.headCodec.counters) :
    BinOk B (s.setHead bin (B.headCodec.pack ptr n) list) bin := by
  refine ⟨?_, ?_, ?_⟩
  · show Linked some s.next (B.headCodec.unpackPtr (update s.heads bin _ bin))
      (update s.lists bin list bin) none
    rw [update_self, update_self, ArenaTaggedPtr.unpackPtr_pack hfits]
    exact hchain
  · show B.headCodec.unpackCounter (update s.heads bin _ bin) = update s.changes bin _ bin % _
    rw [update_self, update_self, ArenaTaggedPtr.unpackCounter_pack hfits, hn]
  · show ∀ c ∈ update s.lists bin list bin, _
    rw [update_self]
    exact hbinned

/-- The counter of a change of the head. -/
theorem BinOk.counter_succ (h : BinOk B s bin) :
    (B.headCodec.unpackCounter (s.heads bin) + 1) % B.headCodec.counters
      = (s.changes bin + 1) % B.headCodec.counters := by
  rw [h.counter, Nat.mod_add_mod]

/-- A pop that finds the head it read has the link of the head's node. -/
theorem Snapshot.current {since : ℕ} (h : Snapshot B s bin (s.heads bin) since)
    (hbin : BinOk B s bin) (hlt : s.changes bin < since + B.headCodec.counters) :
    since = s.changes bin := by
  have hle := h.le
  have hmod : s.changes bin ≡ since [MOD B.headCodec.counters] := by
    show _ % _ = _ % _
    rw [← hbin.counter, h.counter]
  have hsub := (Nat.modEq_iff_dvd' hle).1 hmod.symm
  have hzero := Nat.eq_zero_of_dvd_of_lt hsub (by omega)
  omega

/-- What a search learns from a block's header. -/
theorem SearchOk.see {S : Search} (h : SearchOk B s S) (hc : c ∈ S.cells)
    (hled : LedFrom s S S.prev c) : SearchOk B s (S.see c (s.headers (B.blockOf c)))
      ∧ (S.see c (s.headers (B.blockOf c))).cells = S.cells
      ∧ (S.see c (s.headers (B.blockOf c))).prev = some c := by
  unfold Search.see
  split_ifs with hbest
  · refine ⟨⟨h.chain, h.binned, fun d hd => ?_⟩, rfl, rfl⟩
    obtain rfl := Option.some.inj hd
    exact ⟨hc, ⟨hbest.1, rfl⟩, hled⟩
  · refine ⟨⟨h.chain, h.binned, fun d hd => ?_⟩, rfl, rfl⟩
    obtain ⟨hmem, hok, hled'⟩ := h.best d hd
    exact ⟨hmem, ⟨hok.le, hok.size⟩, hled'⟩

/-- The best fit is unlinked from the front of the stolen list. -/
theorem SearchOk.unlinkFirst {S : Search} (h : SearchOk B s S) (hbest : S.bestFit = some c)
    (hprev : S.bestFitPrev = none) :
    RestOk B s { S with stolenList := s.next c, cells := S.cells.erase c } (s.next c) := by
  obtain ⟨-, hok, hled⟩ := h.best c hbest
  rw [hprev] at hled
  have hchain := h.chain
  rw [show S.stolenList = some c from hled] at hchain
  obtain ⟨rest, hrest, htail⟩ := hchain.unlink_head (Option.some_injective _) (by simp)
  refine ⟨?_, fun d hd => h.binned d (List.mem_of_mem_erase hd), fun d hd => ?_⟩
  · show Linked some s.next (s.next c) (S.cells.erase c) none
    rwa [hrest, List.erase_cons_head]
  · obtain rfl := Option.some.inj (hbest.symm.trans hd)
    exact ⟨hok.le, hok.size⟩

/-- The best fit is unlinked after another block. -/
theorem SearchOk.unlinkAfter {S : Search} {q : ℕ} (h : SearchOk B s S) (hbest : S.bestFit = some c)
    (hprev : S.bestFitPrev = some q) :
    q ∈ S.cells ∧ RestOk B (s.storeLink q (s.links c)) { S with cells := S.cells.erase c }
      S.stolenList := by
  obtain ⟨-, hok, hled⟩ := h.best c hbest
  rw [hprev] at hled
  obtain ⟨hq, hnext⟩ := hled
  refine ⟨hq, ?_, fun d hd => h.binned d (List.mem_of_mem_erase hd), fun d hd => ?_⟩
  · rw [next_storeLink]
    exact (h.chain.unlink_after (Option.some_injective _) (by simp) hq hnext).1
  · obtain rfl := Option.some.inj (hbest.symm.trans hd)
    exact ⟨hok.le, hok.size⟩

end Facts

section Steps

variable [DecidableEq τ] {s s' : State τ} {t : τ} {c bin tag link : ℕ} {spurious : Bool}

/-- A pop takes the first block of a class bin. -/
theorem Inv.popped (h : Inv B s) {bytes since : ℕ}
    (hp : s.pc t = .popCas bytes bin (s.heads bin) since link)
    (hc : B.headCodec.unpackPtr (s.heads bin) = some c)
    (hlt : s.changes bin < since + B.headCodec.counters) :
    Inv B ((s.setHead bin (B.headCodec.pack (toNode link)
      (B.headCodec.unpackCounter (s.heads bin) + 1)) (s.lists bin).tail).setPc t
      (.popClear bytes bin c)) := by
  have hok := h.pc t
  rw [hp] at hok
  obtain ⟨hclass, hsnap, hlink⟩ := hok
  have hbin := h.bins bin
  have hchain := hbin.chain
  rw [hc] at hchain
  obtain ⟨rest, hrest, htail⟩ := hchain.unlink_head (Option.some_injective _) (by simp)
  have hnode : toNode link = s.next c := by
    rw [hlink c hc (hsnap.current hbin hlt)]
    rfl
  have hmem : ∀ d ∈ rest, d ∈ s.lists bin := by
    intro d hd
    rw [hrest]
    exact List.mem_cons_of_mem _ hd
  have hcmem : c ∈ s.lists bin := by
    rw [hrest]
    exact List.mem_cons_self
  have hfits : B.headCodec.Fits (s.next c) := by
    refine ⟨blockCount_lt, fun d hd => ?_⟩
    cases rest with
    | nil =>
      rw [show s.next c = none from htail] at hd
      cases hd
    | cons e rest =>
      rw [htail.1] at hd
      obtain rfl := Option.some.inj hd
      exact h.fits (w := .bin bin) (mem_blocks (hmem e List.mem_cons_self))
  rw [hnode, hrest, List.tail_cons]
  refine h.swap (binOk_setHead hfits htail (fun d hd => hbin.binned d (hmem d hd))
    hbin.counter_succ) ⟨hclass, hbin.binned c hcmem⟩ (fun b hb => ?_) fun x => ?_
  · obtain rfl := List.mem_singleton.1 (show b ∈ [freed s.headers (B.blockOf c)] from hb)
    exact h.whole (.bin bin) _ (mem_blocks hcmem)
  · rw [hp, hrest]
    show cover (freed s.headers (B.blockOf c) :: []) x + _
      = cover [] x + cover (freed s.headers (B.blockOf c) :: B.blocks s.headers rest) x
    rw [cover_cons, cover_cons, cover_nil]
    omega

theorem Inv.stepTake (h : Inv B s)
    (hg : ∀ r ∈ (s.pc t).since?, s.changes r.1 < r.2 + B.headCodec.counters)
    (hs : stepTake B s t spurious = some s') : Inv B s' := by
  have hok := h.pc t
  have hwhole := h.held_whole t
  unfold Threads.stepTake at hs
  split at hs <;> rename_i hp
  · -- bumpLoad
    obtain rfl := Option.some.inj hs
    refine h.goOn ?_
    rw [hp]
    exact turns_enterBump
  · -- bumpCas
    split_ifs at hs with hsame <;> obtain rfl := Option.some.inj hs
    · obtain ⟨rfl, -⟩ := hsame
      rw [hp] at hok
      refine h.bumped hok ?_
      rw [hp]
      rfl
    · refine h.goOn ?_
      rw [hp]
      exact turns_enterBump
  · -- popLoad
    obtain rfl := Option.some.inj hs
    refine h.goOn ?_
    rw [hp] at hok ⊢
    exact turns_enterPop hok (h.bins _)
  · -- popLink
    split at hs
    · rename_i c hc
      obtain rfl := Option.some.inj hs
      refine h.goOn ?_
      rw [hp] at hok ⊢
      refine ⟨⟨hok.1, hok.2, fun d hd _ => ?_⟩, .nil⟩
      rw [hc] at hd
      rw [Option.some.inj hd]
    · cases hs
  · -- popCas
    split at hs
    · rename_i c hc
      split_ifs at hs with hsame <;> obtain rfl := Option.some.inj hs
      · obtain rfl := hsame
        rw [hp] at hg
        exact h.popped hp hc (hg _ rfl)
      · refine h.goOn ?_
        rw [hp] at hok ⊢
        exact turns_enterPop hok.1 (h.bins _)
    · cases hs
  · -- popClear
    rename_i bytes bin c
    obtain rfl := Option.some.inj hs
    refine h.store (c := c) (by rw [hp]; exact List.mem_cons_self) ?_
    rw [hp] at hok hwhole ⊢
    obtain ⟨hclass, hsize, hbin⟩ := hok
    have hlen : s.headers (B.blockOf c) = MIN_ALIGNMENT <<< bin := by
      rw [class_eq, ← hbin]
      exact hsize.bin (hbin ▸ hclass.2)
    show Turns B _ [⟨B.blockOf c, s.headers (B.blockOf c)⟩] _
    rw [hlen]
    refine turns_split (dvd_blockOf c) (hlen ▸ hsize.dvd) ?_
    rw [class_eq]
    exact le_of_getBin_le hclass.1 hclass.2
  · cases hs

theorem blocks_perm {headers : ℕ → ℕ} {l l' : List ℕ} (h : l.Perm l') :
    (B.blocks headers l).Perm (B.blocks headers l') := h.map _

theorem Inv.stepSearch (h : Inv B s) (hs : stepSearch B s t spurious = some s') : Inv B s' := by
  have hok := h.pc t
  have hwhole := h.held_whole t
  have hnd := h.cells_nodup t
  unfold Threads.stepSearch at hs
  split at hs <;> rename_i hp
  · -- stealLoad
    obtain rfl := Option.some.inj hs
    refine h.goOn ?_
    rw [hp]
    exact ⟨trivial, .nil⟩
  · -- stealCas
    rename_i bytes stolen
    split_ifs at hs with hsame <;> obtain rfl := Option.some.inj hs
    · obtain ⟨rfl, -⟩ := hsame
      have hbin := h.bins 7
      have hturns := turns_enterSearch (s := s.setHead 7 (B.headCodec.pack none
        (B.headCodec.unpackCounter (s.heads 7) + 1)) []) (p := B.headCodec.unpackPtr (s.heads 7))
        (S := ⟨bytes, B.headCodec.unpackPtr (s.heads 7), none, none, none, 0, s.lists 7⟩)
        ⟨hbin.chain, hbin.binned, by simp⟩ (fun c hc => ⟨?_, hc⟩) (h.whole (.bin 7))
      · refine h.swap (binOk_setHead ⟨blockCount_lt, by simp⟩ rfl (by simp) hbin.counter_succ)
          hturns.ok hturns.cut.whole fun x => ?_
        rw [hp]
        refine (congrArg (· + _) (hturns.cut.cover x)).trans ?_
        exact Nat.add_comm _ _
      · have hchain := hbin.chain
        rw [hc] at hchain
        obtain ⟨rest, hrest, -⟩ := hchain.unlink_head (Option.some_injective _) (by simp)
        show c ∈ s.lists 7
        rw [hrest]
        exact List.mem_cons_self
    · refine h.goOn ?_
      rw [hp]
      exact ⟨trivial, .nil⟩
  · -- searchSize
    rename_i S current
    obtain rfl := Option.some.inj hs
    refine h.goOn ?_
    rw [hp] at hok hwhole ⊢
    obtain ⟨hsearch, hc, hled⟩ := hok
    obtain ⟨hsee, hcells, hprev⟩ := hsearch.see hc hled
    refine ⟨⟨hsee, hcells ▸ hc, hprev⟩, .of_perm hwhole (.of_eq ?_)⟩
    show B.blocks _ (S.see _ _).cells ++ [] = _
    rw [hcells]
    rfl
  · -- searchLink
    rename_i S current
    obtain rfl := Option.some.inj hs
    refine h.goOn ?_
    rw [hp] at hok hwhole ⊢
    obtain ⟨hsearch, hc, hprev⟩ := hok
    have hheld : Pc.held B s.headers (.searchLink S current) = B.blocks s.headers S.cells :=
      List.append_nil _
    rw [hheld] at hwhole ⊢
    refine turns_enterSearch hsearch (fun d hd => ?_) hwhole
    rw [hprev]
    refine ⟨?_, hc, hd⟩
    rcases hsearch.chain.next_of_mem hc with hnone | ⟨e, he, heq⟩
    · rw [hnone] at hd
      cases hd
    · rw [heq] at hd
      rwa [← Option.some.inj hd]
  · -- bestLink
    rename_i S best
    rw [hp] at hok hwhole
    obtain ⟨hsearch, hbest⟩ := hok
    split at hs <;> rename_i hprev <;> obtain rfl := Option.some.inj hs <;> refine h.goOn ?_ <;>
      rw [hp]
    · exact ⟨⟨hsearch, hbest, hprev, rfl⟩, .of_perm hwhole (.refl _)⟩
    · refine ⟨⟨hsearch.unlinkFirst hbest hprev, hbest⟩, .of_perm hwhole ?_⟩
      exact (blocks_perm (List.perm_cons_erase (hsearch.best best hbest).1).symm).append_right _
  · -- unlinkBest
    rename_i S best prev afterBest
    rw [hp] at hok hwhole
    obtain ⟨hsearch, hbest, hprev, rfl⟩ := hok
    obtain rfl := Option.some.inj hs
    obtain ⟨hmem, hrest⟩ := hsearch.unlinkAfter hbest hprev
    refine h.store (by rw [hp]; exact hmem) ?_
    rw [hp]
    refine ⟨⟨hrest, hbest⟩, .of_perm hwhole ?_⟩
    exact (blocks_perm (List.perm_cons_erase (hsearch.best best hbest).1).symm).append_right _
  · -- clearBest
    rename_i S best
    rw [hp] at hok hwhole hnd
    obtain ⟨hrest, hbest⟩ := hok
    obtain rfl := Option.some.inj hs
    refine h.store (by rw [hp]; exact List.mem_cons_self) ?_
    rw [hp]
    have hnot : best ∉ S.cells := (List.nodup_cons.1 hnd).1
    have hheld : Pc.held B s.headers (.clearBest S best)
        = B.blocks s.headers (S.bestFit.toList ++ S.cells) := by
      rw [hbest]
      exact List.append_nil _
    rw [hheld] at hwhole ⊢
    refine turns_enterRePush ⟨?_, hrest.binned, fun c hc => ?_⟩ hwhole
    · rw [next_storeLink]
      exact hrest.chain.update hnot _
    · exact ⟨(hrest.best c hc).le, (hrest.best c hc).size⟩
  · -- rePushLink
    rename_i S current
    rw [hp] at hok hwhole
    obtain rfl := Option.some.inj hs
    refine h.goOn ?_
    rw [hp]
    obtain ⟨rest, hrest, htail⟩ := hok.chain.unlink_head (Option.some_injective _) (by simp)
    have hmem : current ∈ S.cells := by
      rw [hrest]
      exact List.mem_cons_self
    refine ⟨⟨hok.binned current hmem, ?_, fun c hc => hok.binned c (List.mem_of_mem_tail hc),
      fun c hc => ⟨(hok.best c hc).le, (hok.best c hc).size⟩⟩, .of_perm hwhole ?_⟩
    · show Linked some s.next (s.next current) S.cells.tail none
      rwa [hrest]
    · refine (blocks_perm ?_).append_right _
      show (current :: (S.bestFit.toList ++ S.cells.tail)).Perm (S.bestFit.toList ++ S.cells)
      rw [hrest]
      exact List.perm_middle.symm
  · cases hs

theorem Inv.stepPush (h : Inv B s) (hs : stepPush B s t = some s') : Inv B s' := by
  have hok := h.pc t
  have hwhole := h.held_whole t
  have hnd := h.cells_nodup t
  unfold Threads.stepPush at hs
  split at hs <;> rename_i hp
  · -- pushHeader
    rename_i b k
    rw [hp] at hok hwhole
    obtain ⟨hsize, hk⟩ := hok
    obtain rfl := Option.some.inj hs
    have hb : b ∈ s.holdings B (.operation t) := by
      show b ∈ (s.pc t).held B s.headers
      rw [hp]
      exact List.mem_append_right _ List.mem_cons_self
    have hwb := h.whole _ b hb
    have hblock : B.blockOf (B.cellOf b.start) = b.start :=
      blockOf_cellOf hwb.1 (h.tiles.inside hb hwb.meets).1
    -- the block is none of the cells of the blocks to come
    have hne : ∀ c ∈ k.cells, B.blockOf c ≠ b.start := by
      intro c hc heq
      have hmem : freed s.headers (B.blockOf c) ∈ s.holdings B (.operation t) := by
        refine mem_operation ?_
        rw [hp]
        exact hc
      have hx : (freed s.headers (B.blockOf c)).Meets b.start := heq ▸ (h.whole _ _ hmem).meets
      have hbc := (h.tiles.eq_of_meets hmem hb hx hwb.meets).2
      have hheld := h.tiles.nodup (w := .operation t) fun b hb => (h.whole _ b hb).2.2
      replace hheld : (Pc.held B s.headers (s.pc t)).Nodup := hheld
      rw [hp] at hheld
      exact (List.nodup_append.1 hheld).2.2 _ (mem_blocks hc) b List.mem_cons_self hbc
    have hsame : Same B s { s with headers := update s.headers b.start b.len } k.cells :=
      ⟨fun _ _ => rfl, fun c hc => update_of_ne (hne c hc) _ _⟩
    refine h.header (by rw [hp]; exact List.mem_cons_self) ?_
    rw [hp]
    have hself : update s.headers b.start b.len (B.blockOf (B.cellOf b.start)) = b.len := by
      rw [hblock, update_self]
    refine ⟨⟨⟨?_, ?_⟩, hsame.nextOk hk⟩, .of_perm hwhole ?_⟩
    · show BlockSize (update s.headers b.start b.len _)
      rwa [hself]
    · show getBin (update s.headers b.start b.len _) = _
      rw [hself]
    · show (freed (update s.headers b.start b.len) _ :: B.blocks _ k.cells ++ k.spans).Perm
        (B.blocks s.headers k.cells ++ b :: k.spans)
      rw [hsame.blocks]
      unfold freed
      rw [hself, hblock]
      exact List.perm_middle.symm
  · -- pushLoad
    obtain rfl := Option.some.inj hs
    refine h.goOn ?_
    rw [hp] at hok hwhole ⊢
    exact ⟨hok, .of_perm hwhole (.refl _)⟩
  · -- pushLink
    rename_i c bin tag k
    rw [hp] at hok hwhole hnd
    obtain rfl := Option.some.inj hs
    have hnot : ∀ d ∈ k.cells, d ≠ c := by
      rintro d hd rfl
      exact (List.nodup_cons.1 hnd).1 hd
    have hsame : Same B s (s.storeLink c (toLink (B.headCodec.unpackPtr tag))) k.cells :=
      ⟨fun d hd => update_of_ne (hnot d hd) _ _, fun _ _ => rfl⟩
    refine h.store (by rw [hp]; exact List.mem_cons_self) ?_
    rw [hp]
    refine ⟨⟨hok.1, hsame.nextOk hok.2, ?_⟩, .of_perm hwhole (.refl _)⟩
    rw [next_storeLink, update_self, toNode_toLink]
  · -- pushCas
    rename_i c bin tag k
    rw [hp] at hok hwhole
    split_ifs at hs with hsame <;> obtain rfl := Option.some.inj hs
    · obtain rfl := hsame
      obtain ⟨hbinned, hk, hnext⟩ := hok
      have hbin := h.bins bin
      have hmem : freed s.headers (B.blockOf c) ∈ s.holdings B (.operation t) := by
        refine mem_operation ?_
        rw [hp]
        exact List.mem_cons_self
      have hfits : B.headCodec.Fits (some c) := by
        refine ⟨blockCount_lt, fun d hd => ?_⟩
        obtain rfl := Option.some.inj hd
        exact h.fits hmem
      have hsame : Same B s (s.setHead bin (B.headCodec.pack (some c)
          (B.headCodec.unpackCounter (s.heads bin) + 1)) (c :: s.lists bin)) k.cells :=
        ⟨fun _ _ => rfl, fun _ _ => rfl⟩
      have hturns := turns_resume (hsame.nextOk hk) fun b hb =>
        hwhole b (List.mem_cons_of_mem _ hb)
      refine h.swap (binOk_setHead hfits (hbin.chain.push hnext) (fun d hd => ?_)
        hbin.counter_succ) hturns.ok hturns.cut.whole fun x => ?_
      · rcases List.mem_cons.1 hd with rfl | hd
        · exact hbinned
        · exact hbin.binned d hd
      · rw [hp]
        refine (congrArg (· + _) (hturns.cut.cover x)).trans ?_
        show cover (B.blocks s.headers k.cells ++ k.spans) x
            + cover (freed s.headers (B.blockOf c) :: B.blocks s.headers (s.lists bin)) x
          = cover (freed s.headers (B.blockOf c) :: (B.blocks s.headers k.cells ++ k.spans)) x + _
        rw [cover_cons, cover_cons]
        omega
    · refine h.goOn ?_
      rw [hp]
      exact ⟨⟨hok.1, hok.2.1⟩, .of_perm hwhole (.refl _)⟩
  · cases hs

theorem Inv.stepRun (h : Inv B s)
    (hg : ∀ r ∈ (s.pc t).since?, s.changes r.1 < r.2 + B.headCodec.counters)
    (hs : stepRun B s t spurious = some s') : Inv B s' := by
  have hwhole := h.held_whole t
  unfold Threads.stepRun at hs
  split at hs <;> rename_i hp
  · -- handOut
    rename_i block bytes
    obtain rfl := Option.some.inj hs
    rw [hp] at hwhole
    refine h.passed trivial (by simp [Pc.held, Pc.cells, Pc.spans, Buffer.blocks]) (fun b hb => ?_)
      fun x => ?_
    · rcases List.mem_cons.1 hb with rfl | hb
      · exact hwhole _ List.mem_cons_self
      · exact h.whole .callers b hb
    · rw [hp]
      show cover [] x + cover (⟨block, blockSizeFor bytes⟩ :: reserved s.live) x
        = cover [⟨block, blockSizeFor bytes⟩] x + cover (reserved s.live) x
      rw [cover_cons, cover_cons, cover_nil]
      omega
  · -- refuse
    obtain rfl := Option.some.inj hs
    refine h.goOn ?_
    rw [hp]
    exact ⟨trivial, .nil⟩
  · -- freed
    obtain rfl := Option.some.inj hs
    refine h.goOn ?_
    rw [hp]
    exact ⟨trivial, .nil⟩
  · rcases Option.or_eq_some_iff.1 hs with hs | ⟨-, hs⟩
    · rcases Option.or_eq_some_iff.1 hs with hs | ⟨-, hs⟩
      · exact h.stepTake hg hs
      · exact h.stepSearch hs
    · exact h.stepPush hs

theorem Inv.step {a : Action τ} (h : Inv B s) (hg : Unwrapped B s a)
    (hs : (machine B).step s a = some s') : Inv B s' := by
  cases a with
  | allocate t bytes alignment =>
    simp only [machine, Threads.step] at hs
    split_ifs at hs with hp <;> obtain rfl := Option.some.inj hs <;> refine h.goOn ?_ <;> rw [hp] <;>
      exact ⟨trivial, .nil⟩
  | deallocate t p bytes =>
    cases p with
    | none =>
      simp only [machine, Threads.step] at hs
      split_ifs at hs with hp
      obtain rfl := Option.some.inj hs
      refine h.goOn ?_
      rw [hp]
      exact ⟨trivial, .nil⟩
    | some p =>
      simp only [machine, Threads.step] at hs
      split_ifs at hs with hlive
      obtain ⟨hp, hlive⟩ := hlive
      obtain rfl := Option.some.inj hs
      have hperm : (reserved s.live).Perm
          (⟨p, blockSizeFor bytes⟩ :: reserved (s.live.erase (p, bytes))) :=
        (List.perm_cons_erase hlive).map _
      refine h.passed ⟨(blockSizeFor_spec bytes).1, trivial⟩ (fun b hb => ?_) (fun b hb => ?_)
        fun x => ?_
      · obtain rfl := List.mem_singleton.1 (show b ∈ [⟨p, blockSizeFor bytes⟩] from hb)
        exact h.whole .callers _ (hperm.mem_iff.2 List.mem_cons_self)
      · exact h.whole .callers b (hperm.mem_iff.2 (List.mem_cons_of_mem _ hb))
      · rw [hp, cover_perm hperm]
        show cover [⟨p, blockSizeFor bytes⟩] x + _ = cover [] x + _
        rw [cover_cons, cover_cons, cover_nil]
        omega
  | write p bytes offset value =>
    simp only [machine, Threads.step] at hs
    split_ifs at hs with hlive
    obtain rfl := Option.some.inj hs
    exact h.write hlive.1 hlive.2 value
  | run t spurious => exact h.stepRun hg hs

omit [DecidableEq τ] in
theorem inv_start (h : Start B s) : Inv B s := by
  obtain ⟨hc, hh, hp, hl, hch, hlive⟩ := h
  have hempty : ∀ w, s.holdings B w = [] := by
    intro w
    unfold State.holdings reserved Buffer.blocks Pc.held
    cases w <;> simp [hl, hlive, hp, Pc.cells, Pc.spans, Buffer.blocks]
  have hfits : B.headCodec.Fits none := ⟨blockCount_lt, by simp⟩
  refine ⟨fun x => ⟨none, ?_, fun w => ⟨by simp, fun _ => by rw [hempty, cover_nil]⟩⟩,
    fun w b hb => ?_, hc.ge, ?_, ?_, fun b => ⟨?_, ?_, ?_⟩, fun t => ?_⟩
  · rw [hc]
    simp
  · rw [hempty] at hb
    cases hb
  · rw [hc]
    exact dvd_alignUp _
  · rw [hc]
    exact Nat.le_add_right ..
  · rw [hh, hl, ArenaTaggedPtr.unpackPtr_pack hfits]
    rfl
  · rw [hh, hch, ArenaTaggedPtr.unpackCounter_pack hfits]
  · rw [hl]
    simp
  · rw [hp]
    trivial

theorem inv_of_run (h : (machine (τ := τ) B).Run (Unwrapped B) s) : Inv B s :=
  Machine.run_induction (fun _ => inv_start) (fun _ _ _ _ ih hg hs => ih.step hg hs) h

/-- The units below the bump pointer are shared out: each has one holder, a block is made of whole
units, a bin's list is what its head leads to, and only a thread in a call holds blocks. -/
structure SharedOut (B : Buffer) (s : State τ) : Prop where
  tiled : Tiles (s.holdings B) B.arenaStart s.currentPtr
  whole : ∀ w, ∀ b ∈ s.holdings B w, MIN_ALIGNMENT ∣ b.start ∧ MIN_ALIGNMENT ∣ b.len
  lists : ∀ b, Linked some s.next (B.headCodec.unpackPtr (s.heads b)) (s.lists b) none
  inside : s.currentPtr ≤ B.arenaEnd
  idle : ∀ t, s.pc t = .idle → s.holdings B (.operation t) = []

/-- However the calls interleave, no unit is handed out twice and none is lost. -/
theorem sharedOut_of_run (h : (machine (τ := τ) B).Run (Unwrapped B) s) : SharedOut B s := by
  have hinv := inv_of_run h
  refine ⟨hinv.tiles, fun w b hb => ?_, fun b => (hinv.bins b).chain, hinv.last, fun t ht => ?_⟩
  · exact ⟨(hinv.whole w b hb).1, (hinv.whole w b hb).2.1⟩
  · show (s.pc t).held B s.headers = []
    rw [ht]
    rfl

end Steps

/-- A search unlinks the second of two stolen blocks, pushes the first back and frees the tail of the
second, while another thread takes from the bump pointer. -/
theorem sharedOut_of_run_searched : ∃ (B : Buffer) (s : State (Fin 2)),
    (machine B).Run (Unwrapped B) s ∧ s.live = [(0, 4900), (11072, 100)] ∧ s.lists 7 = [79]
      ∧ s.lists 1 = [77] ∧ SharedOut B s := by
  let B : Buffer := ⟨0, 13600⟩
  have hrun : ∃ s : State (Fin 2), (machine B).Run (Unwrapped B) s
      ∧ s.live = [(0, 4900), (11072, 100)] ∧ s.lists 7 = [79] ∧ s.lists 1 = [77] :=
    Machine.exists_run
      (s := ⟨0, fun _ => B.headCodec.pack none 0, fun _ => 0, fun _ => 0, fun _ => .idle, fun _ => [],
        fun _ => 0, []⟩)
      (List.flatten [[.allocate 0 5000 8], List.replicate 3 (.run 0 false),
        [.allocate 0 6000 8], List.replicate 3 (.run 0 false),
        [.deallocate 0 (some 0) 5000], List.replicate 5 (.run 0 false),
        [.deallocate 0 (some 5056) 6000], List.replicate 5 (.run 0 false),
        [.allocate 1 4900 64], List.replicate 3 (.run 1 false),
        [.allocate 0 100 8], List.replicate 3 (.run 0 false), List.replicate 16 (.run 1 false)])
      ⟨by decide, rfl, rfl, rfl, rfl, rfl⟩ (by decide +kernel)
  obtain ⟨s, hs, hlive, h7, h1⟩ := hrun
  exact ⟨B, s, hs, hlive, h7, h1, sharedOut_of_run hs⟩

end MinStd.StaticArena.Threads
