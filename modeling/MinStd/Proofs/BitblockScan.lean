import MinStd.Proofs.BitblockSet

/-!
# What a scan of the bitblock set does

A scan for `n` bits leaves the bits and their owners alone until it takes a free run of `n` bits inside
one word (`scan_step`).  While nobody else changes the bits, the words it has passed by have no free
run (`ScanAt`), so it comes back without one only when the set has none.
-/

namespace MinStd.BitblockSet

open Function

variable {τ : Type*} {Z : Size} {s s' : State τ} {t : τ} {n start : ℕ} {S : Scan} {i w : ℕ}

/-- `n` clear bits from `start` on, inside the set and inside one word. -/
structure FreeRun (Z : Size) (s : State τ) (n start : ℕ) : Prop where
  fits : start + n ≤ Z.SIZE_IN_BITS
  single : startWord start = endWord start n
  clear : ∀ b, InRange start n b → ¬ s.Bit b

/-- Word `w` has no free run. -/
def NoRunIn (Z : Size) (s : State τ) (n w : ℕ) : Prop :=
  ∀ start, startWord start = w → ¬ FreeRun Z s n start

/-- A scan for `n` bits that has not taken any. -/
def Scanning (n : ℕ) : Pc → Prop
  | .loadHint m _ => m = n
  | .chunkIsFull S _ _ => S.numBits = n
  | .scanLoad S _ _ => S.numBits = n
  | .scanOr S _ _ _ => S.numBits = n ∧ n = 1
  | .scanSwap S _ _ _ => S.numBits = n
  | .found none => True
  | _ => False

/-- The run a scan has taken. -/
def Pc.taken? : Pc → Option ℕ
  | .advanceHint _ bitIndex => some bitIndex
  | .found bitIndex => bitIndex
  | _ => none

theorem scanning_enterChunk (h : S.numBits = n) : Scanning n (enterChunk Z S i) := by
  unfold enterChunk
  split_ifs
  · exact h
  · trivial

theorem scanning_enterWord (h : S.numBits = n) : Scanning n (enterWord Z S i w) := by
  unfold enterWord
  split_ifs
  · exact h
  · exact scanning_enterChunk h

theorem scanning_tryWord (h : S.numBits = n) {word : BitVec 64} :
    Scanning n (tryWord Z S i w word) := by
  unfold tryWord
  split_ifs with hfull hone
  · exact scanning_enterWord h
  · exact scanning_enterWord h
  · exact ⟨h, h ▸ hone⟩
  · exact scanning_enterWord h
  · exact scanning_enterWord h
  · exact h

theorem taken_of_scanning {p : Pc} (h : Scanning n p) : p.taken? = none := by
  cases p with
  | found r =>
    cases r with
    | none => rfl
    | some b => exact h.elim
  | advanceHint => exact h.elim
  | _ => rfl

variable [DecidableEq τ]

/-- An access that leaves the bits and their owners. -/
structure Leaves (s s' : State τ) (t : τ) : Prop where
  bit : ∀ b, s'.Bit b ↔ s.Bit b
  owners : s'.owners = s.owners
  pc : ∀ u, u ≠ t → s'.pc u = s.pc u

/-- An access that takes a free run. -/
structure Takes (Z : Size) (s s' : State τ) (t : τ) (n start : ℕ) : Prop where
  pos : 1 ≤ n
  le : n ≤ 16
  free : FreeRun Z s n start
  bit : ∀ b, s'.Bit b ↔ s.Bit b ∨ InRange start n b
  owners : s'.owners = (s.grant t start n).owners
  pc : ∀ u, u ≠ t → s'.pc u = s.pc u

omit [DecidableEq τ] in
theorem NoRunIn.congr (h : NoRunIn Z s n w) (hbit : ∀ b, s'.Bit b ↔ s.Bit b) : NoRunIn Z s' n w := by
  intro start hw hrun
  exact h start hw ⟨hrun.fits, hrun.single, fun b hb => (hbit b).not.1 (hrun.clear b hb)⟩

omit [DecidableEq τ] in
theorem mem_grant {o : τ} {k : ℕ} :
    o ∈ (s.grant t start n).owners k ↔ o ∈ s.owners k ∨ InRange start n k ∧ o = t := by
  show o ∈ (if start ≤ k ∧ k < start + n then t :: s.owners k else s.owners k) ↔ _
  unfold InRange
  split_ifs with h
  · rw [List.mem_cons, or_comm, and_iff_right h]
  · simp [h]

theorem leaves_setPc (p : Pc) : Leaves s (s.setPc t p) t :=
  ⟨fun _ => Iff.rfl, rfl, fun _ hu => update_of_ne hu _ _⟩

theorem pc_setPc (p : Pc) : (s.setPc t p).pc t = p := update_self ..

/-- A step of a scan. -/
theorem scan_step {spurious : Bool} (hok : PcOk Z (s.pc t)) (hp : Scanning n (s.pc t))
    (hnot : s.pc t ≠ .found none) (hs : stepRun Z s t spurious = some s') :
    Leaves s s' t ∧ Scanning n (s'.pc t)
      ∨ ∃ start, Takes Z s s' t n start ∧ s'.pc t = .advanceHint (start + n) start := by
  cases hpc : s.pc t <;> rw [hpc] at hp hok hnot <;> try exact hp.elim
  case loadHint m offset =>
    obtain rfl := hp
    simp only [stepRun, hpc, stepAcquire, stepRelease, stepScan, Option.none_or,
      Option.some.injEq] at hs
    subst hs
    refine .inl ⟨leaves_setPc _, ?_⟩
    rw [pc_setPc]
    exact scanning_enterChunk rfl
  case chunkIsFull S i w =>
    simp only [stepRun, hpc, stepAcquire, stepRelease, stepScan, Option.none_or] at hs
    split_ifs at hs <;> obtain rfl := Option.some.inj hs <;> refine .inl ⟨leaves_setPc _, ?_⟩ <;>
      rw [pc_setPc]
    · exact scanning_enterWord hp
    · exact hp
    · exact scanning_enterChunk hp
  case scanLoad S i w =>
    simp only [stepRun, hpc, stepAcquire, stepRelease, stepScan, Option.none_or,
      Option.some.injEq] at hs
    subst hs
    refine .inl ⟨leaves_setPc _, ?_⟩
    rw [pc_setPc]
    exact scanning_tryWord hp
  case scanOr S i w bitPos =>
    obtain ⟨hS, rfl⟩ := hp
    obtain ⟨-, hpos, hlt⟩ := hok
    have hcov : ∀ b, Covers (S.wordIdx Z i w) (1#64 <<< (63 - bitPos)) b
        ↔ InRange (S.wordIdx Z i w * BITS_PER_WORD + bitPos) 1 b := by
      intro b
      rw [single_bit_mask hpos, covers_createBitMask (by omega)]
    have hself : InRange (S.wordIdx Z i w * BITS_PER_WORD + bitPos) 1
        (S.wordIdx Z i w * BITS_PER_WORD + bitPos) := ⟨le_rfl, Nat.lt_succ_self _⟩
    simp only [stepRun, hpc, stepAcquire, stepRelease, stepScan, Option.none_or] at hs
    split_ifs at hs with hfree <;> obtain rfl := Option.some.inj hs
    · have hclear := (and_eq_zero_iff s _ _).1 hfree
      refine .inr ⟨_, ⟨le_rfl, by decide, ⟨hlt, rfl, fun b hb => hclear b ((hcov b).2 hb)⟩,
        fun b => ?_, rfl, fun u hu => update_of_ne hu _ _⟩, pc_setPc _⟩
      refine (bit_fetchOr s _ _ b).trans ?_
      rw [hcov]
    · refine .inl ⟨⟨fun b => ?_, rfl, fun u hu => update_of_ne hu _ _⟩, ?_⟩
      · refine (bit_fetchOr s _ _ b).trans (or_iff_left_of_imp fun hb => ?_)
        -- the mask's only bit was set
        by_contra hclear
        refine hfree ((and_eq_zero_iff s _ _).2 fun c hc => ?_)
        have h1 := (hcov b).1 hb
        have h2 := (hcov c).1 hc
        unfold InRange at h1 h2
        obtain rfl : c = b := by omega
        exact hclear
      · rw [pc_setPc]
        exact hS
  case scanSwap S i w word =>
    obtain ⟨hS, hrun⟩ := hok
    obtain rfl := hp
    simp only [stepRun, hpc, stepAcquire, stepRelease, stepScan, Option.none_or] at hs
    split_ifs at hs with hsame <;> obtain rfl := Option.some.inj hs
    · obtain ⟨rfl, -⟩ := hsame
      have hcov : ∀ b, Covers (S.wordIdx Z i w)
          (wordMask (S.bitIndex Z i w (s.bits.words (S.wordIdx Z i w))) S.numBits) b
          ↔ InRange (S.bitIndex Z i w (s.bits.words (S.wordIdx Z i w))) S.numBits b := by
        intro b
        have := covers_wordMask (b := b) hrun.single
        rwa [hrun.inside] at this
      refine .inr ⟨_, ⟨hS.1, hS.2, ⟨hrun.fits, hrun.single, fun b hb =>
        (and_eq_zero_iff s _ _).1 hrun.free b ((hcov b).2 hb)⟩, fun b => ?_, rfl,
        fun u hu => update_of_ne hu _ _⟩, pc_setPc _⟩
      refine (bit_fetchOr s _ _ b).trans ?_
      rw [hcov]
    · refine .inl ⟨leaves_setPc _, ?_⟩
      rw [pc_setPc]
      exact scanning_tryWord rfl
  case found r =>
    cases r with
    | none => exact absurd rfl hnot
    | some b => exact hp.elim

/-- A scan that has taken a run publishes the hint. -/
theorem advance_step {spurious : Bool} {hint bitIndex : ℕ} (hp : s.pc t = .advanceHint hint bitIndex)
    (hs : stepRun Z s t spurious = some s') :
    Leaves s s' t ∧ s'.pc t = .found (some bitIndex) := by
  simp only [stepRun, hp, stepAcquire, stepRelease, stepScan, Option.none_or,
    Option.some.injEq] at hs
  subst hs
  exact ⟨⟨fun _ => Iff.rfl, rfl, fun _ hu => update_of_ne hu _ _⟩, pc_setPc _⟩

/-- A release of a range inside one word that has not cleared it. -/
def Releasing (start n : ℕ) : Pc → Prop
  | .releaseHint a m => a = start ∧ m = n
  | .releaseOne a => a = start ∧ n = 1
  | .releaseLoad a m => a = start ∧ m = n
  | .releaseSwap a m _ => a = start ∧ m = n
  | _ => False

/-- An access that clears a range. -/
structure Clears (s s' : State τ) (t : τ) (n start : ℕ) : Prop where
  set : ∀ b, InRange start n b → s.Bit b
  bit : ∀ b, s'.Bit b ↔ s.Bit b ∧ ¬ InRange start n b
  owners : s'.owners = s.owners
  pc : ∀ u, u ≠ t → s'.pc u = s.pc u

/-- A step of a release. -/
theorem release_step {spurious : Bool} (hinv : Inv Z s) (hw : startWord start = endWord start n)
    (hp : Releasing start n (s.pc t)) (hs : stepRun Z s t spurious = some s') :
    Leaves s s' t ∧ Releasing start n (s'.pc t)
      ∨ Clears s s' t n start ∧ s'.pc t = .ret .success := by
  have hset : ∀ b, (s.pc t).Holds b → s.Bit b := fun b hb => hinv.held_set b t hb
  have hcov : ∀ b, Covers (startWord start) (wordMask start n) b ↔ InRange start n b :=
    fun b => covers_wordMask hw
  have hclears : (∀ b, InRange start n b → s.Bit b) → Clears s
      ((s.fetchAnd (startWord start) (~~~wordMask start n)).setPc t (.ret .success)) t n start := by
    intro hset
    refine ⟨hset, fun b => (bit_fetchAnd s _ _ b).trans ?_, rfl, fun u hu => update_of_ne hu _ _⟩
    rw [hcov]
  cases hpc : s.pc t <;> rw [hpc] at hp hset <;> try exact hp.elim
  case releaseHint a m =>
    obtain ⟨rfl, rfl⟩ := hp
    simp only [stepRun, hpc, stepAcquire, stepRelease, Option.none_or, Option.some_or,
      Option.some.injEq] at hs
    subst hs
    refine .inl ⟨⟨fun _ => Iff.rfl, rfl, fun _ hu => update_of_ne hu _ _⟩, ?_⟩
    rw [pc_setPc]
    unfold releaseFrom
    rw [if_pos hw]
    split_ifs with hone
    · exact ⟨rfl, hone⟩
    · exact ⟨rfl, rfl⟩
  case releaseOne a =>
    obtain ⟨rfl, rfl⟩ := hp
    have hall : s.bits.words (startWord a) &&& wordMask a 1 = wordMask a 1 :=
      (and_eq_mask_iff s _ _).2 fun b hb => hset b ((hcov b).1 hb)
    simp only [stepRun, hpc, stepAcquire, stepRelease, Option.none_or, Option.some_or,
      Option.some.injEq] at hs
    rw [if_pos hall] at hs
    subst hs
    exact .inr ⟨hclears hset, pc_setPc _⟩
  case releaseLoad a m =>
    obtain ⟨rfl, rfl⟩ := hp
    simp only [stepRun, hpc, stepAcquire, stepRelease, Option.none_or, Option.some_or,
      Option.some.injEq] at hs
    rw [releaseLoop_eq hw hset] at hs
    subst hs
    refine .inl ⟨leaves_setPc _, ?_⟩
    rw [pc_setPc]
    exact ⟨rfl, rfl⟩
  case releaseSwap a m expected =>
    obtain ⟨rfl, rfl⟩ := hp
    simp only [stepRun, hpc, stepAcquire, stepRelease, Option.none_or] at hs
    rw [releaseLoop_eq hw hset] at hs
    split_ifs at hs with hsame <;> simp only [Option.some_or, Option.some.injEq] at hs <;> subst hs
    · obtain ⟨rfl, -⟩ := hsame
      exact .inr ⟨hclears hset, pc_setPc _⟩
    · refine .inl ⟨leaves_setPc _, ?_⟩
      rw [pc_setPc]
      exact ⟨rfl, rfl⟩

/-! ### The words passed by -/

section Progress

omit [DecidableEq τ]

theorem startWord_lt {b : ℕ} (hb : b < Z.SIZE_IN_BITS) : startWord b < Z.NUM_WORDS := by
  unfold startWord Size.NUM_WORDS BITS_PER_WORD
  omega

/-- A clear bit of a word. -/
theorem getMsbD_of_clear {b : ℕ} (hb : ¬ s.Bit b) (hw : startWord b = w) :
    (~~~s.bits.words w).getMsbD (b % BITS_PER_WORD) = true := by
  subst hw
  rw [BitVec.getMsbD_not, Bool.and_eq_true, decide_eq_true_eq]
  exact ⟨mod_lt b, by simpa [State.Bit, startWord] using hb⟩

theorem noRun_of_full (hn : 1 ≤ n) (hfull : s.bits.words w = BitVec.allOnes 64) : NoRunIn Z s n w := by
  intro start hw hrun
  have hclear := getMsbD_of_clear (hrun.clear start ⟨le_rfl, by omega⟩) hw
  rw [hfull] at hclear
  simp at hclear

theorem noRun_beyond (hn : 1 ≤ n) (hw : Z.NUM_WORDS ≤ w) : NoRunIn Z s n w := by
  intro start hstart hrun
  have hlt := startWord_lt (Z := Z) (b := start) (by have := hrun.fits; omega)
  omega

/-- The places of a free run are a candidate of the erosion. -/
theorem erode_of_freeRun (hn : 1 ≤ n) (hrun : FreeRun Z s n start) (hw : startWord start = w) :
    (erode (~~~s.bits.words w) n).getMsbD (start % BITS_PER_WORD + (n - 1)) = true := by
  rw [getMsbD_erode hn]
  intro k hk
  refine ⟨by omega, ?_⟩
  have hsingle := hrun.single
  have hb : startWord (start + (n - 1) - k) = w := by
    unfold startWord endWord BITS_PER_WORD at *
    omega
  have hclear := getMsbD_of_clear (hrun.clear (start + (n - 1) - k) ⟨by omega, by omega⟩) hb
  have hmod : (start + (n - 1) - k) % BITS_PER_WORD = start % BITS_PER_WORD + (n - 1) - k := by
    unfold startWord endWord BITS_PER_WORD at *
    omega
  rwa [hmod] at hclear

/-- The words of the chunks before the one a scan is at have no free run. -/
def Past (Z : Size) (s : State τ) (S : Scan) (i : ℕ) : Prop :=
  ∀ j < i, ∀ w < WORDS_PER_SCAN_CHUNK, NoRunIn Z s S.numBits (S.wordIdx Z j w)

/-- A scan for `n` bits is past words without a free run. -/
structure Passed (Z : Size) (s : State τ) (S : Scan) (i w : ℕ) : Prop where
  pos : 1 ≤ S.numBits
  chunk : S.startChunk < Z.NUM_SCAN_CHUNKS
  before : i ≤ Z.NUM_SCAN_CHUNKS
  past : Past Z s S i
  words : ∀ v < w, NoRunIn Z s S.numBits (S.wordIdx Z i v)

/-- Where a scan is, nobody else having changed the bits since it began. -/
def ScanAt (Z : Size) (s : State τ) (n : ℕ) : Pc → Prop
  | .loadHint m _ => m = n ∧ 1 ≤ n
  | .chunkIsFull S i w => S.numBits = n ∧ Passed Z s S i w ∧ i < Z.NUM_SCAN_CHUNKS
  | .scanLoad S i w => S.numBits = n ∧ Passed Z s S i w ∧ i < Z.NUM_SCAN_CHUNKS
  | .scanOr S i w bitPos => S.numBits = n ∧ Passed Z s S i w ∧ i < Z.NUM_SCAN_CHUNKS
      ∧ (~~~s.bits.words (S.wordIdx Z i w)).getMsbD bitPos = true ∧ n = 1
  | .scanSwap S i w word => S.numBits = n ∧ Passed Z s S i w ∧ i < Z.NUM_SCAN_CHUNKS
      ∧ word = s.bits.words (S.wordIdx Z i w)
  | .found none => ∀ start, ¬ FreeRun Z s n start
  | _ => False

theorem Passed.congr (h : Passed Z s S i w) (hbit : ∀ b, s'.Bit b ↔ s.Bit b) :
    Passed Z s' S i w :=
  ⟨h.pos, h.chunk, h.before, fun j hj v hv => (h.past j hj v hv).congr hbit,
    fun v hv => (h.words v hv).congr hbit⟩

theorem scanAt_enterChunk (h : Passed Z s S i 0) : ScanAt Z s S.numBits (enterChunk Z S i) := by
  unfold enterChunk
  split_ifs with hi
  · exact ⟨rfl, h, hi⟩
  · -- every chunk has been passed
    intro start hrun
    have hpos := h.pos
    have hlt := startWord_lt (Z := Z) (b := start) (by have := hrun.fits; omega)
    have hchunk := h.chunk
    have hc : startWord start / 2 < Z.NUM_SCAN_CHUNKS := by
      unfold Size.NUM_SCAN_CHUNKS WORDS_PER_SCAN_CHUNK
      omega
    have hword : S.wordIdx Z ((startWord start / 2 + (Z.NUM_SCAN_CHUNKS - S.startChunk))
        % Z.NUM_SCAN_CHUNKS) (startWord start % 2) = startWord start := by
      unfold Scan.wordIdx WORDS_PER_SCAN_CHUNK
      rw [Nat.add_mod_mod, show S.startChunk + (startWord start / 2
        + (Z.NUM_SCAN_CHUNKS - S.startChunk)) = startWord start / 2 + Z.NUM_SCAN_CHUNKS by omega,
        Nat.add_mod_right, Nat.mod_eq_of_lt hc]
      omega
    have hi' : (startWord start / 2 + (Z.NUM_SCAN_CHUNKS - S.startChunk)) % Z.NUM_SCAN_CHUNKS < i := by
      have := Nat.mod_lt (startWord start / 2 + (Z.NUM_SCAN_CHUNKS - S.startChunk))
        (Nat.zero_lt_of_lt hchunk)
      omega
    exact h.past _ hi' _ (Nat.mod_lt _ (by decide)) start hword.symm hrun

/-- A chunk without a free run is passed. -/
theorem Passed.next (h : Passed Z s S i w) (hi : i < Z.NUM_SCAN_CHUNKS)
    (hall : ∀ v < WORDS_PER_SCAN_CHUNK, NoRunIn Z s S.numBits (S.wordIdx Z i v)) :
    Passed Z s S (i + 1) 0 := by
  refine ⟨h.pos, h.chunk, hi, fun j hj v hv => ?_, fun v hv => absurd hv (Nat.not_lt_zero _)⟩
  rcases Nat.lt_succ_iff_lt_or_eq.1 hj with hj | rfl
  · exact h.past j hj v hv
  · exact hall v hv

theorem scanAt_enterWord (h : Passed Z s S i w) (hi : i < Z.NUM_SCAN_CHUNKS) :
    ScanAt Z s S.numBits (enterWord Z S i w) := by
  unfold enterWord
  split_ifs with hw
  · exact ⟨rfl, h, hi⟩
  · refine scanAt_enterChunk (h.next hi fun v hv => ?_)
    rcases lt_or_ge v w with hvw | hvw
    · exact h.words v hvw
    · refine noRun_beyond h.pos ?_
      unfold Scan.wordIdx WORDS_PER_SCAN_CHUNK at *
      omega

theorem Passed.word (h : Passed Z s S i w) (hw : NoRunIn Z s S.numBits (S.wordIdx Z i w)) :
    Passed Z s S i (w + 1) := by
  refine ⟨h.pos, h.chunk, h.before, h.past, fun v hv => ?_⟩
  rcases Nat.lt_succ_iff_lt_or_eq.1 hv with hv | rfl
  · exact h.words v hv
  · exact hw

/-- A word that is passed by has no free run. -/
theorem scanAt_tryWord (h : Passed Z s S i w) (hi : i < Z.NUM_SCAN_CHUNKS) :
    ScanAt Z s S.numBits (tryWord Z S i w (s.bits.words (S.wordIdx Z i w))) := by
  have hpos := h.pos
  have hmul : ∀ start, startWord start = S.wordIdx Z i w →
      start = S.wordIdx Z i w * 64 + start % 64 := by
    intro start hstart
    unfold startWord BITS_PER_WORD at hstart
    omega
  unfold tryWord
  split_ifs with hfull hone hlt hzero hlt
  · exact scanAt_enterWord (h.word (noRun_of_full h.pos hfull)) hi
  · -- the first clear bit is outside the set
    refine scanAt_enterWord (h.word fun start hstart hrun => ?_) hi
    have hclear := getMsbD_of_clear (hrun.clear start ⟨le_rfl, by omega⟩) hstart
    have hne : ~~~s.bits.words (S.wordIdx Z i w) ≠ 0#64 := by
      intro hz
      rw [hz] at hclear
      simp at hclear
    have hfits := hrun.fits
    have heq := hmul start hstart
    have hle : clz (~~~s.bits.words (S.wordIdx Z i w)) ≤ start % 64 := by
      by_contra hgt
      rw [(clz_spec hne).2.2 (start % BITS_PER_WORD) (not_le.1 hgt)] at hclear
      cases hclear
    unfold BITS_PER_WORD at hlt
    omega
  · have hne : ~~~s.bits.words (S.wordIdx Z i w) ≠ 0#64 := by
      intro hz
      refine hfull ?_
      rw [← BitVec.not_not (b := s.bits.words _), hz]
      decide
    exact ⟨rfl, h, hi, (clz_spec hne).2.1, hone⟩
  · -- the erosion leaves nothing
    refine scanAt_enterWord (h.word fun start hstart hrun => ?_) hi
    have herode := erode_of_freeRun hpos hrun hstart
    rw [hzero] at herode
    simp at herode
  · -- the first run reaches out of the set
    refine scanAt_enterWord (h.word fun start hstart hrun => ?_) hi
    have herode := erode_of_freeRun hpos hrun hstart
    have hfits := hrun.fits
    have heq := hmul start hstart
    have hle : clz (erode (~~~s.bits.words (S.wordIdx Z i w)) S.numBits)
        ≤ start % 64 + (S.numBits - 1) := by
      by_contra hgt
      rw [(clz_spec hzero).2.2 (start % BITS_PER_WORD + (S.numBits - 1)) (not_le.1 hgt)] at herode
      cases herode
    unfold BITS_PER_WORD at hlt
    omega
  · exact ⟨rfl, h, hi, rfl⟩

end Progress

omit [DecidableEq τ] in
/-- The mask of one bit that is clear. -/
theorem and_eq_zero_of_clear {bitPos : ℕ} (hclear : (~~~s.bits.words w).getMsbD bitPos = true) :
    s.bits.words w &&& (1#64 <<< (63 - bitPos)) = 0#64 := by
  have hpos : bitPos < 64 := by
    by_contra hge
    rw [BitVec.getMsbD_of_ge _ _ (not_lt.1 hge)] at hclear
    cases hclear
  rw [and_eq_zero_iff]
  intro b hb hbit
  rw [single_bit_mask hpos, covers_createBitMask (by omega)] at hb
  unfold InRange BITS_PER_WORD at hb
  have hplace : b / BITS_PER_WORD = w ∧ b % BITS_PER_WORD = bitPos := by
    unfold BITS_PER_WORD
    omega
  unfold State.Bit at hbit
  rw [hplace.1, hplace.2] at hbit
  rw [BitVec.getMsbD_not, hbit] at hclear
  simp at hclear

/-- A step of a scan goes on past the words it finds without a run. -/
theorem scanAt_step {spurious : Bool} (hp : ScanAt Z s n (s.pc t)) (hnot : s.pc t ≠ .found none)
    (hs : stepRun Z s t spurious = some s') :
    (∀ b, s'.Bit b ↔ s.Bit b) ∧ ScanAt Z s' n (s'.pc t) ∨ (s'.pc t).taken? ≠ none := by
  have goOn : ∀ {p}, ScanAt Z s n p → s' = s.setPc t p →
      (∀ b, s'.Bit b ↔ s.Bit b) ∧ ScanAt Z s' n (s'.pc t) ∨ (s'.pc t).taken? ≠ none := by
    rintro p hp rfl
    refine .inl ⟨fun _ => Iff.rfl, ?_⟩
    rw [pc_setPc]
    cases p <;> try exact hp
    case chunkIsFull S i w => exact ⟨hp.1, hp.2.1.congr fun _ => Iff.rfl, hp.2.2⟩
    case scanLoad S i w => exact ⟨hp.1, hp.2.1.congr fun _ => Iff.rfl, hp.2.2⟩
    case scanOr S i w bitPos => exact ⟨hp.1, hp.2.1.congr fun _ => Iff.rfl, hp.2.2⟩
    case scanSwap S i w word => exact ⟨hp.1, hp.2.1.congr fun _ => Iff.rfl, hp.2.2⟩
    case found r =>
      cases r with
      | none => exact fun start hrun => hp start ⟨hrun.fits, hrun.single, hrun.clear⟩
      | some b => exact hp.elim
  cases hpc : s.pc t <;> rw [hpc] at hp hnot <;> try exact hp.elim
  case loadHint m offset =>
    obtain ⟨rfl, hpos⟩ := hp
    simp only [stepRun, hpc, stepAcquire, stepRelease, stepScan, Option.none_or,
      Option.some.injEq] at hs
    have hchunks : 0 < Z.NUM_SCAN_CHUNKS := by
      have := Z.le
      unfold Size.NUM_SCAN_CHUNKS Size.NUM_WORDS WORDS_PER_SCAN_CHUNK BITS_PER_WORD
      omega
    refine goOn (scanAt_enterChunk ⟨hpos, Nat.mod_lt _ hchunks, Nat.zero_le _,
      fun j hj => absurd hj (Nat.not_lt_zero _), fun v hv => absurd hv (Nat.not_lt_zero _)⟩) hs.symm
  case chunkIsFull S i w =>
    obtain ⟨rfl, hpast, hi⟩ := hp
    simp only [stepRun, hpc, stepAcquire, stepRelease, stepScan, Option.none_or] at hs
    split_ifs at hs with hfull hnext <;> obtain rfl := Option.some.inj hs
    · refine goOn (scanAt_enterWord ⟨hpast.pos, hpast.chunk, hpast.before, hpast.past,
        fun v hv => absurd hv (Nat.not_lt_zero _)⟩ hi) rfl
    · exact goOn (p := .chunkIsFull S i (w + 1))
        ⟨rfl, hpast.word (noRun_of_full hpast.pos (not_not.1 hfull)), hi⟩ rfl
    · have hword := hpast.word (noRun_of_full hpast.pos (not_not.1 hfull))
      exact goOn (scanAt_enterChunk (hpast.next hi fun v hv => hword.words v (by omega))) rfl
  case scanLoad S i w =>
    obtain ⟨rfl, hpast, hi⟩ := hp
    simp only [stepRun, hpc, stepAcquire, stepRelease, stepScan, Option.none_or,
      Option.some.injEq] at hs
    exact goOn (scanAt_tryWord hpast hi) hs.symm
  case scanOr S i w bitPos =>
    obtain ⟨-, -, -, hclear, -⟩ := hp
    simp only [stepRun, hpc, stepAcquire, stepRelease, stepScan, Option.none_or] at hs
    have hfree := and_eq_zero_of_clear hclear
    rw [if_pos hfree] at hs
    obtain rfl := Option.some.inj hs
    refine .inr ?_
    rw [pc_setPc]
    exact Option.some_ne_none _
  case scanSwap S i w word =>
    obtain ⟨rfl, hpast, hi, rfl⟩ := hp
    simp only [stepRun, hpc, stepAcquire, stepRelease, stepScan, Option.none_or] at hs
    split_ifs at hs <;> obtain rfl := Option.some.inj hs
    · refine .inr ?_
      rw [pc_setPc]
      exact Option.some_ne_none _
    · exact goOn (scanAt_tryWord hpast hi) rfl
  case found r =>
    cases r with
    | none => exact absurd rfl hnot
    | some b => exact hp.elim

end MinStd.BitblockSet
