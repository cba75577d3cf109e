import MinStd.Proofs.BitblockAlone

/-!
# A search of the bitblock set while every other thread stands still

The set may hold any bits, if its unused ones are set, and the scan may begin at any chunk.  Alone,
the words a scan has passed by have no run (`ScanAt`), and what it takes is a run of clear bits;
each access takes it nearer to the end of the chunks (`Pc.searchRank`).
-/

namespace MinStd.BitblockSet

open Function

variable {τ : Type*} {Z : Size} {s₀ s s' : State τ} {t : τ} {start n : ℕ} {S : Scan} {i w : ℕ}

/-! ### Runs of clear bits -/

/-- The unused bits of the last word are set, and those of the padding word. -/
def TailSet (Z : Size) (s : State τ) : Prop :=
  ∀ b, Z.SIZE_IN_BITS ≤ b → b < Z.PADDED_NUM_WORDS * BITS_PER_WORD → s.Bit b

/-- A word has `n` consecutive clear bits. -/
def HasRun (s : State τ) (n w : ℕ) : Prop :=
  ∃ p, p + n ≤ BITS_PER_WORD ∧ ∀ k < n, (s.bits.words w).getMsbD (p + k) = false

theorem words_le_padded (Z : Size) : Z.NUM_WORDS ≤ Z.PADDED_NUM_WORDS
    ∧ Z.PADDED_NUM_WORDS ≤ Z.NUM_WORDS + 1 := by
  unfold Size.PADDED_NUM_WORDS Size.NUM_SCAN_CHUNKS WORDS_PER_SCAN_CHUNK
  omega

theorem bit_place (w p : ℕ) (hp : p < BITS_PER_WORD) :
    s.Bit (w * BITS_PER_WORD + p) ↔ (s.bits.words w).getMsbD p = true := by
  unfold State.Bit BITS_PER_WORD at *
  rw [show (w * 64 + p) / 64 = w by omega, show (w * 64 + p) % 64 = p by omega]

/-- The runs of clear bits that lie inside one word are the runs a scan may take. -/
theorem exists_freeRun_iff (hn : 1 ≤ n) (htail : TailSet Z s) :
    (∃ start, FreeRun Z s n start) ↔ ∃ w < Z.PADDED_NUM_WORDS, HasRun s n w := by
  constructor
  · rintro ⟨start, hfits, hsingle, hclear⟩
    have hlt := startWord_lt (Z := Z) (b := start) (by omega)
    have hinside : start % BITS_PER_WORD + n ≤ BITS_PER_WORD := by
      unfold startWord endWord BITS_PER_WORD at *
      omega
    refine ⟨startWord start, hlt.trans_le (words_le_padded Z).1, start % BITS_PER_WORD, hinside,
      fun k hk => ?_⟩
    have hbit := hclear (start + k) ⟨by omega, by omega⟩
    rw [show start + k = startWord start * BITS_PER_WORD + (start % BITS_PER_WORD + k) by
      unfold startWord BITS_PER_WORD; omega, bit_place _ _ (by omega)] at hbit
    simpa using hbit
  · rintro ⟨w, hw, p, hp, hclear⟩
    have hbit : ∀ b, InRange (w * BITS_PER_WORD + p) n b → ¬ s.Bit b := by
      rintro b ⟨h1, h2⟩
      obtain ⟨k, rfl⟩ := Nat.exists_eq_add_of_le h1
      rw [Nat.add_assoc, bit_place _ _ (by omega), hclear k (by omega)]
      decide
    refine ⟨w * BITS_PER_WORD + p, ?_, ?_, hbit⟩
    · by_contra hgt
      refine hbit (w * BITS_PER_WORD + p + n - 1) ⟨by omega, by omega⟩ (htail _ (by omega) ?_)
      have hmul : (w + 1) * BITS_PER_WORD ≤ Z.PADDED_NUM_WORDS * BITS_PER_WORD :=
        Nat.mul_le_mul_right _ hw
      rw [Nat.succ_mul] at hmul
      omega
    · unfold startWord endWord BITS_PER_WORD at *
      omega

/-! ### The accesses of a search -/

/-- The word of the chunk a search is at. -/
def InChunk : Pc → Prop
  | .chunkIsFull _ _ w => w < WORDS_PER_SCAN_CHUNK
  | .scanLoad _ _ w => w < WORDS_PER_SCAN_CHUNK
  | .scanOr _ _ w _ => w < WORDS_PER_SCAN_CHUNK
  | .scanSwap _ _ w _ => w < WORDS_PER_SCAN_CHUNK
  | _ => True

/-- A bound on the number of accesses to the end of a search, if no weak exchange fails. -/
def Pc.searchRank (Z : Size) : Pc → ℕ
  | .loadHint _ _ => 8 * Z.NUM_SCAN_CHUNKS + 9
  | .chunkIsFull _ i w => 8 * (Z.NUM_SCAN_CHUNKS - i) + 8 - w
  | .scanLoad _ i w => 8 * (Z.NUM_SCAN_CHUNKS - i) + 6 - 2 * w
  | .scanOr _ i w _ => 8 * (Z.NUM_SCAN_CHUNKS - i) + 5 - 2 * w
  | .scanSwap _ i w _ => 8 * (Z.NUM_SCAN_CHUNKS - i) + 5 - 2 * w
  | .advanceHint _ _ => 1
  | _ => 0

theorem inChunk_enterChunk : InChunk (enterChunk Z S i) := by
  unfold enterChunk
  split_ifs
  · exact Nat.zero_lt_two
  · trivial

theorem inChunk_enterWord : InChunk (enterWord Z S i w) := by
  unfold enterWord
  split_ifs with h
  · exact h.1
  · exact inChunk_enterChunk

theorem inChunk_tryWord {word : BitVec 64} (hw : w < WORDS_PER_SCAN_CHUNK) :
    InChunk (tryWord Z S i w word) := by
  unfold tryWord
  split_ifs <;> first | exact inChunk_enterWord | exact hw

theorem searchRank_enterChunk :
    (enterChunk Z S i).searchRank Z ≤ 8 * (Z.NUM_SCAN_CHUNKS - i) + 8 := by
  unfold enterChunk
  split_ifs <;> simp [Pc.searchRank]

theorem searchRank_enterWord (hi : i < Z.NUM_SCAN_CHUNKS) (hw : w ≤ WORDS_PER_SCAN_CHUNK) :
    (enterWord Z S i w).searchRank Z ≤ 8 * (Z.NUM_SCAN_CHUNKS - i) + 6 - 2 * w := by
  unfold enterWord
  split_ifs
  · exact le_rfl
  · have hnext := searchRank_enterChunk (Z := Z) (S := S) (i := i + 1)
    unfold WORDS_PER_SCAN_CHUNK at hw
    omega

theorem searchRank_tryWord (word : BitVec 64) (hi : i < Z.NUM_SCAN_CHUNKS)
    (hw : w < WORDS_PER_SCAN_CHUNK) :
    (tryWord Z S i w word).searchRank Z ≤ 8 * (Z.NUM_SCAN_CHUNKS - i) + 5 - 2 * w := by
  have hnext := searchRank_enterWord (S := S) hi (show w + 1 ≤ WORDS_PER_SCAN_CHUNK from hw)
  unfold tryWord
  split_ifs <;> first | exact le_rfl | (unfold WORDS_PER_SCAN_CHUNK at hw; omega)

variable [DecidableEq τ]

/-- A search that began in `s₀` has taken no bit yet. -/
structure Searching (Z : Size) (s₀ s : State τ) (t : τ) (n : ℕ) : Prop where
  bit : ∀ b, s.Bit b ↔ s₀.Bit b
  scanning : Scanning n (s.pc t)
  place : ScanAt Z s n (s.pc t)
  ok : PcOk Z (s.pc t)
  word : InChunk (s.pc t)

/-- A search that began in `s₀` has taken a run. -/
def Took (Z : Size) (s₀ s : State τ) (t : τ) (n : ℕ) : Prop :=
  ∃ start, FreeRun Z s₀ n start ∧ (∀ b, s.Bit b ↔ s₀.Bit b ∨ InRange start n b)
    ∧ (s.pc t = .advanceHint (start + n) start ∨ s.pc t = .found (some start))

/-- An access of a search keeps its parameters in bounds and takes it nearer to the end. -/
theorem search_step {spurious : Bool} (h : Searching Z s₀ s t n) (hnot : ¬ (s.pc t).done)
    (hs : stepRun Z s t spurious = some s') :
    PcOk Z (s'.pc t) ∧ InChunk (s'.pc t)
      ∧ (spurious = false → (s'.pc t).searchRank Z < (s.pc t).searchRank Z) := by
  obtain ⟨-, hscan, hplace, hok, hword⟩ := h
  cases hpc : s.pc t <;> rw [hpc] at hscan hplace hok hword hnot <;> try exact hscan.elim
  case found => exact absurd rfl hnot
  case loadHint m offset =>
    simp only [stepRun, hpc, stepAcquire, stepRelease, stepScan, Option.none_or,
      Option.some.injEq] at hs
    subst hs
    rw [pc_setPc]
    exact ⟨pcOk_enterChunk (S := ⟨m, _⟩) hok _, inChunk_enterChunk,
      fun _ => Nat.lt_succ_of_le searchRank_enterChunk⟩
  case chunkIsFull S i w =>
    obtain ⟨-, -, hi⟩ := hplace
    have hw : w < 2 := hword
    simp only [stepRun, hpc, stepAcquire, stepRelease, stepScan, Option.none_or] at hs
    split_ifs at hs with hfull hnext <;> obtain rfl := Option.some.inj hs <;> rw [pc_setPc]
    · have hrank := searchRank_enterWord (S := S) hi (Nat.zero_le _)
      exact ⟨pcOk_enterWord hok _ _, inChunk_enterWord,
        fun _ => hrank.trans_lt (by simp only [Pc.searchRank]; omega)⟩
    · exact ⟨hok, hnext, fun _ => by simp only [Pc.searchRank]; omega⟩
    · have hrank := searchRank_enterChunk (Z := Z) (S := S) (i := i + 1)
      exact ⟨pcOk_enterChunk hok _, inChunk_enterChunk,
        fun _ => hrank.trans_lt (by simp only [Pc.searchRank]; omega)⟩
  case scanLoad S i w =>
    obtain ⟨-, -, hi⟩ := hplace
    have hw : w < 2 := hword
    simp only [stepRun, hpc, stepAcquire, stepRelease, stepScan, Option.none_or,
      Option.some.injEq] at hs
    subst hs
    rw [pc_setPc]
    have hrank := searchRank_tryWord (S := S) (s.bits.words (S.wordIdx Z i w)) hi hword
    exact ⟨pcOk_tryWord hok _ _ _, inChunk_tryWord hword,
      fun _ => hrank.trans_lt (by simp only [Pc.searchRank]; omega)⟩
  case scanOr S i w bitPos =>
    obtain ⟨-, -, hi, hclear, -⟩ := hplace
    have hw : w < 2 := hword
    simp only [stepRun, hpc, stepAcquire, stepRelease, stepScan, Option.none_or] at hs
    rw [if_pos (and_eq_zero_of_clear hclear)] at hs
    obtain rfl := Option.some.inj hs
    rw [pc_setPc]
    exact ⟨trivial, trivial, fun _ => by simp only [Pc.searchRank]; omega⟩
  case scanSwap S i w word =>
    obtain ⟨rfl, -, hi, rfl⟩ := hplace
    have hw : w < 2 := hword
    simp only [stepRun, hpc, stepAcquire, stepRelease, stepScan, Option.none_or] at hs
    split_ifs at hs with hmatch <;> obtain rfl := Option.some.inj hs <;> rw [pc_setPc]
    · exact ⟨trivial, trivial, fun _ => by simp only [Pc.searchRank]; omega⟩
    · exact ⟨pcOk_tryWord hok.1 _ _ _, inChunk_tryWord hword,
        fun hfalse => absurd ⟨trivial, hfalse⟩ hmatch⟩

/-- A search that has taken nothing goes on, or takes a run. -/
theorem Searching.step {spurious : Bool} (h : Searching Z s₀ s t n) (hnot : ¬ (s.pc t).done)
    (hs : stepRun Z s t spurious = some s') : Searching Z s₀ s' t n ∨ Took Z s₀ s' t n := by
  have hfound : s.pc t ≠ .found none := fun heq => hnot (by rw [heq]; rfl)
  obtain ⟨hok, hword, -⟩ := search_step h hnot hs
  rcases scan_step h.ok h.scanning hfound hs with ⟨hl, hscan⟩ | ⟨start, htakes, hpc⟩
  · rcases scanAt_step h.place hfound hs with ⟨-, hat⟩ | htaken
    · exact .inl ⟨fun b => (hl.bit b).trans (h.bit b), hscan, hat, hok, hword⟩
    · exact absurd (taken_of_scanning hscan) htaken
  · refine .inr ⟨start, ⟨htakes.free.fits, htakes.free.single, fun b hb => ?_⟩, fun b => ?_,
      .inl hpc⟩
    · rw [← h.bit]
      exact htakes.free.clear b hb
    · rw [htakes.bit, h.bit]

/-- A search that has taken a run returns it. -/
theorem Took.step {spurious : Bool} (h : Took Z s₀ s t n) (hnot : ¬ (s.pc t).done)
    (hs : stepRun Z s t spurious = some s') : Took Z s₀ s' t n
      ∧ (s'.pc t).searchRank Z < (s.pc t).searchRank Z := by
  obtain ⟨start, hrun, hbit, hpc | hpc⟩ := h
  · obtain ⟨hl, hpc'⟩ := advance_step hpc hs
    refine ⟨⟨start, hrun, fun b => (hl.bit b).trans (hbit b), .inr hpc'⟩, ?_⟩
    rw [hpc, hpc']
    exact Nat.one_pos
  · exact absurd (by rw [hpc]; rfl) hnot

/-! ### The result -/

/-- What a search for `n` bits returns, and what it leaves behind. -/
structure Searched (Z : Size) (s s' : State τ) (n : ℕ) (r : Option ℕ) : Prop where
  none_iff : r = none ↔ ∀ w < Z.PADDED_NUM_WORDS, ¬ HasRun s n w
  inside : ∀ i, r = some i → i + n ≤ Z.SIZE_IN_BITS
  taken : ∀ i, r = some i → ∀ b, InRange i n b → ¬ s.Bit b ∧ s'.Bit b
  others : ∀ i, r = some i → ∀ b, ¬ InRange i n b → (s'.Bit b ↔ s.Bit b)
  unchanged : r = none → s'.bits.words = s.bits.words

omit [DecidableEq τ] in
theorem Searching.searched {r : Option ℕ} (h : Searching Z s s' t n) (hn : 1 ≤ n)
    (htail : TailSet Z s) (hr : s'.pc t = .found r) : Searched Z s s' n r := by
  obtain ⟨hbit, hscan, hplace, -, -⟩ := h
  rw [hr] at hscan hplace
  cases r with
  | some i => exact hscan.elim
  | none =>
    refine ⟨iff_of_true rfl fun w hw hrun => ?_, fun i hi => (nomatch hi), fun i hi => (nomatch hi),
      fun i hi => (nomatch hi), fun _ => words_eq_of_bit hbit⟩
    obtain ⟨start, hfree⟩ := (exists_freeRun_iff hn htail).2 ⟨w, hw, hrun⟩
    exact hplace start ⟨hfree.fits, hfree.single, fun b hb => (hbit b).not.2 (hfree.clear b hb)⟩

omit [DecidableEq τ] in
theorem Took.searched {r : Option ℕ} (h : Took Z s s' t n) (hn : 1 ≤ n) (htail : TailSet Z s)
    (hr : s'.pc t = .found r) : Searched Z s s' n r := by
  obtain ⟨start, hfree, hbit, hpc⟩ := h
  obtain rfl : r = some start := by
    rcases hpc with hpc | hpc <;> rw [hr] at hpc
    · cases hpc
    · exact Pc.found.inj hpc
  obtain ⟨w, hw, hrun⟩ := (exists_freeRun_iff hn htail).1 ⟨start, hfree⟩
  refine ⟨iff_of_false (Option.some_ne_none _) fun h => h w hw hrun, ?_, ?_, ?_, fun h => nomatch h⟩
  · rintro _ ⟨⟩
    exact hfree.fits
  · rintro _ ⟨⟩ b hb
    exact ⟨hfree.clear b hb, (hbit b).2 (.inr hb)⟩
  · rintro _ ⟨⟩ b hb
    exact (hbit b).trans (or_iff_left hb)

omit [DecidableEq τ] in
theorem searching_contiguous {offset : ℕ} (hn : 1 ≤ n) (hle : n ≤ 16)
    (hpc : s.pc t = acquireFirstAvailableContiguous n offset) : Searching Z s s t n := by
  refine ⟨fun _ => Iff.rfl, ?_, ?_, ?_, ?_⟩ <;> rw [hpc] <;>
    unfold acquireFirstAvailableContiguous acquireFirstAvailable
  all_goals
    rw [if_neg (by omega)]
    split_ifs with hone
  · exact hone.symm
  · exact rfl
  · exact ⟨hone.symm, hn⟩
  · exact ⟨rfl, hn⟩
  · exact ⟨le_rfl, by decide⟩
  · exact ⟨hn, hle⟩
  · trivial
  · trivial

/-- The call of `t` has returned what a search for `n` bits should. -/
def Searches (Z : Size) (s : State τ) (t : τ) (n : ℕ) (s' : State τ) : Prop :=
  ∃ r, s'.pc t = .found r ∧ Searched Z s s' n r

omit [DecidableEq τ] in
theorem Searching.searches (h : Searching Z s s' t n) (hn : 1 ≤ n) (htail : TailSet Z s)
    (hdone : (s'.pc t).done) : Searches Z s t n s' := by
  have hscan := h.scanning
  cases hr : s'.pc t <;> rw [hr] at hscan hdone <;> try exact hscan.elim
  case found r => exact ⟨r, hr, h.searched hn htail hr⟩
  all_goals cases hdone

omit [DecidableEq τ] in
theorem Took.searches (h : Took Z s s' t n) (hn : 1 ≤ n) (htail : TailSet Z s)
    (hdone : (s'.pc t).done) : Searches Z s t n s' := by
  obtain ⟨start, -, -, hpc⟩ := id h
  rcases hpc with hpc | hpc
  · rw [hpc] at hdone
    cases hdone
  · exact ⟨some start, hpc, h.searched hn htail hpc⟩

/-- Alone, a search for one to sixteen bits finds a run in a word if there is one, and takes it.
Wherever the call has come to, it goes on to return so. -/
theorem first_available_alone (offset : ℕ) (hn : 1 ≤ n) (hle : n ≤ 16) (htail : TailSet Z s)
    (hpc : s.pc t = acquireFirstAvailableContiguous n offset) (hcall : Call Z t s s') :
    Returns Z t (Searches Z s t n) s' ∧ ((s'.pc t).done → Searches Z s t n s') := by
  have h : Searching Z s s' t n ∨ Took Z s s' t n := by
    refine call_induction (I := fun s' => Searching Z s s' t n ∨ Took Z s s' t n) ?_
      (.inl (searching_contiguous hn hle hpc)) hcall
    rintro s₁ s₂ spurious (h | h) hnot hs
    · exact h.step hnot hs
    · exact .inr (h.step hnot hs).1
  have hend : ∀ s', Searching Z s s' t n ∨ Took Z s s' t n → (s'.pc t).done →
      Searches Z s t n s' := by
    rintro s' (h | h) hdone
    · exact h.searches hn htail hdone
    · exact h.searches hn htail hdone
  refine ⟨returns_of_rank (I := fun s' => Searching Z s s' t n ∨ Took Z s s' t n)
    (Pc.searchRank Z) ?_ hend h, hend s' h⟩
  rintro s₁ s₂ (h | h) hs
  · exact ⟨h.step hs.1 hs.2, (search_step h hs.1 hs.2).2.2 rfl⟩
  · exact ⟨.inr (h.step hs.1 hs.2).1, (h.step hs.1 hs.2).2⟩

/-- A run of two before it is passed by, and the last of the four clear bits is left. -/
theorem first_available_alone_second_word : ∃ s s' : State (Fin 1),
    s.bits.words 1 = 0xFF33C3FFFFFFFFFF#64 ∧ s'.bits.words 1 = 0xFF33FBFFFFFFFFFF#64
      ∧ s'.pc 0 = .found (some 82) ∧ Searches ⟨130, by decide⟩ s 0 3 s' := by
  let s : State (Fin 1) := ⟨⟨fun w => if w = 0 then 0xDB6DB6DB6DB6DB6D#64
    else if w = 1 then 0xFF33C3FFFFFFFFFF#64 else if w = 2 then 0x3FFFFFFFFFFFFFFF#64
    else BitVec.allOnes 64, 0⟩, fun _ => acquireFirstAvailableContiguous 3 0, fun _ => []⟩
  have hset : ∀ b < 256, 130 ≤ b → s.Bit b := by
    unfold State.Bit
    decide +kernel
  have htail : TailSet ⟨130, by decide⟩ s := fun b hge hlt => hset b hlt hge
  exact ⟨s, runFor ⟨130, by decide⟩ 0 8 s, by decide +kernel, by decide +kernel,
    by decide +kernel,
    (first_available_alone 0 (by decide) (by decide) htail rfl (call_runFor _ 0 8 s)).2
      (by decide +kernel)⟩

end MinStd.BitblockSet
