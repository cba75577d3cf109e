import MinStd.Proofs.BitMasks

/-!
# The bits of the bitblock set have one owner each

A set bit in range is either owned or held by one call in flight, which has set it and not yet
granted or cleared it, or is releasing it; an owned or held bit is set.  A call sets bits that are
clear, grants the ones it holds and has set, and clears only bits it holds, whatever the offset and
width of the range and however calls overlap, so an undo clears exactly what its own call set.
-/

namespace MinStd.BitblockSet

open Function

variable {τ : Type*} {Z : Size}

/-! ### Bits and words -/

/-- Bit `b` is set. -/
def State.Bit (s : State τ) (b : ℕ) : Prop :=
  (s.bits.words (b / BITS_PER_WORD)).getMsbD (b % BITS_PER_WORD) = true

theorem mod_lt (b : ℕ) : b % BITS_PER_WORD < 64 := Nat.mod_lt _ (by decide)

theorem bit_setWord (s : State τ) (w : ℕ) (x : BitVec 64) (b : ℕ) :
    (s.setWord w x).Bit b ↔ (b / BITS_PER_WORD = w ∧ x.getMsbD (b % BITS_PER_WORD) = true)
      ∨ (b / BITS_PER_WORD ≠ w ∧ s.Bit b) := by
  show (update s.bits.words w x (b / BITS_PER_WORD)).getMsbD (b % BITS_PER_WORD) = true ↔ _
  by_cases hw : b / BITS_PER_WORD = w
  · simp [hw]
  · simp [hw, State.Bit]

theorem bit_fetchOr (s : State τ) (w : ℕ) (mask : BitVec 64) (b : ℕ) :
    (s.fetchOr w mask).Bit b ↔ s.Bit b ∨ Covers w mask b := by
  unfold State.fetchOr Covers
  rw [bit_setWord, BitVec.getMsbD_or, Bool.or_eq_true]
  by_cases hw : b / BITS_PER_WORD = w
  · subst hw
    simp [State.Bit]
  · simp [hw]

theorem bit_fetchAnd (s : State τ) (w : ℕ) (mask : BitVec 64) (b : ℕ) :
    (s.fetchAnd w (~~~mask)).Bit b ↔ s.Bit b ∧ ¬ Covers w mask b := by
  unfold State.fetchAnd Covers
  rw [bit_setWord, BitVec.getMsbD_and, BitVec.getMsbD_not]
  by_cases hw : b / BITS_PER_WORD = w
  · subst hw
    simp [State.Bit, mod_lt]
  · simp [hw]

/-- The bits a mask covers are clear. -/
theorem and_eq_zero_iff (s : State τ) (w : ℕ) (mask : BitVec 64) :
    s.bits.words w &&& mask = 0#64 ↔ ∀ b, Covers w mask b → ¬ s.Bit b := by
  constructor
  · rintro h b ⟨rfl, hb⟩ hbit
    have hand : (s.bits.words (b / BITS_PER_WORD) &&& mask).getMsbD (b % BITS_PER_WORD) = true := by
      rw [BitVec.getMsbD_and, hb, Bool.and_true]
      exact hbit
    rw [h] at hand
    simp at hand
  · intro h
    refine BitVec.eq_of_getMsbD_eq fun i hi => ?_
    rw [BitVec.getMsbD_and, BitVec.getMsbD_zero]
    have hplace : (w * BITS_PER_WORD + i) / BITS_PER_WORD = w
        ∧ (w * BITS_PER_WORD + i) % BITS_PER_WORD = i := by
      unfold BITS_PER_WORD
      omega
    have hclear := h (w * BITS_PER_WORD + i)
    unfold Covers State.Bit at hclear
    rw [hplace.1, hplace.2] at hclear
    by_cases hm : mask.getMsbD i = true
    · simpa [hm] using hclear ⟨rfl, hm⟩
    · simp [hm]

/-- The bits a mask covers are set. -/
theorem and_eq_mask_iff (s : State τ) (w : ℕ) (mask : BitVec 64) :
    s.bits.words w &&& mask = mask ↔ ∀ b, Covers w mask b → s.Bit b := by
  constructor
  · rintro h b ⟨rfl, hb⟩
    rw [← h, BitVec.getMsbD_and, Bool.and_eq_true] at hb
    exact hb.1
  · intro h
    refine BitVec.eq_of_getMsbD_eq fun i hi => ?_
    rw [BitVec.getMsbD_and]
    have hplace : (w * BITS_PER_WORD + i) / BITS_PER_WORD = w
        ∧ (w * BITS_PER_WORD + i) % BITS_PER_WORD = i := by
      unfold BITS_PER_WORD
      omega
    have hset := h (w * BITS_PER_WORD + i)
    unfold Covers State.Bit at hset
    rw [hplace.1, hplace.2] at hset
    by_cases hm : mask.getMsbD i = true
    · simp [hm, hset ⟨rfl, hm⟩]
    · simp [hm]

/-- The part of a mask that is clear. -/
theorem covers_and_not (s : State τ) (w : ℕ) (mask : BitVec 64) (b : ℕ) :
    Covers w (mask &&& ~~~s.bits.words w) b ↔ Covers w mask b ∧ ¬ s.Bit b := by
  unfold Covers
  rw [BitVec.getMsbD_and, BitVec.getMsbD_not]
  by_cases hw : b / BITS_PER_WORD = w
  · subst hw
    simp [State.Bit, mod_lt]
  · simp [hw]

theorem not_covers_zero (w b : ℕ) : ¬ Covers w 0#64 b := by
  rintro ⟨-, h⟩
  simp at h

/-! ### What the calls in flight hold -/

/-- The bits a call has set and neither granted nor cleared, or is releasing. -/
def Pc.Holds : Pc → ℕ → Prop
  | .undoFirst start newlySet, b => Covers (startWord start) newlySet b
  | .acquireLast start _, b => Covers (startWord start) (firstMask start) b
  | .undoLast start n newlySet, b => Covers (startWord start) (firstMask start) b
      ∨ Covers (endWord start n) newlySet b
  | .giveBackFirst start, b => Covers (startWord start) (firstMask start) b
  | .releaseHint start n, b => InRange start n b
  | .releaseOne start, b => InRange start 1 b
  | .releaseLoad start n, b => InRange start n b
  | .releaseSwap start n _, b => InRange start n b
  | .releaseFirstLoad start n, b => InRange start n b
  | .releaseFirstSwap start n _, b => InRange start n b
  | .releaseLast start n, b => Covers (endWord start n) (lastMask start n) b
  | _, _ => False

/-- A request the validation lets through. -/
structure Valid (Z : Size) (start n : ℕ) : Prop where
  pos : 1 ≤ n
  le : n ≤ 16
  fits : start + n ≤ Z.SIZE_IN_BITS

theorem Valid.lt {start n b : ℕ} (h : Valid Z start n) (hb : InRange start n b) :
    b < Z.SIZE_IN_BITS := lt_of_lt_of_le hb.2 h.fits

theorem validateRequest_eq_success {start n : ℕ} (h : validateRequest Z start n = .success) :
    Valid Z start n := by
  unfold validateRequest at h
  split_ifs at h
  exact ⟨by omega, by omega, by omega⟩

/-- A scan for 1 to 16 bits. -/
def ScanOk (S : Scan) : Prop := 1 ≤ S.numBits ∧ S.numBits ≤ 16

/-- The run a scan has found in a word it read. -/
structure RunOk (Z : Size) (S : Scan) (i w : ℕ) (word : BitVec 64) : Prop where
  inside : startWord (S.bitIndex Z i w word) = S.wordIdx Z i w
  single : startWord (S.bitIndex Z i w word) = endWord (S.bitIndex Z i w word) S.numBits
  free : word &&& wordMask (S.bitIndex Z i w word) S.numBits = 0#64
  fits : S.bitIndex Z i w word + S.numBits ≤ Z.SIZE_IN_BITS

/-- What the parameters of a call in flight satisfy. -/
def PcOk (Z : Size) : Pc → Prop
  | .acquireOne start => Valid Z start 1
  | .acquireLoad start n => Valid Z start n ∧ startWord start = endWord start n
  | .acquireSwap start n expected => Valid Z start n ∧ startWord start = endWord start n
      ∧ expected &&& wordMask start n = 0#64
  | .acquireFirst start n => Valid Z start n ∧ startWord start ≠ endWord start n
  | .acquireLast start n => Valid Z start n ∧ startWord start ≠ endWord start n
  | .undoLast start n _ => startWord start ≠ endWord start n
  | .releaseHint start n => Valid Z start n
  | .releaseOne start => Valid Z start 1
  | .releaseLoad start n => Valid Z start n ∧ startWord start = endWord start n
  | .releaseSwap start n _ => Valid Z start n ∧ startWord start = endWord start n
  | .releaseFirstLoad start n => Valid Z start n ∧ startWord start ≠ endWord start n
  | .releaseFirstSwap start n _ => Valid Z start n ∧ startWord start ≠ endWord start n
  | .restoreLast _ _ _ => False
  | .restoreFirst _ => False
  | .loadHint n _ => 1 ≤ n ∧ n ≤ 16
  | .chunkIsFull S _ _ => ScanOk S
  | .scanLoad S _ _ => ScanOk S
  | .scanOr S i w bitPos => ScanOk S ∧ bitPos < 64
      ∧ S.wordIdx Z i w * BITS_PER_WORD + bitPos < Z.SIZE_IN_BITS
  | .scanSwap S i w word => ScanOk S ∧ RunOk Z S i w word
  | _ => True

theorem releaseLoop_eq {s : State τ} {start n : ℕ} (hw : startWord start = endWord start n)
    (hset : ∀ b, InRange start n b → s.Bit b) :
    releaseLoop start n (s.bits.words (startWord start))
      = .releaseSwap start n (s.bits.words (startWord start)) := by
  unfold releaseLoop
  rw [if_neg]
  exact not_not.2 ((and_eq_mask_iff s _ _).2 fun b hb => hset b ((covers_wordMask hw).1 hb))

theorem releaseFirstLoop_eq {s : State τ} {start n : ℕ} (hvalid : Valid Z start n)
    (hw : startWord start ≠ endWord start n) (hset : ∀ b, InRange start n b → s.Bit b) :
    releaseFirstLoop start n (s.bits.words (startWord start))
      = .releaseFirstSwap start n (s.bits.words (startWord start)) := by
  unfold releaseFirstLoop
  rw [if_neg]
  exact not_not.2 ((and_eq_mask_iff s _ _).2 fun b hb =>
    hset b ((inRange_split hvalid.pos hvalid.le hw).2 (.inl hb)))

structure Inv (Z : Size) (s : State τ) : Prop where
  owned_set : ∀ b t, t ∈ s.owners b → s.Bit b
  held_set : ∀ b t, (s.pc t).Holds b → s.Bit b
  one_owner : ∀ b, (s.owners b).length ≤ 1
  not_both : ∀ b t u, t ∈ s.owners b → ¬ (s.pc u).Holds b
  one_holder : ∀ b t u, (s.pc t).Holds b → (s.pc u).Holds b → t = u
  accounted : ∀ b < Z.SIZE_IN_BITS, s.Bit b → s.owners b ≠ [] ∨ ∃ t, (s.pc t).Holds b
  owned_lt : ∀ b t, t ∈ s.owners b → b < Z.SIZE_IN_BITS
  held_lt : ∀ b t, (s.pc t).Holds b → b < Z.SIZE_IN_BITS
  pc : ∀ t, PcOk Z (s.pc t)

variable [DecidableEq τ]

/-- What an access of `t` does to the bits: `C` are cleared, `G` are set, and of what `t` then holds
`R` are granted. -/
structure Change (Z : Size) (s s' : State τ) (t : τ) (p : Pc) (C G R : ℕ → Prop) : Prop where
  pc : s'.pc = update s.pc t p
  bit : ∀ b, s'.Bit b ↔ (s.Bit b ∧ ¬ C b) ∨ G b
  cleared : ∀ b, C b → (s.pc t).Holds b
  gained : ∀ b, G b → ¬ s.Bit b ∧ b < Z.SIZE_IN_BITS
  granted : ∀ b, R b → (s.pc t).Holds b ∧ ¬ C b ∨ G b
  holds : ∀ b, p.Holds b ↔ ((s.pc t).Holds b ∧ ¬ C b ∨ G b) ∧ ¬ R b
  owners_of : ∀ b, R b → s'.owners b = t :: s.owners b
  owners_ne : ∀ b, ¬ R b → s'.owners b = s.owners b

theorem Inv.change {s s' : State τ} {t : τ} {p : Pc} {C G R : ℕ → Prop} (h : Inv Z s)
    (hc : Change Z s s' t p C G R) (hp : PcOk Z p) : Inv Z s' := by
  -- what `t` holds after the access, granted or not, it held before or has just set
  have mine : ∀ b, (s.pc t).Holds b ∧ ¬ C b ∨ G b → s'.Bit b ∧ s.owners b = []
      ∧ b < Z.SIZE_IN_BITS ∧ ∀ u ≠ t, ¬ (s.pc u).Holds b := by
    rintro b (⟨hb, hcb⟩ | hg)
    · refine ⟨(hc.bit b).2 (.inl ⟨h.held_set b t hb, hcb⟩), ?_, h.held_lt b t hb,
        fun u hu hub => hu (h.one_holder b u t hub hb)⟩
      refine List.eq_nil_iff_forall_not_mem.2 fun v hv => h.not_both b v t hv hb
    · obtain ⟨hclear, hlt⟩ := hc.gained b hg
      refine ⟨(hc.bit b).2 (.inr hg), ?_, hlt, fun u _ hub => hclear (h.held_set b u hub)⟩
      exact List.eq_nil_iff_forall_not_mem.2 fun v hv => hclear (h.owned_set b v hv)
  have others : ∀ b u, u ≠ t → (s'.pc u).Holds b → (s.pc u).Holds b := by
    intro b u hu hb
    rwa [hc.pc, update_of_ne hu] at hb
  have own : ∀ b, (s'.pc t).Holds b → ((s.pc t).Holds b ∧ ¬ C b ∨ G b) ∧ ¬ R b := by
    intro b hb
    rw [hc.pc, update_self] at hb
    exact (hc.holds b).1 hb
  have kept : ∀ b, s.Bit b → ¬ C b → s'.Bit b := fun b hb hcb => (hc.bit b).2 (.inl ⟨hb, hcb⟩)
  -- an owner's bits and the other calls' are not cleared
  have owned_kept : ∀ b u, u ∈ s.owners b → ¬ C b := fun b u hu hcb =>
    h.not_both b u t hu (hc.cleared b hcb)
  have held_kept : ∀ b u, u ≠ t → (s.pc u).Holds b → ¬ C b := fun b u hu hub hcb =>
    hu (h.one_holder b u t hub (hc.cleared b hcb))
  refine ⟨fun b u hu => ?_, fun b u hu => ?_, fun b => ?_, fun b u v hu hv => ?_,
    fun b u v hu hv => ?_, fun b hlt hb => ?_, fun b u hu => ?_, fun b u hu => ?_, fun u => ?_⟩
  · by_cases hr : R b
    · exact (mine b (hc.granted b hr)).1
    · rw [hc.owners_ne b hr] at hu
      exact kept b (h.owned_set b u hu) (owned_kept b u hu)
  · by_cases hut : u = t
    · subst hut
      exact (mine b (own b hu).1).1
    · have hu' := others b u hut hu
      exact kept b (h.held_set b u hu') (held_kept b u hut hu')
  · by_cases hr : R b
    · rw [hc.owners_of b hr, (mine b (hc.granted b hr)).2.1]
      exact le_rfl
    · rw [hc.owners_ne b hr]
      exact h.one_owner b
  · by_cases hvt : v = t
    · subst hvt
      obtain ⟨h1, h2⟩ := own b hv
      rw [hc.owners_ne b h2, (mine b h1).2.1] at hu
      cases hu
    · have hv' := others b v hvt hv
      by_cases hr : R b
      · exact (mine b (hc.granted b hr)).2.2.2 v hvt hv'
      · rw [hc.owners_ne b hr] at hu
        exact h.not_both b u v hu hv'
  · by_cases hut : u = t <;> by_cases hvt : v = t
    · rw [hut, hvt]
    · subst hut
      exact absurd (others b v hvt hv) ((mine b (own b hu).1).2.2.2 v hvt)
    · subst hvt
      exact absurd (others b u hut hu) ((mine b (own b hv).1).2.2.2 u hut)
    · exact h.one_holder b u v (others b u hut hu) (others b v hvt hv)
  · by_cases hr : R b
    · refine .inl ?_
      rw [hc.owners_of b hr]
      exact List.cons_ne_nil _ _
    · rw [hc.owners_ne b hr]
      have hold : ∀ u, (s.pc u).Holds b ∧ ¬ C b ∨ G b ∧ u = t → ∃ u, (s'.pc u).Holds b := by
        intro u hu
        by_cases hut : u = t
        · refine ⟨t, ?_⟩
          rw [hc.pc, update_self]
          exact (hc.holds b).2 ⟨hut ▸ hu.imp id And.left, hr⟩
        · refine ⟨u, ?_⟩
          rw [hc.pc, update_of_ne hut]
          exact hu.elim And.left fun hu => absurd hu.2 hut
      rcases (hc.bit b).1 hb with ⟨hb, hcb⟩ | hg
      · exact (h.accounted b hlt hb).imp id fun ⟨u, hu⟩ => hold u (.inl ⟨hu, hcb⟩)
      · exact .inr (hold t (.inr ⟨hg, rfl⟩))
  · by_cases hr : R b
    · exact (mine b (hc.granted b hr)).2.2.1
    · rw [hc.owners_ne b hr] at hu
      exact h.owned_lt b u hu
  · by_cases hut : u = t
    · subst hut
      exact (mine b (own b hu).1).2.2.1
    · exact h.held_lt b u (others b u hut hu)
  · rw [hc.pc]
    by_cases hut : u = t
    · rw [hut, update_self]
      exact hp
    · rw [update_of_ne hut]
      exact h.pc u

/-! ### The accesses -/

section Accesses

variable {s : State τ} {t : τ} {p : Pc}

/-- An access that changes no bit. -/
theorem Inv.keep {s' : State τ} (h : Inv Z s) (hpc : s'.pc = update s.pc t p)
    (hwords : s'.bits.words = s.bits.words) (howners : s'.owners = s.owners)
    (hholds : ∀ b, p.Holds b ↔ (s.pc t).Holds b) (hp : PcOk Z p) : Inv Z s' := by
  refine h.change (t := t) (p := p) (C := fun _ => False) (G := fun _ => False)
    (R := fun _ => False) ⟨hpc, fun b => ?_, fun _ => False.elim, fun _ => False.elim,
      fun _ => False.elim, fun b => ?_, fun _ => False.elim, fun b _ => by rw [howners]⟩ hp
  · unfold State.Bit
    rw [hwords]
    simp
  · simpa using hholds b

theorem Inv.goOn (h : Inv Z s) (hnone : ∀ b, ¬ (s.pc t).Holds b) (hnone' : ∀ b, ¬ p.Holds b)
    (hp : PcOk Z p) : Inv Z (s.setPc t p) :=
  h.keep rfl rfl rfl (fun b => iff_of_false (hnone' b) (hnone b)) hp

/-- Bits of a mask that are clear are set, and the call holds them. -/
theorem Inv.set (h : Inv Z s) {w : ℕ} {mask : BitVec 64}
    (hlt : ∀ b, Covers w mask b → b < Z.SIZE_IN_BITS)
    (hholds : ∀ b, p.Holds b ↔ (s.pc t).Holds b ∨ Covers w mask b ∧ ¬ s.Bit b) (hp : PcOk Z p) :
    Inv Z ((s.fetchOr w mask).setPc t p) := by
  refine h.change (C := fun _ => False) (G := fun b => Covers w mask b ∧ ¬ s.Bit b)
    (R := fun _ => False) ⟨rfl, fun b => ?_, fun _ => False.elim, fun b hb => ⟨hb.2, hlt b hb.1⟩,
      fun _ => False.elim, fun b => ?_, fun _ => False.elim, fun _ _ => rfl⟩ hp
  · refine (bit_fetchOr s w mask b).trans ?_
    by_cases hb : s.Bit b <;> simp [hb]
  · simpa using hholds b

/-- A mask's only bit is set already. -/
theorem Inv.setBusy (h : Inv Z s) {w : ℕ} {mask : BitVec 64}
    (hone : ∀ b c, Covers w mask b → Covers w mask c → b = c)
    (hbusy : s.bits.words w &&& mask ≠ 0#64) (hlt : ∀ b, Covers w mask b → b < Z.SIZE_IN_BITS)
    (hholds : ∀ b, p.Holds b ↔ (s.pc t).Holds b) (hp : PcOk Z p) :
    Inv Z ((s.fetchOr w mask).setPc t p) := by
  refine h.set hlt (fun b => (hholds b).trans (or_iff_left ?_).symm) hp
  rintro ⟨hb, hclear⟩
  refine hbusy ((and_eq_zero_iff s _ _).2 fun c hc => ?_)
  rwa [hone c b hc hb]

/-- Bits of a mask, all clear, are set, and the range they complete is granted. -/
theorem Inv.grant (h : Inv Z s) {start n : ℕ} (w : ℕ) (mask : BitVec 64)
    (hclear : ∀ b, Covers w mask b → ¬ s.Bit b)
    (hlt : ∀ b, Covers w mask b → b < Z.SIZE_IN_BITS)
    (hrange : ∀ b, InRange start n b ↔ (s.pc t).Holds b ∨ Covers w mask b)
    (hnone : ∀ b, ¬ p.Holds b) (hp : PcOk Z p) :
    Inv Z (((s.fetchOr w mask).grant t start n).setPc t p) := by
  refine h.change (C := fun _ => False) (G := Covers w mask) (R := InRange start n)
    ⟨rfl, fun b => ?_, fun _ => False.elim, fun b hb => ⟨hclear b hb, hlt b hb⟩, fun b hb => ?_,
      fun b => ?_, fun b hb => if_pos hb, fun b hb => if_neg hb⟩ hp
  · refine (bit_fetchOr s w mask b).trans ?_
    simp
  · simpa using (hrange b).1 hb
  · refine iff_of_false (hnone b) fun hb => hb.2 ((hrange b).2 ?_)
    simpa using hb.1

/-- Bits the call holds are cleared. -/
theorem Inv.clear (h : Inv Z s) (w : ℕ) (mask : BitVec 64)
    (hheld : ∀ b, Covers w mask b → (s.pc t).Holds b)
    (hholds : ∀ b, p.Holds b ↔ (s.pc t).Holds b ∧ ¬ Covers w mask b) (hp : PcOk Z p) :
    Inv Z ((s.fetchAnd w (~~~mask)).setPc t p) := by
  refine h.change (C := Covers w mask) (G := fun _ => False) (R := fun _ => False)
    ⟨rfl, fun b => ?_, hheld, fun _ => False.elim, fun _ => False.elim, fun b => ?_,
      fun _ => False.elim, fun _ _ => rfl⟩ hp
  · refine (bit_fetchAnd s w mask b).trans ?_
    simp
  · simpa using hholds b

end Accesses

/-! ### `acquire` -/

theorem holds_acquireLoop (start n : ℕ) (expected : BitVec 64) (b : ℕ) :
    ¬ (acquireLoop start n expected).Holds b := by
  unfold acquireLoop
  split_ifs <;> exact id

theorem pcOk_acquireLoop {start n : ℕ} {expected : BitVec 64} (h : Valid Z start n)
    (hw : startWord start = endWord start n) : PcOk Z (acquireLoop start n expected) := by
  unfold acquireLoop
  split_ifs with hc
  · trivial
  · exact ⟨h, hw, not_not.1 hc⟩

theorem Inv.stepAcquire {s s' : State τ} {t : τ} {spurious : Bool} (h : Inv Z s)
    (hs : stepAcquire s t spurious = some s') : Inv Z s' := by
  have hok := h.pc t
  unfold BitblockSet.stepAcquire at hs
  cases hp : s.pc t <;> simp only [hp, reduceCtorEq, Option.some.injEq] at hs <;> rw [hp] at hok
  case acquireOne start =>
    have hsingle : startWord start = endWord start 1 := by
      unfold endWord
      rfl
    have hlt : ∀ b, Covers (startWord start) (wordMask start 1) b → b < Z.SIZE_IN_BITS :=
      fun b hb => Valid.lt hok ((covers_wordMask hsingle).1 hb)
    split_ifs at hs with hbusy <;> obtain rfl := Option.some.inj hs
    · refine h.setBusy (fun b c hb hc => ?_) hbusy hlt (fun b => ?_) trivial
      · have h1 := (covers_wordMask hsingle).1 hb
        have h2 := (covers_wordMask hsingle).1 hc
        unfold InRange at h1 h2
        omega
      · rw [hp]
        exact Iff.rfl
    · rw [not_not] at hbusy
      refine h.grant _ _ ((and_eq_zero_iff s _ _).1 hbusy) hlt (fun b => ?_) (fun _ => id) trivial
      rw [hp, covers_wordMask hsingle]
      exact (or_iff_right id).symm
  case acquireLoad start n =>
    subst hs
    refine h.keep rfl rfl rfl (fun b => ?_) (pcOk_acquireLoop hok.1 hok.2)
    rw [hp]
    exact iff_of_false (holds_acquireLoop _ _ _ b) id
  case acquireSwap start n expected =>
    obtain ⟨hvalid, hw, hfree⟩ := hok
    split_ifs at hs with hsame <;> obtain rfl := Option.some.inj hs
    · obtain ⟨rfl, -⟩ := hsame
      refine h.grant (startWord start) (wordMask start n)
        ((and_eq_zero_iff s _ _).1 hfree) (fun b hb => hvalid.lt ((covers_wordMask hw).1 hb))
        (fun b => ?_) (fun _ => id) trivial
      rw [hp, covers_wordMask hw]
      exact (or_iff_right id).symm
    · refine h.keep rfl rfl rfl (fun b => ?_) (pcOk_acquireLoop hvalid hw)
      rw [hp]
      exact iff_of_false (holds_acquireLoop _ _ _ b) id
  case acquireFirst start n =>
    obtain ⟨hvalid, hw⟩ := hok
    have hlt : ∀ b, Covers (startWord start) (firstMask start) b → b < Z.SIZE_IN_BITS :=
      fun b hb => hvalid.lt ((inRange_split hvalid.pos hvalid.le hw).2 (.inl hb))
    split_ifs at hs with hbusy hnew <;> obtain rfl := Option.some.inj hs
    · refine h.set hlt (fun b => ?_) trivial
      rw [hp]
      exact (covers_and_not s _ _ b).trans (or_iff_right id).symm
    · refine h.set hlt (fun b => ?_) trivial
      rw [not_not] at hnew
      rw [hp]
      refine iff_of_false id ?_
      rintro (hf | hb)
      · exact hf
      · rw [← covers_and_not, hnew] at hb
        exact not_covers_zero _ _ hb
    · rw [not_not, and_eq_zero_iff] at hbusy
      refine h.set hlt (fun b => ?_) ⟨hvalid, hw⟩
      rw [hp]
      show Covers _ _ b ↔ False ∨ _
      rw [false_or, and_iff_left_of_imp (hbusy b)]
  case undoFirst start newlySet =>
    subst hs
    refine h.clear _ _ (fun b hb => ?_) (fun b => ?_) trivial
    · rw [hp]
      exact hb
    · rw [hp]
      exact iff_of_false id fun hb => hb.2 hb.1
  case acquireLast start n =>
    obtain ⟨hvalid, hw⟩ := hok
    have hlt : ∀ b, Covers (endWord start n) (lastMask start n) b → b < Z.SIZE_IN_BITS :=
      fun b hb => hvalid.lt ((inRange_split hvalid.pos hvalid.le hw).2 (.inr hb))
    split_ifs at hs with hbusy hnew <;> obtain rfl := Option.some.inj hs
    · refine h.set hlt (fun b => ?_) hw
      rw [hp]
      exact or_congr_right (covers_and_not s _ _ b)
    · refine h.set hlt (fun b => ?_) trivial
      rw [not_not] at hnew
      rw [hp, ← covers_and_not, hnew]
      exact (or_iff_left (not_covers_zero _ _)).symm
    · rw [not_not] at hbusy
      refine h.grant _ _ ((and_eq_zero_iff s _ _).1 hbusy) hlt (fun b => ?_) (fun _ => id) trivial
      rw [hp]
      exact inRange_split hvalid.pos hvalid.le hw
  case undoLast start n newlySet =>
    subst hs
    refine h.clear _ _ (fun b hb => ?_) (fun b => ?_) trivial
    · rw [hp]
      exact .inr hb
    · rw [hp]
      show Covers _ _ b ↔ (Covers _ _ b ∨ Covers _ _ b) ∧ _
      have hdisjoint : Covers (startWord start) (firstMask start) b →
          ¬ Covers (endWord start n) newlySet b := fun h1 h2 => hok (h1.1.symm.trans h2.1)
      by_cases hlast : Covers (endWord start n) newlySet b
      · exact iff_of_false (fun h1 => hdisjoint h1 hlast) fun hb => hb.2 hlast
      · simp [hlast]
  case giveBackFirst start =>
    subst hs
    refine h.clear _ _ (fun b hb => ?_) (fun b => ?_) trivial
    · rw [hp]
      exact hb
    · rw [hp]
      exact iff_of_false id fun hb => hb.2 hb.1

/-! ### `release` -/

theorem pcOk_releaseFrom {start n : ℕ} (h : Valid Z start n) : PcOk Z (releaseFrom start n) := by
  unfold releaseFrom
  split_ifs with hw hn
  · subst hn
    exact h
  · exact ⟨h, hw⟩
  · exact ⟨h, hw⟩

theorem holds_releaseFrom (start n b : ℕ) : (releaseFrom start n).Holds b ↔ InRange start n b := by
  unfold releaseFrom
  split_ifs with hw hn
  · subst hn
    exact Iff.rfl
  · exact Iff.rfl
  · exact Iff.rfl

theorem Inv.stepRelease {s s' : State τ} {t : τ} {spurious : Bool} (h : Inv Z s)
    (hs : stepRelease s t spurious = some s') : Inv Z s' := by
  have hok := h.pc t
  have hset : ∀ b, (s.pc t).Holds b → s.Bit b := fun b hb => h.held_set b t hb
  unfold BitblockSet.stepRelease at hs
  cases hp : s.pc t <;> simp only [hp, reduceCtorEq, Option.some.injEq] at hs <;>
    rw [hp] at hok hset
  case releaseHint start n =>
    subst hs
    refine h.keep rfl rfl rfl (fun b => ?_) (pcOk_releaseFrom hok)
    rw [hp]
    exact holds_releaseFrom start n b
  case releaseOne start =>
    subst hs
    have hsingle : startWord start = endWord start 1 := by
      unfold endWord
      rfl
    refine h.clear _ _ (fun b hb => ?_) (fun b => ?_) (by split_ifs <;> trivial)
    · rw [hp]
      exact (covers_wordMask hsingle).1 hb
    · rw [hp, covers_wordMask hsingle]
      refine iff_of_false ?_ fun hb => hb.2 hb.1
      split_ifs <;> exact id
  case releaseLoad start n =>
    subst hs
    rw [releaseLoop_eq hok.2 hset]
    refine h.keep rfl rfl rfl (fun b => ?_) hok
    rw [hp]
    exact Iff.rfl
  case releaseSwap start n expected =>
    split_ifs at hs with hsame <;> obtain rfl := Option.some.inj hs
    · obtain ⟨rfl, -⟩ := hsame
      refine h.clear (startWord start) (wordMask start n) (fun b hb => ?_)
        (fun b => ?_) trivial
      · rw [hp]
        exact (covers_wordMask hok.2).1 hb
      · rw [hp, covers_wordMask hok.2]
        exact iff_of_false id fun hb => hb.2 hb.1
    · rw [releaseLoop_eq hok.2 hset]
      refine h.keep rfl rfl rfl (fun b => ?_) hok
      rw [hp]
      exact Iff.rfl
  case releaseFirstLoad start n =>
    subst hs
    rw [releaseFirstLoop_eq hok.1 hok.2 hset]
    refine h.keep rfl rfl rfl (fun b => ?_) hok
    rw [hp]
    exact Iff.rfl
  case releaseFirstSwap start n expected =>
    obtain ⟨hvalid, hw⟩ := hok
    split_ifs at hs with hsame <;> obtain rfl := Option.some.inj hs
    · obtain ⟨rfl, -⟩ := hsame
      refine h.clear (startWord start) (firstMask start) (fun b hb => ?_)
        (fun b => ?_) trivial
      · rw [hp]
        exact (inRange_split hvalid.pos hvalid.le hw).2 (.inl hb)
      · rw [hp]
        show Covers _ _ b ↔ InRange start n b ∧ _
        rw [inRange_split hvalid.pos hvalid.le hw]
        have hdisjoint : Covers (endWord start n) (lastMask start n) b →
            ¬ Covers (startWord start) (firstMask start) b := fun h1 h2 => hw (h2.1.symm.trans h1.1)
        by_cases hfirst : Covers (startWord start) (firstMask start) b
        · exact iff_of_false (fun h1 => hdisjoint h1 hfirst) fun hb => hb.2 hfirst
        · simp [hfirst]
    · rw [releaseFirstLoop_eq hvalid hw hset]
      refine h.keep rfl rfl rfl (fun b => ?_) ⟨hvalid, hw⟩
      rw [hp]
      exact Iff.rfl
  case releaseLast start n =>
    subst hs
    rw [if_neg (not_not.2 ((and_eq_mask_iff s _ _).2 hset))]
    refine h.clear _ _ (fun b hb => ?_) (fun b => ?_) trivial
    · rw [hp]
      exact hb
    · rw [hp]
      exact iff_of_false id fun hb => hb.2 hb.1
  case restoreLast => exact hok.elim
  case restoreFirst => exact hok.elim

/-! ### The scans -/

theorem single_bit_mask {bitPos : ℕ} (h : bitPos < 64) :
    1#64 <<< (63 - bitPos) = createBitMask bitPos 1 := by
  unfold createBitMask
  rw [if_neg (by decide), show (1#64 <<< 1) - 1#64 = 1#64 by decide,
    show 64 - bitPos - 1 = 63 - bitPos by omega]

theorem not_holds_enterWord (S : Scan) (i w b : ℕ) : ¬ (enterWord Z S i w).Holds b := by
  unfold enterWord enterChunk
  split_ifs <;> exact id

theorem pcOk_enterChunk {S : Scan} (h : ScanOk S) (i : ℕ) : PcOk Z (enterChunk Z S i) := by
  unfold enterChunk
  split_ifs
  · exact h
  · trivial

theorem pcOk_enterWord {S : Scan} (h : ScanOk S) (i w : ℕ) : PcOk Z (enterWord Z S i w) := by
  unfold enterWord
  split_ifs
  · exact h
  · exact pcOk_enterChunk h _

theorem not_holds_tryWord (S : Scan) (i w : ℕ) (word : BitVec 64) (b : ℕ) :
    ¬ (tryWord Z S i w word).Holds b := by
  unfold tryWord
  split_ifs <;> first | exact not_holds_enterWord _ _ _ _ | exact id

/-- The erosion finds a free run inside the word. -/
theorem runOk_of_erode {S : Scan} {i w : ℕ} {word : BitVec 64} (hS : ScanOk S)
    (h : erode (~~~word) S.numBits ≠ 0#64)
    (hfits : S.bitIndex Z i w word + S.numBits ≤ Z.SIZE_IN_BITS) : RunOk Z S i w word := by
  obtain ⟨hlt, hbit, -⟩ := clz_spec h
  rw [getMsbD_erode hS.1] at hbit
  have hle := (hbit (S.numBits - 1) (by have := hS.1; omega)).1
  have hpos := hS.1
  have hindex : S.bitIndex Z i w word = S.wordIdx Z i w * 64
      + (clz (erode (~~~word) S.numBits) - (S.numBits - 1)) := rfl
  have hmod : S.bitIndex Z i w word % BITS_PER_WORD
      = clz (erode (~~~word) S.numBits) - (S.numBits - 1) := by
    unfold BITS_PER_WORD
    omega
  refine ⟨?_, ?_, ?_, hfits⟩
  · unfold startWord BITS_PER_WORD
    omega
  · unfold startWord endWord BITS_PER_WORD
    omega
  · refine BitVec.eq_of_getMsbD_eq fun j hj => ?_
    unfold wordMask
    rw [BitVec.getMsbD_and, getMsbD_createBitMask (by omega), hmod, BitVec.getMsbD_zero]
    by_cases hin : clz (erode (~~~word) S.numBits) - (S.numBits - 1) ≤ j
        ∧ j < clz (erode (~~~word) S.numBits) - (S.numBits - 1) + S.numBits
    · have hfree := (hbit (clz (erode (~~~word) S.numBits) - j) (by omega)).2
      rw [show clz (erode (~~~word) S.numBits) - (clz (erode (~~~word) S.numBits) - j) = j by omega,
        BitVec.getMsbD_not] at hfree
      simp only [Bool.and_eq_true, Bool.not_eq_true'] at hfree
      rw [hfree.2, Bool.false_and]
    · rw [decide_eq_false hin, Bool.and_false]

theorem pcOk_tryWord {S : Scan} (h : ScanOk S) (i w : ℕ) (word : BitVec 64) :
    PcOk Z (tryWord Z S i w word) := by
  unfold tryWord
  split_ifs with hfull hone hlt hzero hfits
  · exact pcOk_enterWord h _ _
  · exact pcOk_enterWord h _ _
  · refine ⟨h, (clz_spec fun hz => hfull ?_).1, not_le.1 hlt⟩
    rw [← BitVec.not_not (b := word), hz]
    decide
  · exact pcOk_enterWord h _ _
  · exact pcOk_enterWord h _ _
  · exact ⟨h, runOk_of_erode h hzero (not_lt.1 hfits)⟩

theorem Inv.stepScan {s s' : State τ} {t : τ} {spurious : Bool} (h : Inv Z s)
    (hs : stepScan Z s t spurious = some s') : Inv Z s' := by
  have hok := h.pc t
  unfold BitblockSet.stepScan at hs
  cases hp : s.pc t <;> simp only [hp, reduceCtorEq, Option.some.injEq] at hs <;> rw [hp] at hok
  case loadHint n offset =>
    subst hs
    refine h.goOn (by rw [hp]; exact fun _ => id) (fun b => ?_) (pcOk_enterChunk (S := ⟨n, _⟩) hok _)
    unfold enterChunk
    split_ifs <;> exact id
  case chunkIsFull S i w =>
    split_ifs at hs with hfull hnext <;> obtain rfl := Option.some.inj hs
    · exact h.goOn (by rw [hp]; exact fun _ => id) (not_holds_enterWord _ _ _)
        (pcOk_enterWord hok _ _)
    · exact h.goOn (by rw [hp]; exact fun _ => id) (fun _ => id) hok
    · refine h.goOn (by rw [hp]; exact fun _ => id) (fun b => ?_) (pcOk_enterChunk hok _)
      unfold enterChunk
      split_ifs <;> exact id
  case scanLoad S i w =>
    subst hs
    exact h.goOn (by rw [hp]; exact fun _ => id) (not_holds_tryWord _ _ _ _)
      (pcOk_tryWord hok _ _ _)
  case scanOr S i w bitPos =>
    obtain ⟨hS, hpos, hlt⟩ := hok
    have hcov : ∀ b, Covers (S.wordIdx Z i w) (1#64 <<< (63 - bitPos)) b
        ↔ InRange (S.wordIdx Z i w * BITS_PER_WORD + bitPos) 1 b := by
      intro b
      rw [single_bit_mask hpos, covers_createBitMask (by omega)]
    have hin : ∀ b, Covers (S.wordIdx Z i w) (1#64 <<< (63 - bitPos)) b → b < Z.SIZE_IN_BITS := by
      intro b hb
      have := (hcov b).1 hb
      unfold InRange at this
      omega
    split_ifs at hs with hfree <;> obtain rfl := Option.some.inj hs
    · refine h.grant _ _ ((and_eq_zero_iff s _ _).1 hfree) hin (fun b => ?_) (fun _ => id) trivial
      rw [hp, hcov]
      exact (or_iff_right id).symm
    · refine h.setBusy (fun b c hb hc => ?_) hfree hin (fun b => ?_) hS
      · have h1 := (hcov b).1 hb
        have h2 := (hcov c).1 hc
        unfold InRange at h1 h2
        omega
      · rw [hp]
        exact Iff.rfl
  case scanSwap S i w word =>
    obtain ⟨hS, hrun⟩ := hok
    split_ifs at hs with hsame <;> obtain rfl := Option.some.inj hs
    · obtain ⟨rfl, -⟩ := hsame
      have hcov : ∀ b, Covers (S.wordIdx Z i w)
          (wordMask (S.bitIndex Z i w (s.bits.words (S.wordIdx Z i w))) S.numBits) b
          ↔ InRange (S.bitIndex Z i w (s.bits.words (S.wordIdx Z i w))) S.numBits b := by
        intro b
        have := covers_wordMask (b := b) hrun.single
        rwa [hrun.inside] at this
      refine h.grant (S.wordIdx Z i w) _ ((and_eq_zero_iff s _ _).1 hrun.free)
        (fun b hb => ?_) (fun b => ?_) (fun _ => id) trivial
      · exact lt_of_lt_of_le ((hcov b).1 hb).2 hrun.fits
      · rw [hp, hcov]
        exact (or_iff_right id).symm
    · exact h.goOn (by rw [hp]; exact fun _ => id) (not_holds_tryWord _ _ _ _)
        (pcOk_tryWord hS _ _ _)
  case advanceHint hint bitIndex =>
    subst hs
    refine h.keep rfl rfl rfl (fun b => ?_) trivial
    rw [hp]
    exact Iff.rfl

/-! ### Calls and runs -/

omit [DecidableEq τ] in
theorem not_bit_start {s : State τ} (h : Start Z s) {b : ℕ} (hb : b < Z.SIZE_IN_BITS) :
    ¬ s.Bit b := by
  have hwords : Z.NUM_WORDS = (Z.SIZE_IN_BITS + 63) / 64 := rfl
  have htail : Z.TAIL_UNUSED_BITS = Z.NUM_WORDS * 64 - Z.SIZE_IN_BITS := rfl
  unfold State.Bit
  rw [h.bits]
  simp only [Bits.new, BITS_PER_WORD]
  split_ifs with hpad hlast
  · omega
  · have hones := getLsbD_ones (n := Z.TAIL_UNUSED_BITS) (i := 63 - b % 64) (by omega)
    rw [if_neg (by omega)] at hones
    rw [BitVec.getMsbD_eq_getLsbD, hones]
    simp only [Bool.and_eq_true, decide_eq_true_eq]
    omega
  · simp

omit [DecidableEq τ] in
theorem inv_start {s : State τ} (h : Start Z s) : Inv Z s := by
  have howners : ∀ b, s.owners b = [] := fun b => by rw [h.owners]
  have hidle : ∀ t, s.pc t = .idle := fun t => by rw [h.pc]
  have hnone : ∀ b t, ¬ (s.pc t).Holds b := fun b t => by rw [hidle]; exact id
  refine ⟨fun b t ht => ?_, fun b t ht => absurd ht (hnone b t), fun b => ?_, fun b t u ht => ?_,
    fun b t _ ht => absurd ht (hnone b t), fun b hb hbit => absurd hbit (not_bit_start h hb),
    fun b t ht => ?_, fun b t ht => absurd ht (hnone b t), fun t => ?_⟩
  · rw [howners] at ht
    cases ht
  · rw [howners]
    exact Nat.zero_le _
  · rw [howners] at ht
    cases ht
  · rw [howners] at ht
    cases ht
  · rw [hidle]
    trivial

theorem not_holds_acquire (start n b : ℕ) : ¬ (acquire Z start n).Holds b := by
  unfold acquire acquireFrom
  split_ifs <;> exact id

theorem pcOk_acquire (start n : ℕ) : PcOk Z (acquire Z start n) := by
  unfold acquire acquireFrom
  split_ifs with hvalid hw hn
  · subst hn
    exact validateRequest_eq_success hvalid
  · exact ⟨validateRequest_eq_success hvalid, hw⟩
  · exact ⟨validateRequest_eq_success hvalid, hw⟩
  · trivial

theorem not_holds_contiguous (n offset b : ℕ) :
    ¬ (acquireFirstAvailableContiguous n offset).Holds b := by
  unfold acquireFirstAvailableContiguous acquireFirstAvailable
  split_ifs <;> exact id

theorem pcOk_contiguous (n offset : ℕ) : PcOk Z (acquireFirstAvailableContiguous n offset) := by
  unfold acquireFirstAvailableContiguous acquireFirstAvailable
  split_ifs with hn hone
  · trivial
  · exact ⟨le_rfl, by decide⟩
  · exact ⟨by omega, by omega⟩

/-- A range given up by its owner passes to the call that releases it. -/
theorem Inv.release {s : State τ} {t owner : τ} {start n : ℕ} (h : Inv Z s) (hidle : s.pc t = .idle)
    (howns : s.OwnsRange owner start n) (hvalid : Valid Z start n) :
    Inv Z ((s.revoke owner start n).setPc t (.releaseHint start n)) := by
  have owns : ∀ b, InRange start n b → owner ∈ s.owners b := by
    rintro b ⟨h1, h2⟩
    have := howns (b - start) (by omega)
    rwa [Nat.add_sub_cancel' h1] at this
  have alone : ∀ b, InRange start n b → (s.owners b).erase owner = [] := by
    intro b hb
    refine List.length_eq_zero_iff.1 ?_
    have hone := h.one_owner b
    rw [List.length_erase_of_mem (owns b hb)]
    omega
  have kept : ∀ b u, u ∈ (s.revoke owner start n).owners b → ¬ InRange start n b
      ∧ u ∈ s.owners b := by
    intro b u hu
    replace hu : u ∈ if InRange start n b then (s.owners b).erase owner else s.owners b := hu
    split_ifs at hu with hb
    · rw [alone b hb] at hu
      cases hu
    · exact ⟨hb, hu⟩
  have held : ∀ b u, (update s.pc t (.releaseHint start n) u).Holds b →
      (u = t ∧ InRange start n b) ∨ (s.pc u).Holds b ∧ ¬ InRange start n b := by
    intro b u hu
    by_cases hut : u = t
    · rw [hut, update_self] at hu
      exact .inl ⟨hut, hu⟩
    · rw [update_of_ne hut] at hu
      exact .inr ⟨hu, fun hb => h.not_both b owner u (owns b hb) hu⟩
  refine ⟨fun b u hu => h.owned_set b u (kept b u hu).2, fun b u hu => ?_, fun b => ?_,
    fun b u v hu hv => ?_, fun b u v hu hv => ?_, fun b hlt hbit => ?_,
    fun b u hu => h.owned_lt b u (kept b u hu).2, fun b u hu => ?_, fun u => ?_⟩
  · rcases held b u hu with ⟨-, hb⟩ | ⟨hb, -⟩
    · exact h.owned_set b owner (owns b hb)
    · exact h.held_set b u hb
  · show (if InRange start n b then (s.owners b).erase owner else s.owners b).length ≤ 1
    split_ifs with hb
    · rw [alone b hb]
      exact Nat.zero_le _
    · exact h.one_owner b
  · obtain ⟨hb, hu⟩ := kept b u hu
    rcases held b v hv with ⟨-, hb'⟩ | ⟨hb', -⟩
    · exact hb hb'
    · exact h.not_both b u v hu hb'
  · rcases held b u hu with ⟨h1, h2⟩ | ⟨h1, h2⟩ <;> rcases held b v hv with ⟨h3, h4⟩ | ⟨h3, h4⟩
    · rw [h1, h3]
    · exact absurd h2 h4
    · exact absurd h4 h2
    · exact h.one_holder b u v h1 h3
  · by_cases hb : InRange start n b
    · refine .inr ⟨t, ?_⟩
      show (update s.pc t _ t).Holds b
      rw [update_self]
      exact hb
    · show (if InRange start n b then (s.owners b).erase owner else s.owners b) ≠ [] ∨ _
      rw [if_neg hb]
      refine (h.accounted b hlt hbit).imp id fun ⟨u, hu⟩ => ⟨u, ?_⟩
      have hut : u ≠ t := by
        rintro rfl
        rw [hidle] at hu
        exact hu
      show (update s.pc t _ u).Holds b
      rwa [update_of_ne hut]
  · rcases held b u hu with ⟨-, hb⟩ | ⟨hb, -⟩
    · exact h.owned_lt b owner (owns b hb)
    · exact h.held_lt b u hb
  · show PcOk Z (update s.pc t _ u)
    by_cases hut : u = t
    · rw [hut, update_self]
      exact hvalid
    · rw [update_of_ne hut]
      exact h.pc u

theorem Inv.step {s s' : State τ} {a : Action τ} (h : Inv Z s) (hs : step Z s a = some s') :
    Inv Z s' := by
  have start : ∀ {t p}, s.pc t = .idle → (∀ b, ¬ p.Holds b) → PcOk Z p → Inv Z (s.setPc t p) :=
    fun hidle hnone hp => h.goOn (fun b => by rw [hidle]; exact id) hnone hp
  unfold BitblockSet.step at hs
  rcases a with ⟨t, first, n⟩ | ⟨t, offset⟩ | ⟨t, n, offset⟩ | ⟨t, owner, first, n⟩ | ⟨t, spurious⟩ <;>
    simp only [] at hs
  · split_ifs at hs with hidle
    obtain rfl := Option.some.inj hs
    exact start hidle (not_holds_acquire _ _) (pcOk_acquire _ _)
  · split_ifs at hs with hidle
    obtain rfl := Option.some.inj hs
    exact start hidle (fun _ => id) ⟨le_rfl, by decide⟩
  · split_ifs at hs with hidle
    obtain rfl := Option.some.inj hs
    exact start hidle (not_holds_contiguous _ _) (pcOk_contiguous _ _)
  · split_ifs at hs with hcall hvalid
    · obtain rfl := Option.some.inj hs
      exact h.release hcall.1 hcall.2 (validateRequest_eq_success hvalid)
    · obtain rfl := Option.some.inj hs
      exact start hcall.1 (fun _ => id) trivial
  · unfold stepRun at hs
    split at hs
    · cases hs
    · rename_i hp
      obtain rfl := Option.some.inj hs
      exact h.goOn (fun b => by rw [hp]; exact id) (fun _ => id) trivial
    · rename_i hp
      obtain rfl := Option.some.inj hs
      exact h.goOn (fun b => by rw [hp]; exact id) (fun _ => id) trivial
    · rcases Option.or_eq_some_iff.1 hs with hs | ⟨-, hs⟩
      · rcases Option.or_eq_some_iff.1 hs with hs | ⟨-, hs⟩
        · exact h.stepAcquire hs
        · exact h.stepRelease hs
      · exact h.stepScan hs

theorem inv_of_reachable {s : State τ} (h : (machine (τ := τ) Z).Reachable s) : Inv Z s :=
  Machine.reachable_induction (fun _ => inv_start) (fun _ _ _ _ ih hs => ih.step hs) h

end MinStd.BitblockSet
