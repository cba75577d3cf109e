import MinStd.LatestValue
import Mathlib.Algebra.Group.Even
import Mathlib.Algebra.Group.Nat.Even

/-!
# A load returns the value published when it last read `current_`

The slot `current_` names has an even sequence number, the published one, and no store writes it
before another slot is published.  A slot's words change only while its sequence number is odd, so
a load that finds the number it expects, which has not come back to it, has copied the words the
slot held when the load read `current_`.
-/

namespace MinStd.LatestValue

open Function

variable {L : Layout}

/-! ### The packing of `current_` -/

theorem STORED_FLAG_or {i : ℕ} (h : i < STORED_FLAG) : STORED_FLAG ||| i = STORED_FLAG + i := by
  have := Nat.two_pow_add_eq_or_of_lt (i := 31) h 1
  rw [mul_one] at this
  exact this.symm

theorem STORED_FLAG_or_lt {i : ℕ} (h : i < STORED_FLAG) : STORED_FLAG ||| i < WORD32 := by
  rw [STORED_FLAG_or h]
  unfold STORED_FLAG WORD32 at *
  omega

theorem slotOf_eq (v : ℕ) : slotOf v = lo32 v % STORED_FLAG := by
  have := Nat.and_two_pow_sub_one_eq_mod (lo32 v) 31
  exact this

theorem sequenceNumberOf_packCurrent {q i : ℕ} (hq : q < WORD32) (hi : i < STORED_FLAG) :
    sequenceNumberOf (packCurrent q i) = q := hi32_pack hq (STORED_FLAG_or_lt hi)

theorem slotOf_packCurrent {q i : ℕ} (hi : i < STORED_FLAG) : slotOf (packCurrent q i) = i := by
  unfold packCurrent
  rw [slotOf_eq, lo32_pack (STORED_FLAG_or_lt hi), STORED_FLAG_or hi, Nat.add_mod_left,
    Nat.mod_eq_of_lt hi]

theorem isStored_packCurrent {q i : ℕ} (hi : i < STORED_FLAG) :
    isStored (packCurrent q i) = true := by
  have hbit : (STORED_FLAG ||| i).testBit 31 = true := by
    rw [Nat.testBit_or, show STORED_FLAG = 2 ^ 31 from rfl, Nat.testBit_two_pow_self, Bool.true_or]
  unfold isStored packCurrent
  rw [lo32_pack (STORED_FLAG_or_lt hi), show (STORED_FLAG : ℕ) = 2 ^ 31 from rfl, Nat.and_two_pow,
    show (2 : ℕ) ^ 31 = STORED_FLAG from rfl, hbit]
  decide

/-! ### What the calls know -/

variable {τ : Type*}

/-- A store that holds `writer_busy_`. -/
def Pc.storing : Pc L → Bool
  | .loadCurrent _ => true
  | .loadSequence _ _ => true
  | .setOdd _ _ _ => true
  | .write _ _ _ _ => true
  | .publish _ _ _ => true
  | .release => true
  | _ => false

/-- The slot a store has set an odd sequence number in. -/
def Pc.odd? : Pc L → Option ℕ
  | .write _ i _ _ => some i
  | _ => none

/-- The slot the next access of a store writes. -/
def Pc.writes? : Pc L → Option ℕ
  | .setOdd _ i _ => some i
  | .write _ i _ _ => some i
  | _ => none

/-- The value of a load when nothing or `latest` is published. -/
def valueOf (latest : Option L.Value) : L.Value := latest.getD fun _ => 0

/-- The slot after the published one. -/
def State.next (s : State L τ) : ℕ := (slotOf s.current + 1) % WORD32 % L.NUM_SLOTS

/-- What a load knows of the slot it reads. -/
structure ReadOk (s : State L τ) (published since : ℕ) (seen : Option L.Value) : Prop where
  even : Even since
  le : since ≤ s.sequence (slotOf published)
  number : sequenceNumberOf published = since % WORD32
  stored : isStored published = seen.isSome
  words : s.sequence (slotOf published) = since →
    (s.slots (slotOf published)).bufferInWords = valueOf seen

def LoadedOk (result : Result) (out : L.Value) (seen : Option L.Value) : Prop :=
  (result = .SUCCESS ∧ seen = some out) ∨ (result = .EMPTY ∧ seen = none ∧ out = fun _ => 0)

def PcOk (s : State L τ) : Pc L → Prop
  | .loadSequence _ i => i = s.next
  | .setOdd _ i q => i = s.next ∧ q = s.sequence i % WORD32 ∧ Even (s.sequence i)
  | .write value i q k => i = s.next ∧ (q + 1) % WORD32 = s.sequence i % WORD32
      ∧ ¬ Even (s.sequence i) ∧ ∀ j, j.val < k → (s.slots i).bufferInWords j = value j
  | .publish value i q => i = s.next ∧ (q + 2) % WORD32 = s.sequence i % WORD32
      ∧ Even (s.sequence i) ∧ (s.slots i).bufferInWords = value
  | .check published since seen => ReadOk s published since seen
  | .copy published since seen buffer k => ReadOk s published since seen
      ∧ (s.sequence (slotOf published) = since → ∀ j, j.val < k → buffer j = valueOf seen j)
  | .loaded result out seen => LoadedOk result out seen
  | _ => True

/-- The slot `current_` names holds the latest value under its published sequence number. -/
structure CurrentOk (s : State L τ) : Prop where
  lt : slotOf s.current < L.NUM_SLOTS
  even : Even (s.sequence (slotOf s.current))
  number : sequenceNumberOf s.current = s.sequence (slotOf s.current) % WORD32
  stored : isStored s.current = s.latest.isSome
  words : (s.slots (slotOf s.current)).bufferInWords = valueOf s.latest

structure Inv (s : State L τ) : Prop where
  current : CurrentOk s
  number : ∀ i, (s.slots i).sequenceNumber = s.sequence i % WORD32
  parity : ∀ i, ¬ Even (s.sequence i) → ∃ t, (s.pc t).odd? = some i
  alone : ∀ t u, (s.pc t).storing = true → (s.pc u).storing = true → t = u
  busy : s.writerBusy ≠ 0 ↔ ∃ t, (s.pc t).storing = true
  pc : ∀ t, PcOk s (s.pc t)

theorem Inv.of_pc {s : State L τ} {t : τ} {p : Pc L} (h : Inv s) (hp : s.pc t = p) : PcOk s p :=
  hp ▸ h.pc t

theorem inv_start {s : State L τ} (h : Start s) : Inv s := by
  have hslot : slotOf s.current = 0 := by
    rw [h.current]
    decide
  refine ⟨⟨?_, ?_, ?_, ?_, ?_⟩, fun i => ?_, fun i hi => ?_, fun t _ ht => ?_, ?_, fun t => ?_⟩
  · rw [hslot]
    exact lt_of_lt_of_le (by decide) L.two_le
  · rw [h.sequence]
    exact ⟨0, rfl⟩
  · rw [h.sequence, h.current]
    decide
  · rw [h.latest, h.current]
    rfl
  · rw [h.slots, h.latest]
    rfl
  · rw [h.slots, h.sequence]
    rfl
  · rw [h.sequence] at hi
    exact absurd ⟨0, rfl⟩ hi
  · rw [h.pc] at ht
    cases ht
  · rw [h.pc, h.writerBusy]
    simp [Pc.storing]
  · rw [h.pc]
    trivial

/-- The store's slot is in range and is not the published one. -/
theorem Inv.next_ne {s : State L τ} (h : Inv s) :
    s.next < L.NUM_SLOTS ∧ s.next ≠ slotOf s.current := by
  have hlt := h.current.lt
  have htwo := L.two_le
  have hmax := L.lt
  have heq : (slotOf s.current + 1) % WORD32 = slotOf s.current + 1 := by
    refine Nat.mod_eq_of_lt ?_
    unfold STORED_FLAG WORD32 at *
    omega
  unfold State.next
  rw [heq]
  refine ⟨Nat.mod_lt _ (by omega), fun he => ?_⟩
  rcases lt_or_eq_of_le (show slotOf s.current + 1 ≤ L.NUM_SLOTS from hlt) with hl | hl
  · rw [Nat.mod_eq_of_lt hl] at he
    omega
  · rw [hl, Nat.mod_self] at he
    omega

/-! ### What a load knows survives the stores -/

/-- The stores so far have raised sequence numbers, and changed words only under a raised or an odd
one. -/
structure Kept (s s' : State L τ) : Prop where
  le : ∀ i, s.sequence i ≤ s'.sequence i
  words : ∀ i, s'.sequence i = s.sequence i → Even (s.sequence i) →
    (s'.slots i).bufferInWords = (s.slots i).bufferInWords

theorem ReadOk.kept {s s' : State L τ} {published since : ℕ} {seen : Option L.Value}
    (h : ReadOk s published since seen) (hk : Kept s s') : ReadOk s' published since seen := by
  refine ⟨h.even, h.le.trans (hk.le _), h.number, h.stored, fun he => ?_⟩
  have hle := h.le
  have hle' := hk.le (slotOf published)
  have hsame : s.sequence (slotOf published) = since := by omega
  rw [hk.words _ (by omega) (hsame ▸ h.even)]
  exact h.words hsame

theorem PcOk.kept {s s' : State L τ} {p : Pc L} (h : PcOk s p) (hp : p.storing = false)
    (hk : Kept s s') : PcOk s' p := by
  cases p <;> simp only [Pc.storing, reduceCtorEq] at hp <;> try trivial
  case check => exact ReadOk.kept h hk
  case copy published since seen buffer k =>
    refine ⟨h.1.kept hk, fun he => h.2 ?_⟩
    have hle := h.1.le
    have hle' := hk.le (slotOf published)
    omega

theorem PcOk.same {s s' : State L τ} {p : Pc L} (h : PcOk s p) (hcurrent : s'.current = s.current)
    (hslots : s'.slots = s.slots) (hsequence : s'.sequence = s.sequence) : PcOk s' p := by
  have hkept : Kept s s' := ⟨fun i => by rw [hsequence], fun i _ _ => by rw [hslots]⟩
  have hnext : s'.next = s.next := by
    unfold State.next
    rw [hcurrent]
  cases p <;> try trivial
  case loadSequence => exact h.trans hnext.symm
  case setOdd =>
    unfold PcOk
    rw [hnext, hsequence]
    exact h
  case write =>
    unfold PcOk
    rw [hnext, hsequence, hslots]
    exact h
  case publish =>
    unfold PcOk
    rw [hnext, hsequence, hslots]
    exact h
  case check => exact h.kept rfl hkept
  case copy => exact h.kept rfl hkept

/-- The one store in flight has the only slot with an odd number. -/
theorem Inv.odd {s : State L τ} {t : τ} (h : Inv s) (ht : (s.pc t).storing = true) {i : ℕ}
    (hi : ¬ Even (s.sequence i)) : (s.pc t).odd? = some i := by
  obtain ⟨u, hu⟩ := h.parity i hi
  have hstoring : (s.pc u).storing = true := by
    cases hp : s.pc u <;> simp [hp, Pc.odd?] at hu
    rfl
  rwa [h.alone t u ht hstoring]

/-- What the current slot holds survives a write elsewhere. -/
theorem CurrentOk.elsewhere {s s' : State L τ} (h : CurrentOk s) (hcurrent : s'.current = s.current)
    (hlatest : s'.latest = s.latest)
    (hsequence : s'.sequence (slotOf s.current) = s.sequence (slotOf s.current))
    (hwords : (s'.slots (slotOf s.current)).bufferInWords
      = (s.slots (slotOf s.current)).bufferInWords) : CurrentOk s' := by
  refine ⟨?_, ?_, ?_, ?_, ?_⟩ <;> rw [hcurrent]
  · exact h.lt
  · rw [hsequence]
    exact h.even
  · rw [hsequence]
    exact h.number
  · rw [hlatest]
    exact h.stored
  · rw [hwords, hlatest]
    exact h.words

/-- A load's look at `current_`. -/
theorem Inv.readOk {s : State L τ} (h : Inv s) :
    ReadOk s s.current (s.sequence (slotOf s.current)) s.latest :=
  ⟨h.current.even, le_rfl, h.current.number, h.current.stored, fun _ => h.current.words⟩

/-- A load that finds the sequence number it expects has copied the value it saw. -/
theorem loadedOk {s : State L τ} {published since k : ℕ} {seen : Option L.Value} {buffer : L.Value}
    (h : PcOk s (.copy published since seen buffer k)) (hk : ¬ k < L.WORD_COUNT)
    (hsince : s.sequence (slotOf published) = since) :
    LoadedOk (resultOf published) buffer seen := by
  have hbuffer : buffer = valueOf seen := by
    funext j
    exact h.2 hsince j (by omega)
  unfold resultOf
  rw [h.1.stored, hbuffer]
  rcases seen with _ | value
  · exact .inr ⟨rfl, rfl, rfl⟩
  · exact .inl ⟨rfl, rfl⟩

/-! ### The steps -/

variable [DecidableEq τ] {s s' : State L τ} {t : τ} {p : Pc L}

/-- A step that changes no shared word. -/
theorem Inv.place (h : Inv s) (hstoring : p.storing = (s.pc t).storing)
    (hodd : p.odd? = (s.pc t).odd?) (hok : PcOk s p) : Inv (s.setPc t p) := by
  have storing : ∀ u, (update s.pc t p u).storing = (s.pc u).storing := by
    intro u
    by_cases hu : u = t
    · rw [hu, update_self, hstoring]
    · rw [update_of_ne hu]
  refine ⟨⟨h.current.lt, h.current.even, h.current.number, h.current.stored, h.current.words⟩,
    h.number, fun i hi => ?_, fun u v hu hv => ?_, ?_, fun u => ?_⟩
  · obtain ⟨u, hu⟩ := h.parity i hi
    refine ⟨u, ?_⟩
    show (update s.pc t p u).odd? = some i
    by_cases hut : u = t
    · rw [hut, update_self, hodd, ← hut]
      exact hu
    · rwa [update_of_ne hut]
  · exact h.alone u v ((storing u).symm.trans hu) ((storing v).symm.trans hv)
  · refine h.busy.trans (exists_congr fun u => ?_)
    rw [← storing u]
    rfl
  · show PcOk _ (update s.pc t p u)
    by_cases hut : u = t
    · rw [hut, update_self]
      exact hok.same rfl rfl rfl
    · rw [update_of_ne hut]
      exact (h.pc u).same rfl rfl rfl

/-- A step of the one store in flight. -/
theorem Inv.storing (h : Inv s) (ht : (s.pc t).storing = true) (hpc : s'.pc = update s.pc t p)
    (hp : p.storing = true) (hbusy : s'.writerBusy = s.writerBusy) (hkept : Kept s s')
    (hcurrent : CurrentOk s') (hnumber : ∀ i, (s'.slots i).sequenceNumber = s'.sequence i % WORD32)
    (hparity : ∀ i, ¬ Even (s'.sequence i) → p.odd? = some i) (hok : PcOk s' p) : Inv s' := by
  have sole : ∀ u, (s'.pc u).storing = true → u = t := by
    intro u hu
    by_contra hut
    rw [hpc, update_of_ne hut] at hu
    exact hut (h.alone u t hu ht)
  refine ⟨hcurrent, hnumber, fun i hi => ⟨t, ?_⟩, fun u v hu hv => ?_, ?_, fun u => ?_⟩
  · rw [hpc, update_self]
    exact hparity i hi
  · rw [sole u hu, sole v hv]
  · rw [hbusy, h.busy]
    refine ⟨fun _ => ⟨t, ?_⟩, fun _ => ⟨t, ht⟩⟩
    rw [hpc, update_self]
    exact hp
  · rw [hpc]
    by_cases hut : u = t
    · rw [hut, update_self]
      exact hok
    · rw [update_of_ne hut]
      refine (h.pc u).kept ?_ hkept
      by_contra hu
      exact hut (h.alone u t (by simpa using hu) ht)

/-- The store raises its slot's sequence number. -/
theorem Inv.bump (h : Inv s) (ht : (s.pc t).storing = true) {i n : ℕ} (hi : i = s.next)
    (hn : n = (s.sequence i + 1) % WORD32) (hp : p.storing = true)
    (hparity : Even (s.sequence i) → p.odd? = some i)
    (hother : ∀ j ≠ i, Even (s.sequence j)) (hok : PcOk (s.bump i n) p) :
    Inv ((s.bump i n).setPc t p) := by
  have hne := h.next_ne.2
  rw [← hi] at hne
  refine h.storing ht rfl hp rfl ⟨fun j => ?_, fun j he _ => ?_⟩ ?_ (fun j => ?_) (fun j hj => ?_) ?_
  · show s.sequence j ≤ update s.sequence i (s.sequence i + 1) j
    by_cases hj : j = i
    · rw [hj, update_self]
      exact Nat.le_succ _
    · rw [update_of_ne hj]
  · show (update s.slots i _ j).bufferInWords = _
    by_cases hj : j = i
    · rw [hj, update_self]
    · rw [update_of_ne hj]
  · refine h.current.elsewhere rfl rfl ?_ ?_
    · exact update_of_ne hne.symm ..
    · show (update s.slots i _ _).bufferInWords = _
      rw [update_of_ne hne.symm]
  · show (update s.slots i _ j).sequenceNumber
      = update s.sequence i (s.sequence i + 1) j % WORD32
    by_cases hj : j = i
    · rw [hj, update_self, update_self]
      exact hn
    · rw [update_of_ne hj, update_of_ne hj]
      exact h.number j
  · replace hj : ¬ Even (update s.sequence i (s.sequence i + 1) j) := hj
    by_cases hji : j = i
    · rw [hji, update_self, Nat.even_add_one, not_not] at hj
      rw [hji]
      exact hparity hj
    · rw [update_of_ne hji] at hj
      exact absurd (hother j hji) hj
  · exact hok.same rfl rfl rfl

/-- The store writes a word of its slot. -/
theorem Inv.writeWord (h : Inv s) {value : L.Value} {i q k : ℕ} (hp : s.pc t = .write value i q k)
    (hk : k < L.WORD_COUNT) :
    Inv ((s.writeWord i ⟨k, hk⟩ (value ⟨k, hk⟩)).setPc t (.write value i q (k + 1))) := by
  obtain ⟨hi, hq, hodd, hwords⟩ := h.of_pc hp
  have ht : (s.pc t).storing = true := by
    rw [hp]
    rfl
  have hne := h.next_ne.2
  rw [← hi] at hne
  refine h.storing ht rfl rfl rfl ⟨fun j => le_rfl, fun j _ he => ?_⟩ ?_ (fun j => ?_)
    (fun j hj => ?_) ⟨hi, hq, hodd, fun j hj => ?_⟩
  · have hji : j ≠ i := by
      rintro rfl
      exact hodd he
    show (update s.slots i _ j).bufferInWords = _
    rw [update_of_ne hji]
  · refine h.current.elsewhere rfl rfl rfl ?_
    show (update s.slots i _ _).bufferInWords = _
    rw [update_of_ne hne.symm]
  · show (update s.slots i _ j).sequenceNumber = _
    by_cases hji : j = i
    · rw [hji, update_self]
      exact h.number i
    · rw [update_of_ne hji]
      exact h.number j
  · have := h.odd ht (i := j) hj
    rw [hp] at this
    exact this
  · show (update s.slots i _ i).bufferInWords j = value j
    rw [update_self]
    by_cases hjk : j = ⟨k, hk⟩
    · rw [hjk]
      exact update_self ..
    · show update _ _ _ j = _
      rw [update_of_ne hjk]
      refine hwords j ?_
      have hne : j.val ≠ k := fun he => hjk (Fin.ext he)
      omega

/-- The store publishes its slot. -/
theorem Inv.publish (h : Inv s) {value : L.Value} {i q : ℕ} (hp : s.pc t = .publish value i q) :
    Inv ({ s with
      current := packCurrent ((q + 2) % WORD32) i
      latest := some value }.setPc t .release) := by
  obtain ⟨hi, hq, heven, hwords⟩ := h.of_pc hp
  have ht : (s.pc t).storing = true := by
    rw [hp]
    rfl
  have hlt : i < L.NUM_SLOTS := hi ▸ h.next_ne.1
  have hflag : i < STORED_FLAG := hlt.trans L.lt
  have hslot : slotOf (packCurrent ((q + 2) % WORD32) i) = i := slotOf_packCurrent hflag
  refine h.storing ht rfl rfl rfl ⟨fun j => le_rfl, fun _ _ _ => rfl⟩ ⟨?_, ?_, ?_, ?_, ?_⟩ h.number
    (fun j hj => ?_) trivial
  · show slotOf (packCurrent _ i) < L.NUM_SLOTS
    rwa [hslot]
  · show Even (s.sequence (slotOf (packCurrent _ i)))
    rwa [hslot]
  · show sequenceNumberOf (packCurrent _ i) = s.sequence (slotOf (packCurrent _ i)) % WORD32
    rw [sequenceNumberOf_packCurrent (Nat.mod_lt _ (by decide)) hflag, hslot, hq]
  · exact isStored_packCurrent hflag
  · show (s.slots (slotOf (packCurrent _ i))).bufferInWords = value
    rwa [hslot]
  · have := h.odd ht (i := j) hj
    rw [hp] at this
    cases this

/-- The exchange of `writer_busy_`: the store goes ahead only if no other is in flight. -/
theorem Inv.exchange (h : Inv s) {value : L.Value} (hp : s.pc t = .exchange value) :
    Inv ({ s with writerBusy := 1 }.setPc t
      (if s.writerBusy ≠ 0 then .stored .FAILURE else .loadCurrent value)) := by
  have hidle : (s.pc t).storing = false := by
    rw [hp]
    rfl
  by_cases hbusy : s.writerBusy ≠ 0
  · rw [if_pos hbusy]
    have hplace := h.place (t := t) (p := .stored .FAILURE) (by rw [hp]; rfl) (by rw [hp]; rfl)
      trivial
    exact ⟨⟨hplace.current.lt, hplace.current.even, hplace.current.number, hplace.current.stored,
      hplace.current.words⟩, hplace.number, hplace.parity, hplace.alone,
      (iff_of_true one_ne_zero hbusy).trans hplace.busy,
      fun u => (hplace.pc u).same rfl rfl rfl⟩
  · rw [if_neg hbusy]
    have none : ∀ u, (s.pc u).storing = false := by
      intro u
      by_contra hu
      exact hbusy (h.busy.2 ⟨u, by simpa using hu⟩)
    have sole : ∀ u, (update s.pc t (.loadCurrent value) u).storing = true → u = t := by
      intro u hu
      by_contra hut
      rw [update_of_ne hut, none u] at hu
      cases hu
    refine ⟨⟨h.current.lt, h.current.even, h.current.number, h.current.stored, h.current.words⟩,
      h.number, fun i hi => ?_, fun u v hu hv => ?_, ?_, fun u => ?_⟩
    · obtain ⟨u, hu⟩ := h.parity i hi
      have hstoring := none u
      cases hpc : s.pc u <;> simp [hpc, Pc.odd?] at hu
      simp [hpc, Pc.storing] at hstoring
    · rw [sole u hu, sole v hv]
    · refine iff_of_true one_ne_zero ⟨t, ?_⟩
      show (update s.pc t _ t).storing = true
      rw [update_self]
      rfl
    · show PcOk _ (update s.pc t _ u)
      by_cases hut : u = t
      · rw [hut, update_self]
        trivial
      · rw [update_of_ne hut]
        exact (h.pc u).same rfl rfl rfl

/-- The store gives `writer_busy_` up. -/
theorem Inv.release (h : Inv s) (hp : s.pc t = .release) :
    Inv ({ s with writerBusy := 0 }.setPc t (.stored .SUCCESS)) := by
  have ht : (s.pc t).storing = true := by
    rw [hp]
    rfl
  have none : ∀ u, (update s.pc t (.stored .SUCCESS) u).storing = false := by
    intro u
    by_cases hut : u = t
    · rw [hut, update_self]
      rfl
    · rw [update_of_ne hut]
      by_contra hu
      exact hut (h.alone u t (by simpa using hu) ht)
  refine ⟨⟨h.current.lt, h.current.even, h.current.number, h.current.stored, h.current.words⟩,
    h.number, fun i hi => ?_, fun u v hu _ => ?_, ?_, fun u => ?_⟩
  · have hodd := h.odd ht hi
    rw [hp] at hodd
    cases hodd
  · have := (none u).symm.trans hu
    cases this
  · refine iff_of_false (not_not.2 rfl) fun ⟨u, hu⟩ => ?_
    have := (none u).symm.trans hu
    cases this
  · show PcOk _ (update s.pc t _ u)
    by_cases hut : u = t
    · rw [hut, update_self]
      trivial
    · rw [update_of_ne hut]
      exact (h.pc u).same rfl rfl rfl

theorem Inv.stepRun (h : Inv s) (hg : Unreturned s (.run t)) (hs : stepRun s t = some s') :
    Inv s' := by
  unfold LatestValue.stepRun at hs
  cases hp : s.pc t <;> simp only [hp, reduceCtorEq, Option.some.injEq] at hs <;>
    have hok := h.of_pc hp
  case exchange value =>
    subst hs
    exact h.exchange hp
  case loadCurrent value =>
    subst hs
    exact h.place (by rw [hp]; rfl) (by rw [hp]; rfl) rfl
  case loadSequence value i =>
    subst hs
    refine h.place (by rw [hp]; rfl) (by rw [hp]; rfl) ⟨hok, h.number i, ?_⟩
    by_contra hodd
    have := h.odd (t := t) (by rw [hp]; rfl) hodd
    rw [hp] at this
    cases this
  case setOdd value i q =>
    subst hs
    obtain ⟨hi, hq, heven⟩ := hok
    have ht : (s.pc t).storing = true := by
      rw [hp]
      rfl
    refine h.bump ht hi (by rw [hq, Nat.mod_add_mod]) rfl (fun _ => rfl) (fun j _ => ?_)
      ⟨hi, ?_, ?_, fun j hj => absurd hj (Nat.not_lt_zero _)⟩
    · by_contra hodd
      have := h.odd ht hodd
      rw [hp] at this
      cases this
    · show _ = update s.sequence i _ i % WORD32
      rw [update_self, hq, Nat.mod_add_mod]
    · show ¬ Even (update s.sequence i _ i)
      rw [update_self, Nat.even_add_one, not_not]
      exact heven
  case write value i q k =>
    obtain ⟨hi, hq, hodd, hwords⟩ := hok
    split_ifs at hs with hk <;> obtain rfl := Option.some.inj hs
    · exact h.writeWord hp hk
    · have ht : (s.pc t).storing = true := by
        rw [hp]
        rfl
      have hn : (q + 2) % WORD32 = (s.sequence i + 1) % WORD32 := by
        unfold WORD32 at *
        omega
      refine h.bump ht hi hn rfl (fun he => absurd he hodd) (fun j hj => ?_) ⟨hi, ?_, ?_, ?_⟩
      · by_contra hodd'
        have := h.odd ht hodd'
        rw [hp] at this
        exact hj (Option.some.inj this).symm
      · show _ = update s.sequence i _ i % WORD32
        rw [update_self]
        exact hn
      · show Even (update s.sequence i _ i)
        rw [update_self, Nat.even_add_one]
        exact hodd
      · funext j
        show (update s.slots i _ i).bufferInWords j = value j
        rw [update_self]
        exact hwords j (by omega)
  case publish value i q =>
    subst hs
    exact h.publish hp
  case release =>
    subst hs
    exact h.release hp
  case stored =>
    subst hs
    exact h.place (by rw [hp]; rfl) (by rw [hp]; rfl) trivial
  case read =>
    subst hs
    exact h.place (by rw [hp]; rfl) (by rw [hp]; rfl) h.readOk
  case check published since seen =>
    split_ifs at hs <;> obtain rfl := Option.some.inj hs
    · exact h.place (by rw [hp]; rfl) (by rw [hp]; rfl) trivial
    · exact h.place (by rw [hp]; rfl) (by rw [hp]; rfl)
        ⟨hok, fun _ j hj => absurd hj (Nat.not_lt_zero _)⟩
  case copy published since seen buffer k =>
    split_ifs at hs with hk hsame <;> obtain rfl := Option.some.inj hs
    · refine h.place (by rw [hp]; rfl) (by rw [hp]; rfl) ⟨hok.1, fun hsince j hj => ?_⟩
      by_cases hjk : j = ⟨k, hk⟩
      · rw [hjk, update_self, hok.1.words hsince]
      · rw [update_of_ne hjk]
        have hne : j.val ≠ k := fun he => hjk (Fin.ext he)
        exact hok.2 hsince j (by omega)
    · refine h.place (by rw [hp]; rfl) (by rw [hp]; rfl) (loadedOk hok hk ?_)
      refine hg (slotOf published, since) (by rw [hp]; rfl) ?_
      rw [← h.number, hsame]
      exact hok.1.number
    · exact h.place (by rw [hp]; rfl) (by rw [hp]; rfl) trivial
  case loaded =>
    subst hs
    exact h.place (by rw [hp]; rfl) (by rw [hp]; rfl) trivial

theorem Inv.step (h : Inv s) {a : Action L τ} (hg : Unreturned s a) (hs : step s a = some s') :
    Inv s' := by
  unfold LatestValue.step at hs
  rcases a with ⟨t, value⟩ | t | t
  · cases hp : s.pc t <;> simp only [hp, reduceCtorEq, Option.some.injEq] at hs
    subst hs
    exact h.place (by rw [hp]; rfl) (by rw [hp]; rfl) trivial
  · cases hp : s.pc t <;> simp only [hp, reduceCtorEq, Option.some.injEq] at hs
    subst hs
    exact h.place (by rw [hp]; rfl) (by rw [hp]; rfl) trivial
  · exact h.stepRun hg hs

theorem inv_of_run (h : (machine (τ := τ) L).Run Unreturned s) : Inv s :=
  Machine.run_induction (fun _ => inv_start) (fun _ _ _ _ ih hg hs => ih.step hg hs) h

/-! ### The result -/

/-- `current_` names the slot with the latest value; a load that is about to return SUCCESS has the
value it saw as the latest when it last read `current_`, and one about to return EMPTY saw none; no
store is about to write the slot `current_` names; and a store fails only beside another in flight,
with no effect but its own return. -/
structure Correct (s : State L τ) : Prop where
  current : isStored s.current = s.latest.isSome
    ∧ (s.slots (slotOf s.current)).bufferInWords = valueOf s.latest
  loaded : ∀ t result out seen, s.pc t = .loaded result out seen →
    (result = .SUCCESS ∧ seen = some out) ∨ (result = .EMPTY ∧ seen = none ∧ out = fun _ => 0)
  unnamed : ∀ t i, (s.pc t).writes? = some i → i < L.NUM_SLOTS ∧ i ≠ slotOf s.current
  failed : ∀ t s', stepRun s t = some s' → s'.pc t = .stored .FAILURE →
    (∃ u ≠ t, (s.pc u).storing = true) ∧ s'.slots = s.slots ∧ s'.current = s.current
      ∧ s'.writerBusy ≠ 0 ∧ s.writerBusy ≠ 0 ∧ ∀ u ≠ t, s'.pc u = s.pc u

/-- Only the exchange ends a store with FAILURE. -/
theorem exchange_of_failure (hs : stepRun s t = some s') (hfail : s'.pc t = .stored .FAILURE) :
    ∃ value, s.pc t = .exchange value := by
  unfold stepRun at hs
  cases hp : s.pc t <;> simp only [hp, reduceCtorEq, Option.some.injEq] at hs
  case exchange value => exact ⟨value, rfl⟩
  case write | check | copy =>
    split_ifs at hs <;> obtain rfl := Option.some.inj hs <;>
      simp only [State.setPc, update_self, reduceCtorEq] at hfail
  all_goals
    subst hs
    simp only [State.setPc, update_self, reduceCtorEq, Pc.stored.injEq] at hfail

theorem latest_of_run (h : (machine (τ := τ) L).Run Unreturned s) : Correct s := by
  have hinv := inv_of_run h
  refine ⟨⟨hinv.current.stored, hinv.current.words⟩, fun t result out seen hp => hinv.of_pc hp,
    fun t i hi => ?_, fun t s' hs hfail => ?_⟩
  · cases hp : s.pc t <;> simp [hp, Pc.writes?] at hi <;> subst hi <;>
      rw [(hinv.of_pc hp).1] <;> exact hinv.next_ne
  · obtain ⟨value, hp⟩ := exchange_of_failure hs hfail
    unfold stepRun at hs
    rw [hp] at hs
    obtain rfl := Option.some.inj hs
    have hbusy : s.writerBusy ≠ 0 := by
      by_contra hidle
      rw [if_neg (not_not.2 hidle)] at hfail
      simp [State.setPc] at hfail
    obtain ⟨u, hu⟩ := hinv.busy.1 hbusy
    refine ⟨⟨u, ?_, hu⟩, rfl, rfl, one_ne_zero, hbusy, fun u hu => update_of_ne hu ..⟩
    rintro rfl
    rw [hp] at hu
    cases hu

/-- A load copies a word of slot 0, is lapped by two stores, and then returns the second's value. -/
theorem latest_of_run_lapped : ∃ (L : Layout) (s : State L (Fin 2)),
    (machine (τ := Fin 2) L).Run Unreturned s ∧ (s.pc 1).outcome? = some (.SUCCESS, [8])
      ∧ Correct s := by
  let L : Layout := ⟨2, by decide, by decide, 1⟩
  have hrun : ∃ s, (machine (τ := Fin 2) L).Run Unreturned s
      ∧ (s.pc 1).outcome? = some (.SUCCESS, [8]) :=
    Machine.exists_run
      (s := ⟨fun _ => ⟨0, fun _ => 0⟩, 0, 0, fun _ => .idle, fun _ => 0, none⟩)
      (.load 1 :: List.replicate 3 (.run 1)
        ++ .store 0 (fun _ => 7) :: List.replicate 9 (.run 0)
        ++ .store 0 (fun _ => 8) :: List.replicate 8 (.run 0) ++ List.replicate 5 (.run 1))
      ⟨rfl, rfl, rfl, rfl, rfl, rfl⟩ (by decide)
  obtain ⟨s, hs, hp⟩ := hrun
  exact ⟨L, s, hs, hp, latest_of_run hs⟩

end MinStd.LatestValue
