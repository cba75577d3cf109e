import MinStd.GrowableRingQueue
import Mathlib.Data.Fintype.Basic
import Mathlib.Data.Finset.Card

/-!
# What the segments of the growable ring queue keep

The position of a segment stays below `2^32`, for a producer that fails far past the capacity pulls it
back before it fails again, so no count carries into the capacity (`Shape`).  A segment's capacity in
the word and in the segment, its cursor and what has been popped from it agree but where the consumer
is between two of its accesses (`Phase`).
-/

namespace MinStd.GrowableRingQueue

open Function

variable {P : Params} {τ ε : Type*}

/-! ### The word -/

theorem unpackCapacity_eq (w : ℕ) : unpackCapacity w = w / 2 ^ 32 := Nat.shiftRight_eq_div_pow w 32

theorem unpackPos_eq (w : ℕ) : unpackPos w = w % 2 ^ 32 := Nat.and_two_pow_sub_one_eq_mod w 32

theorem packState_eq {capacity pos : ℕ} (hc : capacity < 2 ^ 32) (hp : pos < 2 ^ 32) :
    packState capacity pos = capacity * 2 ^ 32 + pos := by
  have hshift : (capacity <<< 32) % SIZES = capacity <<< 32 := by
    refine Nat.mod_eq_of_lt ?_
    rw [Nat.shiftLeft_eq]
    unfold SIZES
    omega
  have hpos : pos &&& POS_MASK = pos := by
    rw [show POS_MASK = 2 ^ 32 - 1 from rfl, Nat.and_two_pow_sub_one_eq_mod, Nat.mod_eq_of_lt hp]
  unfold packState
  rw [hshift, hpos, ← Nat.shiftLeft_add_eq_or_of_lt hp, Nat.shiftLeft_eq]

theorem unpack_packState {capacity pos : ℕ} (hc : capacity < 2 ^ 32) (hp : pos < 2 ^ 32) :
    packState capacity pos < SIZES ∧ unpackCapacity (packState capacity pos) = capacity
      ∧ unpackPos (packState capacity pos) = pos := by
  rw [unpackCapacity_eq, unpackPos_eq, packState_eq hc hp]
  unfold SIZES
  omega

/-- Counting up leaves the capacity. -/
theorem unpack_succ {w : ℕ} (hw : w < SIZES) (hp : unpackPos w + 1 < 2 ^ 32) :
    (w + 1) % SIZES < SIZES ∧ unpackCapacity ((w + 1) % SIZES) = unpackCapacity w
      ∧ unpackPos ((w + 1) % SIZES) = unpackPos w + 1 := by
  rw [unpackPos_eq] at hp
  rw [unpackCapacity_eq, unpackCapacity_eq, unpackPos_eq, unpackPos_eq]
  unfold SIZES at *
  omega

namespace State

variable (s : State P τ ε)

/-- The capacity in the word. -/
def cap (k : P.Index) : ℕ := unpackCapacity (s.segments k).enqueue_pos

/-- The position in the word. -/
def pos (k : P.Index) : ℕ := unpackPos (s.segments k).enqueue_pos

def slot (k : P.Index) (i : ℕ) : Slot P τ ε := s.slots (s.segments k).buffer i

end State

/-- The call a producer has not yet claimed a slot for. -/
def Producer.call? : Producer P τ ε → Option ℕ
  | .loadTarget _ call => some call
  | .claim A => some A.call
  | .clampLoad A _ => some A.call
  | .clampSwap A _ _ => some A.call
  | .storeTarget A => some A.call
  | _ => none

/-- A producer is about to pull the position of a segment back to `capacity`. -/
def Producer.Clamps (k : P.Index) (capacity : ℕ) : Producer P τ ε → Prop
  | .clampLoad A c => A.target = k ∧ c = capacity
  | .clampSwap A c _ => A.target = k ∧ c = capacity
  | _ => False

/-- What a producer knows of the word it has read, or of the slot it has claimed. -/
def Holds (s : State P τ ε) : Producer P τ ε → Prop
  | .clampSwap _ c current => unpackCapacity current = c ∧ c ≤ unpackPos current
  | .construct c buffer => buffer = (s.segments c.segment).buffer
  | .readAgain c => (s.slot c.segment c.index).element = some c
  | .publish c buffer => buffer = (s.segments c.segment).buffer
      ∧ (s.slot c.segment c.index).element = some c
  | _ => True

/-- A segment the consumer is not at. -/
structure Steady (s : State P τ ε) (k : P.Index) : Prop where
  capacity : (s.segments k).capacity = s.cap k
  dequeue : (s.segments k).dequeue_state = (s.segments k).taken
  lt : (s.segments k).taken < s.cap k

/-- A segment the consumer has emptied. -/
structure Drained (s : State P τ ε) (k : P.Index) : Prop where
  capacity : (s.segments k).capacity = s.cap k
  dequeue : (s.segments k).dequeue_state = (s.segments k).taken
  eq : (s.segments k).taken = s.cap k

variable (τ) in
/-- The capacity of a buffer. -/
structure Fits [Fintype τ] (capacity : ℕ) : Prop where
  pos : 1 ≤ capacity
  roomy : Roomy τ capacity

/-- What the consumer knows. -/
def Phase [Fintype τ] (s : State P τ ε) : Consumer P → Prop
  | .take k _ => (∀ j, Steady s j) ∧ (s.front k).ready = true
  | .clearReady k _ => (∀ j, j ≠ k → Steady s j) ∧ (s.segments k).capacity = s.cap k
      ∧ (s.segments k).taken = (s.segments k).dequeue_state + 1 ∧ (s.segments k).taken ≤ s.cap k
      ∧ (s.front k).element = none
  | .retire k _ => (∀ j, j ≠ k → Steady s j) ∧ Drained s k
  | .free k b c _ => (∀ j, j ≠ k → Steady s j) ∧ Drained s k ∧ b ∈ s.allocated
      ∧ (∀ j, (s.segments j).buffer ≠ b) ∧ Fits τ c
  | .install k b c _ => (∀ j, j ≠ k → Steady s j) ∧ Drained s k ∧ b ∈ s.allocated
      ∧ (∀ j, j ≠ k → (s.segments j).buffer ≠ b) ∧ Fits τ c
  | .opening k c _ => (∀ j, j ≠ k → Steady s j) ∧ (s.segments k).capacity = c
      ∧ (s.segments k).original_capacity = c ∧ (s.segments k).dequeue_state = 0
      ∧ (s.segments k).taken = s.cap k ∧ Fits τ c ∧ ∀ i < c, (s.slot k i).ready = false
  | .capState _ state => (∀ j, Steady s j) ∧ ¬ KeepsOpen state
  | .setCapacity k position => (∀ j, j ≠ k → Steady s j) ∧ s.cap k = position
      ∧ (s.segments k).dequeue_state = (s.segments k).taken ∧ (s.segments k).taken ≤ position
  | _ => ∀ j, Steady s j

/-- The consumer has freed the segment's buffer. -/
def Consumer.Installs (k : P.Index) : Consumer P → Prop
  | .install j _ _ _ => j = k
  | _ => False

/-- The consumer has given the segment a buffer and not yet opened it. -/
def Consumer.Opens (k : P.Index) : Consumer P → Prop
  | .opening j _ _ => j = k
  | _ => False

/-- The consumer has taken the segment's front element. -/
def Consumer.Clears (k : P.Index) : Consumer P → Prop
  | .clearReady j _ => j = k
  | _ => False

open Classical in
structure Shape [Fintype τ] (s : State P τ ε) : Prop where
  word_lt : ∀ k, (s.segments k).enqueue_pos < SIZES
  cap : ∀ k, Fits τ (s.cap k)
  original : ∀ k, Fits τ (s.segments k).original_capacity
  clamp : ∀ k, s.pos k ≤ s.cap k + POSITION_CLAMP_DISTANCE
    + (Finset.univ.filter fun t => (s.producers t).Clamps k (s.cap k)).card
  buffers : Injective fun k => (s.segments k).buffer
  allocated : ∀ k, ¬ s.consumer.Installs k → (s.segments k).buffer ∈ s.allocated
  fits : ∀ k, ¬ s.consumer.Opens k → s.cap k ≤ (s.segments k).original_capacity
  filled : ∀ k, ∀ i < (s.segments k).original_capacity, (s.slot k i).ready = true →
    (s.slot k i).element ≠ none ∨ s.consumer.Clears k ∧ i = (s.segments k).dequeue_state
  holds : ∀ t, Holds s (s.producers t)
  phase : Phase s s.consumer

/-- The account of the slots claimed and emptied. -/
def view (s : State P τ ε) : Ledger P.Index τ ε where
  used k := min (s.pos k) (s.cap k)
  taken k := (s.segments k).taken
  life k := (s.segments k).life
  published k i :=
    if i < (s.segments k).original_capacity ∧ (s.slot k i).ready = true then (s.slot k i).element
    else none
  flight t := (s.producers t).claim?
  call t := (s.producers t).call?
  calls := s.calls
  claims := s.claims
  pushed := s.pushed
  popped := s.popped

section Frames

variable {s s' : State P τ ε} {t : τ} {p : Producer P τ ε} {k : P.Index} {c : Push P τ ε}

theorem Steady.congr (h : Steady s k) (hcapacity : (s'.segments k).capacity = (s.segments k).capacity)
    (hcap : s'.cap k = s.cap k)
    (hdequeue : (s'.segments k).dequeue_state = (s.segments k).dequeue_state)
    (htaken : (s'.segments k).taken = (s.segments k).taken) : Steady s' k :=
  ⟨by rw [hcapacity, hcap, h.capacity], by rw [hdequeue, htaken, h.dequeue],
    by rw [htaken, hcap]; exact h.lt⟩

theorem Drained.congr (h : Drained s k)
    (hcapacity : (s'.segments k).capacity = (s.segments k).capacity) (hcap : s'.cap k = s.cap k)
    (hdequeue : (s'.segments k).dequeue_state = (s.segments k).dequeue_state)
    (htaken : (s'.segments k).taken = (s.segments k).taken) : Drained s' k :=
  ⟨by rw [hcapacity, hcap, h.capacity], by rw [hdequeue, htaken, h.dequeue],
    by rw [htaken, hcap, h.eq]⟩

theorem enterClamp_cases (A : Attempt P ε) (c current : ℕ) :
    (enterClamp A c current : Producer P τ ε) = .clampSwap A c current ∧ unpackCapacity current = c
        ∧ c ≤ unpackPos current
      ∨ (enterClamp A c current : Producer P τ ε) = missed A ∧ (unpackCapacity current = c →
        unpackPos current ≤ c + POSITION_CLAMP_DISTANCE) := by
  unfold enterClamp
  split_ifs with h
  · exact .inl ⟨rfl, h.1, h.2.1⟩
  · refine .inr ⟨rfl, fun hc => ?_⟩
    rw [hc] at h
    omega

theorem missed_cases (A : Attempt P ε) :
    (∃ A', A'.call = A.call ∧ (missed A : Producer P τ ε) = .storeTarget A')
      ∨ (missed A : Producer P τ ε) = .ret false := by
  unfold missed
  split_ifs
  · exact .inl ⟨⟨A.value, A.call, A.target.next, A.attempt + 1⟩, rfl, rfl⟩
  · exact .inr rfl

theorem claim_missed (A : Attempt P ε) : (missed A : Producer P τ ε).claim? = none := by
  rcases missed_cases (τ := τ) A with ⟨A', -, h⟩ | h <;> rw [h] <;> rfl

theorem holds_missed (A : Attempt P ε) : Holds s (missed A) := by
  rcases missed_cases (τ := τ) A with ⟨A', -, h⟩ | h <;> rw [h] <;> trivial

theorem holds_enterClamp (A : Attempt P ε) (c current : ℕ) : Holds s (enterClamp A c current) := by
  rcases enterClamp_cases (τ := τ) A c current with ⟨h, hc⟩ | ⟨h, -⟩
  · rw [h]
    exact hc
  · rw [h]
    exact holds_missed A

/-- What a producer does after counting up. -/
theorem claimed_cases (t : τ) (life : ℕ) (A : Attempt P ε) (w : ℕ) :
    unpackPos w < unpackCapacity w
        ∧ claimed t life A w = .readBuffer ⟨t, A.value, A.call, A.target, life, unpackPos w⟩
      ∨ unpackCapacity w ≤ unpackPos w
        ∧ (claimed t life A w = .clampLoad A (unpackCapacity w)
          ∨ claimed t life A w = missed A
            ∧ unpackPos w < unpackCapacity w + POSITION_CLAMP_DISTANCE) := by
  unfold claimed
  split_ifs with hle hfar
  · exact .inr ⟨hle, .inl rfl⟩
  · exact .inr ⟨hle, .inr ⟨rfl, by omega⟩⟩
  · exact .inl ⟨not_le.1 hle, rfl⟩

/-- What holds of a place does not change when the slots it is about do not. -/
theorem Holds.congr (h : Holds s p)
    (hbuffer : ∀ c ∈ p.claim?, (s'.segments c.segment).buffer = (s.segments c.segment).buffer)
    (hslot : ∀ c ∈ p.claim?, (s'.slot c.segment c.index).element
      = (s.slot c.segment c.index).element) : Holds s' p := by
  cases p with
  | clampSwap A c current => exact h
  | construct c b =>
    show b = _
    rw [hbuffer c rfl]
    exact h
  | readAgain c =>
    show (s'.slot c.segment c.index).element = some c
    rw [hslot c rfl]
    exact h
  | publish c b =>
    refine ⟨?_, ?_⟩
    · rw [hbuffer c rfl]
      exact h.1
    · rw [hslot c rfl]
      exact h.2
  | _ => trivial

variable [Fintype τ]

/-- What the consumer knows does not change when a producer counts up a word or fills a slot. -/
theorem Phase.keep {q : Consumer P} (h : Phase s q)
    (hcapacity : ∀ k, (s'.segments k).capacity = (s.segments k).capacity)
    (hcap : ∀ k, s'.cap k = s.cap k)
    (hdequeue : ∀ k, (s'.segments k).dequeue_state = (s.segments k).dequeue_state)
    (htaken : ∀ k, (s'.segments k).taken = (s.segments k).taken)
    (horiginal : ∀ k, (s'.segments k).original_capacity = (s.segments k).original_capacity)
    (hbuffer : ∀ k, (s'.segments k).buffer = (s.segments k).buffer)
    (hallocated : s'.allocated = s.allocated)
    (hready : ∀ k, (s.front k).ready = true → (s'.front k).ready = true)
    (hclear : ∀ k a, q = .clearReady k a → (s'.front k).element = (s.front k).element)
    (hopen : ∀ k b after, q = .opening k b after → ∀ i < b, (s'.slot k i).ready = (s.slot k i).ready) :
    Phase s' q := by
  have steady : ∀ {j}, Steady s j → Steady s' j := fun {j} hj =>
    hj.congr (hcapacity j) (hcap j) (hdequeue j) (htaken j)
  have drained : ∀ {j}, Drained s j → Drained s' j := fun {j} hj =>
    hj.congr (hcapacity j) (hcap j) (hdequeue j) (htaken j)
  cases q with
  | take k a => exact ⟨fun j => steady (h.1 j), hready k h.2⟩
  | clearReady k a =>
    obtain ⟨hall, h1, h2, h3, h4⟩ := h
    refine ⟨fun j hj => steady (hall j hj), ?_, ?_, ?_, ?_⟩
    · rw [hcapacity, hcap, h1]
    · rw [htaken, hdequeue, h2]
    · rw [htaken, hcap]
      exact h3
    · rw [hclear k a rfl, h4]
  | retire k after => exact ⟨fun j hj => steady (h.1 j hj), drained h.2⟩
  | free k b c after =>
    obtain ⟨hall, hdrained, hb, hne, hfits⟩ := h
    refine ⟨fun j hj => steady (hall j hj), drained hdrained, ?_, fun j => ?_, hfits⟩
    · rwa [hallocated]
    · rw [hbuffer]
      exact hne j
  | install k b c after =>
    obtain ⟨hall, hdrained, hb, hne, hfits⟩ := h
    refine ⟨fun j hj => steady (hall j hj), drained hdrained, ?_, fun j hj => ?_, hfits⟩
    · rwa [hallocated]
    · rw [hbuffer]
      exact hne j hj
  | opening k c after =>
    obtain ⟨hall, h1, h2, h3, h4, hfits, h5⟩ := h
    refine ⟨fun j hj => steady (hall j hj), ?_, ?_, ?_, ?_, hfits, fun i hi => ?_⟩
    · rw [hcapacity, h1]
    · rw [horiginal, h2]
    · rw [hdequeue, h3]
    · rw [htaken, hcap, h4]
    · rw [hopen k c after rfl i hi, h5 i hi]
  | capState k w => exact ⟨fun j => steady (h.1 j), h.2⟩
  | setCapacity k position =>
    obtain ⟨hall, h1, h2, h3⟩ := h
    refine ⟨fun j hj => steady (hall j hj), ?_, ?_, ?_⟩
    · rw [hcap, h1]
    · rw [hdequeue, htaken, h2]
    · rw [htaken]
      exact h3
  | _ => exact fun j => steady (h j)

open Classical in
/-- A producer that moves on without having clamped leaves as many that clamp. -/
theorem card_clamps_le [DecidableEq τ] {f : τ → Producer P τ ε} {n : ℕ}
    (h : (f t).Clamps k n → p.Clamps k n) :
    (Finset.univ.filter fun u => (f u).Clamps k n).card
      ≤ (Finset.univ.filter fun u => (update f t p u).Clamps k n).card := by
  refine Finset.card_le_card fun u hu => ?_
  rw [Finset.mem_filter] at hu ⊢
  refine ⟨hu.1, ?_⟩
  rcases eq_or_ne u t with rfl | hne
  · rw [update_self]
    exact h hu.2
  · rw [update_of_ne hne]
    exact hu.2

open Classical in
/-- A producer that begins to clamp is one more. -/
theorem card_clamps_lt [DecidableEq τ] {f : τ → Producer P τ ε} {n : ℕ}
    (hold : ¬ (f t).Clamps k n) (hnew : p.Clamps k n) :
    (Finset.univ.filter fun u => (f u).Clamps k n).card
      < (Finset.univ.filter fun u => (update f t p u).Clamps k n).card := by
  refine Finset.card_lt_card ((Finset.ssubset_iff_of_subset fun u hu => ?_).2 ⟨t, ?_, ?_⟩)
  · rw [Finset.mem_filter] at hu ⊢
    refine ⟨hu.1, ?_⟩
    rcases eq_or_ne u t with rfl | hne
    · exact absurd hu.2 hold
    · rw [update_of_ne hne]
      exact hu.2
  · rw [Finset.mem_filter, update_self]
    exact ⟨Finset.mem_univ t, hnew⟩
  · rw [Finset.mem_filter]
    exact fun h => hold h.2

open Classical in
/-- One that is not clamping is not counted. -/
theorem card_clamps_not_all {f : τ → Producer P τ ε} {n : ℕ} (h : ¬ (f t).Clamps k n) :
    (Finset.univ.filter fun u => (f u).Clamps k n).card < Fintype.card τ := by
  refine Finset.card_lt_card ((Finset.ssubset_iff_of_subset (Finset.filter_subset _ _)).2
    ⟨t, Finset.mem_univ t, ?_⟩)
  rw [Finset.mem_filter]
  exact fun hmem => h hmem.2

end Frames

section Producers

variable [Fintype τ] [DecidableEq τ] {s s' : State P τ ε} {t : τ} {p : Producer P τ ε} {k : P.Index}
  {c : Push P τ ε}

open Classical in
/-- A step of a producer that fills no slot. -/
theorem Shape.move (h : Shape s)
    (hseg : ∀ j, s'.segments j = { s.segments j with enqueue_pos := (s'.segments j).enqueue_pos })
    (hslots : s'.slots = s.slots) (hconsumer : s'.consumer = s.consumer)
    (hallocated : s'.allocated = s.allocated) (hpc : s'.producers = update s.producers t p)
    (hword : ∀ j, (s'.segments j).enqueue_pos < SIZES) (hcap : ∀ j, s'.cap j = s.cap j)
    (hclamp : ∀ j, s'.pos j ≤ s.cap j + POSITION_CLAMP_DISTANCE
      + (Finset.univ.filter fun u => (update s.producers t p u).Clamps j (s.cap j)).card)
    (hholds : Holds s p) : Shape s' := by
  have hbuffer : ∀ j, (s'.segments j).buffer = (s.segments j).buffer := fun j => by rw [hseg]
  have horiginal : ∀ j, (s'.segments j).original_capacity = (s.segments j).original_capacity :=
    fun j => by rw [hseg]
  have hdequeue : ∀ j, (s'.segments j).dequeue_state = (s.segments j).dequeue_state :=
    fun j => by rw [hseg]
  have hslot : ∀ j i, s'.slot j i = s.slot j i := fun j i => by
    unfold State.slot
    rw [hslots, hbuffer]
  have hfront : ∀ j, s'.front j = s.front j := fun j => by
    unfold State.front
    rw [hslots, hbuffer, hdequeue]
  refine ⟨hword, fun j => ?_, fun j => ?_, fun j => ?_, fun i j hij => h.buffers ?_, fun j => ?_,
    fun j => ?_, fun j i => ?_, fun u => ?_, ?_⟩
  · rw [hcap]
    exact h.cap j
  · rw [horiginal]
    exact h.original j
  · rw [hcap, hpc]
    exact hclamp j
  · simpa only [hbuffer] using hij
  · rw [hconsumer, hbuffer, hallocated]
    exact h.allocated j
  · rw [hconsumer, hcap, horiginal]
    exact h.fits j
  · rw [horiginal, hslot, hconsumer, hdequeue]
    exact h.filled j i
  · have hkeep : ∀ {q}, Holds s q → Holds s' q := fun hq =>
      hq.congr (fun c _ => hbuffer c.segment) fun c _ => by rw [hslot]
    rw [hpc]
    rcases eq_or_ne u t with rfl | hu
    · rw [update_self]
      exact hkeep hholds
    · rw [update_of_ne hu]
      exact hkeep (h.holds u)
  · rw [hconsumer]
    refine h.phase.keep (fun j => by rw [hseg]) hcap hdequeue (fun j => by rw [hseg]) horiginal hbuffer
      hallocated (fun j hj => ?_) (fun j a _ => by rw [hfront]) fun j b after _ i _ => by rw [hslot]
    rw [hfront]
    exact hj

/-- A producer goes on, having read. -/
theorem Shape.goOn (h : Shape s) (hslots : s'.slots = s.slots) (hsegments : s'.segments = s.segments)
    (hconsumer : s'.consumer = s.consumer) (hallocated : s'.allocated = s.allocated)
    (hpc : s'.producers = update s.producers t p)
    (hclamps : ∀ j, (s.producers t).Clamps j (s.cap j) → p.Clamps j (s.cap j)
      ∨ s.pos j ≤ s.cap j + POSITION_CLAMP_DISTANCE)
    (hholds : Holds s p) : Shape s' := by
  have hcap : ∀ j, s'.cap j = s.cap j := fun j => by
    unfold State.cap
    rw [hsegments]
  have hpos : ∀ j, s'.pos j = s.pos j := fun j => by
    unfold State.pos
    rw [hsegments]
  refine h.move (fun j => by rw [hsegments]) hslots hconsumer hallocated hpc
    (fun j => by rw [hsegments]; exact h.word_lt j) hcap (fun j => ?_) hholds
  have hclamp := h.clamp j
  rw [hpos]
  by_cases hle : s.pos j ≤ s.cap j + POSITION_CLAMP_DISTANCE
  · omega
  · have hcard := card_clamps_le (p := p) fun hold => (hclamps j hold).resolve_right hle
    omega

/-- A word is written by a producer, its capacity staying the same. -/
theorem Shape.setWord (h : Shape s) {w : ℕ} {l : List (Push P τ ε)} (hw : w < SIZES)
    (hcap : unpackCapacity w = s.cap k)
    (hpos : unpackPos w ≤ s.cap k + POSITION_CLAMP_DISTANCE
      ∨ p.Clamps k (s.cap k) ∧ ¬ (s.producers t).Clamps k (s.cap k) ∧ unpackPos w ≤ s.pos k + 1)
    (hclamps : ∀ j, j ≠ k → ¬ (s.producers t).Clamps j (s.cap j)) (hholds : Holds s p) :
    Shape (({ s with claims := l }.setEnqueuePos k w).setProducer t p) := by
  have hk : (({ s with claims := l }.setEnqueuePos k w).setProducer t p).segments k
      = { s.segments k with enqueue_pos := w } := update_self k _ s.segments
  have hj : ∀ j, j ≠ k → (({ s with claims := l }.setEnqueuePos k w).setProducer t p).segments j
      = s.segments j := fun j hj => update_of_ne hj _ s.segments
  refine h.move (fun j => ?_) rfl rfl rfl rfl (fun j => ?_) (fun j => ?_) (fun j => ?_) hholds
  · rcases eq_or_ne j k with rfl | hne
    · rw [hk]
    · rw [hj j hne]
  · rcases eq_or_ne j k with rfl | hne
    · rw [hk]
      exact hw
    · rw [hj j hne]
      exact h.word_lt j
  · unfold State.cap
    rcases eq_or_ne j k with rfl | hne
    · rw [hk]
      exact hcap
    · rw [hj j hne]
  · have hclamp := h.clamp j
    unfold State.pos at *
    rcases eq_or_ne j k with rfl | hne
    · rw [hk]
      rcases hpos with hpos | ⟨hnew, hold, hpos⟩
      · dsimp only
        omega
      · have hcard := card_clamps_lt hold hnew
        dsimp only
        omega
    · rw [hj j hne]
      have hcard := card_clamps_le (p := p) fun hold => absurd hold (hclamps j hne)
      omega

omit [DecidableEq τ] in
/-- The buffers are apart, so a slot written is one segment's. -/
theorem Shape.setSlot (h : Shape s) (k : P.Index) (i : ℕ) (x : Slot P τ ε) (j : P.Index) (n : ℕ) :
    (s.setSlot (s.segments k).buffer i x).slot j n = if j = k ∧ n = i then x else s.slot j n := by
  show update s.slots (s.segments k).buffer (update (s.slots (s.segments k).buffer) i x)
    (s.segments j).buffer n = _
  rcases eq_or_ne j k with rfl | hj
  · rw [update_self]
    rcases eq_or_ne n i with rfl | hn
    · rw [update_self, if_pos ⟨rfl, rfl⟩]
    · rw [update_of_ne hn, if_neg fun hand => hn hand.2]
      rfl
  · rw [update_of_ne fun hb => hj (h.buffers hb), if_neg fun hand => hj hand.1]
    rfl

omit [DecidableEq τ] in
/-- What is known of a slot claimed and not published. -/
theorem claim_lt (h : Shape s) (hL : Ledger.Balanced (view s)) (hc : (s.producers t).claim? = some c) :
    (s.segments c.segment).taken ≤ c.index ∧ c.index < s.cap c.segment
      ∧ c.index < (s.segments c.segment).original_capacity
      ∧ (s.slot c.segment c.index).ready = false := by
  obtain ⟨hclaim, -, hnot⟩ := hL.flight t c hc
  obtain ⟨-, hle, hlt⟩ := hL.present hclaim hnot
  replace hle : (s.segments c.segment).taken ≤ c.index := hle
  replace hlt : c.index < min (s.pos c.segment) (s.cap c.segment) := hlt
  have hcap : c.index < s.cap c.segment := by omega
  have hopen : ¬ s.consumer.Opens c.segment := by
    intro hopen
    have hphase := h.phase
    cases hcon : s.consumer <;> rw [hcon] at hopen hphase <;> try exact hopen
    obtain rfl := hopen
    have htaken := hphase.2.2.2.2.1
    omega
  have horiginal := hcap.trans_le (h.fits c.segment hopen)
  refine ⟨hle, hcap, horiginal, ?_⟩
  by_contra hready
  rw [Bool.not_eq_false] at hready
  rcases h.filled c.segment c.index horiginal hready with hsome | ⟨hclears, hindex⟩
  · -- the slot's element would be published
    have hnone := hL.published_flight hc
    refine hsome ?_
    unfold view at hnone
    dsimp only at hnone
    rwa [if_pos ⟨horiginal, hready⟩] at hnone
  · have hphase := h.phase
    cases hcon : s.consumer <;> rw [hcon] at hclears hphase <;> try exact hclears
    obtain rfl := hclears
    have htaken := hphase.2.2.1
    omega

/-- A producer fills the slot it has claimed. -/
theorem Shape.fill (h : Shape s) (hL : Ledger.Balanced (view s)) {x : Slot P τ ε}
    {l : List (Push P τ ε)} (hc : (s.producers t).claim? = some c) (hx : x.element ≠ none)
    (hholds : Holds (s.setSlot (s.segments c.segment).buffer c.index x) p)
    (hp : ∀ j i, ¬ (s.producers t).Clamps j i) :
    Shape ({ s.setSlot (s.segments c.segment).buffer c.index x with pushed := l }.setProducer t p) := by
  obtain ⟨htaken, hcap, horiginal, hready⟩ := claim_lt h hL hc
  have hother : ∀ j i, ¬ (j = c.segment ∧ i = c.index) →
      (s.setSlot (s.segments c.segment).buffer c.index x).slot j i = s.slot j i := fun j i hne => by
    rw [h.setSlot, if_neg hne]
  have hself : (s.setSlot (s.segments c.segment).buffer c.index x).slot c.segment c.index = x := by
    rw [h.setSlot, if_pos ⟨rfl, rfl⟩]
  refine ⟨h.word_lt, h.cap, h.original, fun j => ?_, h.buffers, h.allocated, h.fits, fun j i hi hr => ?_,
    fun u => ?_, ?_⟩
  · have hclamp := h.clamp j
    have hcard := card_clamps_le (p := p) (f := s.producers) (k := j) (n := s.cap j)
      fun hold => absurd hold (hp j _)
    exact hclamp.trans (Nat.add_le_add_left hcard _)
  · replace hr : ((s.setSlot (s.segments c.segment).buffer c.index x).slot j i).ready = true := hr
    show ((s.setSlot (s.segments c.segment).buffer c.index x).slot j i).element ≠ none ∨ _
    by_cases hplace : j = c.segment ∧ i = c.index
    · obtain ⟨rfl, rfl⟩ := hplace
      rw [hself]
      exact .inl hx
    · rw [hother j i hplace] at hr ⊢
      exact h.filled j i hi hr
  · show Holds (s.setSlot (s.segments c.segment).buffer c.index x) (update s.producers t p u)
    rcases eq_or_ne u t with rfl | hu
    · rw [update_self]
      exact hholds
    · rw [update_of_ne hu]
      refine (h.holds u).congr (fun _ _ => rfl) fun c' hc' => ?_
      rw [hother]
      rintro ⟨hseg, hindex⟩
      exact hL.flight_apart (t := u) (u := t) hc' hc hu ⟨hseg, hindex⟩
  · refine h.phase.keep (fun _ => rfl) (fun _ => rfl) (fun _ => rfl) (fun _ => rfl) (fun _ => rfl)
      (fun _ => rfl) rfl (fun j hj => ?_) (fun j a hq => ?_) fun j b after hq i hi => ?_
    · have hplace : ¬ (j = c.segment ∧ (s.segments j).dequeue_state = c.index) := by
        rintro ⟨rfl, hi⟩
        unfold State.front at hj
        rw [hi] at hj
        exact Bool.false_ne_true (hready.symm.trans hj)
      exact (congrArg Slot.ready (hother j _ hplace)).trans hj
    · refine congrArg Slot.element (hother j _ ?_)
      rintro ⟨rfl, hi⟩
      replace hi : (s.segments c.segment).dequeue_state = c.index := hi
      have hphase := h.phase
      rw [hq] at hphase
      have hnext := hphase.2.2.1
      omega
    · refine congrArg Slot.ready (hother j i ?_)
      rintro ⟨rfl, rfl⟩
      have hphase := h.phase
      rw [hq] at hphase
      have hall := hphase.2.2.2.2.1
      omega

omit [DecidableEq τ] in
/-- A count has not come to the end of the word. -/
theorem Shape.pos_lt (h : Shape s) {A : Attempt P ε} (hp : s.producers t = .claim A) :
    s.pos A.target + 1 < 2 ^ 32 := by
  have hclamp := h.clamp A.target
  have hroom := (h.cap A.target).roomy
  have hcard := card_clamps_not_all (f := s.producers) (t := t) (k := A.target)
    (n := s.cap A.target) (by rw [hp]; exact id)
  unfold Roomy at hroom
  omega

/-- A producer's step keeps the segments in order. -/
theorem Shape.stepProducer {spurious : Bool} (h : Shape s) (hL : Ledger.Balanced (view s))
    (hs : stepProducer s t spurious = some s') : Shape s' := by
  have hholds := h.holds t
  unfold GrowableRingQueue.stepProducer at hs
  split at hs <;> rename_i hp
  · cases hs
  · obtain rfl := Option.some.inj hs
    exact h.goOn rfl rfl rfl rfl rfl (fun j hj => by rw [hp] at hj; exact hj.elim) trivial
  · -- claim
    rename_i A
    obtain rfl := Option.some.inj hs
    have hnot : ∀ j i, ¬ (s.producers t).Clamps j i := fun j i => by
      rw [hp]
      exact id
    obtain ⟨hw, hcap, hpos⟩ := unpack_succ (h.word_lt A.target) (h.pos_lt hp)
    have hbound : s.pos A.target + 1 ≤ s.cap A.target + POSITION_CLAMP_DISTANCE ∨
        (claimed t (s.segments A.target).life A (s.segments A.target).enqueue_pos).Clamps A.target
          (s.cap A.target) := by
      rcases claimed_cases t (s.segments A.target).life A (s.segments A.target).enqueue_pos with
        ⟨hlt, -⟩ | ⟨-, hc | ⟨-, hlt⟩⟩
      · refine .inl ?_
        unfold State.pos State.cap
        omega
      · refine .inr ?_
        rw [hc]
        exact ⟨rfl, rfl⟩
      · exact .inl hlt
    refine h.setWord hw hcap ?_ (fun j _ => hnot j _) ?_
    · rw [hpos]
      exact hbound.imp_right fun hc => ⟨hc, hnot _ _, le_rfl⟩
    · rcases claimed_cases t (s.segments A.target).life A (s.segments A.target).enqueue_pos with
        ⟨-, hc⟩ | ⟨-, hc | ⟨hc, -⟩⟩ <;> rw [hc]
      · trivial
      · trivial
      · exact holds_missed A
  · -- clampLoad
    rename_i A c
    obtain rfl := Option.some.inj hs
    refine h.goOn rfl rfl rfl rfl rfl (fun j hj => ?_) (holds_enterClamp A c _)
    rw [hp] at hj
    obtain ⟨rfl, rfl⟩ := hj
    rcases enterClamp_cases (τ := τ) A (s.cap A.target) (s.segments A.target).enqueue_pos with
      ⟨hc, -⟩ | ⟨-, hle⟩
    · rw [hc]
      exact .inl ⟨rfl, rfl⟩
    · exact .inr (hle rfl)
  · -- clampSwap
    rename_i A c current
    rw [hp] at hholds
    split_ifs at hs with hsame <;> obtain rfl := Option.some.inj hs
    · obtain ⟨rfl, -⟩ := hsame
      obtain ⟨hcap, hle⟩ := hholds
      replace hcap : s.cap A.target = c := hcap
      subst hcap
      have hroom := (h.cap A.target).roomy
      have hlt : s.cap A.target < 2 ^ 32 := by
        unfold Roomy at hroom
        omega
      obtain ⟨hw, hcap', hpos⟩ := unpack_packState hlt hlt
      refine h.setWord (l := s.claims) hw hcap' (.inl ?_) (fun j hj hclamps => ?_) (holds_missed A)
      · rw [hpos]
        exact Nat.le_add_right _ _
      · rw [hp] at hclamps
        exact hj hclamps.1.symm
    · refine h.goOn rfl rfl rfl rfl rfl (fun j hj => ?_) (holds_enterClamp A c _)
      rw [hp] at hj
      obtain ⟨rfl, rfl⟩ := hj
      rcases enterClamp_cases (τ := τ) A (s.cap A.target) (s.segments A.target).enqueue_pos with
        ⟨hc, -⟩ | ⟨-, hle⟩
      · rw [hc]
        exact .inl ⟨rfl, rfl⟩
      · exact .inr (hle rfl)
  · obtain rfl := Option.some.inj hs
    exact h.goOn rfl rfl rfl rfl rfl (fun j hj => by rw [hp] at hj; exact hj.elim) trivial
  · obtain rfl := Option.some.inj hs
    exact h.goOn rfl rfl rfl rfl rfl (fun j hj => by rw [hp] at hj; exact hj.elim) rfl
  · -- construct
    rename_i c b
    rw [hp] at hholds
    obtain rfl : b = (s.segments c.segment).buffer := hholds
    obtain rfl := Option.some.inj hs
    refine h.fill (l := s.pushed) hL (by rw [hp]; rfl) (Option.some_ne_none c) ?_
      (fun j i => by rw [hp]; exact id)
    show ((s.setSlot (s.segments c.segment).buffer c.index _).slot c.segment c.index).element = some c
    rw [h.setSlot, if_pos ⟨rfl, rfl⟩]
  · rename_i c
    rw [hp] at hholds
    obtain rfl := Option.some.inj hs
    exact h.goOn rfl rfl rfl rfl rfl (fun j hj => by rw [hp] at hj; exact hj.elim) ⟨rfl, hholds⟩
  · -- publish
    rename_i c b
    rw [hp] at hholds
    obtain ⟨rfl, helement⟩ := hholds
    obtain rfl := Option.some.inj hs
    refine h.fill hL (by rw [hp]; rfl) ?_ trivial (fun j i => by rw [hp]; exact id)
    exact helement ▸ Option.some_ne_none c
  · obtain rfl := Option.some.inj hs
    exact h.goOn rfl rfl rfl rfl rfl (fun j hj => by rw [hp] at hj; exact hj.elim) trivial

end Producers

end MinStd.GrowableRingQueue
