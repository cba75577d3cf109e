import MinStd.LatestValueViews
import MinStd.Proofs.BasicString
import MinStd.Proofs.LatestValue

/-!
# What a load gives of what a store kept

A store alone publishes its payload, whatever was stored before, and a load alone reads it.  A text
ends at its first terminator: of a stored text with a terminator inside, a load gives what stands
before it.
-/

namespace MinStd.LatestValue

open Function

variable {L : Layout}

/-- A store alone succeeds, and the next load gives its value. -/
theorem SlotArray.load_store {a : SlotArray L} (h : a.writerBusy = 0) (value : L.Value) :
    (a.store value).1 = .SUCCESS ∧ (a.store value).2.load = some (.SUCCESS, value) := by
  have hindex : (slotOf a.current + 1) % WORD32 % L.NUM_SLOTS < STORED_FLAG :=
    (Nat.mod_lt _ (by have := L.two_le; omega)).trans L.lt
  have hsequence (q : ℕ) : (q + 2) % WORD32 < WORD32 := Nat.mod_lt _ (by unfold WORD32; omega)
  unfold store
  rw [if_neg (not_not.2 h)]
  refine ⟨rfl, ?_⟩
  simp only [load, slotOf_packCurrent hindex, update_self, if_true, resultOf,
    sequenceNumberOf_packCurrent (hsequence _) hindex, isStored_packCurrent hindex]

/-! ### What is kept and what is given -/

variable {β : Type*}

/-- A store keeps what its capacity has room for, and its result says whether that is all. -/
structure Keeps (capacity : ℕ) (value : List β) (result : Result) (kept : List β) : Prop where
  clipped : kept = value.take capacity
  success : result = .SUCCESS ↔ kept = value
  truncated : result = .TRUNCATED ↔ kept ≠ value

/-- A load gives what its destination has room for, and its result says whether that is all. -/
structure Gives (kept : List β) (capacity : ℕ) (result : Result) (got : List β) : Prop where
  clipped : got = kept.take capacity
  success : result = .SUCCESS ↔ kept.length ≤ capacity
  truncated : result = .TRUNCATED ↔ capacity < kept.length

theorem keeps_take (capacity : ℕ) (value : List β) :
    Keeps capacity value (if capacity < value.length then .TRUNCATED else .SUCCESS)
      (value.take capacity) := by
  have hall : value.take capacity = value ↔ ¬ capacity < value.length := by
    rw [List.take_eq_self_iff, not_lt]
  by_cases h : capacity < value.length
  · exact ⟨rfl, by simp [hall, h], by simp [hall, h]⟩
  · exact ⟨rfl, by simp [hall, h], by simp [hall, h]⟩

theorem gives_take (kept : List β) (capacity : ℕ) :
    Gives kept capacity (if capacity < kept.length then .TRUNCATED else .SUCCESS)
      (kept.take capacity) := by
  by_cases h : capacity < kept.length
  · exact ⟨rfl, by simp [h], by simp [h]⟩
  · exact ⟨rfl, by simp [h, not_lt.1 h], by simp [h]⟩

theorem Gives.eq_of_success {kept got : List β} {capacity : ℕ} {result : Result}
    (h : Gives kept capacity result got) (hresult : result = .SUCCESS) : got = kept := by
  rw [h.clipped, List.take_of_length_le (h.success.1 hresult)]

/-! ### Texts -/

section Text

variable {α : Type*} [CharType α] (T : Text α L) {a : SlotArray L}

theorem Text.load_store (h : a.writerBusy = 0) (value : List α) :
    (T.store a value).2.load = some (.SUCCESS, T.payload.words (T.pack value)) :=
  (SlotArray.load_store h _).2

/-- One character past the capacity is enough to tell that a text is too long. -/
theorem Text.store_take (a : SlotArray L) (value : List α) :
    T.store a (value.take (T.MAX_LEN + 1)) = T.store a value := by
  have hpack : T.pack (value.take (T.MAX_LEN + 1)) = T.pack value := by
    refine Subtype.ext ?_
    simp only [pack, List.take_take, Nat.min_eq_left (Nat.le_succ T.MAX_LEN)]
  have hclip : (if T.MAX_LEN < min (T.MAX_LEN + 1) value.length then T.MAX_LEN
        else min (T.MAX_LEN + 1) value.length) < min (T.MAX_LEN + 1) value.length ↔
      (if T.MAX_LEN < value.length then T.MAX_LEN else value.length) < value.length := by
    split_ifs <;> omega
  simp only [store, hpack, List.length_take, hclip]

theorem Text.store_result (h : a.writerBusy = 0) (value : List α) :
    (T.store a value).1 = if T.MAX_LEN < value.length then .TRUNCATED else .SUCCESS := by
  have hstored := (SlotArray.load_store h (T.payload.words (T.pack value))).1
  simp only [Text.store, hstored, true_and]
  split_ifs <;> first | rfl | omega

end Text

section Text

variable {α : Type*} [DecidableEq α] [CharType α]

theorem measure_eq : ∀ (cells : List α) (max : ℕ),
    measure cells max = (chars (cells.take max)).length
  | [], _ => by simp [measure, chars]
  | _ :: _, 0 => by simp [measure, chars]
  | c :: s, max + 1 => by
    have ih := measure_eq s max
    rw [chars] at ih
    by_cases h : c = CharType.zero
    · simp [measure, chars, h]
    · simp [measure, chars, h, ih]

theorem take_measure (cells : List α) (max : ℕ) :
    cells.take (measure cells max) = chars (cells.take max) := by
  rw [measure_eq]
  exact (List.prefix_iff_eq_take.1 ((List.takeWhile_prefix _).trans (List.take_prefix ..))).symm

theorem zero_notMem_chars (cells : List α) : CharType.zero ∉ chars cells := by
  intro h
  have := List.mem_takeWhile_imp h
  simp at this

theorem chars_append {s : List α} (h : CharType.zero ∉ s) (rest : List α) :
    chars (s ++ CharType.zero :: rest) = s := by
  rw [chars, List.takeWhile_append_of_pos]
  · simp
  · rintro c hc
    simp only [decide_eq_true_eq]
    rintro rfl
    exact h hc

theorem chars_of_notMem {s : List α} (h : CharType.zero ∉ s) : chars s = s := by
  rw [chars, List.takeWhile_eq_self_iff]
  rintro c hc
  simp only [decide_eq_true_eq]
  rintro rfl
  exact h hc

/-- Zeros at the end end the text where it ended. -/
theorem chars_append_replicate (s : List α) (n : ℕ) :
    chars (s ++ List.replicate n CharType.zero) = chars s := by
  induction s with
  | nil => cases n <;> simp [chars]
  | cons c s ih =>
    by_cases h : c = CharType.zero
    · simp [chars, h]
    · simpa [chars, h] using ih

namespace Text

variable (T : Text α L) {a : SlotArray L}

/-- The published payload. -/
def published (a : SlotArray L) : Option (List α) :=
  a.load.map fun loaded => (T.payload.value loaded.2).toList

/-- The text a load gives of what was kept. -/
def loadable (value : List α) : List α := chars (value.take T.MAX_LEN)

theorem chars_take_pack (value : List α) (n : ℕ) :
    chars ((T.pack value).toList.take n) = (T.loadable value).take n := by
  rw [chars, ← List.take_takeWhile]
  exact congrArg (List.take n) (chars_append_replicate ..)

theorem length_loadable (value : List α) : (T.loadable value).length ≤ T.MAX_LEN :=
  (List.takeWhile_prefix _).length_le.trans (List.length_take_le ..)

theorem measure_pack (value : List α) :
    measure (T.pack value).toList T.MAX_LEN = (T.loadable value).length := by
  rw [measure_eq, chars_take_pack, List.take_of_length_le (T.length_loadable value)]

/-- What a load copies. -/
theorem take_pack (value : List α) {n : ℕ} (h : n ≤ (T.loadable value).length) :
    (T.pack value).toList.take n = (T.loadable value).take n := by
  have htext : (T.pack value).toList.take (T.loadable value).length = T.loadable value := by
    rw [← measure_pack, take_measure, chars_take_pack,
      List.take_of_length_le (T.length_loadable value)]
  calc (T.pack value).toList.take n
      = ((T.pack value).toList.take (T.loadable value).length).take n := by
        rw [List.take_take, Nat.min_eq_left h]
    _ = (T.loadable value).take n := by rw [htext]

/-- What a load gives, of a text that was stored alone. -/
theorem load_eq (h : a.writerBusy = 0) (value out : List α) :
    ∃ result got, T.load (T.store a value).2 out = some (result, got) ∧
      Gives (T.loadable value) (out.length - 1) result (chars got) ∧
      got.length = out.length ∧ (out ≠ [] → CharType.zero ∈ got) := by
  have htext : CharType.zero ∉ T.loadable value := zero_notMem_chars _
  rw [load, T.load_store h]
  simp only [Option.map_some, T.payload.value_words, measure_pack]
  by_cases hout : out.length = 0
  · rw [if_pos hout, hout]
    refine ⟨_, _, rfl, ?_, hout, fun hne => absurd (List.length_eq_zero_iff.1 hout) hne⟩
    have := gives_take (T.loadable value) 0
    rwa [List.take_zero, ← show chars out = [] from by rw [List.length_eq_zero_iff.1 hout]; rfl]
      at this
  · rw [if_neg hout]
    have hcopy : (if (T.loadable value).length < out.length - 1 then (T.loadable value).length
        else out.length - 1) = min (out.length - 1) (T.loadable value).length := by
      split_ifs <;> omega
    have hle : min (out.length - 1) (T.loadable value).length ≤ (T.loadable value).length :=
      Nat.min_le_right ..
    rw [hcopy, T.take_pack value hle, ← List.take_eq_take_min]
    refine ⟨_, _, rfl, ?_, ?_, fun _ => by simp⟩
    · have hless : min (out.length - 1) (T.loadable value).length < (T.loadable value).length ↔
          out.length - 1 < (T.loadable value).length := by omega
      rw [List.append_assoc, List.singleton_append,
        chars_append fun hzero => htext (List.mem_of_mem_take hzero)]
      simp only [hless]
      exact gives_take ..
    · rw [List.length_append, List.length_append, List.length_take, List.length_drop,
        List.length_singleton]
      omega

end Text

end Text

/-! ### Texts in strings -/

/-- What a string has room for when it is assigned: a buffer that may grow has it for all the string
may hold. -/
def capacity (growth : BasicString.Growth) (s : BasicString) : ℕ :=
  if growth = .allocated then s.max_size else s.charsThatFit

/-- What the grown buffer has room for, as far as it matters to so many characters. -/
theorem room_eq (growth : BasicString.Growth) (memory : ℕ → Char) (s : BasicString) {count : ℕ}
    (hcount : count ≤ s.max_size) :
    min (s.room growth memory 0 count) count = min (capacity growth s) count := by
  have hlt := s.length_lt
  unfold BasicString.room BasicString.movedIn capacity
  rw [Nat.zero_min, BasicString.grown_eq (Nat.zero_le _)]
  by_cases hreplaced : s.Replaced growth 0 count
  · have hlength := (BasicString.length_newBuffer memory hreplaced).1
    rw [if_pos hreplaced, if_pos hreplaced.1, hlength, BasicString.newSize,
      BasicString.overallocated]
    omega
  · rw [if_neg hreplaced]
    split_ifs with hgrowth
    · have hroom : s.max_size + 1 ≤ s.buffer.length ∨ count + 1 ≤ s.buffer.length := by
        by_contra hcon
        exact hreplaced ⟨hgrowth, by omega, by omega⟩
      omega
    · rfl

/-- Assigned characters, a string holds as many of them as it has room for. -/
theorem content_assign (growth : BasicString.Growth) (memory : ℕ → Char) (s : BasicString)
    (text : List Char) :
    (BasicString.assignRange growth memory s 0 (.external (text.take s.max_size))).content =
      text.take (capacity growth s) := by
  have hassigned : BasicString.Assigned s 0 (.external (text.take s.max_size))
      (BasicString.assignRange growth memory s 0 (.external (text.take s.max_size))) :=
    (BasicString.assigned_iff _).2 ⟨by simp, rfl⟩
  have hcapacity : capacity growth s ≤ s.max_size := by
    unfold capacity BasicString.charsThatFit
    split_ifs <;> omega
  rw [hassigned.content, List.take_zero, List.nil_append, BasicString.charsThatFit_assignRange]
  show (text.take s.max_size).take (s.room growth memory 0 (text.take s.max_size).length) = _
  rw [List.take_eq_take_min, room_eq growth memory s (List.length_take_le ..),
    ← List.take_eq_take_min, List.take_take, Nat.min_eq_left hcapacity]

theorem length_content (s : BasicString) : s.content.length = s.length :=
  List.length_take_of_le s.length_lt.le

/-- What a string is given, of a text that was stored alone. -/
theorem Text.loadString_eq (T : Text Char L) {a : SlotArray L} (h : a.writerBusy = 0)
    (value : List Char) (growth : BasicString.Growth) (memory : ℕ → Char) (out : BasicString) :
    ∃ result got, T.loadString growth memory (T.store a value).2 out = some (result, got) ∧
      Gives (T.loadable value) (capacity growth out) result got.content := by
  have hstrnlen : (T.pack value).toList.take (measure (T.pack value).toList out.max_size) =
      (T.loadable value).take out.max_size := by
    rw [take_measure, chars_take_pack]
  rw [Text.loadString, T.load_store h]
  simp only [Option.map_some, T.payload.value_words, measure_pack, hstrnlen]
  refine ⟨_, _, rfl, ?_⟩
  have hcontent := content_assign growth memory out (T.loadable value)
  rw [← length_content, hcontent, List.length_take]
  have hless : min (capacity growth out) (T.loadable value).length < (T.loadable value).length ↔
      capacity growth out < (T.loadable value).length := by omega
  simp only [hless]
  exact gives_take ..

/-! ### Blobs -/

namespace Blob

variable (B : Blob L) {a : SlotArray L}

theorem load_store (h : a.writerBusy = 0) (src : List UInt8) :
    (B.store a src).2.load = some (.SUCCESS, B.payload.words (B.pack src)) :=
  (SlotArray.load_store h _).2

theorem store_result (h : a.writerBusy = 0) (src : List UInt8) :
    (B.store a src).1 = if B.MAX_BYTES < src.length then .TRUNCATED else .SUCCESS := by
  have hstored := (SlotArray.load_store h (B.payload.words (B.pack src))).1
  simp only [store, hstored, true_and]
  split_ifs <;> first | rfl | omega

theorem length_pack (src : List UInt8) :
    (B.pack src).length = (src.take B.MAX_BYTES).length := by
  show (if B.MAX_BYTES < src.length then B.MAX_BYTES else src.length) = _
  rw [List.length_take]
  split_ifs <;> omega

/-- The bytes a load copies. -/
theorem take_pack (src : List UInt8) {n : ℕ} (h : n ≤ (src.take B.MAX_BYTES).length) :
    (B.pack src).bytes.toList.take n = (src.take B.MAX_BYTES).take n :=
  List.take_append_of_le_length h

/-- What a load gives, of bytes that were stored alone. -/
theorem load_eq (h : a.writerBusy = 0) (src dst : List UInt8) :
    ∃ result got, B.load (B.store a src).2 dst = some (result, got) ∧
      Gives (src.take B.MAX_BYTES) dst.length result (got.take (src.take B.MAX_BYTES).length) ∧
      got.drop (src.take B.MAX_BYTES).length = dst.drop (src.take B.MAX_BYTES).length := by
  set kept := src.take B.MAX_BYTES with hkept
  have hcopy : (if dst.length < kept.length then dst.length else kept.length) =
      min dst.length kept.length := by
    split_ifs <;> omega
  have hless : min dst.length kept.length < kept.length ↔ dst.length < kept.length := by omega
  rw [load, B.load_store h]
  simp only [Option.map_some, B.payload.value_words, length_pack, ← hkept, hcopy, hless]
  rw [B.take_pack src (Nat.min_le_right ..), ← hkept, ← List.take_eq_take_min]
  refine ⟨_, _, rfl, ?_, ?_⟩
  · convert gives_take kept dst.length using 1
    rcases le_total dst.length kept.length with hle | hle
    · rw [Nat.min_eq_left hle, List.drop_length, List.append_nil, List.take_take,
        Nat.min_eq_right hle]
    · rw [Nat.min_eq_right hle, List.take_of_length_le hle, List.take_left]
  · rcases le_total dst.length kept.length with hle | hle
    · rw [Nat.min_eq_left hle, List.drop_length, List.append_nil, List.drop_of_length_le hle,
        List.drop_of_length_le (List.length_take_le' ..)]
    · rw [Nat.min_eq_right hle, List.take_of_length_le hle, List.drop_left]

/-- What a buffer is given, of bytes that were stored alone. -/
theorem loadBuffer_eq (h : a.writerBusy = 0) (src : List UInt8) (dst : Buffer) :
    ∃ result got, B.loadBuffer (B.store a src).2 dst = some (result, got) ∧
      Gives (src.take B.MAX_BYTES) dst.bufferSize result got.content := by
  set kept := src.take B.MAX_BYTES with hkept
  have htake : (B.pack src).bytes.toList.take kept.length = kept := by
    rw [B.take_pack src le_rfl, ← hkept, List.take_length]
  rw [loadBuffer, B.load_store h]
  have happended (block : List UInt8) :
      (if 0 < block.length then dst.clear.append block else (0, dst.clear)).1 =
          min dst.bufferSize block.length ∧
        (if 0 < block.length then dst.clear.append block else (0, dst.clear)).2.content =
          block.take dst.bufferSize := by
    rcases block with _ | ⟨b, block⟩
    · simp [Buffer.clear]
    · simp [Buffer.clear, Buffer.append]
  have hless : min dst.bufferSize kept.length < kept.length ↔ dst.bufferSize < kept.length := by
    omega
  simp only [Option.map_some, B.payload.value_words, length_pack, ← hkept, htake,
    (happended kept).1, hless]
  refine ⟨_, _, rfl, ?_⟩
  rw [(happended kept).2]
  exact gives_take ..

end Blob

/-! ### A payload of two characters -/

/-- Two slots of one word. -/
def oneWord : Layout := ⟨2, le_rfl, by unfold STORED_FLAG; omega, 1⟩

/-- Two characters in a word, the first in its low half. -/
def pairInWord {α : Type*} (width : ℕ) (toNat : α → ℕ) (ofNat : ℕ → α)
    (hlt : ∀ c, toNat c < width) (hof : ∀ c, ofNat (toNat c) = c) :
    Copyable oneWord (List.Vector α 2) where
  words v := fun _ => toNat v.head + width * toNat v.tail.head
  value w := ⟨[ofNat (w ⟨0, Nat.one_pos⟩ % width), ofNat (w ⟨0, Nat.one_pos⟩ / width)], rfl⟩
  value_words := by
    rintro ⟨_ | ⟨x, _ | ⟨y, _ | _⟩⟩, hlength⟩ <;> simp at hlength
    refine Subtype.ext ?_
    have hwidth : 0 < width := (Nat.zero_le _).trans_lt (hlt x)
    show [ofNat ((toNat x + width * toNat y) % width),
      ofNat ((toNat x + width * toNat y) / width)] = [x, y]
    rw [Nat.add_mul_mod_self_left, Nat.mod_eq_of_lt (hlt x), Nat.add_mul_div_left _ _ hwidth,
      Nat.div_eq_of_lt (hlt x), Nat.zero_add, hof, hof]

def byteText : Text UInt8 oneWord :=
  ⟨1, Nat.one_pos, pairInWord 256 UInt8.toNat UInt8.ofNat UInt8.toNat_lt fun _ => UInt8.ofNat_toNat⟩

def charText : Text Char oneWord :=
  ⟨1, Nat.one_pos, pairInWord UInt32.size Char.toNat Char.ofNat (fun c => c.val.toNat_lt)
    Char.ofNat_toNat⟩

/-- One byte and the length, in two words. -/
def byteBlob : Blob ⟨2, le_rfl, oneWord.lt, 2⟩ where
  MAX_BYTES := 1
  pos := Nat.one_pos
  payload :=
    { words := fun p k => if k = 0 then p.bytes.head.toNat else p.length
      value := fun w => ⟨⟨[UInt8.ofNat (w 0)], rfl⟩, w 1⟩
      value_words := by
        rintro ⟨⟨_ | ⟨x, _ | _⟩, hlength⟩, n⟩ <;> simp at hlength
        simp [List.Vector.head] }

/-! ### The round trip -/

section Text

variable {α : Type*} [DecidableEq α] [CharType α]

/-- The array keeps what the result says, and a load gives it up to its first terminator. -/
structure Text.RoundTrip (T : Text α L) (value : List α) (r : Result × SlotArray L) : Prop where
  stored : ∃ payload kept, T.published r.2 = some payload ∧ payload.take kept.length = kept ∧
    Keeps T.MAX_LEN value r.1 kept
  loaded : ∀ out : List α, ∃ result got, T.load r.2 out = some (result, got) ∧
    Gives (T.loadable value) (out.length - 1) result (chars got) ∧
    got.length = out.length ∧ (out ≠ [] → CharType.zero ∈ got) ∧
    (r.1 = .SUCCESS → result = .SUCCESS → chars got = chars value) ∧
    (CharType.zero ∉ value → r.1 = .SUCCESS → result = .SUCCESS → chars got = value)

/-- The characters given to a store by pointer. -/
def CString.chars? : Option (CString α) → List α
  | none => []
  | some value => chars value.cells

theorem Text.storePointer_eq (T : Text α L) (a : SlotArray L) (src : Option (CString α)) :
    T.storePointer a src = T.store a (CString.chars? src) := by
  rcases src with _ | value
  · rfl
  · rw [storePointer, take_measure, chars, ← List.take_takeWhile, T.store_take]
    rfl

theorem Text.chars_of_success (T : Text α L) {a : SlotArray L} (h : a.writerBusy = 0)
    {value : List α} (hstored : (T.store a value).1 = .SUCCESS) :
    T.loadable value = chars value := by
  rw [T.store_result h] at hstored
  split_ifs at hstored with hlong
  rw [loadable, List.take_of_length_le (not_lt.1 hlong)]

theorem Text.roundTrip (T : Text α L) {a : SlotArray L} (h : a.writerBusy = 0) (value : List α) :
    T.RoundTrip value (T.store a value) where
  stored := by
    refine ⟨(T.pack value).toList, value.take T.MAX_LEN, ?_, List.take_left .., ?_⟩
    · rw [published, T.load_store h, Option.map_some, T.payload.value_words]
    · rw [T.store_result h]
      exact keeps_take ..
  loaded out := by
    obtain ⟨result, got, hload, hgives, hlength, hzero⟩ := T.load_eq h value out
    have hsame (hstored : (T.store a value).1 = .SUCCESS) (hloaded : result = .SUCCESS) :
        chars got = chars value :=
      (hgives.eq_of_success hloaded).trans (T.chars_of_success h hstored)
    exact ⟨result, got, hload, hgives, hlength, hzero, hsame, fun hnone hstored hloaded =>
      (hsame hstored hloaded).trans (chars_of_notMem hnone)⟩

end Text

/-- The same, through strings. -/
structure Text.StringRoundTrip (T : Text Char L) (value : List Char) (r : Result × SlotArray L) :
    Prop extends Text.RoundTrip T value r where
  loadedString : ∀ growth memory out, ∃ result got,
    T.loadString growth memory r.2 out = some (result, got) ∧
      Gives (T.loadable value) (capacity growth out) result got.content ∧
      (r.1 = .SUCCESS → result = .SUCCESS → got.content = chars value) ∧
      (NUL ∉ value → r.1 = .SUCCESS → result = .SUCCESS → got.content = value)

theorem Text.stringRoundTrip (T : Text Char L) {a : SlotArray L} (h : a.writerBusy = 0)
    (value : List Char) : T.StringRoundTrip value (T.store a value) where
  toRoundTrip := T.roundTrip h value
  loadedString growth memory out := by
    obtain ⟨result, got, hload, hgives⟩ := T.loadString_eq h value growth memory out
    have hsame (hstored : (T.store a value).1 = .SUCCESS) (hloaded : result = .SUCCESS) :
        got.content = chars value :=
      (hgives.eq_of_success hloaded).trans (T.chars_of_success h hstored)
    exact ⟨result, got, hload, hgives, hsame, fun hnone hstored hloaded =>
      (hsame hstored hloaded).trans (chars_of_notMem hnone)⟩

/-- The array keeps what the result says, and a load gives it. -/
structure Blob.RoundTrip (B : Blob L) (src : List UInt8) (r : Result × SlotArray L) : Prop where
  stored : ∃ words kept, r.2.load = some (.SUCCESS, words) ∧
    (B.payload.value words).length = kept.length ∧
    (B.payload.value words).bytes.toList.take kept.length = kept ∧ Keeps B.MAX_BYTES src r.1 kept
  loaded : ∀ dst : List UInt8, ∃ result got kept, B.load r.2 dst = some (result, got) ∧
    Gives kept dst.length result (got.take kept.length) ∧
    got.drop kept.length = dst.drop kept.length ∧ kept = src.take B.MAX_BYTES ∧
    (r.1 = .SUCCESS → result = .SUCCESS → got.take kept.length = src)
  loadedBuffer : ∀ dst : Buffer, ∃ result got, B.loadBuffer r.2 dst = some (result, got) ∧
    Gives (src.take B.MAX_BYTES) dst.bufferSize result got.content ∧
    (r.1 = .SUCCESS → result = .SUCCESS → got.content = src)

theorem Blob.take_of_success (B : Blob L) {a : SlotArray L} (h : a.writerBusy = 0)
    {src : List UInt8} (hstored : (B.store a src).1 = .SUCCESS) : src.take B.MAX_BYTES = src := by
  rw [B.store_result h] at hstored
  split_ifs at hstored with hlong
  exact List.take_of_length_le (not_lt.1 hlong)

theorem Blob.roundTrip (B : Blob L) {a : SlotArray L} (h : a.writerBusy = 0) (src : List UInt8) :
    B.RoundTrip src (B.store a src) where
  stored := by
    refine ⟨_, src.take B.MAX_BYTES, B.load_store h src, ?_, ?_, ?_⟩
    · rw [B.payload.value_words, length_pack]
    · rw [B.payload.value_words, B.take_pack src le_rfl, List.take_length]
    · rw [B.store_result h]
      exact keeps_take ..
  loaded dst := by
    obtain ⟨result, got, hload, hgives, hrest⟩ := B.load_eq h src dst
    exact ⟨result, got, _, hload, hgives, hrest, rfl, fun hstored hloaded =>
      (hgives.eq_of_success hloaded).trans (B.take_of_success h hstored)⟩
  loadedBuffer dst := by
    obtain ⟨result, got, hload, hgives⟩ := B.loadBuffer_eq h src dst
    exact ⟨result, got, hload, hgives, fun hstored hloaded =>
      (hgives.eq_of_success hloaded).trans (B.take_of_success h hstored)⟩

/-- Every store and load of a text or a blob, with no other store under way. -/
theorem store_load_roundTrip {α : Type*} [DecidableEq α] [CharType α] {L M N : Layout}
    (T : Text α L) {a : SlotArray L} (ha : a.writerBusy = 0) (S : Text Char M) {b : SlotArray M}
    (hb : b.writerBusy = 0) (B : Blob N) {c : SlotArray N} (hc : c.writerBusy = 0) :
    ((∀ src, T.RoundTrip (CString.chars? src) (T.storePointer a src)) ∧
      ∀ value, T.RoundTrip value (T.store a value)) ∧
    ((∀ src, S.StringRoundTrip (CString.chars? src) (S.storePointer b src)) ∧
      (∀ value, S.StringRoundTrip value (S.store b value)) ∧
      ∀ value, S.StringRoundTrip value.content (S.storeString b value)) ∧
    (∀ src, B.RoundTrip src (B.store c src)) ∧
      ∀ src, B.RoundTrip src.content (B.storeBuffer c src) := by
  refine ⟨⟨fun src => ?_, T.roundTrip ha⟩, ⟨fun src => ?_, S.stringRoundTrip hb,
    fun value => S.stringRoundTrip hb value.content⟩, B.roundTrip hc,
    fun src => B.roundTrip hc src.content⟩
  · rw [T.storePointer_eq]
    exact T.roundTrip ha _
  · rw [S.storePointer_eq]
    exact S.stringRoundTrip hb _

/-- New arrays. -/
theorem store_load_roundTrip_new :
    ((∀ src, byteText.RoundTrip (CString.chars? src)
        (byteText.storePointer ⟨fun _ => ⟨0, fun _ => 0⟩, 0, 0⟩ src)) ∧
      ∀ value, byteText.RoundTrip value (byteText.store ⟨fun _ => ⟨0, fun _ => 0⟩, 0, 0⟩ value)) ∧
    ((∀ src, charText.StringRoundTrip (CString.chars? src)
        (charText.storePointer ⟨fun _ => ⟨0, fun _ => 0⟩, 0, 0⟩ src)) ∧
      (∀ value, charText.StringRoundTrip value
        (charText.store ⟨fun _ => ⟨0, fun _ => 0⟩, 0, 0⟩ value)) ∧
      ∀ value, charText.StringRoundTrip value.content
        (charText.storeString ⟨fun _ => ⟨0, fun _ => 0⟩, 0, 0⟩ value)) ∧
    (∀ src, byteBlob.RoundTrip src (byteBlob.store ⟨fun _ => ⟨0, fun _ => 0⟩, 0, 0⟩ src)) ∧
      ∀ src, byteBlob.RoundTrip src.content
        (byteBlob.storeBuffer ⟨fun _ => ⟨0, fun _ => 0⟩, 0, 0⟩ src) :=
  store_load_roundTrip byteText rfl charText rfl byteBlob rfl

/-- A terminator is kept as any character, and ends what a load gives. -/
theorem load_forgets : ¬ ∀ (L : Layout) (T : Text UInt8 L) (a : SlotArray L)
    (value out : List UInt8), a.writerBusy = 0 →
      ∃ result got, T.load (T.store a value).2 out = some (result, got) ∧
        Gives (value.take T.MAX_LEN) (out.length - 1) result (chars got) := by
  intro h
  obtain ⟨result, got, -, hgives⟩ :=
    h oneWord byteText ⟨fun _ => ⟨0, fun _ => 0⟩, 0, 0⟩ [0] [7, 7] rfl
  refine zero_notMem_chars got ?_
  rw [hgives.clipped]
  exact List.mem_singleton_self _

end MinStd.LatestValue
