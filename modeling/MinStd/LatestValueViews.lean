import MinStd.BasicString
import MinStd.LatestValue
import Mathlib.Data.Vector.Basic

/-!
# Texts and blobs in a latest-value slot array

While no other thread stores, a store and a load are one step each.  `latest_value_text` stores an
array of characters with a terminator after the last one kept, and a load measures it again;
`latest_value_blob` stores the number of bytes beside them.  A store clips to the capacity and a
load to the destination: a range of cells, a string or a buffer.
-/

namespace MinStd.LatestValue

open Function

/-- The members, without the calls under way. -/
structure SlotArray (L : Layout) where
  slots : ℕ → Slot L
  current : ℕ
  writerBusy : ℕ

variable {L : Layout}

namespace SlotArray

def store (a : SlotArray L) (value : L.Value) : Result × SlotArray L :=
  if a.writerBusy ≠ 0 then (.FAILURE, { a with writerBusy := 1 })
  else
    let index := (slotOf a.current + 1) % WORD32 % L.NUM_SLOTS
    let sequence := (a.slots index).sequenceNumber
    (.SUCCESS,
      { slots := update a.slots index ⟨(sequence + 2) % WORD32, value⟩
        current := packCurrent ((sequence + 2) % WORD32) index
        writerBusy := 0 })

/-- A slot without the published sequence number is read again and again. -/
def load (a : SlotArray L) : Option (Result × L.Value) :=
  let slot := a.slots (slotOf a.current)
  if slot.sequenceNumber = sequenceNumberOf a.current then
    some (resultOf a.current, slot.bufferInWords)
  else none

end SlotArray

/-- A trivially copyable type: `memcpy` to words and back gives the value again. -/
structure Copyable (L : Layout) (T : Type*) where
  words : T → L.Value
  value : L.Value → T
  value_words : ∀ v, value (words v) = v

/-! ### Texts -/

/-- `CharT{}`. -/
class CharType (α : Type*) where
  zero : α

instance : CharType Char := ⟨NUL⟩

instance : CharType UInt8 := ⟨0⟩

/-- The parameters of `latest_value_text`, and its payload's words. -/
structure Text (α : Type*) (L : Layout) where
  MAX_LEN : ℕ
  pos : 0 < MAX_LEN
  payload : Copyable L (List.Vector α (MAX_LEN + 1))

/-- A pointer's cells, with a terminator among them. -/
structure CString (α : Type*) [CharType α] where
  cells : List α
  terminated : CharType.zero ∈ cells

section Text

variable {α : Type*} [DecidableEq α] [CharType α]

/-- `measure`, and `strnlen`. -/
def measure : List α → ℕ → ℕ
  | c :: s, max + 1 => if c ≠ CharType.zero then measure s max + 1 else 0
  | _, _ => 0

/-- The characters before the first terminator. -/
def chars (cells : List α) : List α := cells.takeWhile fun c => c ≠ CharType.zero

namespace Text

variable (T : Text α L)

/-- A payload of zeros with the characters that fit in front. -/
def pack (value : List α) : List.Vector α (T.MAX_LEN + 1) :=
  ⟨value.take T.MAX_LEN ++
      List.replicate (T.MAX_LEN + 1 - (value.take T.MAX_LEN).length) CharType.zero, by
    rw [List.length_append, List.length_replicate, List.length_take]
    omega⟩

/-- `store(value, length)`. -/
def store (a : SlotArray L) (value : List α) : Result × SlotArray L :=
  let n := if T.MAX_LEN < value.length then T.MAX_LEN else value.length
  let stored := a.store (T.payload.words (T.pack value))
  (if stored.1 = .SUCCESS ∧ n < value.length then .TRUNCATED else stored.1, stored.2)

/-- `store(value)`, of a null pointer or a terminated text. -/
def storePointer (a : SlotArray L) : Option (CString α) → Result × SlotArray L
  | none => T.store a []
  | some value => T.store a (value.cells.take (measure value.cells (T.MAX_LEN + 1)))

/-- `load(out, out_len)`. -/
def load (a : SlotArray L) (out : List α) : Option (Result × List α) :=
  a.load.map fun (loaded, words) =>
    let payload := (T.payload.value words).toList
    let n := measure payload T.MAX_LEN
    if out.length = 0 then (if 0 < n then .TRUNCATED else loaded, out)
    else
      let copy := if n < out.length - 1 then n else out.length - 1
      (if copy < n then .TRUNCATED else loaded,
        payload.take copy ++ [CharType.zero] ++ out.drop (copy + 1))

end Text

end Text

section String

variable (T : Text Char L)

def Text.storeString (a : SlotArray L) (value : BasicString) : Result × SlotArray L :=
  T.store a value.content

/-- The string is assigned the payload, which is terminated. -/
def Text.loadString (growth : BasicString.Growth) (memory : ℕ → Char) (a : SlotArray L)
    (out : BasicString) : Option (Result × BasicString) :=
  a.load.map fun (loaded, words) =>
    let payload := (T.payload.value words).toList
    let out := BasicString.assignRange growth memory out 0
      (.external (payload.take (measure payload out.max_size)))
    (if out.length < measure payload T.MAX_LEN then .TRUNCATED else loaded, out)

end String

/-! ### Blobs -/

structure BlobPayload (MaxBytes : ℕ) where
  bytes : List.Vector UInt8 MaxBytes
  length : ℕ

/-- The parameters of `latest_value_blob`, and its payload's words. -/
structure Blob (L : Layout) where
  MAX_BYTES : ℕ
  pos : 0 < MAX_BYTES
  payload : Copyable L (BlobPayload MAX_BYTES)

/-- A `stack_buffer` or a `heap_buffer`. -/
structure Buffer where
  bufferSize : ℕ
  content : List UInt8
  fits : content.length ≤ bufferSize

namespace Buffer

def clear (b : Buffer) : Buffer := { b with content := [], fits := Nat.zero_le _ }

/-- How many are appended, and the buffer. -/
def append (b : Buffer) (block : List UInt8) : ℕ × Buffer :=
  let elementsAppended := min (b.bufferSize - b.content.length) block.length
  (elementsAppended,
    { b with
      content := b.content ++ block.take elementsAppended
      fits := by
        have := b.fits
        rw [List.length_append, List.length_take]
        omega })

end Buffer

namespace Blob

variable (B : Blob L)

/-- A payload of zeros with the bytes that fit in front, and their number. -/
def pack (src : List UInt8) : BlobPayload B.MAX_BYTES :=
  { bytes :=
      ⟨src.take B.MAX_BYTES ++ List.replicate (B.MAX_BYTES - (src.take B.MAX_BYTES).length) 0, by
        rw [List.length_append, List.length_replicate, List.length_take]
        omega⟩
    length := if B.MAX_BYTES < src.length then B.MAX_BYTES else src.length }

/-- `store(src, n)`. -/
def store (a : SlotArray L) (src : List UInt8) : Result × SlotArray L :=
  let copy := if B.MAX_BYTES < src.length then B.MAX_BYTES else src.length
  let stored := a.store (B.payload.words (B.pack src))
  (if stored.1 = .SUCCESS ∧ copy < src.length then .TRUNCATED else stored.1, stored.2)

def storeBuffer (a : SlotArray L) (src : Buffer) : Result × SlotArray L := B.store a src.content

/-- `load(dst, n)`. -/
def load (a : SlotArray L) (dst : List UInt8) : Option (Result × List UInt8) :=
  a.load.map fun (loaded, words) =>
    let p := B.payload.value words
    let copy := if dst.length < p.length then dst.length else p.length
    (if copy < p.length then .TRUNCATED else loaded, p.bytes.toList.take copy ++ dst.drop copy)

def loadBuffer (a : SlotArray L) (dst : Buffer) : Option (Result × Buffer) :=
  a.load.map fun (loaded, words) =>
    let p := B.payload.value words
    let appended :=
      if 0 < p.length then dst.clear.append (p.bytes.toList.take p.length) else (0, dst.clear)
    (if appended.1 < p.length then .TRUNCATED else loaded, appended.2)

end Blob

end MinStd.LatestValue
