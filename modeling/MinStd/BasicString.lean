import Mathlib.Data.List.TakeDrop
import Mathlib.Data.List.Basic

/-!
# `basic_string`

A string is the cells of its buffer and how many of them are characters; the cell after those is a
terminator.  Assignment, `append` and `+=` replace everything from an offset on with characters that
may stand in the string's own buffer.  A dynamic string first grows into new memory, whose cells
hold anything, with `strlcpy`.
-/

namespace MinStd

def NUL : Char := '\x00'

structure BasicString where
  buffer : List Char
  length : ℕ
  max_size : ℕ
  fits : length ≤ min max_size (buffer.length - 1)
  terminated : buffer[length]? = some NUL

namespace BasicString

variable (s : BasicString)

/-- The characters. -/
def content : List Char := s.buffer.take s.length

/-- The characters the buffer can hold, with room for the terminator. -/
def charsThatFit : ℕ := min s.max_size (s.buffer.length - 1)

/-- What growing comes to: a fixed string does not grow, and an allocation fails or succeeds. -/
inductive Growth
  | fixed
  | exhausted
  | allocated
  deriving DecidableEq

/-- A source of characters: some from elsewhere, or a part of the string's own. -/
inductive Source
  | external (chars : List Char)
  | own (offset count : ℕ) (inside : offset + count ≤ s.length)

variable {s}

namespace Source

def count : s.Source → ℕ
  | external chars => chars.length
  | own _ count _ => count

/-- The characters, before the call. -/
def chars : s.Source → List Char
  | external chars => chars
  | own offset count _ => (s.content.drop offset).take count

/-- The first characters, when the string's buffer is as given. -/
def read (src : s.Source) (buffer : List Char) (count : ℕ) : List Char :=
  match src with
  | external chars => chars.take count
  | own offset _ _ => (buffer.drop offset).take count

end Source

/-- The cells `strlcpy` writes: what stands before the first terminator, and a terminator. -/
def strlcpy (src : List Char) (size : ℕ) : List Char :=
  (src.takeWhile fun c => c ≠ NUL).take (size - 1) ++ [NUL]

def memmove (buffer : List Char) (offset : ℕ) (chars : List Char) : List Char :=
  buffer.take offset ++ chars ++ buffer.drop (offset + chars.length)

/-- A size with `DYNAMIC_STRING_OVERALLOCATION_PERCENTAGE`. -/
def overallocated (size : ℕ) : ℕ := size * 5 / 4

variable (s) in
/-- The buffer after `grow_buffer`; `memory` is what newly allocated cells hold. -/
def growBuffer (growth : Growth) (memory : ℕ → Char) (charsNeeded : ℕ) : List Char :=
  if growth = .allocated then
    if s.max_size + 1 ≤ s.buffer.length then s.buffer
    else if s.buffer.length < s.length + charsNeeded + 1 then
      let newBufferSize := min (overallocated (s.length + charsNeeded + 1)) (s.max_size + 1)
      let newBuffer := (List.range newBufferSize).map memory
      memmove newBuffer 0 (strlcpy s.buffer (s.length + 1))
    else s.buffer
  else s.buffer

theorem length_lt (s : BasicString) : s.length < s.buffer.length :=
  (List.getElem?_eq_some_iff.1 s.terminated).1

theorem growBuffer_pos (growth : Growth) (memory : ℕ → Char) (charsNeeded : ℕ) :
    0 < (s.growBuffer growth memory charsNeeded).length := by
  have := s.length_lt
  unfold growBuffer
  split_ifs
  · omega
  · simp only [memmove, strlcpy, List.length_append, List.length_singleton]
    omega
  · omega
  · omega

variable (s) in
/-- The buffer the characters are moved in. -/
def grown (growth : Growth) (memory : ℕ → Char) (offset count : ℕ) : List Char :=
  if s.length < offset + count then s.growBuffer growth memory (offset + count - s.length)
  else s.buffer

theorem grown_pos (growth : Growth) (memory : ℕ → Char) (offset count : ℕ) :
    0 < (s.grown growth memory offset count).length := by
  have := s.length_lt
  unfold grown
  split_ifs
  · exact growBuffer_pos ..
  · omega

theorem length_memmove (buffer chars : List Char) (offset : ℕ) :
    buffer.length ≤ (memmove buffer offset chars).length := by
  simp only [memmove, List.length_append, List.length_take, List.length_drop]
  omega

def assignRange (growth : Growth) (memory : ℕ → Char) (s : BasicString) (offset : ℕ)
    (src : s.Source) : BasicString :=
  let start := min offset s.length
  let buffer := s.grown growth memory start src.count
  let fit := min s.max_size (buffer.length - 1)
  let start := min start fit
  let count := min src.count (fit - start)
  { buffer := (memmove buffer start (src.read buffer count)).set (start + count) NUL
    length := start + count
    max_size := s.max_size
    fits := by
      have := length_memmove buffer (src.read buffer count) start
      rw [List.length_set]
      omega
    terminated := by
      have := length_memmove buffer (src.read buffer count) start
      have : 0 < buffer.length := grown_pos ..
      exact List.getElem?_set_self (by omega) }

end BasicString

end MinStd
