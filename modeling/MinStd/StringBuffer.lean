import Mathlib.Data.List.TakeDrop

/-!
# String buffers

A string a formatter writes to, with the most characters it can hold.  Characters that do not fit
are dropped, and a null character is never stored.
-/

namespace MinStd

/-- A string in a buffer; one that can grow holds as many characters as it can grow to. -/
@[ext]
structure StringBuffer where
  chars : List Char
  max_size : ℕ
  fits : chars.length ≤ max_size

namespace StringBuffer

variable (b : StringBuffer)

def size : ℕ := b.chars.length

def pushBack (c : Char) : StringBuffer :=
  if h : b.max_size ≤ b.chars.length then b
  else if c = '\x00' then b
  else ⟨b.chars ++ [c], b.max_size, by rw [List.length_append]; exact Nat.lt_of_not_le h⟩

/-- `operator+=` and `append`, of characters without a null. -/
def append (s : List Char) : StringBuffer :=
  ⟨b.chars ++ s.take (b.max_size - b.chars.length), b.max_size, by
    have := b.fits
    rw [List.length_append, List.length_take]
    omega⟩

/-- The characters one after another. -/
def pushAll (s : List Char) : StringBuffer := s.foldl pushBack b

variable {b} {b' : StringBuffer} {s : List Char}

/-- `b'` is `b` with `s` after it. -/
structure Appends (b : StringBuffer) (s : List Char) (b' : StringBuffer) : Prop where
  chars : b'.chars = b.chars ++ s
  max_size : b'.max_size = b.max_size

theorem Appends.refl (b : StringBuffer) : b.Appends [] b := ⟨(List.append_nil _).symm, rfl⟩

theorem Appends.trans {b'' : StringBuffer} {s' : List Char} (h : b.Appends s b')
    (h' : b'.Appends s' b'') : b.Appends (s ++ s') b'' :=
  ⟨by rw [h'.chars, h.chars, List.append_assoc], h'.max_size.trans h.max_size⟩

theorem Appends.room (h : b.Appends s b') {n : ℕ}
    (hroom : b.chars.length + s.length + n ≤ b.max_size) :
    b'.chars.length + n ≤ b'.max_size := by
  rw [h.chars, h.max_size, List.length_append]
  exact hroom

theorem appends_pushBack {c : Char} (hc : c ≠ '\x00') (hroom : b.chars.length + 1 ≤ b.max_size) :
    b.Appends [c] (b.pushBack c) := by
  unfold pushBack
  rw [dif_neg (by omega), if_neg hc]
  exact ⟨rfl, rfl⟩

theorem appends_append (hroom : b.chars.length + s.length ≤ b.max_size) :
    b.Appends s (b.append s) := by
  refine ⟨?_, rfl⟩
  show b.chars ++ s.take (b.max_size - b.chars.length) = _
  rw [List.take_of_length_le (by omega)]

theorem appends_pushAll (hs : ∀ c ∈ s, c ≠ '\x00')
    (hroom : b.chars.length + s.length ≤ b.max_size) : b.Appends s (b.pushAll s) := by
  induction s generalizing b with
  | nil => exact .refl b
  | cons c s ih =>
    rw [List.length_cons] at hroom
    have hpush := appends_pushBack (hs c List.mem_cons_self) (b := b) (by omega)
    exact hpush.trans (ih (fun c hc => hs c (List.mem_cons_of_mem _ hc))
      (hpush.room (by rw [List.length_singleton]; omega)))

/-! ### With whatever room there is -/

/-- `b'` is `b` with as much of `s` after it as there is room for. -/
structure Clips (b : StringBuffer) (s : List Char) (b' : StringBuffer) : Prop where
  chars : b'.chars = b.chars ++ s.take (b.max_size - b.chars.length)
  max_size : b'.max_size = b.max_size

theorem Clips.refl (b : StringBuffer) : b.Clips [] b := ⟨by simp, rfl⟩

theorem Clips.trans {b'' : StringBuffer} {s' : List Char} (h : b.Clips s b')
    (h' : b'.Clips s' b'') : b.Clips (s ++ s') b'' := by
  refine ⟨?_, h'.max_size.trans h.max_size⟩
  have hroom : b.max_size - (b.chars.length + min (b.max_size - b.chars.length) s.length) =
      b.max_size - b.chars.length - s.length := by omega
  rw [h'.chars, h.chars, h.max_size, List.length_append, List.length_take, hroom, List.take_append,
    List.append_assoc]

theorem clips_append (b : StringBuffer) (s : List Char) : b.Clips s (b.append s) := ⟨rfl, rfl⟩

theorem clips_pushBack (b : StringBuffer) {c : Char} (hc : c ≠ '\x00') :
    b.Clips [c] (b.pushBack c) := by
  unfold pushBack
  split_ifs with h
  · exact ⟨by rw [Nat.sub_eq_zero_of_le h, List.take_zero, List.append_nil], rfl⟩
  · exact ⟨by rw [List.take_of_length_le (by rw [List.length_singleton]; omega)], rfl⟩

theorem clips_pushAll (b : StringBuffer) (hs : ∀ c ∈ s, c ≠ '\x00') : b.Clips s (b.pushAll s) := by
  induction s generalizing b with
  | nil => exact .refl b
  | cons c s ih =>
    exact (clips_pushBack b (hs c List.mem_cons_self)).trans
      (ih (b.pushBack c) fun c hc => hs c (List.mem_cons_of_mem _ hc))

end StringBuffer

end MinStd
