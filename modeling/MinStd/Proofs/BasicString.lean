import MinStd.BasicString
import Mathlib.Data.List.TakeWhile

/-!
# `assign_range` and the buffer it moves in

Where the buffer is not replaced, the source is read from the cells it stood in, so the characters
are right whatever overlaps.  `strlcpy` copies the characters before the first terminator, so a new
buffer agrees with the old one up to that terminator and holds anything after it: what the call
keeps and what it reads of the string's own must end there.
-/

namespace MinStd.BasicString

variable {s : BasicString} {growth : Growth} {memory : ℕ → Char} {offset start count : ℕ}

/-! ### What `strlcpy` copies -/

/-- The characters before the first terminator. -/
def kept (s : BasicString) : List Char := s.buffer.takeWhile fun c => c ≠ NUL

theorem kept_split (s : BasicString) : ∃ rest, s.buffer = s.kept ++ NUL :: rest := by
  have hsplit : s.kept ++ s.buffer.dropWhile (fun c => c ≠ NUL) = s.buffer :=
    List.takeWhile_append_dropWhile
  have hhead := List.head?_dropWhile_not (fun c => decide (c ≠ NUL)) s.buffer
  rcases h : s.buffer.dropWhile (fun c => c ≠ NUL) with _ | ⟨c, rest⟩
  · rw [h, List.append_nil] at hsplit
    have hmem := List.mem_of_getElem? s.terminated
    rw [← hsplit] at hmem
    exact absurd (List.mem_takeWhile_imp hmem) (by simp)
  · rw [h] at hhead hsplit
    obtain rfl : c = NUL := by simpa using hhead
    exact ⟨rest, hsplit.symm⟩

theorem length_kept_le (s : BasicString) : s.kept.length ≤ s.length := by
  obtain ⟨rest, hsplit⟩ := s.kept_split
  by_contra hlt
  have hcell := s.terminated
  rw [hsplit, List.getElem?_append_left (by omega)] at hcell
  exact absurd (List.mem_takeWhile_imp (List.mem_of_getElem? hcell)) (by simp)

/-- What is copied is what stood there. -/
theorem getElem?_kept {i : ℕ} (hi : i ≤ s.kept.length) :
    (s.kept ++ [NUL])[i]? = s.buffer[i]? := by
  obtain ⟨rest, hsplit⟩ := s.kept_split
  have hcells : s.buffer = (s.kept ++ [NUL]) ++ rest := by simpa using hsplit
  have hi' : i < (s.kept ++ [NUL]).length := by simpa using Nat.lt_succ_of_le hi
  conv_rhs => rw [hcells]
  rw [List.getElem?_append_left hi']

/-! ### The buffer after growing -/

/-- The size of a new buffer. -/
def newSize (s : BasicString) (start count : ℕ) : ℕ :=
  min (overallocated (start + count + 1)) (s.max_size + 1)

/-- A new buffer, on what its memory holds. -/
def newBuffer (s : BasicString) (memory : ℕ → Char) (start count : ℕ) : List Char :=
  memmove ((List.range (s.newSize start count)).map memory) 0 (s.kept ++ [NUL])

/-- Growing replaces the buffer. -/
def Replaced (s : BasicString) (growth : Growth) (start count : ℕ) : Prop :=
  growth = .allocated ∧ s.buffer.length < s.max_size + 1 ∧ s.buffer.length < start + count + 1

instance : Decidable (s.Replaced growth start count) := inferInstanceAs (Decidable (_ ∧ _))

theorem grown_eq (_ : start ≤ s.length) :
    s.grown growth memory start count =
      if s.Replaced growth start count then s.newBuffer memory start count else s.buffer := by
  have hlt := s.length_lt
  have hcopy : strlcpy s.buffer (s.length + 1) = s.kept ++ [NUL] := by
    have := s.length_kept_le
    show (s.kept).take s.length ++ [NUL] = _
    rw [List.take_of_length_le this]
  have hsum (h : s.length < start + count) :
      s.length + (start + count - s.length) + 1 = start + count + 1 := by omega
  unfold grown growBuffer
  by_cases hrep : s.Replaced growth start count
  · rw [if_pos hrep]
    obtain ⟨hgrowth, hmax, hneed⟩ := hrep
    rw [if_pos (by omega), if_pos hgrowth, if_neg (by omega), hsum (by omega), if_pos hneed, hcopy]
    rfl
  · rw [if_neg hrep]
    split_ifs with hgrow hgrowth hmax hneed
    all_goals first | rfl | exact absurd ⟨hgrowth, by omega, by omega⟩ hrep

theorem length_newBuffer (memory : ℕ → Char) (h : s.Replaced growth start count) :
    (s.newBuffer memory start count).length = s.newSize start count ∧
      s.length < s.newSize start count := by
  have hlt := s.length_lt
  have hkept := s.length_kept_le
  obtain ⟨_, hmax, hneed⟩ := h
  have hsize : s.length < s.newSize start count := by
    unfold newSize overallocated
    omega
  refine ⟨?_, hsize⟩
  simp only [newBuffer, memmove, List.length_append, List.length_take, List.length_drop,
    List.length_map, List.length_range, List.length_singleton]
  omega

/-- A new buffer agrees with the old one up to the first terminator. -/
theorem getElem?_newBuffer {i : ℕ} (hi : i ≤ s.kept.length) :
    (s.newBuffer memory start count)[i]? = s.buffer[i]? := by
  rw [← getElem?_kept hi, newBuffer, memmove, List.take_zero, List.nil_append,
    List.getElem?_append_left]
  rw [List.length_append, List.length_singleton]
  omega

/-- After it, it holds what the memory held. -/
theorem getElem?_newBuffer_of_lt {i : ℕ} (hi : s.kept.length < i)
    (hsize : i < s.newSize start count) :
    (s.newBuffer memory start count)[i]? = some (memory i) := by
  rw [newBuffer, memmove, List.take_zero, List.nil_append, List.getElem?_append_right]
  · simp only [List.length_append, List.length_singleton, Nat.zero_add, List.getElem?_drop,
      List.getElem?_map]
    rw [Nat.add_sub_cancel' (by omega), List.getElem?_range hsize]
    rfl
  · rw [List.length_append, List.length_singleton]
    omega

/-- A part of the content is the same in every new buffer just when it ends at the first
terminator. -/
theorem part_newBuffer_iff (h : s.Replaced growth start count) {lo n : ℕ}
    (hpart : lo + n ≤ s.length) :
    (∀ memory, ((s.newBuffer memory start count).drop lo).take n = (s.buffer.drop lo).take n) ↔
      n = 0 ∨ lo + n ≤ s.kept.length + 1 := by
  constructor
  · intro hsame
    by_contra hcon
    have hlast : lo + (n - 1) < s.buffer.length := by have := s.length_lt; omega
    have hcell := List.getElem?_eq_getElem hlast
    have hsize := (length_newBuffer (fun _ => NUL) h).2
    have hcells := congrArg (·[n - 1]?)
      (hsame fun _ => if s.buffer[lo + (n - 1)] = 'a' then 'b' else 'a')
    simp only [List.getElem?_take_of_lt (show n - 1 < n by omega), List.getElem?_drop] at hcells
    rw [getElem?_newBuffer_of_lt (by omega) (by omega), hcell] at hcells
    have hchar := Option.some.inj hcells
    split_ifs at hchar with ha
    · rw [ha] at hchar
      exact absurd hchar (by decide)
    · exact ha hchar.symm
  · rintro hend memory
    refine List.ext_getElem? fun i => ?_
    by_cases hi : i < n
    · rw [List.getElem?_take_of_lt hi, List.getElem?_take_of_lt hi, List.getElem?_drop,
        List.getElem?_drop, getElem?_newBuffer (by omega)]
    · rw [List.getElem?_eq_none, List.getElem?_eq_none] <;> rw [List.length_take] <;> omega

/-! ### The characters moved -/

theorem length_grown (s : BasicString) (growth : Growth) (memory : ℕ → Char)
    (hstart : start ≤ s.length) :
    s.length < (s.grown growth memory start count).length := by
  rw [grown_eq hstart]
  split_ifs with h
  · obtain ⟨hlen, hsize⟩ := length_newBuffer memory h
    omega
  · exact s.length_lt

theorem length_chars (src : s.Source) : src.chars.length = src.count := by
  rcases src with chars | ⟨o, n, inside⟩
  · rfl
  · have := s.length_lt
    simp only [Source.chars, Source.count, content, List.length_take, List.length_drop]
    omega

theorem length_read (src : s.Source) {buffer : List Char} (hbuffer : s.length ≤ buffer.length)
    (hcount : count ≤ src.count) : (src.read buffer count).length = count := by
  rcases src with chars | ⟨o, n, inside⟩
  · exact List.length_take_of_le hcount
  · have : count ≤ n := hcount
    simp only [Source.read, List.length_take, List.length_drop]
    omega

/-- What is read of the string's own is the source as it was. -/
theorem read_buffer (src : s.Source) (hcount : count ≤ src.count) :
    src.read s.buffer count = src.chars.take count := by
  rcases src with chars | ⟨o, n, inside⟩
  · rfl
  · have hle : count ≤ n := hcount
    simp only [Source.read, Source.chars, content, List.drop_take, List.take_take]
    congr 1
    omega

/-- What assignment comes to: the first characters kept, then those of the source as they were
before, clipped; and a terminator. -/
structure Assigned (s : BasicString) (offset : ℕ) (src : s.Source) (s' : BasicString) : Prop where
  content : s'.content = (s.content.take offset ++ src.chars).take s'.charsThatFit
  terminator : s'.buffer[s'.length]? = some NUL
  length_le : s'.length ≤ min s'.max_size (s'.buffer.length - 1)

/-- The buffer the characters are moved in. -/
def movedIn (s : BasicString) (growth : Growth) (memory : ℕ → Char) (offset count : ℕ) :
    List Char :=
  s.grown growth memory (min offset s.length) count

/-- What that buffer has room for. -/
def room (s : BasicString) (growth : Growth) (memory : ℕ → Char) (offset count : ℕ) : ℕ :=
  min s.max_size ((s.movedIn growth memory offset count).length - 1)

/-- How many characters are moved. -/
def moved (s : BasicString) (growth : Growth) (memory : ℕ → Char) (offset count : ℕ) : ℕ :=
  min count (s.room growth memory offset count - min offset s.length)

theorem length_movedIn (s : BasicString) (growth : Growth) (memory : ℕ → Char)
    (offset count : ℕ) : s.length < (s.movedIn growth memory offset count).length :=
  length_grown s growth memory (Nat.min_le_right ..)

/-- What is kept fits, whether the buffer grew or not. -/
theorem start_le_room (s : BasicString) (growth : Growth) (memory : ℕ → Char)
    (offset count : ℕ) : min offset s.length ≤ s.room growth memory offset count := by
  have := length_movedIn s growth memory offset count
  have := s.fits
  unfold room
  omega

theorem length_memmove_of_le {buffer chars : List Char} (h : start + chars.length ≤ buffer.length) :
    (memmove buffer start chars).length = buffer.length := by
  simp only [memmove, List.length_append, List.length_take, List.length_drop]
  omega

theorem take_memmove {buffer chars : List Char} (h : start ≤ buffer.length)
    (hcount : chars.length = count) :
    (memmove buffer start chars).take (start + count) = buffer.take start ++ chars := by
  have hlength : (buffer.take start ++ chars).length = start + count := by
    rw [List.length_append, List.length_take_of_le h, hcount]
  rw [memmove, List.take_append_of_le_length hlength.ge, List.take_of_length_le hlength.le]

/-- What is moved fits. -/
theorem moved_lt (s : BasicString) (growth : Growth) (memory : ℕ → Char) (offset count : ℕ) :
    min offset s.length + s.moved growth memory offset count <
    (s.movedIn growth memory offset count).length := by
  have hlength := length_movedIn s growth memory offset count
  have hroom := start_le_room s growth memory offset count
  have : s.room growth memory offset count ≤ (s.movedIn growth memory offset count).length - 1 :=
    Nat.min_le_right ..
  unfold moved
  omega

theorem length_assignRange (src : s.Source) :
    (assignRange growth memory s offset src).length =
      min offset s.length + s.moved growth memory offset src.count := by
  show min (min offset s.length) (s.room growth memory offset src.count) +
    min src.count (s.room growth memory offset src.count -
      min (min offset s.length) (s.room growth memory offset src.count)) = _
  rw [Nat.min_eq_left (start_le_room ..)]
  rfl

theorem buffer_assignRange (src : s.Source) :
    (assignRange growth memory s offset src).buffer =
      (memmove (s.movedIn growth memory offset src.count) (min offset s.length)
        (src.read (s.movedIn growth memory offset src.count)
          (s.moved growth memory offset src.count))).set
        (min offset s.length + s.moved growth memory offset src.count) NUL := by
  let room := s.room growth memory offset src.count
  let buffer := s.movedIn growth memory offset src.count
  show (memmove buffer (min (min offset s.length) room)
    (src.read buffer (min src.count (room - min (min offset s.length) room)))).set
      (min (min offset s.length) room +
        min src.count (room - min (min offset s.length) room)) NUL = _
  rw [Nat.min_eq_left (start_le_room ..)]
  rfl

theorem length_read_moved (growth : Growth) (memory : ℕ → Char) (offset : ℕ) (src : s.Source) :
    (src.read (s.movedIn growth memory offset src.count)
      (s.moved growth memory offset src.count)).length = s.moved growth memory offset src.count :=
  length_read src (length_movedIn ..).le (Nat.min_le_left ..)

theorem content_assignRange (src : s.Source) :
    (assignRange growth memory s offset src).content =
      (s.movedIn growth memory offset src.count).take (min offset s.length) ++
        src.read (s.movedIn growth memory offset src.count)
          (s.moved growth memory offset src.count) := by
  have hread := length_read_moved growth memory offset src
  have hend := moved_lt s growth memory offset src.count
  rw [content, length_assignRange, buffer_assignRange, List.take_set, List.set_eq_of_length_le]
  · exact take_memmove (by omega) hread
  · rw [List.length_take]
    omega

theorem charsThatFit_assignRange (src : s.Source) :
    (assignRange growth memory s offset src).charsThatFit =
      s.room growth memory offset src.count := by
  have hread := length_read_moved growth memory offset src
  have hend := moved_lt s growth memory offset src.count
  rw [charsThatFit, buffer_assignRange, List.length_set, length_memmove_of_le (by omega)]
  rfl

/-- The buffer the characters are moved in is to hold what is kept and what is read. -/
theorem assigned_iff (src : s.Source) :
    Assigned s offset src (assignRange growth memory s offset src) ↔
      (s.movedIn growth memory offset src.count).take (min offset s.length) =
          s.buffer.take (min offset s.length) ∧
        src.read (s.movedIn growth memory offset src.count)
            (s.moved growth memory offset src.count) =
          src.read s.buffer (s.moved growth memory offset src.count) := by
  have hlength := length_movedIn s growth memory offset src.count
  have hroom := start_le_room s growth memory offset src.count
  have hstart : min offset s.length ≤ s.buffer.length := by
    have := s.length_lt
    omega
  have hmoved : s.moved growth memory offset src.count ≤ src.count := Nat.min_le_left ..
  have hclip : src.chars.take (s.room growth memory offset src.count - min offset s.length) =
      src.chars.take (s.moved growth memory offset src.count) := by
    rw [List.take_eq_take_min, length_chars, Nat.min_comm]
    rfl
  have hexpected : (s.content.take offset ++ src.chars).take
      (s.room growth memory offset src.count) = s.buffer.take (min offset s.length) ++
        src.read s.buffer (s.moved growth memory offset src.count) := by
    rw [content, List.take_take, List.take_append, List.length_take_of_le hstart,
      List.take_of_length_le (by rw [List.length_take_of_le hstart]; exact hroom),
      read_buffer src hmoved, hclip]
  have hsame : ((s.movedIn growth memory offset src.count).take (min offset s.length)).length =
      (s.buffer.take (min offset s.length)).length := by
    rw [List.length_take_of_le hstart, List.length_take_of_le (by omega)]
  rw [← List.append_eq_append_iff_of_size_eq_left hsame, ← content_assignRange, ← hexpected,
    ← charsThatFit_assignRange]
  exact ⟨fun h => h.content, fun h => ⟨h, terminated _, fits _⟩⟩

/-- How far into the string its first characters reach. -/
def Source.reach : s.Source → ℕ → ℕ
  | external _, _ => 0
  | own _ _ _, 0 => 0
  | own offset _ _, count + 1 => offset + (count + 1)

/-- In a buffer that replaces the string's, as many characters are moved as the string may hold. -/
theorem moved_eq (h : s.Replaced growth (min offset s.length) count) :
    s.moved growth memory offset count = min count (s.max_size - min offset s.length) := by
  have hlength := (length_newBuffer memory h).1
  have hfits := s.fits
  rw [moved, room, movedIn, grown_eq (Nat.min_le_right ..), if_pos h, hlength, newSize,
    overallocated]
  omega

/-- What is read of the string's own is the same in every new buffer just when it ends at the first
terminator. -/
theorem read_newBuffer_iff (src : s.Source) (h : s.Replaced growth start src.count)
    (hcount : count ≤ src.count) :
    (∀ memory, src.read (s.newBuffer memory start src.count) count = src.read s.buffer count) ↔
      src.reach count ≤ s.kept.length + 1 := by
  rcases src with chars | ⟨o, n, inside⟩
  · simp [Source.read, Source.reach]
  · have hle : count ≤ n := hcount
    refine (part_newBuffer_iff h (by omega)).trans ?_
    rcases count with _ | count
    · simp [Source.reach]
    · simp [Source.reach]

/-- Assignment is right, whatever new memory holds, just when growing does not replace the buffer or
what is kept of it and what is read of it end at the first terminator. -/
theorem assignRange_iff (s : BasicString) (growth : Growth) (offset : ℕ) (src : s.Source) :
    (∀ memory, Assigned s offset src (assignRange growth memory s offset src)) ↔
      (s.Replaced growth (min offset s.length) src.count →
        min offset s.length ≤ s.kept.length + 1 ∧
          src.reach (min src.count (s.max_size - min offset s.length)) ≤ s.kept.length + 1) := by
  simp only [assigned_iff, movedIn, grown_eq (Nat.min_le_right offset s.length)]
  by_cases h : s.Replaced growth (min offset s.length) src.count
  · simp only [h, if_true, true_imp_iff, moved_eq h, forall_and]
    refine and_congr ?_ (read_newBuffer_iff src h (Nat.min_le_left ..))
    have hpart := part_newBuffer_iff h (show 0 + min offset s.length ≤ s.length by omega)
    simp only [List.drop_zero] at hpart
    rw [hpart]
    omega
  · simp [h]

/-- A terminator inside: the character after it is not kept. -/
theorem assignRange_forgets : ¬ ∀ (s : BasicString) (growth : Growth) (memory : ℕ → Char)
    (offset : ℕ) (src : s.Source), Assigned s offset src
      (assignRange growth memory s offset src) := by
  intro h
  have hcontent := (h ⟨['a', NUL, 'b', NUL, 'x'], 3, 16, by decide, rfl⟩ .allocated (fun _ => '?') 3
    (.external ['c', 'd'])).content
  exact absurd hcontent (by decide)

end MinStd.BasicString
