import MinStd.FixedVector
import Mathlib.Data.List.Induction

/-!
# The vector against the bounded sequence

The cells below the size hold the sequence and the others are raw, so an addition at the end
constructs on a raw cell.  The shift leaves one element that was moved from, which starts at the end
and comes down to the position, where the new value is put.
-/

namespace MinStd.FixedVector

variable {α : Type*} {E : Element α} {MAX_SIZE : ℕ} {s s' : State α} {l l₁ l₂ : List α}
  {a b : List (Cell α)} {v w : α} {i k pos : ℕ}

/-! ### Cells -/

theorem getElem?_middle {β : Type*} (a : List β) (x : β) (b : List β) :
    (a ++ x :: b)[a.length]? = some x := by
  simp

theorem set_middle {β : Type*} (a : List β) (x y : β) (b : List β) :
    (a ++ x :: b).set a.length y = a ++ y :: b := by
  simp

theorem Arg.length_after (a : Arg α) : (a.after E l).length = l.length := by
  rcases a with r | i
  · rfl
  · exact List.length_modify ..

namespace State

theorem construct_eq (h : s.buffer = a ++ .raw :: b) :
    s.construct a.length v =
      some { s with buffer := a ++ .holds v :: b, constructions := s.constructions + 1 } := by
  rw [construct, h, getElem?_middle, set_middle]

theorem destroy_eq (h : s.buffer = a ++ .holds v :: b) :
    s.destroy a.length =
      some { s with buffer := a ++ .raw :: b, destructions := s.destructions + 1 } := by
  rw [destroy, h, getElem?_middle, set_middle]

theorem read_eq (h : s.buffer = a ++ .holds v :: b) : s.read a.length = some v := by
  rw [read, h, getElem?_middle]

theorem write_eq (h : s.buffer = a ++ .holds v :: b) :
    s.write a.length w = some { s with buffer := a ++ .holds w :: b } := by
  rw [write, h, getElem?_middle, set_middle]

/-- The last element moved one up. -/
theorem moveConstruct_eq (h : s.buffer = a ++ .holds v :: .raw :: b) :
    s.moveConstruct E (a.length + 1) a.length = some
      { s with
        buffer := a ++ .holds (E.afterMove v) :: .holds v :: b
        constructions := s.constructions + 1 } := by
  have hraw : s.buffer = (a ++ [.holds v]) ++ .raw :: b := by simpa using h
  have hlength : a.length + 1 = (a ++ [Cell.holds v]).length := by simp
  rw [moveConstruct, read_eq h, Option.bind_some, hlength, construct_eq hraw, Option.bind_some]
  refine (write_eq (a := a) (v := v) (b := .holds v :: b) ?_).trans rfl
  simp

/-- An element moved one up, over one that was moved from. -/
theorem moveAssign_eq (h : s.buffer = a ++ .holds v :: .holds w :: b) :
    s.moveAssign E (a.length + 1) a.length = some
      { s with buffer := a ++ .holds (E.afterAssign w v) :: .holds v :: b } := by
  have htarget : s.buffer = (a ++ [.holds v]) ++ .holds w :: b := by simpa using h
  have hlength : a.length + 1 = (a ++ [Cell.holds v]).length := by simp
  rw [moveAssign, read_eq h, Option.bind_some, hlength, read_eq htarget, Option.bind_some,
    write_eq htarget, Option.bind_some]
  refine (write_eq (a := a) (v := v) (b := .holds v :: b) ?_).trans rfl
  simp

/-- The loop takes the element that was moved from down to the position. -/
theorem shift_eq (l₁ m : List α) : ∀ {s : State α} {w : α} {b : List (Cell α)},
    s.buffer = (l₁ ++ m).map .holds ++ .holds w :: b →
      ∃ w', shift E l₁.length (l₁ ++ m).length s =
        some { s with buffer := l₁.map .holds ++ .holds w' :: (m.map .holds ++ b) } := by
  induction m using List.reverseRecOn with
  | nil =>
    intro s w b h
    refine ⟨w, ?_⟩
    have hend : ∀ n, shift E n n s = some s := by
      rintro (_ | n)
      · rfl
      · rw [shift, if_neg (Nat.lt_irrefl _)]
    have hbuffer : s.buffer = l₁.map .holds ++ .holds w :: b := by simpa using h
    rw [List.append_nil, hend, List.map_nil, List.nil_append, ← hbuffer]
  | append_singleton m x ih =>
    intro s w b h
    have hlength : (l₁ ++ (m ++ [x])).length = (l₁ ++ m).length + 1 := by simp; omega
    have hlt : l₁.length < (l₁ ++ m).length + 1 := by
      rw [List.length_append]
      omega
    have hbuffer : s.buffer = (l₁ ++ m).map .holds ++ .holds x :: .holds w :: b := by simpa using h
    have hmove := moveAssign_eq (E := E) hbuffer
    rw [List.length_map] at hmove
    rw [hlength, shift, if_pos hlt, hmove, Option.bind_some]
    obtain ⟨w', hw'⟩ := ih (s := { s with
      buffer := (l₁ ++ m).map .holds ++ .holds (E.afterAssign w x) :: .holds x :: b }) rfl
    refine ⟨w', hw'.trans ?_⟩
    simp

/-! ### Arguments -/

theorem read_element (h : s.buffer = l.map .holds ++ b) (hi : i < l.length) :
    s.read i = l[i]? := by
  rw [read, h, List.getElem?_append_left (by simpa using hi), List.getElem?_map,
    List.getElem?_eq_getElem hi]
  rfl

theorem write_element (h : s.buffer = l.map .holds ++ b) (hi : i < l.length) :
    s.write i v = some { s with buffer := (l.set i v).map .holds ++ b } := by
  rw [write, h, List.getElem?_append_left (by simpa using hi), List.getElem?_map,
    List.getElem?_eq_getElem hi, List.map_set, List.set_append_left _ _ (by simpa using hi)]
  rfl

theorem value_eq {r : Ref α} (h : s.buffer = l.map .holds ++ b)
    (hr : r.Valid l.length) : ∃ v, r.of l = some v ∧ s.value r = some v := by
  rcases r with v | i
  · exact ⟨v, rfl, rfl⟩
  · have hi : l[i]? = some l[i] := List.getElem?_eq_getElem hr
    exact ⟨l[i], hi, (read_element h hr).trans hi⟩

/-- An argument is taken with the value it has, and only an element that is moved from changes. -/
theorem take_eq {a : Arg α} (h : s.buffer = l.map .holds ++ b) (ha : a.Valid l.length) :
    ∃ v, a.of l = some v ∧
      s.take E a = some (v, { s with buffer := (a.after E l).map .holds ++ b }) := by
  rcases a with r | i
  · obtain ⟨v, hv, hvalue⟩ := value_eq (r := r) h ha
    refine ⟨v, hv, ?_⟩
    rw [take, hvalue, Arg.after, ← h]
    rfl
  · have hi : l[i]? = some l[i] := List.getElem?_eq_getElem ha
    refine ⟨l[i], hi, ?_⟩
    rw [take, read_element h ha, hi, Option.bind_some, write_element h ha, Arg.after,
      List.modify_eq_set_getElem?, hi]
    rfl

/-! ### Additions -/

theorem constructBack_eq (h : s.buffer = l.map .holds ++ .raw :: b) (hsize : s.size = l.length) :
    s.constructBack v = some
      { s with
        buffer := (l ++ [v]).map .holds ++ b
        constructions := s.constructions + 1
        size := s.size + 1 } := by
  have hconstruct := construct_eq (v := v) h
  rw [List.length_map] at hconstruct
  rw [constructBack, hsize, hconstruct]
  simp [hsize]

theorem insertIdx_middle (l₁ l₂ : List α) (v : α) :
    (l₁ ++ l₂).insertIdx l₁.length v = l₁ ++ v :: l₂ := by
  induction l₁ with
  | nil => rfl
  | cons x l₁ ih => simp [ih]

theorem insertBefore_eq {a : Arg α} (h : s.buffer = l.map .holds ++ .raw :: b)
    (hsize : s.size = l.length) (hpos : pos < l.length) (ha : a.Valid l.length) :
    ∃ v, a.of l = some v ∧ s.insertBefore E pos a = some
      { s with
        buffer := ((a.after E l).insertIdx pos v).map .holds ++ b
        size := s.size + 1
        constructions := s.constructions + 2
        destructions := s.destructions + 1 } := by
  obtain ⟨v, hv, htake⟩ := take_eq (E := E) h ha
  refine ⟨v, hv, ?_⟩
  have hlength := Arg.length_after (E := E) (l := l) a
  obtain ⟨l₁, m, x, hl, rfl⟩ : ∃ l₁ m x, a.after E l = l₁ ++ (m ++ [x]) ∧ pos = l₁.length := by
    have hne : (a.after E l).drop pos ≠ [] := by simp; omega
    refine ⟨(a.after E l).take pos, ((a.after E l).drop pos).dropLast,
      ((a.after E l).drop pos).getLast hne, ?_, ?_⟩
    · rw [List.dropLast_append_getLast, List.take_append_drop]
    · simp; omega
  have hend : s.size = (l₁ ++ m).length + 1 := by
    rw [hsize, ← hlength, hl]
    simp
    omega
  have hlast : s.size - 1 = (l₁ ++ m).length := by omega
  have hmove := moveConstruct_eq (E := E) (a := (l₁ ++ m).map .holds) (v := x) (b := b)
    (s := temporary { s with buffer := (l₁ ++ (m ++ [x])).map .holds ++ .raw :: b })
    (by simp [temporary])
  rw [List.length_map, ← hend, ← hlast] at hmove
  obtain ⟨w, hshift⟩ := shift_eq (E := E) l₁ m (w := E.afterMove x) (b := .holds x :: b)
    (s := { s with
      buffer := (l₁ ++ m).map .holds ++ .holds (E.afterMove x) :: .holds x :: b
      constructions := s.constructions + 2 }) rfl
  have hwrite := write_eq (w := v) (a := l₁.map .holds) (v := w)
    (b := m.map .holds ++ .holds x :: b) (s := { s with
      buffer := l₁.map .holds ++ .holds w :: (m.map .holds ++ .holds x :: b)
      constructions := s.constructions + 2 }) rfl
  rw [List.length_map] at hwrite
  rw [← hlast] at hshift
  rw [insertBefore, htake, Option.bind_some, hl]
  refine (congrArg (Option.bind · _) hmove).trans ?_
  rw [Option.bind_some]
  refine (congrArg (Option.bind · _) hshift).trans ?_
  rw [Option.bind_some]
  refine (congrArg (Option.map _) hwrite).trans ?_
  rw [insertIdx_middle]
  simp

/-- With room, the argument is copied where `emplace_back` constructs from it. -/
theorem pushBack_eq (r : Ref α) (h : ¬ s.Full MAX_SIZE) :
    s.pushBack MAX_SIZE r = s.emplaceBack E MAX_SIZE (.ref r) := by
  rw [pushBack, emplaceBack, if_neg h, if_neg h, take]
  rcases s.value r with _ | v <;> rfl

theorem insert_eq (pos : ℕ) (r : Ref α) :
    s.insert E MAX_SIZE pos r = s.emplace E MAX_SIZE pos (.ref r) := by
  rw [insert, emplace]
  split_ifs with hfull hpos
  · rfl
  · exact pushBack_eq r hfull
  · rfl

/-- The destructor of every element of a run of cells. -/
theorem destroyLoop_eq (l : List α) : ∀ {s : State α} {a : List (Cell α)},
    s.buffer = a ++ (l.map .holds ++ b) → destroyLoop a.length l.length s = some
      { s with
        buffer := a ++ (List.replicate l.length .raw ++ b)
        destructions := s.destructions + l.length } := by
  induction l with
  | nil =>
    intro s a h
    rw [List.map_nil] at h
    exact congrArg some (by rw [List.length_nil, List.replicate_zero, ← h]; rfl)
  | cons x l ih =>
    intro s a h
    have hlength : a.length + 1 = (a ++ [Cell.raw]).length := by simp
    rw [List.length_cons, destroyLoop, destroy_eq (a := a) (v := x) (b := l.map .holds ++ b) h,
      Option.bind_some, hlength, ih (by simp)]
    simp [List.replicate_succ]
    omega

end State

/-! ### The bounded sequence -/

theorem added_room {capacity : ℕ} {after : List α} (h : l.length < capacity) :
    added capacity l pos (some v) after = after.insertIdx pos v :=
  if_pos h

theorem added_full {capacity : ℕ} {o : Option α} {after : List α} (h : ¬ l.length < capacity) :
    added capacity l pos o after = l :=
  if_neg h

/-! ### The invariant -/

/-- The cells below the size hold the sequence and the others are raw. -/
structure Inv (MAX_SIZE : ℕ) (s : State α) (l : List α) : Prop where
  buffer : s.buffer = l.map .holds ++ List.replicate (s.currentAllocatedSize - l.length) .raw
  size : s.size = l.length
  fits : l.length ≤ s.currentAllocatedSize
  capacity : s.currentAllocatedSize ≤ MAX_SIZE
  balance : s.constructions = s.destructions + s.size

namespace Inv

section Members

variable (h : Inv MAX_SIZE s l)
include h

theorem not_full : ¬ s.Full MAX_SIZE ↔ l.length < s.currentAllocatedSize := by
  have hsize := h.size
  have hfits := h.fits
  have hcapacity := h.capacity
  unfold State.Full
  omega

theorem raw_end (hlt : l.length < s.currentAllocatedSize) :
    s.buffer = l.map .holds ++
      .raw :: List.replicate (s.currentAllocatedSize - (l.length + 1)) .raw := by
  rw [h.buffer, ← List.replicate_succ]
  congr 2
  omega

/-- An addition of one element. -/
theorem add {l' : List α} {n : ℕ} (hlt : l.length < s.currentAllocatedSize)
    (hl' : l'.length = l.length + 1) :
    Inv MAX_SIZE
      { s with
        buffer := l'.map .holds ++
          List.replicate (s.currentAllocatedSize - (l.length + 1)) .raw
        size := s.size + 1
        constructions := s.constructions + (n + 1)
        destructions := s.destructions + n } l' where
  buffer := by rw [hl']
  size := by rw [h.size, hl']
  fits := by rw [hl']; exact hlt
  capacity := h.capacity
  balance := by
    have hbalance := h.balance
    show s.constructions + (n + 1) = s.destructions + n + (s.size + 1)
    omega

theorem emplaceBack {a : Arg α} (ha : a.Valid l.length)
    (htrap : l.length < s.currentAllocatedSize ∨ l ≠ []) :
    ∃ s', s.emplaceBack E MAX_SIZE a = some s' ∧
      s'.currentAllocatedSize = s.currentAllocatedSize ∧
      Inv MAX_SIZE s' (added s.currentAllocatedSize l l.length (a.of l) (a.after E l)) := by
  have hlength := Arg.length_after (E := E) (l := l) a
  by_cases hlt : l.length < s.currentAllocatedSize
  · obtain ⟨v, hv, htake⟩ := State.take_eq (E := E) (h.raw_end hlt) ha
    have hback := State.constructBack_eq (v := v) (l := a.after E l)
      (b := List.replicate (s.currentAllocatedSize - (l.length + 1)) .raw)
      (s := { s with buffer := (a.after E l).map .holds ++
        .raw :: List.replicate (s.currentAllocatedSize - (l.length + 1)) .raw })
      rfl (h.size.trans hlength.symm)
    rw [State.emplaceBack, if_neg (h.not_full.2 hlt), htake, Option.bind_some, hv, added_room hlt]
    refine ⟨_, hback, rfl, ?_⟩
    rw [← hlength, List.insertIdx_length_self, hlength]
    exact h.add (n := 0) hlt (by simp [hlength])
  · have hne : s.size ≠ 0 := by simpa [h.size] using htrap.resolve_left hlt
    rw [State.emplaceBack, if_pos (not_not.1 (mt h.not_full.1 hlt)), if_neg hne, added_full hlt]
    exact ⟨s, rfl, rfl, h⟩

theorem pushBack {r : Ref α} (hr : r.Valid l.length) :
    ∃ s', s.pushBack MAX_SIZE r = some s' ∧
      s'.currentAllocatedSize = s.currentAllocatedSize ∧
      Inv MAX_SIZE s' (added s.currentAllocatedSize l l.length (r.of l) l) := by
  by_cases hlt : l.length < s.currentAllocatedSize
  · rw [State.pushBack_eq (E := ⟨id, fun _ => id⟩) r (h.not_full.2 hlt)]
    exact h.emplaceBack (a := .ref r) hr (.inl hlt)
  · rw [State.pushBack, if_pos (not_not.1 (mt h.not_full.1 hlt)), added_full hlt]
    exact ⟨s, rfl, rfl, h⟩

theorem emplace {a : Arg α} (hpos : pos ≤ l.length) (ha : a.Valid l.length) :
    ∃ s', s.emplace E MAX_SIZE pos a = some s' ∧
      s'.currentAllocatedSize = s.currentAllocatedSize ∧
      Inv MAX_SIZE s' (added s.currentAllocatedSize l pos (a.of l) (a.after E l)) := by
  by_cases hlt : l.length < s.currentAllocatedSize
  · rw [State.emplace, if_neg (h.not_full.2 hlt), h.size]
    by_cases hend : pos = l.length
    · rw [if_pos hend, hend]
      exact h.emplaceBack ha (.inl hlt)
    · obtain ⟨v, hv, hinsert⟩ :=
        State.insertBefore_eq (E := E) (h.raw_end hlt) h.size (Nat.lt_of_le_of_ne hpos hend) ha
      rw [if_neg hend, hv, added_room hlt]
      refine ⟨_, hinsert, rfl, h.add (n := 1) hlt ?_⟩
      rw [List.length_insertIdx_of_le_length, Arg.length_after]
      rwa [Arg.length_after]
  · rw [State.emplace, if_pos (not_not.1 (mt h.not_full.1 hlt)), added_full hlt]
    exact ⟨s, rfl, rfl, h⟩

/-! ### Removals -/

/-- The last elements of the sequence are destroyed. -/
theorem remove (l₁ : List α) (n : ℕ) (hl : l.length = l₁.length + n) :
    Inv MAX_SIZE
      { s with
        buffer := l₁.map .holds ++
          (List.replicate n .raw ++ List.replicate (s.currentAllocatedSize - l.length) .raw)
        size := l₁.length
        destructions := s.destructions + n } l₁ where
  buffer := by
    have hfits := h.fits
    have hrest : s.currentAllocatedSize - l₁.length =
        n + (s.currentAllocatedSize - l.length) := by omega
    show _ = _ ++ List.replicate (s.currentAllocatedSize - l₁.length) Cell.raw
    rw [hrest, List.replicate_add]
  size := rfl
  fits := Nat.le_trans (Nat.le.intro hl.symm) h.fits
  capacity := h.capacity
  balance := by
    have hbalance := h.balance
    rw [h.size] at hbalance
    show s.constructions = s.destructions + n + l₁.length
    omega

theorem popBack : ∃ s', s.popBack = some s' ∧
    s'.currentAllocatedSize = s.currentAllocatedSize ∧ Inv MAX_SIZE s' l.dropLast := by
  rcases l.eq_nil_or_concat with rfl | ⟨l, x, rfl⟩
  · exact ⟨s, if_pos h.size, rfl, h⟩
  · rw [List.concat_eq_append] at h ⊢
    have hsize : s.size = l.length + 1 := by rw [h.size, List.length_append]; rfl
    have hbuffer : s.buffer = l.map .holds ++ .holds x ::
        List.replicate (s.currentAllocatedSize - (l ++ [x]).length) .raw := by
      simpa using h.buffer
    have hdestroy := State.destroy_eq (s := { s with size := l.length }) hbuffer
    rw [List.length_map] at hdestroy
    rw [State.popBack, if_neg (by omega), hsize, List.dropLast_concat]
    exact ⟨_, hdestroy, rfl, h.remove l 1 List.length_append⟩

theorem destruct : s.destruct = some
    { s with
      buffer := List.replicate s.currentAllocatedSize .raw
      destructions := s.destructions + s.size } := by
  have hloop := State.destroyLoop_eq l (a := []) (h.buffer.trans (List.nil_append _).symm)
  rw [List.length_nil, List.nil_append, ← List.replicate_add, Nat.add_sub_cancel' h.fits,
    ← h.size] at hloop
  exact hloop

theorem clear : ∃ s', s.clear = some s' ∧
    s'.currentAllocatedSize = s.currentAllocatedSize ∧ Inv MAX_SIZE s' [] := by
  refine ⟨_, congrArg (Option.map _) h.destruct, rfl, ?_⟩
  have hremove := h.remove [] l.length (Nat.zero_add _).symm
  rw [← List.replicate_add, Nat.add_sub_cancel' h.fits, ← h.size] at hremove
  exact hremove

end Members

/-! ### Copies -/

/-- The loop adds as many elements as there is room for. -/
theorem copyLoop (rest : List α) : ∀ {s : State α} {l : List α}, Inv MAX_SIZE s l →
    ∃ s', State.copyLoop E MAX_SIZE rest s = some s' ∧
      s'.currentAllocatedSize = s.currentAllocatedSize ∧
      Inv MAX_SIZE s' (l ++ rest.take (s.currentAllocatedSize - l.length)) := by
  induction rest with
  | nil =>
    intro s l h
    exact ⟨s, rfl, rfl, by simpa using h⟩
  | cons v rest ih =>
    intro s l h
    by_cases hfull : s.currentAllocatedSize ≤ l.length
    · rw [State.copyLoop, h.size, if_pos hfull, Nat.sub_eq_zero_of_le hfull]
      exact ⟨s, rfl, rfl, by simpa using h⟩
    · obtain ⟨s₁, hback, hcapacity, h₁⟩ :=
        h.emplaceBack (E := E) (a := .ref (.value v)) trivial (.inl (Nat.not_le.1 hfull))
      rw [Arg.of, Ref.of, Arg.after, added_room (Nat.not_le.1 hfull),
        List.insertIdx_length_self] at h₁
      obtain ⟨s', hloop, hcapacity', h'⟩ := ih h₁
      rw [State.copyLoop, h.size, if_neg hfull, hback, Option.bind_some]
      refine ⟨s', hloop, hcapacity'.trans hcapacity, ?_⟩
      have hroom : s.currentAllocatedSize - l.length =
          (s.currentAllocatedSize - (l.length + 1)) + 1 := by omega
      rw [hcapacity, List.length_append, List.append_assoc] at h'
      rw [hroom, List.take_succ_cons]
      exact h'

theorem new (initialSize : ℕ) (alloc : Bool) :
    Inv MAX_SIZE (new (α := α) MAX_SIZE initialSize alloc) [] := by
  unfold FixedVector.new
  split_ifs
  · exact ⟨rfl, rfl, Nat.zero_le _, Nat.zero_le _, rfl⟩
  · exact ⟨by simp, rfl, Nat.zero_le _, Nat.min_le_right .., rfl⟩

theorem reserve (h : Inv MAX_SIZE s []) (n : ℕ) (alloc : Bool) :
    Inv MAX_SIZE (s.reserve MAX_SIZE n alloc) [] := by
  unfold State.reserve
  split_ifs
  · exact ⟨by simp, rfl, Nat.zero_le _, Nat.min_le_right .., by simpa [h.size] using h.balance⟩
  · exact h
  · exact h

theorem capacity_reserve (other : List α) (alloc : Bool) :
    (s.reserve MAX_SIZE other.length alloc).currentAllocatedSize =
      (Call.assign other alloc).capacity MAX_SIZE s.currentAllocatedSize := by
  rw [State.reserve, Call.capacity]
  by_cases hsmall : s.currentAllocatedSize < other.length ∧ s.currentAllocatedSize < MAX_SIZE
  · cases alloc <;> simp [hsmall]
  · rw [if_neg hsmall, if_neg fun h => hsmall ⟨h.1, h.2.1⟩]

theorem assign (h : Inv MAX_SIZE s l) (other : List α) (alloc : Bool) :
    ∃ s', s.assign E MAX_SIZE other alloc = some s' ∧
      s'.currentAllocatedSize =
        (Call.assign other alloc).capacity MAX_SIZE s.currentAllocatedSize ∧
      Inv MAX_SIZE s' (other.take s'.currentAllocatedSize) := by
  obtain ⟨s₁, hclear, hcapacity, h₁⟩ := h.clear
  obtain ⟨s', hloop, hcapacity', h'⟩ := copyLoop (E := E) other (h₁.reserve other.length alloc)
  rw [State.assign, hclear, Option.bind_some]
  refine ⟨s', hloop, ?_, ?_⟩
  · rw [hcapacity', capacity_reserve, hcapacity]
  · rwa [hcapacity']

/-! ### Runs -/

/-- Every call returns, and the sequence is the bounded one. -/
theorem call (h : Inv MAX_SIZE s l) {c : Call α} (hc : c.Legal MAX_SIZE s) :
    ∃ s', s.call E MAX_SIZE c = some s' ∧
      s'.currentAllocatedSize = c.capacity MAX_SIZE s.currentAllocatedSize ∧
      Inv MAX_SIZE s' (c.reference E s.currentAllocatedSize s'.currentAllocatedSize l) := by
  have hsize := h.size
  rcases c with r | a | ⟨pos, r⟩ | ⟨pos, a⟩ | _ | _ | ⟨other, alloc⟩ | _
  · exact h.pushBack (by rwa [← hsize])
  · refine h.emplaceBack (by rw [← hsize]; exact hc.1) ?_
    by_contra hnot
    rw [not_or, not_ne_iff] at hnot
    refine hc.2 ⟨not_not.1 (mt h.not_full.1 hnot.1), ?_⟩
    rw [hsize, hnot.2, List.length_nil]
  · show ∃ s', s.insert E MAX_SIZE pos r = some s' ∧ _
    rw [State.insert_eq]
    exact h.emplace (a := .ref r) (by rw [← hsize]; exact hc.1) (by rw [← hsize]; exact hc.2)
  · exact h.emplace (by rw [← hsize]; exact hc.1) (by rw [← hsize]; exact hc.2)
  · exact h.popBack
  · exact h.clear
  · exact h.assign other alloc
  · exact ⟨s, rfl, rfl, h⟩

end Inv

theorem Run.inv (h : Run E MAX_SIZE s l) : Inv MAX_SIZE s l := by
  induction h with
  | new initialSize alloc => exact .new initialSize alloc
  | @ofList s initialValues initialSize alloc hs =>
    have hnew : Inv MAX_SIZE (FixedVector.new (α := α) MAX_SIZE initialSize alloc) [] :=
      .new initialSize alloc
    obtain ⟨s', hs', hcapacity, h'⟩ := hnew.copyLoop (E := E) initialValues
    cases hs.symm.trans hs'
    rw [hcapacity]
    exact h'
  | call _ hc hs ih =>
    obtain ⟨s', hs', -, h'⟩ := ih.call (E := E) hc
    cases hs.symm.trans hs'
    exact h'

/-- What holds after any calls: the cells, the sizes, that every element constructed is destroyed
once, by the destructor at the latest, and that every call returns.  Nothing changes where there is
no room, or nothing to remove. -/
structure Correct (E : Element α) (MAX_SIZE : ℕ) (s : State α) (l : List α) : Prop where
  cells : s.buffer = l.map .holds ++ List.replicate (s.currentAllocatedSize - l.length) .raw
  size : s.size = l.length
  bounds : s.size ≤ s.currentAllocatedSize ∧ s.currentAllocatedSize ≤ MAX_SIZE
  balance : s.constructions = s.destructions + s.size
  calls : ∀ c : Call α, c.Legal MAX_SIZE s → ∃ s', s.call E MAX_SIZE c = some s' ∧
    s'.currentAllocatedSize = c.capacity MAX_SIZE s.currentAllocatedSize
  full : s.size = s.currentAllocatedSize →
    (∀ r, s.pushBack MAX_SIZE r = some s) ∧
      (s.size ≠ 0 → ∀ a, s.emplaceBack E MAX_SIZE a = some s) ∧
      (∀ pos r, s.insert E MAX_SIZE pos r = some s) ∧
      ∀ pos a, s.emplace E MAX_SIZE pos a = some s
  empty : s.size = 0 → s.popBack = some s
  destruct : ∃ s', s.destruct = some s' ∧ s'.constructions = s'.destructions ∧
    s'.buffer = List.replicate s.currentAllocatedSize .raw

theorem vector_of_run (h : Run E MAX_SIZE s l) : Correct E MAX_SIZE s l := by
  have hinv := h.inv
  have hfits : s.size ≤ s.currentAllocatedSize := hinv.size ▸ hinv.fits
  refine ⟨hinv.buffer, hinv.size, ⟨hfits, hinv.capacity⟩, hinv.balance, ?_, ?_, ?_, ?_⟩
  · intro c hc
    obtain ⟨s', hs', hcapacity, -⟩ := hinv.call (E := E) hc
    exact ⟨s', hs', hcapacity⟩
  · intro hsize
    have hfull : s.Full MAX_SIZE := .inr (Nat.le_of_eq hsize.symm)
    exact ⟨fun r => if_pos hfull, fun hne a => (if_pos hfull).trans (if_neg hne),
      fun pos r => if_pos hfull, fun pos a => if_pos hfull⟩
  · exact fun hzero => if_pos hzero
  · exact ⟨_, hinv.destruct, hinv.balance, rfl⟩

/-- A class whose moves leave zero. -/
def zeroing : Element ℕ := ⟨fun _ => 0, fun _ _ => 0⟩

/-- Two are pushed back, the second is put before the first from the element itself, and another
does not fit. -/
theorem vector_of_run_insert :
    Correct zeroing 3 ⟨[.holds 6, .holds 5, .holds 6], 3, 3, 4, 1⟩ [6, 5, 6] := by
  have hone : Run zeroing 3 ⟨[.holds 5, .raw, .raw], 1, 3, 1, 0⟩ [5] :=
    @Run.call ℕ zeroing 3 (new 3 12 true) _ [] (.pushBack (.value 5)) (.new 12 true) trivial rfl
  have htwo : Run zeroing 3 ⟨[.holds 5, .holds 6, .raw], 2, 3, 2, 0⟩ [5, 6] :=
    @Run.call ℕ zeroing 3 _ _ [5] (.pushBack (.value 6)) hone trivial rfl
  have hthree : Run zeroing 3 ⟨[.holds 6, .holds 5, .holds 6], 3, 3, 4, 1⟩ [6, 5, 6] :=
    @Run.call ℕ zeroing 3 _ _ [5, 6] (.insert 0 (.element 1)) htwo
      ⟨Nat.zero_le _, Nat.one_lt_two⟩ rfl
  have hfull : Run zeroing 3 ⟨[.holds 6, .holds 5, .holds 6], 3, 3, 4, 1⟩ [6, 5, 6] :=
    @Run.call ℕ zeroing 3 _ _ [6, 5, 6] (.emplace 1 (.moved 0)) hthree
      ⟨Nat.le_add_left .., Nat.zero_lt_succ _⟩ rfl
  exact vector_of_run hfull

end MinStd.FixedVector
