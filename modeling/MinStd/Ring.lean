import Mathlib.Data.List.GetD
import Mathlib.Data.Nat.ModEq
import Mathlib.Logic.Function.Basic

/-!
# Cells in a ring

`size` cells are read from an index round the ring: they hold a list and are blank after it.
Writing the cell of a list entry sets the entry; a blank first cell is given up by starting at the
next index; a blank cell after the list is also the list's own last entry.
-/

namespace MinStd

open Function

variable {β : Type*} {size : ℕ} {cells : ℕ → β} {blank b : β} {r i j : ℕ} {l : List β}

/-- Two cells of the ring at different distances from an index are different. -/
theorem ring_inj {n : ℕ} (hi : i < n) (hj : j < n) (h : (r + i) % n = (r + j) % n) : i = j := by
  have hmod : i ≡ j [MOD n] := Nat.ModEq.add_left_cancel' r h
  rwa [Nat.ModEq, Nat.mod_eq_of_lt hi, Nat.mod_eq_of_lt hj] at hmod

/-- From `r` on, the cells hold the list and are blank after it. -/
structure RingHolds (size : ℕ) (cells : ℕ → β) (blank : β) (r : ℕ) (l : List β) : Prop where
  length_le : l.length ≤ size
  cell : ∀ j < size, cells ((r + j) % size) = l.getD j blank

namespace RingHolds

theorem get (h : RingHolds size cells blank r l) (hj : j < l.length) :
    cells ((r + j) % size) = l[j] := by
  rw [h.cell j (hj.trans_le h.length_le), List.getD_eq_getElem _ _ hj]

theorem blank_after (h : RingHolds size cells blank r l) (hl : l.length < size) :
    cells ((r + l.length) % size) = blank := by
  rw [h.cell _ hl, List.getD_eq_default _ _ le_rfl]

theorem set (h : RingHolds size cells blank r l) (hj : j < l.length) :
    RingHolds size (update cells ((r + j) % size) b) blank r (l.set j b) := by
  refine ⟨by simpa using h.length_le, fun i hi => ?_⟩
  by_cases hij : i = j
  · subst hij
    rw [update_self, List.getD_eq_getElem _ _ (by simpa using hj), List.getElem_set_self]
  · have hne : (r + i) % size ≠ (r + j) % size := fun he =>
      hij (ring_inj hi (hj.trans_le h.length_le) he)
    rw [update_of_ne hne, h.cell i hi, List.getD_eq_getElem?_getD, List.getD_eq_getElem?_getD,
      List.getElem?_set_ne (Ne.symm hij)]

theorem append_blank (h : RingHolds size cells blank r l) (hl : l.length < size) :
    RingHolds size cells blank r (l ++ [blank]) := by
  refine ⟨by simpa using Nat.succ_le_of_lt hl, fun i hi => ?_⟩
  rw [h.cell i hi]
  rcases lt_trichotomy i l.length with hlt | rfl | hgt
  · rw [List.getD_append _ _ _ _ hlt]
  · rw [List.getD_append_right _ _ _ _ le_rfl, List.getD_eq_default _ _ le_rfl]
    simp
  · have hlong : (l ++ [blank]).length ≤ i := by simpa using Nat.succ_le_of_lt hgt
    rw [List.getD_eq_default _ _ hgt.le, List.getD_eq_default _ _ hlong]

/-- Writing the cell after the list appends to it. -/
theorem push (h : RingHolds size cells blank r l) (hl : l.length < size) :
    RingHolds size (update cells ((r + l.length) % size) b) blank r (l ++ [b]) := by
  have := (h.append_blank hl).set (j := l.length) (b := b) (by simp)
  rwa [List.set_append_right _ _ le_rfl, Nat.sub_self] at this

theorem tail (h : RingHolds size cells blank r (blank :: l)) :
    RingHolds size cells blank ((r + 1) % size) l := by
  have hlen : l.length + 1 ≤ size := h.length_le
  refine ⟨by omega, fun i hi => ?_⟩
  rw [Nat.mod_add_mod, add_assoc, add_comm 1 i]
  rcases lt_or_eq_of_le (show i + 1 ≤ size from hi) with hlt | heq
  · exact h.cell (i + 1) hlt
  · rw [heq, Nat.add_mod_right, List.getD_eq_default _ _ (by omega)]
    simpa using h.cell 0 (by omega)

end RingHolds

end MinStd
