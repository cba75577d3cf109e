import Mathlib.Data.Finset.Sum

/-!
# Counters

A counter counts a property when it is the number of the things that have it.  A thing that gets the
property counts one up, one that loses it one down, and one that hands it on leaves the count.
-/

namespace MinStd

variable {α : Type*} {P Q : α → Prop} {n : ℕ} {x y : α}

/-- The property is that of `n` things. -/
def CountOf (P : α → Prop) (n : ℕ) : Prop := ∃ S : Finset α, (∀ x, x ∈ S ↔ P x) ∧ S.card = n

namespace CountOf

theorem congr (h : CountOf P n) (hiff : ∀ x, Q x ↔ P x) : CountOf Q n := by
  obtain ⟨S, hS, hn⟩ := h
  exact ⟨S, fun x => (hS x).trans (hiff x).symm, hn⟩

theorem empty (h : ∀ x, ¬ P x) : CountOf P 0 := ⟨∅, by simpa using h, rfl⟩

theorem eq_zero_iff (h : CountOf P n) : n = 0 ↔ ∀ x, ¬ P x := by
  obtain ⟨S, hS, rfl⟩ := h
  rw [Finset.card_eq_zero, Finset.eq_empty_iff_forall_notMem]
  exact forall_congr' fun x => not_congr (hS x)

theorem add [DecidableEq α] (h : CountOf P n) (hx : ¬ P x) (hQ : ∀ y, Q y ↔ y = x ∨ P y) :
    CountOf Q (n + 1) := by
  obtain ⟨S, hS, rfl⟩ := h
  refine ⟨insert x S, fun y => ?_, Finset.card_insert_of_notMem (mt (hS x).1 hx)⟩
  rw [Finset.mem_insert, hS, hQ]

theorem drop [DecidableEq α] (h : CountOf P n) (hx : P x) (hQ : ∀ y, Q y ↔ y ≠ x ∧ P y) :
    CountOf Q (n - 1) := by
  obtain ⟨S, hS, rfl⟩ := h
  refine ⟨S.erase x, fun y => ?_, Finset.card_erase_of_mem ((hS x).2 hx)⟩
  rw [Finset.mem_erase, hS, hQ]

theorem pos (h : CountOf P n) (hx : P x) : 0 < n :=
  Nat.pos_of_ne_zero fun hn => h.eq_zero_iff.1 hn x hx

/-- One thing hands the property on to another. -/
theorem swap [DecidableEq α] (h : CountOf P n) (hx : P x) (hy : ¬ P y)
    (hQ : ∀ z, Q z ↔ z = y ∨ z ≠ x ∧ P z) : CountOf Q n := by
  have hdrop := h.drop (Q := fun z => z ≠ x ∧ P z) hx fun _ => Iff.rfl
  have hadd := hdrop.add (x := y) (fun hn => hy hn.2) hQ
  rwa [Nat.sub_add_cancel (h.pos hx)] at hadd

theorem inr {β : Type*} {P : α ⊕ β → Prop} (h : CountOf P n) (hnone : ∀ a, ¬ P (.inl a)) :
    CountOf (fun b => P (.inr b)) n := by
  obtain ⟨S, hS, rfl⟩ := h
  have hleft : S.toLeft = ∅ := by
    rw [Finset.eq_empty_iff_forall_notMem]
    exact fun a ha => hnone a ((hS _).1 (Finset.mem_toLeft.1 ha))
  refine ⟨S.toRight, fun b => Finset.mem_toRight.trans (hS _), ?_⟩
  rw [← S.card_toLeft_add_card_toRight, hleft, Finset.card_empty, Nat.zero_add]

end CountOf

end MinStd
