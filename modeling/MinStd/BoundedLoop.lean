import Mathlib.Data.Nat.Notation

/-!
# Loops

A loop goes round until a round ends it.  It is given a number of rounds that it may not pass; a
measure that every round makes smaller shows that it ends within them.
-/

namespace MinStd

variable {σ α : Type*}

/-- A round goes on with another state or ends with an answer; `none` when the rounds run out. -/
def loop (round : σ → σ ⊕ α) : ℕ → σ → Option α
  | 0, _ => none
  | rounds + 1, x =>
    match round x with
    | .inl x' => loop round rounds x'
    | .inr a => some a

/-- An invariant that each round keeps while it makes the measure smaller. -/
theorem loop_spec {f : σ → σ ⊕ α} {I : σ → Prop} {Q : α → Prop} (μ : σ → ℕ)
    (hround : ∀ x, I x → (∃ x', f x = .inl x' ∧ I x' ∧ μ x' < μ x) ∨ ∃ a, f x = .inr a ∧ Q a)
    {n : ℕ} {x : σ} (hx : I x) (h : μ x < n) : ∃ a, loop f n x = some a ∧ Q a := by
  induction n generalizing x with
  | zero => exact absurd h (Nat.not_lt_zero _)
  | succ n ih =>
    rcases hround x hx with ⟨x', hr, hx', hlt⟩ | ⟨a, hr, ha⟩
    · obtain ⟨a, hl, ha⟩ := ih hx' (Nat.lt_of_lt_of_le hlt (Nat.le_of_lt_succ h))
      refine ⟨a, ?_, ha⟩
      rw [loop, hr]
      exact hl
    · refine ⟨a, ?_, ha⟩
      rw [loop, hr]

end MinStd
