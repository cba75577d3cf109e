import Mathlib.Logic.Function.Basic
import Mathlib.Data.List.Basic

/-!
# Machines that take one atomic step at a time

A machine is its start states and a partial step function: `step s a` is the state after the
action `a`, or `none` where `a` cannot happen in `s`.  A run may be restricted by a guard on the
state and the action of each of its steps; `Reachable` is the unrestricted case.  A state holds
what every start state holds and every step keeps (`Machine.run_induction`).
-/

namespace MinStd

variable {σ α : Type*}

/-- Start states, and the state each action leads to where it can happen. -/
structure Machine (σ α : Type*) where
  init : σ → Prop
  step : σ → α → Option σ

namespace Machine

variable (M : Machine σ α)

/-- The states of the runs whose every step meets the guard `G`. -/
inductive Run (G : σ → α → Prop) : σ → Prop
  | init {s : σ} : M.init s → Run G s
  | step {s s' : σ} {a : α} : Run G s → G s a → M.step s a = some s' → Run G s'

/-- The states some run reaches. -/
def Reachable : σ → Prop := M.Run fun _ _ => True

variable {M} {G : σ → α → Prop}

theorem run_induction {I : σ → Prop} (h0 : ∀ s, M.init s → I s)
    (hstep : ∀ s s' a, M.Run G s → I s → G s a → M.step s a = some s' → I s') :
    ∀ {s}, M.Run G s → I s := by
  intro s hs
  induction hs with
  | init h => exact h0 _ h
  | step hr hg h ih => exact hstep _ _ _ hr ih hg h

theorem run_mono {G' : σ → α → Prop} (hG : ∀ s a, G s a → G' s a) {s : σ} (h : M.Run G s) :
    M.Run G' s :=
  run_induction (fun _ => .init) (fun _ _ a _ ih hg h => .step ih (hG _ a hg) h) h

theorem Run.reachable {s : σ} (h : M.Run G s) : M.Reachable s := run_mono (fun _ _ _ => trivial) h

theorem Reachable.step {s s' : σ} {a : α} (h : M.Reachable s) (hs : M.step s a = some s') :
    M.Reachable s' := Run.step h trivial hs

theorem reachable_induction {I : σ → Prop} (h0 : ∀ s, M.init s → I s)
    (hstep : ∀ s s' a, M.Reachable s → I s → M.step s a = some s' → I s') {s : σ}
    (h : M.Reachable s) : I s :=
  run_induction h0 (fun s s' a hr ih _ hs => hstep s s' a hr ih hs) h

variable (M)

/-- The state after a list of actions, or `none` where one of them cannot happen or does not meet
the guard. -/
def exec (G : σ → α → Prop) [∀ s a, Decidable (G s a)] (s : σ) : List α → Option σ
  | [] => some s
  | a :: as => if G s a then (M.step s a).bind fun s' => exec G s' as else none

variable {M} [∀ s a, Decidable (G s a)]

theorem Run.exec {s s' : σ} {as : List α} (h : M.Run G s) (he : M.exec G s as = some s') :
    M.Run G s' := by
  induction as generalizing s with
  | nil => cases he; exact h
  | cons a as ih =>
    simp only [Machine.exec] at he
    split_ifs at he with hg
    obtain ⟨s₁, hs, he⟩ := Option.bind_eq_some_iff.1 he
    exact ih (h.step hg hs) he

theorem run_of_exec {s t : σ} {as : List α} (h0 : M.init s) (he : M.exec G s as = some t) :
    M.Run G t := Run.exec (.init h0) he

theorem exists_run {s : σ} (as : List α) {P : σ → Prop} [DecidablePred P] (h0 : M.init s)
    (he : (M.exec G s as).any (fun t => P t) = true) : ∃ t, M.Run G t ∧ P t := by
  obtain ⟨t, ht, h⟩ := (Option.any_eq_true _ _).1 he
  exact ⟨t, run_of_exec h0 ht, of_decide_eq_true h⟩

omit [∀ s a, Decidable (G s a)] in
/-- A run goes on for any number of rounds, where one round leads from each to the next. -/
theorem Run.rounds {I : ℕ → σ → Prop}
    (hround : ∀ i s, M.Run G s → I i s → ∃ s', M.Run G s' ∧ I (i + 1) s') (n : ℕ) {s : σ}
    (h : M.Run G s) (h0 : I 0 s) : ∃ s', M.Run G s' ∧ I n s' := by
  induction n with
  | zero => exact ⟨s, h, h0⟩
  | succ n ih =>
    obtain ⟨s', hs', hI⟩ := ih
    exact hround n s' hs' hI

variable (M G) in
/-- The state that actions of `A` come to, whichever of them are taken. -/
inductive Leads (A : α → Prop) : σ → σ → Prop
  | refl (s : σ) : Leads A s s
  | step {s s₁ s' : σ} : (∀ a, A a → G s a ∧ M.step s a = some s₁) → Leads A s₁ s' → Leads A s s'

namespace Leads

variable {A : α → Prop} {s s₁ s' : σ}

omit [∀ s a, Decidable (G s a)] in
theorem trans (h : M.Leads G A s s₁) (h' : M.Leads G A s₁ s') : M.Leads G A s s' := by
  induction h with
  | refl => exact h'
  | step hs _ ih => exact .step hs (ih h')

omit [∀ s a, Decidable (G s a)] in
/-- What a run has and each of the steps keeps holds where they lead. -/
theorem run {I : σ → Prop} (hA : ∃ a, A a)
    (hI : ∀ s s' a, M.Run G s → I s → A a → M.step s a = some s' → I s')
    (h : M.Leads G A s s') (hr : M.Run G s) (hs : I s) : M.Run G s' ∧ I s' := by
  obtain ⟨a, ha⟩ := hA
  induction h with
  | refl => exact ⟨hr, hs⟩
  | step hstep _ ih =>
    obtain ⟨hg, he⟩ := hstep a ha
    exact ih (hr.step hg he) (hI _ _ a hr hs ha he)

omit [∀ s a, Decidable (G s a)] in
theorem reachable (hA : ∃ a, A a) (h : M.Leads G A s s') (hs : M.Reachable s) : M.Reachable s' := by
  obtain ⟨a, ha⟩ := hA
  induction h with
  | refl => exact hs
  | step hstep _ ih => exact ih (hs.step (hstep a ha).2)

end Leads

end Machine

end MinStd
