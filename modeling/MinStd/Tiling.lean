import Mathlib.Algebra.Order.Group.Nat
import Mathlib.Data.List.Count
import Mathlib.Data.List.Nodup
import Mathlib.Data.List.Perm.Basic
import Mathlib.Logic.Basic

/-!
# Tilings by holders

Each holder has a list of spans.  The holdings tile `[lo, hi)` when each of its points is in one
span of one holder, and the other points are in none.  Who holds what is compared by `cover`, the
number of a list's spans that meet a point: a span may be cut, and spans may be passed from one
holder to another, without a change of the sum.
-/

namespace MinStd

/-- The points from `start` on, `len` of them. -/
structure Span where
  start : ℕ
  len : ℕ
  deriving DecidableEq

/-- `x` is in the span. -/
def Span.Meets (b : Span) (x : ℕ) : Prop := b.start ≤ x ∧ x < b.start + b.len

instance (b : Span) (x : ℕ) : Decidable (b.Meets x) := inferInstanceAs (Decidable (_ ∧ _))

/-- How many of the spans meet `x`. -/
def cover (l : List Span) (x : ℕ) : ℕ := l.countP fun b => b.Meets x

variable {ω : Type*} {f f' : ω → List Span} {lo hi x : ℕ} {v w : ω} {l l' : List Span} {b b' : Span}

@[simp] theorem cover_nil : cover [] x = 0 := rfl

theorem cover_cons : cover (b :: l) x = (if b.Meets x then 1 else 0) + cover l x := by
  unfold cover
  rw [List.countP_cons, add_comm]
  simp

theorem cover_append : cover (l ++ l') x = cover l x + cover l' x := List.countP_append

theorem cover_perm (h : l.Perm l') : cover l x = cover l' x := h.countP_eq _

/-- A span taken out of a list. -/
theorem cover_erase (hb : b ∈ l) :
    cover l x = (if b.Meets x then 1 else 0) + cover (l.erase b) x := by
  rw [cover_perm (List.perm_cons_erase hb), cover_cons]

theorem cover_pos (hb : b ∈ l) (hx : b.Meets x) : 0 < cover l x :=
  List.countP_pos_iff.2 ⟨b, hb, by simpa using hx⟩

/-- A span cut in two. -/
theorem meets_split (p m n : ℕ) : (if (Span.mk p (m + n)).Meets x then 1 else 0)
    = (if (Span.mk p m).Meets x then 1 else 0) + if (Span.mk (p + m) n).Meets x then 1 else 0 := by
  unfold Span.Meets
  rcases lt_or_ge x (p + m) with hx | hx
  · simp only [show x < p + (m + n) by omega, hx, show ¬ p + m ≤ x by omega, and_true, false_and,
      if_false, add_zero]
  · simp only [hx, show ¬ x < p + m by omega, show p ≤ x by omega, true_and, and_false, if_false,
      zero_add, add_assoc]

/-- Each point of `[lo, hi)` is in one span of one holder, and no other point is in a span. -/
def Tiles (f : ω → List Span) (lo hi : ℕ) : Prop :=
  ∀ x, ∃ o : Option ω, (o.isSome ↔ lo ≤ x ∧ x < hi)
    ∧ ∀ w, (o = some w → cover (f w) x = 1) ∧ (o ≠ some w → cover (f w) x = 0)

namespace Tiles

theorem congr (h : Tiles f lo hi) (hf : ∀ w x, cover (f' w) x = cover (f w) x) :
    Tiles f' lo hi := by
  intro x
  obtain ⟨o, ho, h⟩ := h x
  refine ⟨o, ho, fun w => ?_⟩
  rw [hf]
  exact h w

theorem cover_le (h : Tiles f lo hi) (w : ω) (x : ℕ) : cover (f w) x ≤ 1 := by
  obtain ⟨o, -, h⟩ := h x
  rcases em (o = some w) with ho | ho
  · exact ((h w).1 ho).le
  · exact ((h w).2 ho).le.trans zero_le_one

/-- No point is in the spans of two holders. -/
theorem eq_of_pos (h : Tiles f lo hi) (hv : 0 < cover (f v) x) (hw : 0 < cover (f w) x) : v = w := by
  obtain ⟨o, -, h⟩ := h x
  have hov : o = some v := by
    by_contra hne
    exact hv.ne' ((h v).2 hne)
  have how : o = some w := by
    by_contra hne
    exact hw.ne' ((h w).2 hne)
  exact Option.some.inj (hov.symm.trans how)

/-- Spans that share a point are one span of one holder. -/
theorem eq_of_meets (h : Tiles f lo hi) (hb : b ∈ f v) (hb' : b' ∈ f w) (hx : b.Meets x)
    (hx' : b'.Meets x) : v = w ∧ b = b' := by
  obtain rfl := h.eq_of_pos (cover_pos hb hx) (cover_pos hb' hx')
  refine ⟨rfl, ?_⟩
  by_contra hne
  have hle := h.cover_le v x
  rw [cover_erase hb, if_pos hx] at hle
  have := cover_pos ((List.mem_erase_of_ne (Ne.symm hne)).2 hb') hx'
  omega

/-- A holder has no span twice. -/
theorem nodup (h : Tiles f lo hi) (hpos : ∀ b ∈ f w, 0 < b.len) : (f w).Nodup := by
  refine List.nodup_iff_count_le_one.2 fun b => ?_
  by_contra hcount
  have hb : b ∈ f w := List.count_pos_iff.1 (by omega)
  have hle := h.cover_le w b.start
  have hmeets : b.Meets b.start := ⟨le_rfl, Nat.lt_add_of_pos_right (hpos b hb)⟩
  have : (f w).count b ≤ cover (f w) b.start := by
    unfold cover List.count
    refine List.countP_mono_left fun b' _ hb' => ?_
    obtain rfl : b' = b := by simpa using hb'
    simpa using hmeets
  omega

/-- A span of a holder is inside the range. -/
theorem inside (h : Tiles f lo hi) (hb : b ∈ f w) (hx : b.Meets x) : lo ≤ x ∧ x < hi := by
  obtain ⟨o, ho, h⟩ := h x
  refine ho.1 (Option.isSome_iff_ne_none.2 ?_)
  rintro rfl
  exact (cover_pos hb hx).ne' ((h w).2 (by simp))

/-- Spans pass between two holders. -/
theorem move (h : Tiles f lo hi) (hvw : v ≠ w) (hf : ∀ u, u ≠ v → u ≠ w → f' u = f u)
    (hsum : ∀ x, cover (f' v) x + cover (f' w) x = cover (f v) x + cover (f w) x) :
    Tiles f' lo hi := by
  intro x
  obtain ⟨o, ho, h⟩ := h x
  have hs := hsum x
  rcases em (o = some v ∨ o = some w) with hvo | hvo
  · -- one of the two has `x`, and has it afterwards or has passed it on
    have hone : cover (f v) x + cover (f w) x = 1 := by
      rcases hvo with rfl | rfl
      · rw [(h v).1 rfl, (h w).2 (by simpa using hvw)]
      · rw [(h w).1 rfl, (h v).2 (by simpa using hvw.symm)]
    have hsome : o.isSome := by rcases hvo with rfl | rfl <;> rfl
    have hrest : ∀ u, u ≠ v → u ≠ w → cover (f' u) x = 0 := by
      intro u huv huw
      rw [hf u huv huw]
      refine (h u).2 fun heq => ?_
      rcases hvo with rfl | rfl
      · exact huv (Option.some.inj heq).symm
      · exact huw (Option.some.inj heq).symm
    rcases Nat.eq_zero_or_pos (cover (f' v) x) with hv0 | hv0
    · refine ⟨some w, by simpa using ho.1 hsome, fun u => ⟨?_, fun hu => ?_⟩⟩
      · rintro ⟨⟩
        omega
      · rcases em (u = v) with rfl | huv
        · exact hv0
        · exact hrest u huv fun heq => hu (by rw [heq])
    · refine ⟨some v, by simpa using ho.1 hsome, fun u => ⟨?_, fun hu => ?_⟩⟩
      · rintro ⟨⟩
        omega
      · rcases em (u = w) with rfl | huw
        · omega
        · exact hrest u (fun heq => hu (by rw [heq])) huw
  · refine ⟨o, ho, fun u => ?_⟩
    have hv0 := (h v).2 fun heq => hvo (.inl heq)
    have hw0 := (h w).2 fun heq => hvo (.inr heq)
    rcases em (u = v) with rfl | huv
    · exact ⟨fun heq => absurd (.inl heq) hvo, fun _ => by omega⟩
    · rcases em (u = w) with rfl | huw
      · exact ⟨fun heq => absurd (.inr heq) hvo, fun _ => by omega⟩
      · rw [hf u huv huw]
        exact h u

/-- The range grows by a span of one holder. -/
theorem extend (h : Tiles f lo hi) (n : ℕ) (hlo : lo ≤ hi) (hf : ∀ u, u ≠ v → f' u = f u)
    (hv : ∀ x, cover (f' v) x = (if (Span.mk hi n).Meets x then 1 else 0) + cover (f v) x) :
    Tiles f' lo (hi + n) := by
  intro x
  obtain ⟨o, ho, h⟩ := h x
  have hvx := hv x
  rcases em ((Span.mk hi n).Meets x) with hx | hx
  · have hnone : o = none := by
      rw [← Option.not_isSome_iff_eq_none, ho]
      exact fun hlt => absurd hx.1 (by simpa using hlt.2)
    subst hnone
    have h0 : ∀ u, cover (f u) x = 0 := fun u => (h u).2 (by simp)
    refine ⟨some v, iff_of_true rfl ⟨hlo.trans hx.1, hx.2⟩, fun u => ⟨?_, fun hu => ?_⟩⟩
    · rintro ⟨⟩
      rw [hvx, if_pos hx, h0]
    · rw [hf u fun heq => hu (by rw [heq]), h0]
  · rw [if_neg hx, zero_add] at hvx
    refine ⟨o, ho.trans ?_, fun u => ?_⟩
    · unfold Span.Meets at hx
      simp only at hx
      omega
    · rcases em (u = v) with rfl | hu
      · rw [hvx]
        exact h u
      · rw [hf u hu]
        exact h u

end Tiles

end MinStd
