import Mathlib.Algebra.BigOperators.Group.List.Basic
import Mathlib.Algebra.GroupWithZero.Nat
import Mathlib.Algebra.Order.Group.Nat
import Mathlib.Data.List.Nodup

/-!
# Blocks laid end to end

Each block starts where the one before it ends, so a walk that adds the size of the block it is at
meets all of them.  `Walk size p l q`: from `p`, the walk meets the blocks `l`, in order, and ends
at `q`.  A block may be added at the end, or cut in two; a block is met once, and two blocks share no
point.
-/

namespace MinStd

variable {size size' : ℕ → ℕ} {p q a b m n : ℕ} {l l₁ l₂ : List ℕ}

/-- From `p`, the blocks `l` lie end to end up to `q`. -/
inductive Walk (size : ℕ → ℕ) : ℕ → List ℕ → ℕ → Prop
  | nil {p : ℕ} : Walk size p [] p
  | cons {p : ℕ} {l : List ℕ} {q : ℕ} : 0 < size p → Walk size (p + size p) l q →
      Walk size p (p :: l) q

/-- The blocks a walk meets in at most `fuel` steps. -/
def blocksFrom (size : ℕ → ℕ) (q : ℕ) : ℕ → ℕ → List ℕ
  | 0, _ => []
  | fuel + 1, p => if p < q then p :: blocksFrom size q fuel (p + size p) else []

namespace Walk

@[simp] theorem nil_iff : Walk size p [] q ↔ p = q :=
  ⟨fun h => by cases h; rfl, fun h => h ▸ nil⟩

@[simp] theorem cons_iff :
    Walk size p (b :: l) q ↔ b = p ∧ 0 < size p ∧ Walk size (p + size p) l q := by
  constructor
  · intro h
    cases h with
    | cons hpos h => exact ⟨rfl, hpos, h⟩
  · rintro ⟨rfl, hpos, h⟩
    exact h.cons hpos

theorem append_iff :
    Walk size p (l₁ ++ l₂) q ↔ ∃ m, Walk size p l₁ m ∧ Walk size m l₂ q := by
  induction l₁ generalizing p with
  | nil => simp
  | cons b l₁ ih =>
    simp only [List.cons_append, cons_iff, ih]
    exact ⟨fun ⟨h1, h2, m, h3, h4⟩ => ⟨m, ⟨h1, h2, h3⟩, h4⟩,
      fun ⟨m, ⟨h1, h2, h3⟩, h4⟩ => ⟨h1, h2, m, h3, h4⟩⟩

theorem congr (h : Walk size p l q) (hl : ∀ b ∈ l, size' b = size b) : Walk size' p l q := by
  induction h with
  | nil => exact .nil
  | @cons p l q hpos h ih =>
    have hp := hl p (by simp)
    refine .cons (by omega) ?_
    rw [hp]
    exact ih fun c hc => hl c (by simp [hc])

theorem le (h : Walk size p l q) : p ≤ q := by
  induction h with
  | nil => exact le_rfl
  | cons _ _ ih => exact (Nat.le_add_right _ _).trans ih

theorem length_le (h : Walk size p l q) : p + l.length ≤ q := by
  induction h with
  | nil => exact le_rfl
  | cons hpos _ ih =>
    simp only [List.length_cons]
    omega

theorem sum_eq (h : Walk size p l q) : p + (l.map size).sum = q := by
  induction h with
  | nil => rfl
  | cons _ _ ih =>
    rw [List.map_cons, List.sum_cons, ← Nat.add_assoc]
    exact ih

theorem pos (h : Walk size p l q) (hb : b ∈ l) : 0 < size b := by
  induction h with
  | nil => cases hb
  | cons hpos _ ih =>
    rcases List.mem_cons.1 hb with rfl | hb
    · exact hpos
    · exact ih hb

/-- The walk up to a block, and on from it. -/
theorem at_mem (h : Walk size p l q) (hb : b ∈ l) : ∃ l₁ l₂, l = l₁ ++ b :: l₂
    ∧ Walk size p l₁ b ∧ Walk size (b + size b) l₂ q := by
  obtain ⟨l₁, l₂, rfl⟩ := List.append_of_mem hb
  obtain ⟨m, h1, h2⟩ := append_iff.1 h
  obtain ⟨rfl, -, h2⟩ := cons_iff.1 h2
  exact ⟨l₁, l₂, rfl, h1, h2⟩

theorem inside (h : Walk size p l q) (hb : b ∈ l) : p ≤ b ∧ b + size b ≤ q := by
  obtain ⟨l₁, l₂, rfl, h1, h2⟩ := h.at_mem hb
  exact ⟨h1.le, h2.le⟩

/-- Of two blocks, one ends before the other starts. -/
theorem disjoint (h : Walk size p l q) (ha : a ∈ l) (hb : b ∈ l) (hne : a ≠ b) :
    a + size a ≤ b ∨ b + size b ≤ a := by
  obtain ⟨l₁, l₂, rfl, h1, h2⟩ := h.at_mem ha
  rcases List.mem_append.1 hb with hb | hb
  · exact .inr (h1.inside hb).2
  · rcases List.mem_cons.1 hb with rfl | hb
    · exact absurd rfl hne
    · exact .inl (h2.inside hb).1

/-- No block starts inside another. -/
theorem notMem_inside (h : Walk size p l q) (hb : b ∈ l) (h1 : b < a) (h2 : a < b + size b) :
    a ∉ l := by
  intro ha
  have hpos := h.pos ha
  rcases h.disjoint ha hb (by omega) with h3 | h3 <;> omega

theorem nodup (h : Walk size p l q) : l.Nodup := by
  induction h with
  | nil => exact List.nodup_nil
  | cons hpos h ih =>
    refine List.nodup_cons.2 ⟨fun hb => ?_, ih⟩
    have := (h.inside hb).1
    omega

/-- What the walk meets is determined by its ends. -/
theorem blocksFrom_eq (h : Walk size p l q) {fuel : ℕ} (hf : l.length ≤ fuel) :
    blocksFrom size q fuel p = l := by
  induction h generalizing fuel with
  | @nil p =>
    cases fuel with
    | zero => rfl
    | succ fuel => exact if_neg (lt_irrefl p)
  | @cons p l q hpos h ih =>
    cases fuel with
    | zero => simp at hf
    | succ fuel =>
      have hlt : p < q := by
        have := h.le
        omega
      simp only [blocksFrom, if_pos hlt]
      rw [ih (by simpa using hf)]

/-- A block added at the end. -/
theorem snoc (h : Walk size p l q) (hl : ∀ b ∈ l, size' b = size b) (hn : 0 < size' q) :
    Walk size' p (l ++ [q]) (q + size' q) :=
  append_iff.2 ⟨q, h.congr hl, nil.cons hn⟩

/-- A block cut in two. -/
theorem split (h : Walk size p (l₁ ++ b :: l₂) q) (hl₁ : ∀ c ∈ l₁, size' c = size c)
    (hl₂ : ∀ c ∈ l₂, size' c = size c) (hb : size' b = m) (hm : 0 < m) (hlt : m < size b)
    (hrest : size' (b + m) = size b - m) : Walk size' p (l₁ ++ b :: (b + m) :: l₂) q := by
  obtain ⟨c, h1, h2⟩ := append_iff.1 h
  obtain ⟨rfl, -, h2⟩ := cons_iff.1 h2
  refine append_iff.2 ⟨b, h1.congr hl₁, .cons (by omega) ?_⟩
  rw [hb]
  refine .cons (by omega) ?_
  rw [hrest, show b + m + (size b - m) = b + size b by omega]
  exact h2.congr hl₂

end Walk

end MinStd
