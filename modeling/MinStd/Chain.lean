import Mathlib.Data.List.Nodup
import Mathlib.Data.List.Basic
import Mathlib.Logic.Function.Basic

/-!
# Singly linked chains

`Linked ref next p l q`: from the pointer `p`, the links `next` lead through the nodes `l`, in
order, to the pointer `q`.  `ref a` is the pointer to `a`.  When `q` points to no node, the nodes
are determined by `p` and `q`, so no node is met twice (`Linked.nodup`), and the chain is what a
walk along the links sees.
-/

namespace MinStd

variable {α β : Type*} {ref : α → β} {next next' : α → β} {p q : β} {l l₁ l₂ : List α} {a b : α}

/-- The links `next` lead from `p` through the nodes `l` to `q`. -/
def Linked (ref next : α → β) : β → List α → β → Prop
  | p, [], q => p = q
  | p, a :: l, q => p = ref a ∧ Linked ref next (next a) l q

namespace Linked

@[simp] theorem nil_iff : Linked ref next p [] q ↔ p = q := Iff.rfl

@[simp] theorem cons_iff :
    Linked ref next p (a :: l) q ↔ p = ref a ∧ Linked ref next (next a) l q := Iff.rfl

theorem append_iff :
    Linked ref next p (l₁ ++ l₂) q ↔ ∃ m, Linked ref next p l₁ m ∧ Linked ref next m l₂ q := by
  induction l₁ generalizing p with
  | nil => simp
  | cons a l₁ ih =>
    simp only [List.cons_append, cons_iff, ih]
    exact ⟨fun ⟨h, m, h1, h2⟩ => ⟨m, ⟨h, h1⟩, h2⟩, fun ⟨m, ⟨h, h1⟩, h2⟩ => ⟨h, m, h1, h2⟩⟩

theorem congr (h : Linked ref next p l q) (hl : ∀ a ∈ l, next' a = next a) :
    Linked ref next' p l q := by
  induction l generalizing p with
  | nil => exact h
  | cons a l ih =>
    refine ⟨h.1, ?_⟩
    rw [hl a (by simp)]
    exact ih h.2 fun b hb => hl b (by simp [hb])

/-- A change of a node off the chain does not change the chain. -/
theorem update [DecidableEq α] (h : Linked ref next p l q) (ha : a ∉ l) (x : β) :
    Linked ref (Function.update next a x) p l q :=
  h.congr fun b hb => Function.update_of_ne (by rintro rfl; exact ha hb) _ _

/-- Where `q` points to no node, the chain from `p` to `q` is unique. -/
theorem unique (href : Function.Injective ref) (hq : ∀ a, ref a ≠ q)
    (h₁ : Linked ref next p l₁ q) (h₂ : Linked ref next p l₂ q) : l₁ = l₂ := by
  induction l₁ generalizing p l₂ with
  | nil =>
    cases l₂ with
    | nil => rfl
    | cons b l₂ => exact absurd (h₂.1.symm.trans h₁) (hq b)
  | cons a l₁ ih =>
    cases l₂ with
    | nil => exact absurd (h₁.1.symm.trans h₂) (hq a)
    | cons b l₂ =>
      obtain rfl := href (h₁.1.symm.trans h₂.1)
      rw [ih h₁.2 h₂.2]

theorem tail_of_mem (h : Linked ref next p l q) (ha : a ∈ l) :
    ∃ l₁ l₂, l = l₁ ++ a :: l₂ ∧ Linked ref next p l₁ (ref a) ∧ Linked ref next (next a) l₂ q := by
  obtain ⟨l₁, l₂, rfl⟩ := List.append_of_mem ha
  obtain ⟨m, h1, rfl, h2⟩ := append_iff.1 h
  exact ⟨l₁, l₂, rfl, h1, h2⟩

theorem nodup (href : Function.Injective ref) (hq : ∀ a, ref a ≠ q)
    (h : Linked ref next p l q) : l.Nodup := by
  induction l generalizing p with
  | nil => exact List.nodup_nil
  | cons a l ih =>
    refine List.nodup_cons.2 ⟨fun ha => ?_, ih h.2⟩
    -- from `a` the chain would be both `l` and a proper part of it
    obtain ⟨l₁, l₂, rfl, -, h2⟩ := h.2.tail_of_mem ha
    have := congrArg List.length (unique href hq h.2 h2)
    simp only [List.length_append, List.length_cons] at this
    omega

/-- What a node of the chain points to is the next node of it, or its end. -/
theorem next_of_mem (h : Linked ref next p l q) (ha : a ∈ l) :
    next a = q ∨ ∃ b ∈ l, next a = ref b := by
  obtain ⟨l₁, l₂, rfl, -, h2⟩ := h.tail_of_mem ha
  cases l₂ with
  | nil => exact .inl h2
  | cons b l₂ => exact .inr ⟨b, by simp, h2.1⟩

/-- A node pushed in front. -/
theorem push (h : Linked ref next p l q) (hn : next a = p) :
    Linked ref next (ref a) (a :: l) q := ⟨rfl, hn ▸ h⟩

/-- The first node unlinked. -/
theorem unlink_head (href : Function.Injective ref) (h : Linked ref next (ref a) l q)
    (hq : ∀ a, ref a ≠ q) : ∃ l', l = a :: l' ∧ Linked ref next (next a) l' q := by
  cases l with
  | nil => exact absurd h (hq a)
  | cons b l =>
    obtain rfl := href h.1
    exact ⟨l, rfl, h.2⟩

section Splice

variable [DecidableEq α]

/-- The node after `a` unlinked by aiming `a` past it. -/
theorem unlink_after (href : Function.Injective ref) (hq : ∀ a, ref a ≠ q)
    (h : Linked ref next p l q) (ha : a ∈ l) (hn : next a = ref b) :
    Linked ref (Function.update next a (next b)) p (l.erase b) q ∧ b ∈ l := by
  have hnd := h.nodup href hq
  obtain ⟨l₁, l₂, rfl, h1, h2⟩ := h.tail_of_mem ha
  rw [hn] at h2
  obtain ⟨l₃, rfl, h3⟩ := unlink_head href h2 hq
  obtain ⟨-, hnd2, hdis⟩ := List.nodup_append.1 hnd
  have hal₁ : a ∉ l₁ := fun hm => hdis a hm a (by simp) rfl
  have hbl₁ : b ∉ l₁ := fun hm => hdis b hm b (by simp) rfl
  have hab : a ≠ b := fun e => (List.nodup_cons.1 hnd2).1 (e ▸ List.mem_cons_self)
  have hal₃ : a ∉ l₃ := fun hm => (List.nodup_cons.1 hnd2).1 (List.mem_cons_of_mem _ hm)
  refine ⟨?_, by simp⟩
  have herase : (l₁ ++ a :: b :: l₃).erase b = l₁ ++ a :: l₃ := by
    rw [List.erase_append_right _ hbl₁, List.erase_cons_tail (by simpa using hab),
      List.erase_cons_head]
  rw [herase]
  refine append_iff.2 ⟨ref a, h1.update hal₁ _, rfl, ?_⟩
  rw [Function.update_self]
  exact h3.update hal₃ _

/-- A node linked between `a` and what follows it. -/
theorem insert_between (href : Function.Injective ref) (hq : ∀ a, ref a ≠ q)
    (h : Linked ref next p (l₁ ++ a :: l₂) q) (hb : b ∉ l₁ ++ a :: l₂) (hn : next b = next a) :
    Linked ref (Function.update next a (ref b)) p (l₁ ++ a :: b :: l₂) q := by
  obtain ⟨-, hnd, hdis⟩ := List.nodup_append.1 (h.nodup href hq)
  obtain ⟨m, h1, rfl, h2⟩ := append_iff.1 h
  have hal₁ : a ∉ l₁ := fun hm => hdis a hm a (by simp) rfl
  have hba : b ≠ a := fun e => hb (by simp [e])
  refine append_iff.2 ⟨ref a, h1.update hal₁ _, rfl, ?_⟩
  rw [Function.update_self]
  refine ⟨rfl, ?_⟩
  rw [Function.update_of_ne hba, hn]
  exact h2.update (List.nodup_cons.1 hnd).1 _

/-- A node linked after `a`, aimed at what followed. -/
theorem insert_after (href : Function.Injective ref) (hq : ∀ a, ref a ≠ q)
    (h : Linked ref next p l q) (ha : a ∈ l) (hb : b ∉ l) (hn : next b = next a) :
    ∃ l₁ l₂, l = l₁ ++ a :: l₂
      ∧ Linked ref (Function.update next a (ref b)) p (l₁ ++ a :: b :: l₂) q := by
  obtain ⟨l₁, l₂, rfl⟩ := List.append_of_mem ha
  exact ⟨l₁, l₂, rfl, h.insert_between href hq hb hn⟩

end Splice

/-- A node whose link leads to the start of a chain is not on it. -/
theorem notMem_of_next (href : Function.Injective ref) (hq : ∀ a, ref a ≠ q)
    (h : Linked ref next p l q) (hn : next a = p) : a ∉ l := by
  intro ha
  obtain ⟨l₁, l₂, rfl, -, h2⟩ := h.tail_of_mem ha
  rw [hn] at h2
  have := congrArg List.length (unique href hq h h2)
  simp only [List.length_append, List.length_cons] at this
  omega

/-- A node that points to itself is on no chain. -/
theorem not_of_self_loop (href : Function.Injective ref) (hq : ∀ a, ref a ≠ q)
    (hn : next a = ref a) : ¬ Linked ref next (ref a) l q := by
  intro h
  cases l with
  | nil => exact hq a h
  | cons b l =>
    obtain rfl := href h.1
    exact h.notMem_of_next href hq hn List.mem_cons_self

end Linked

end MinStd
