import Mathlib.Data.List.Nodup
import Mathlib.Logic.Function.Basic

/-!
# Filing

Items are kept in lists, those that are filed once each in the list of their key and the others in
none.
-/

namespace MinStd

open Function

variable {ι κ : Type*} {f : κ → List ι} {p r : ι → Prop} {k c : ι → κ}
  {q : κ} {i : ι} {l : List ι}

/-- Each list has, once each, the filed items of its key. -/
structure Filed (f : κ → List ι) (p : ι → Prop) (k : ι → κ) : Prop where
  mem_iff : ∀ q i, i ∈ f q ↔ p i ∧ k i = q
  nodup : ∀ q, (f q).Nodup

namespace Filed

theorem congr (h : Filed f p k) (hon : ∀ j, r j ↔ p j) (hk : ∀ j, p j → c j = k j) :
    Filed f r c := by
  refine ⟨fun q j => ?_, h.nodup⟩
  rw [h.mem_iff, hon]
  exact and_congr_right fun hj => by rw [hk j hj]

theorem mem (h : Filed f p k) (hi : p i) : i ∈ f (k i) := (h.mem_iff _ i).2 ⟨hi, rfl⟩

theorem head (h : Filed f p k) (hq : f q = i :: l) : p i ∧ k i = q :=
  (h.mem_iff q i).1 (hq ▸ List.mem_cons_self)

variable [DecidableEq κ]

/-- An item that was not filed is put in the list of its key. -/
theorem push (h : Filed f p k) (hi : ¬ p i) (hi' : r i) (hon : ∀ j, j ≠ i → (r j ↔ p j))
    (hk : ∀ j, j ≠ i → p j → c j = k j) :
    Filed (update f (c i) (i :: f (c i))) r c := by
  have hnot : ∀ q, i ∉ f q := fun q hm => hi ((h.mem_iff q i).1 hm).1
  refine ⟨fun q j => ?_, fun q => ?_⟩
  · rcases eq_or_ne j i with rfl | hj
    · rcases eq_or_ne q (c j) with rfl | hq
      · simp [hi']
      · simp [update_of_ne hq, hnot, Ne.symm hq]
    · have hiff : j ∈ update f (c i) (i :: f (c i)) q ↔ j ∈ f q := by
        rcases eq_or_ne q (c i) with rfl | hq
        · simp [hj]
        · rw [update_of_ne hq]
      rw [hiff, h.mem_iff, hon j hj]
      exact and_congr_right fun hj' => by rw [hk j hj hj']
  · rcases eq_or_ne q (c i) with rfl | hq
    · rw [update_self]
      exact List.nodup_cons.2 ⟨hnot _, h.nodup _⟩
    · rw [update_of_ne hq]
      exact h.nodup q

/-- The first item of a list is taken out. -/
theorem pop (h : Filed f p k) (hq : f q = i :: l) (hi : ¬ r i)
    (hon : ∀ j, j ≠ i → (r j ↔ p j)) (hk : ∀ j, j ≠ i → p j → c j = k j) :
    Filed (update f q l) r c := by
  have hnd : i ∉ l ∧ l.Nodup := List.nodup_cons.1 (hq ▸ h.nodup q)
  have hkey := (h.head hq).2
  refine ⟨fun q' j => ?_, fun q' => ?_⟩
  · rcases eq_or_ne j i with rfl | hj
    · rcases eq_or_ne q' q with rfl | hq'
      · simp [hnd.1, hi]
      · rw [update_of_ne hq', h.mem_iff]
        simp [hi, hkey, Ne.symm hq']
    · have hiff : j ∈ update f q l q' ↔ j ∈ f q' := by
        rcases eq_or_ne q' q with rfl | hq'
        · simp [hq, hj]
        · rw [update_of_ne hq']
      rw [hiff, h.mem_iff, hon j hj]
      exact and_congr_right fun hj' => by rw [hk j hj hj']
  · rcases eq_or_ne q' q with rfl | hq'
    · rw [update_self]
      exact hnd.2
    · rw [update_of_ne hq']
      exact h.nodup q'

/-- A whole list is taken out. -/
theorem take (h : Filed f p k) (hon : ∀ j, r j ↔ p j ∧ k j ≠ q) :
    Filed (update f q []) r k := by
  refine ⟨fun q' j => ?_, fun q' => ?_⟩
  · rcases eq_or_ne q' q with rfl | hq'
    · rw [update_self, hon]
      simp
    · rw [update_of_ne hq', h.mem_iff, hon]
      exact ⟨fun ⟨h1, h2⟩ => ⟨⟨h1, h2 ▸ hq'⟩, h2⟩, fun ⟨h1, h2⟩ => ⟨h1.1, h2⟩⟩
  · rcases eq_or_ne q' q with rfl | hq'
    · rw [update_self]
      exact List.nodup_nil
    · rw [update_of_ne hq']
      exact h.nodup q'

end Filed

end MinStd
