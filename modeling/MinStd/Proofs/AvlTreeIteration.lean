import Mathlib.Data.Finset.Card
import MinStd.Proofs.AvlTree

/-!
# Iteration over the tree

From a node an iterator moves to its neighbours in order, up the reverse links where the node has no
subtree on that side.  So it visits every node once, in either direction, and an erased node is
missed by the others' iterators.
-/

namespace MinStd.AvlTree

open BinaryTree BalancedTree Links

variable {ν κ β : Type*}

namespace Links

variable {s : Links ν} {a : ν} {p o : Option ν} {t : BinaryTree ν} {n m : ℕ}

theorem climbBack_mono (h : s.climbBack n a = some o) (hle : n ≤ m) : s.climbBack m a = some o := by
  induction n generalizing a m with
  | zero => simp [climbBack] at h
  | succ n ih =>
    obtain ⟨m, rfl⟩ := State.exists_fuel (show 0 < m by omega)
    rw [climbBack] at h ⊢
    cases hl : s.reverse .left a with
    | none => simpa only [hl] using h
    | some b =>
      simp only [hl] at h ⊢
      exact ih h (by omega)

/-- From the first node of a subtree the way up goes on from the subtree's root. -/
theorem climbBack_spec {r : ν} (h : s.Rep (some r) t) (ha : a ∈ toList t)
    (hc : s.child .left a = none) (hr : s.climbBack n r = some o) :
    ∃ l m, toList t = l ++ a :: m
      ∧ s.climbBack (n + t.height) a = some (l.getLast?.or o) := by
  induction t generalizing r n o with
  | nil => simp at ha
  | node x t u iht ihu =>
    obtain ⟨hx, -, ht, hu, hbt, hbu⟩ := h
    obtain rfl := Option.some.inj hx
    simp only [toList_node, List.mem_append, List.mem_cons, height] at ha ⊢
    rcases ha with ha | rfl | ha
    · obtain ⟨b, hb⟩ : ∃ b, s.child .left r = some b :=
        Option.ne_none_iff_exists'.1 fun hn => by simp [(hn ▸ ht).eq_nil] at ha
      have hbr : s.climbBack (n + 1) b = some o := by
        rw [climbBack, (hbt b hb).1]
        exact hr
      obtain ⟨l, m, he, hcl⟩ := iht (hb ▸ ht) ha hbr
      exact ⟨l, m ++ r :: toList u, by simp [he], climbBack_mono hcl (by omega)⟩
    · rw [hc] at ht
      refine ⟨[], toList u, by simp [ht.eq_nil], climbBack_mono hr (by omega)⟩
    · obtain ⟨b, hb⟩ : ∃ b, s.child .right r = some b :=
        Option.ne_none_iff_exists'.1 fun hn => by simp [(hn ▸ hu).eq_nil] at ha
      have hbr : s.climbBack 1 b = some (some r) := by
        have hl : s.reverse .left b = none := (hbu b hb).2
        rw [climbBack, hl, (hbu b hb).1]
      obtain ⟨l, m, he, hcl⟩ := ihu (hb ▸ hu) ha hbr
      refine ⟨toList t ++ r :: l, m, by simp [he], ?_⟩
      rw [climbBack_mono hcl (by omega), List.getLast?_append, List.getLast?_cons]
      cases l.getLast? <;> rfl

end Links

namespace State

variable [LinearOrder κ] {s : State ν κ β} {a b : ν} {t : BinaryTree ν} {xs ys : List ν}

omit [LinearOrder κ] in
theorem split_unique {l₁ l₂ m₁ m₂ : List ν} (hn : (l₁ ++ a :: m₁).Nodup)
    (he : l₁ ++ a :: m₁ = l₂ ++ a :: m₂) : l₁ = l₂ ∧ m₁ = m₂ := by
  induction l₁ generalizing l₂ with
  | nil =>
    cases l₂ with
    | nil => exact ⟨rfl, (List.cons.inj he).2⟩
    | cons c l₂ =>
      obtain ⟨rfl, rfl⟩ := List.cons.inj he
      exact absurd (List.mem_append_right l₂ List.mem_cons_self) (List.nodup_cons.1 hn).1
  | cons c l₁ ih =>
    cases l₂ with
    | nil =>
      obtain ⟨rfl, -⟩ := List.cons.inj he
      exact absurd (List.mem_append_right l₁ List.mem_cons_self) (List.nodup_cons.1 hn).1
    | cons d l₂ =>
      obtain ⟨rfl, htail⟩ := List.cons.inj he
      obtain ⟨rfl, rfl⟩ := ih (List.nodup_cons.1 hn).2 htail
      exact ⟨rfl, rfl⟩

/-- A step forward leads to the next node in order. -/
theorem Holds.forward (h : s.Holds t) (he : toList t = xs ++ a :: ys) :
    s.moveForward (some a) = some ys.head? := by
  have ha : a ∈ s.live := (h.live a).2 (by rw [he]; simp)
  obtain ⟨xs', ys', he', hm⟩ := h.moveForward ha
  obtain ⟨-, rfl⟩ := split_unique (he ▸ h.sorted.nodup) (he.symm.trans he')
  exact hm

/-- A step back leads to the node before. -/
theorem Holds.backward (h : s.Holds t) (he : toList t = xs ++ a :: ys) :
    s.moveBackward (some a) = some xs.getLast? := by
  have hat : a ∈ toList t := by
    rw [he]
    simp
  have hlt := h.height_lt
  rw [moveBackward]
  cases hl : s.child .left a with
  | some b =>
    obtain ⟨l, m, v, u, he', hv, -, hle, -⟩ := h.rep.exists_subtrees hat
    obtain ⟨rfl, -⟩ := split_unique (he ▸ h.sorted.nodup) (he.symm.trans he')
    rw [hl] at hv
    have hne : toList v ≠ [] := List.ne_nil_of_mem hv.mem
    simp only [findEnd_spec hv (show v.height ≤ s.fuel by omega)]
    rw [List.getLast?_append_of_ne_nil _ hne]
    rfl
  | none =>
    obtain ⟨r, hroot⟩ : ∃ r, s.root = some r :=
      Option.ne_none_iff_exists'.1 fun hn => by simp [(hn ▸ h.rep).eq_nil] at hat
    have hclimb : s.climbBack 1 r = some none := by
      rw [climbBack, h.root r hroot, h.root r hroot]
    obtain ⟨l, m, he', hc⟩ := climbBack_spec (hroot ▸ h.rep) hat hl hclimb
    obtain ⟨rfl, -⟩ := split_unique (he ▸ h.sorted.nodup) (he.symm.trans he')
    have hc := climbBack_mono hc (show 1 + t.height ≤ s.fuel + 1 by omega)
    rw [Option.or_none, climbBack] at hc
    cases hrr : s.reverse .right a with
    | some b =>
      have hrl : s.reverse .left a = none := by
        by_cases hra : s.root = some a
        · exact h.root a hra .left
        · obtain ⟨d, c, -, -, hd, hdo⟩ := h.rep.reverse hat hra
          cases d with
          | left => exact absurd (hdo.symm.trans hrr) nofun
          | right => exact hdo
      simpa only [hrl, hrr] using hc
    | none =>
      cases hrl : s.reverse .left a with
      | none => simpa only [hrl, hrr] using hc
      | some c => simpa only [hrl] using hc

/-! ### Visits -/

theorem visit_forward (h : s.Holds t) (xs ys : List ν) (he : toList t = xs ++ ys) :
    visit s.moveForward ys.length ys.head? = some ys := by
  induction ys generalizing xs with
  | nil => rfl
  | cons a ys ih =>
    rw [List.length_cons, List.head?_cons, visit, h.forward he, Option.bind_some,
      ih (xs ++ [a]) (by simp [he])]
    rfl

theorem visit_backward (h : s.Holds t) (xs ys : List ν) (he : toList t = xs ++ ys) :
    visit s.moveBackward xs.length xs.getLast? = some xs.reverse := by
  induction xs using List.reverseRecOn generalizing ys with
  | nil => rfl
  | append_singleton xs a ih =>
    rw [List.append_assoc] at he
    rw [List.length_append, List.getLast?_concat, List.length_singleton, visit, h.backward he,
      Option.bind_some, ih _ he, List.reverse_append]
    rfl

/-- The nodes in order, and how the iterators go over them. -/
structure Iterates (s : State ν κ β) (l : List ν) : Prop where
  nodup : l.Nodup
  mem : ∀ a, a ∈ l ↔ a ∈ s.live
  increasing : l.Pairwise fun a b => s.key a < s.key b
  beginning : s.beginning = some l.head?
  forward : visit s.moveForward l.length l.head? = some l
  end_back : s.moveBackward none = some l.getLast?
  backward : visit s.moveBackward l.length l.getLast? = some l.reverse
  next : ∀ xs a ys, l = xs ++ a :: ys →
    s.moveForward (some a) = some ys.head? ∧ s.moveBackward (some a) = some xs.getLast?
  inverse : ∀ a ∈ l, ∀ b ∈ l,
    s.moveForward (some a) = some (some b) ↔ s.moveBackward (some b) = some (some a)

theorem Holds.iterates (h : s.Holds t) : s.Iterates (toList t) := by
  have hn := h.sorted.nodup
  refine ⟨hn, fun a => (h.live a).symm, h.sorted, ?_, visit_forward h [] _ rfl, ?_,
    visit_backward h _ [] (List.append_nil _).symm,
    fun xs a ys he => ⟨h.forward he, h.backward he⟩, fun a ha b hb => ?_⟩
  · exact findEnd_spec h.rep h.height_lt.le
  · exact findEnd_spec h.rep h.height_lt.le
  · obtain ⟨l, m, hla⟩ := List.append_of_mem ha
    obtain ⟨l', m', hlb⟩ := List.append_of_mem hb
    rw [h.forward hla, h.backward hlb]
    constructor
    · intro he
      obtain ⟨m₁, rfl⟩ := List.head?_eq_some_iff.1 (Option.some.inj he)
      have hlb' : toList t = (l ++ [a]) ++ b :: m₁ := by
        rw [hla]
        simp
      obtain ⟨rfl, -⟩ := split_unique (hlb' ▸ hn) (hlb'.symm.trans hlb)
      rw [List.getLast?_concat]
    · intro he
      obtain ⟨l₁, rfl⟩ := List.getLast?_eq_some_iff.1 (Option.some.inj he)
      have hla' : toList t = l₁ ++ a :: (b :: m') := by
        rw [hlb]
        simp
      obtain ⟨-, rfl⟩ := split_unique (hla' ▸ hn) (hla'.symm.trans hla)
      rfl

variable [DecidableEq ν] {s' : State ν κ β} {m : κ → Option β}

/-- An erased node is the only one to go, and its iterator's successor is returned. -/
theorem Holds.eraseAt_iterates (h : s.Holds t) (hm : s.Maps m) (he : toList t = xs ++ a :: ys) :
    ∃ s', s.eraseAt (some a) = some (s', ys.head?) ∧ s'.Iterates (xs ++ ys)
      ∧ s'.live = s.live.erase a ∧ s'.key = s.key ∧ s'.value = s.value
      ∧ s'.Maps (Function.update m (s.key a) none) := by
  have hn := h.sorted.nodup
  have ha : a ∈ s.live := (h.live a).2 (by rw [he]; simp)
  obtain ⟨s', xs', ys', hs', he', hs₁⟩ := h.eraseAt ha
  obtain ⟨s₂, hs₂, h', hkey, hval, hlive, -⟩ := h.eraseKey ha
  obtain rfl : s' = s₂ := congrArg Prod.fst (Option.some.inj (hs₁.symm.trans hs₂))
  obtain ⟨rfl, rfl⟩ := split_unique (he ▸ hn) (he.symm.trans he')
  obtain ⟨l, m, hl, hl'⟩ := toList_erase h.sorted ((h.live a).1 ha)
  obtain ⟨rfl, rfl⟩ := split_unique (he ▸ hn) (he.symm.trans hl)
  refine ⟨s', hs', ?_, hlive, hkey, hval,
    hm.erase (fun b hb heq => h.key_inj hb ha heq) hkey hval hlive⟩
  rw [← hl']
  exact h'.iterates

end State

open State

variable [DecidableEq ν] [LinearOrder κ] {s : State ν κ β} {m : κ → Option β}

/-- In a tree that any calls have left, iterators visit the nodes in the order of their keys and
back, and an erased node goes alone. -/
theorem iterates_of_run (h : Run s m) : ∃ l, s.Iterates l ∧ ∀ xs a ys, l = xs ++ a :: ys →
    ∃ s', s.eraseAt (some a) = some (s', ys.head?) ∧ s'.Iterates (xs ++ ys)
      ∧ s'.live = s.live.erase a ∧ s'.key = s.key ∧ s'.value = s.value
      ∧ s'.Maps (Function.update m (s.key a) none) := by
  obtain ⟨t, ht, hm⟩ := holds_of_run h
  exact ⟨toList t, ht.iterates, fun xs a ys he => ht.eraseAt_iterates hm he⟩

/-- The four nodes are visited in order, before one is erased and after. -/
theorem iterates_of_run_four : ∃ (s s' : State ℕ ℕ ℕ), s.Iterates [4, 1, 3, 2]
    ∧ s.eraseAt (some 3) = some (s', some 2) ∧ s'.Iterates [4, 1, 2] := by
  have h₀ : Run noNodes fun _ => none := .start ⟨rfl, rfl, rfl⟩
  have h₁ := h₀.call (c := .insert 20 200 (some 1)) (by rintro a -; exact nofun) rfl
  have h₂ := h₁.call (c := .insert 40 400 (some 2)) (by rintro a ⟨⟩; decide) rfl
  have h₃ := h₂.call (c := .insert 30 300 (some 3)) (by rintro a ⟨⟩; decide) rfl
  have h₄ := h₃.call (c := .insert 10 100 (some 4)) (by rintro a ⟨⟩; decide) rfl
  obtain ⟨l, hl, herase⟩ := iterates_of_run h₄
  have hlen : l.length = 4 := by
    rw [← List.toFinset_card_of_nodup hl.nodup,
      Finset.ext fun a => List.mem_toFinset.trans (hl.mem a)]
    rfl
  have hhead : l.head? = some 4 := Option.some.inj (hl.beginning.symm.trans rfl)
  have hvisit := hl.forward
  rw [hlen, hhead] at hvisit
  obtain rfl : l = [4, 1, 3, 2] := Option.some.inj (hvisit.symm.trans rfl)
  obtain ⟨s', hs', hl', -⟩ := herase [4, 1] 3 [2] rfl
  exact ⟨_, s', hl, hs', hl'⟩

end MinStd.AvlTree
