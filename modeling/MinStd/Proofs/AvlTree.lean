import MinStd.Proofs.AvlTreeRecursion

/-!
# The tree over its calls

Between calls the nodes in use are those of a balanced search tree, whose root has no reverse link.
A search ends at the node of its key, and an iterator moves to the next node in order; so every
call returns, and does to the contents what it would do to a map.
-/

namespace MinStd.AvlTree

open BinaryTree BalancedTree Links

variable {ν κ β : Type*}

/-! ### Walks along the links -/

namespace Links

variable {s : Links ν} {d : Side} {a : ν} {p o : Option ν} {t u : BinaryTree ν} {n m : ℕ}

/-- Every node but the root hangs on one other, to which alone it links back. -/
theorem Rep.reverse (h : s.Rep p t) (ha : a ∈ toList t) (hp : p ≠ some a) :
    ∃ d, ∃ b ∈ toList t, s.child d b = some a ∧ s.reverse d a = some b
      ∧ s.reverse d.other a = none := by
  induction t generalizing p with
  | nil => simp at ha
  | node x t u iht ihu =>
    obtain ⟨rfl, -, ht, hu, hbt, hbu⟩ := h
    simp only [toList_node, List.mem_append, List.mem_cons] at ha ⊢
    rcases ha with ha | rfl | ha
    · by_cases hc : s.child .left x = some a
      · exact ⟨.left, x, .inr (.inl rfl), hc, hbt a hc⟩
      · obtain ⟨d, b, hb, h⟩ := iht ht ha hc
        exact ⟨d, b, .inl hb, h⟩
    · exact absurd rfl hp
    · by_cases hc : s.child .right x = some a
      · exact ⟨.right, x, .inr (.inl rfl), hc, hbu a hc⟩
      · obtain ⟨d, b, hb, h⟩ := ihu hu ha hc
        exact ⟨d, b, .inr (.inr hb), h⟩

/-- Around a node in order stand its subtrees. -/
theorem Rep.exists_subtrees (h : s.Rep p t) (ha : a ∈ toList t) :
    ∃ l m v u, toList t = (l ++ toList v) ++ a :: (toList u ++ m) ∧ s.Rep (s.child .left a) v
      ∧ s.Rep (s.child .right a) u ∧ v.height ≤ t.height ∧ u.height ≤ t.height := by
  induction t generalizing p with
  | nil => simp at ha
  | node x t u iht ihu =>
    obtain ⟨rfl, -, ht, hu, -⟩ := h
    simp only [toList_node, List.mem_append, List.mem_cons, height] at ha ⊢
    rcases ha with ha | rfl | ha
    · obtain ⟨l, m, v, w, he, hv, hw, hle, hle'⟩ := iht ht ha
      exact ⟨l, m ++ x :: toList u, v, w, by simp [he], hv, hw, by omega, by omega⟩
    · exact ⟨[], [], t, u, by simp, ht, hu, by omega, by omega⟩
    · obtain ⟨l, m, v, w, he, hv, hw, hle, hle'⟩ := ihu hu ha
      exact ⟨toList t ++ x :: l, m, v, w, by simp [he], hv, hw, by omega, by omega⟩

/-- The end of a list on the side `d`. -/
def endOf (d : Side) (l : List ν) : Option ν :=
  match d with
  | .left => l.head?
  | .right => l.getLast?

theorem endOf_join : endOf d (toList (join d a t u)) = (endOf d (toList t)).or (some a) := by
  cases d with
  | left => simp [endOf, join, List.head?_append]
  | right =>
    simp only [endOf, join, toList_node, List.getLast?_append, List.getLast?_cons]
    cases (toList t).getLast? <;> simp

theorem findEnd_spec (h : s.Rep p t) (hn : t.height ≤ n) :
    s.findEnd d n p = some (endOf d (toList t)) := by
  induction n generalizing p t with
  | zero =>
    cases t with
    | nil =>
      obtain rfl : p = none := h
      cases d <;> rfl
    | node a t u => simp at hn
  | succ n ih =>
    by_cases ht : t = nil
    · subst ht
      obtain rfl : p = none := h
      cases d <;> rfl
    · obtain ⟨a, u, v, rfl⟩ := BalancedTree.exists_join d ht
      obtain ⟨rfl, -, hover⟩ := rep_join.1 h
      rw [height_join] at hn
      have hu := hover.rep
      rw [findEnd, endOf_join]
      cases hc : s.child d a with
      | none =>
        rw [hc] at hu
        rw [hu.eq_nil]
        cases d <;> rfl
      | some b =>
        rw [hc] at hu
        have hne : toList u ≠ [] := List.ne_nil_of_mem hu.mem
        simp only [ih hu (by omega)]
        cases d with
        | left => simp [endOf, List.head?_eq_some_head hne]
        | right => simp [endOf, List.getLast?_eq_some_getLast hne]

theorem climb_mono (h : s.climb n a = some o) (hle : n ≤ m) : s.climb m a = some o := by
  induction n generalizing a m with
  | zero => simp [climb] at h
  | succ n ih =>
    obtain ⟨m, rfl⟩ := State.exists_fuel (show 0 < m by omega)
    rw [climb] at h ⊢
    cases hl : s.reverse .left a with
    | some b => simpa only [hl] using h
    | none =>
      simp only [hl] at h ⊢
      cases hr : s.reverse .right a with
      | none => simpa only [hr] using h
      | some b =>
        simp only [hr] at h ⊢
        exact ih h (by omega)

/-- From the last node of a subtree the way up goes on from the subtree's root. -/
theorem climb_spec {r : ν} (h : s.Rep (some r) t) (ha : a ∈ toList t) (hc : s.child .right a = none)
    (hr : s.climb n r = some o) :
    ∃ l m, toList t = l ++ a :: m ∧ s.climb (n + t.height) a = some (m.head?.or o) := by
  induction t generalizing r n o with
  | nil => simp at ha
  | node x t u iht ihu =>
    obtain ⟨hx, -, ht, hu, hbt, hbu⟩ := h
    obtain rfl := Option.some.inj hx
    simp only [toList_node, List.mem_append, List.mem_cons, height] at ha ⊢
    rcases ha with ha | rfl | ha
    · obtain ⟨b, hb⟩ : ∃ b, s.child .left r = some b :=
        Option.ne_none_iff_exists'.1 fun hn => by simp [(hn ▸ ht).eq_nil] at ha
      have hbr : s.climb 1 b = some (some r) := by
        rw [climb, (hbt b hb).1]
      obtain ⟨l, m, he, hcl⟩ := iht (hb ▸ ht) ha hbr
      refine ⟨l, m ++ r :: toList u, by simp [he], ?_⟩
      rw [climb_mono hcl (by omega), List.head?_append]
      cases m <;> rfl
    · rw [hc] at hu
      refine ⟨toList t, [], by simp [hu.eq_nil], climb_mono hr (by omega)⟩
    · obtain ⟨b, hb⟩ : ∃ b, s.child .right r = some b :=
        Option.ne_none_iff_exists'.1 fun hn => by simp [(hn ▸ hu).eq_nil] at ha
      have hbr : s.climb (n + 1) b = some o := by
        have hl : s.reverse .left b = none := (hbu b hb).2
        rw [climb, hl, (hbu b hb).1]
        exact hr
      obtain ⟨l, m, he, hcl⟩ := ihu (hb ▸ hu) ha hbr
      exact ⟨toList t ++ r :: l, m, by simp [he], climb_mono hcl (by omega)⟩

end Links

namespace State

variable [DecidableEq ν] [LinearOrder κ] {s : State ν κ β} {l : Links ν} {a b : ν}
  {p q : Option ν} {t u : BinaryTree ν} {k : κ} {v : β} {n : ℕ}

omit [DecidableEq ν] in
theorem findNode_spec (h : s.Rep p t) (hs : Sorted s.key t) (hn : t.height ≤ n) :
    ∃ q, s.findNode k n p = some q ∧ ∀ a, q = some a ↔ a ∈ toList t ∧ s.key a = k := by
  induction t generalizing p n with
  | nil =>
    obtain rfl : p = none := h
    exact ⟨none, by cases n <;> rfl, by simp⟩
  | node x t u iht ihu =>
    rw [height] at hn
    obtain ⟨n, rfl⟩ := exists_fuel (show 0 < n by omega)
    obtain ⟨rfl, -, ht, hu, -⟩ := h
    obtain ⟨hst, hsu, hxt, hxu⟩ := sorted_join.1 (show Sorted _ (join .left x t u) from hs)
    have hlt : ∀ a ∈ toList t, s.key a < s.key x := hxt
    have hgt : ∀ a ∈ toList u, s.key x < s.key a := hxu
    rw [findNode]
    split_ifs with he hlt'
    · refine ⟨some x, rfl, fun a => ?_⟩
      simp only [Option.some.injEq, toList_node, List.mem_append, List.mem_cons]
      refine ⟨fun hx => ⟨.inr (.inl hx.symm), hx ▸ he.symm⟩, ?_⟩
      rintro ⟨ha | rfl | ha, hk⟩
      · exact absurd (hk.trans he) (hlt a ha).ne
      · rfl
      · exact absurd (hk.trans he) (hgt a ha).ne'
    · obtain ⟨q, hq, hqa⟩ := ihu hu hsu (n := n) (by omega)
      refine ⟨q, hq, fun a => (hqa a).trans ?_⟩
      simp only [toList_node, List.mem_append, List.mem_cons]
      refine ⟨fun ha => ⟨.inr (.inr ha.1), ha.2⟩, ?_⟩
      rintro ⟨ha | rfl | ha, hk⟩
      · exact absurd (hk ▸ hlt') (hlt a ha).not_gt
      · exact absurd hk.symm he
      · exact ⟨ha, hk⟩
    · obtain ⟨q, hq, hqa⟩ := iht ht hst (n := n) (by omega)
      refine ⟨q, hq, fun a => (hqa a).trans ?_⟩
      simp only [toList_node, List.mem_append, List.mem_cons]
      refine ⟨fun ha => ⟨.inl ha.1, ha.2⟩, ?_⟩
      rintro ⟨ha | rfl | ha, hk⟩
      · exact ⟨ha, hk⟩
      · exact absurd hk.symm he
      · exact absurd (hk ▸ hgt a ha) hlt'

/-! ### The tree between calls -/

/-- The nodes in use are those of the tree, which is balanced and in order. -/
structure Holds (s : State ν κ β) (t : BinaryTree ν) : Prop where
  rep : s.Rep s.root t
  root : ∀ a, s.root = some a → ∀ d, s.reverse d a = none
  sorted : Sorted s.key t
  balanced : Balanced t
  size : s.size = t.numNodes
  live : ∀ a, a ∈ s.live ↔ a ∈ toList t

omit [DecidableEq ν] in
theorem Holds.height_lt (h : s.Holds t) : t.height < s.fuel := by
  have := t.height_le_numNodes
  rw [fuel, h.size]
  omega

omit [DecidableEq ν] in
theorem Empty.holds (h : s.Empty) : s.Holds nil := by
  obtain ⟨hr, hs, hl⟩ := h
  refine ⟨hr, fun a ha => ?_, List.Pairwise.nil, trivial, hs, fun a => ?_⟩
  · rw [hr] at ha
    cases ha
  · rw [hl]
    simp

omit [DecidableEq ν] in
theorem Holds.find (h : s.Holds t) (k : κ) :
    ∃ q, s.find k = some q ∧ ∀ a, q = some a ↔ a ∈ s.live ∧ s.key a = k := by
  obtain ⟨q, hq, hqa⟩ := findNode_spec (k := k) h.rep h.sorted h.height_lt.le
  refine ⟨q, hq, fun a => ?_⟩
  rw [h.live]
  exact hqa a

omit [DecidableEq ν] in
theorem Holds.key_inj (h : s.Holds t) (ha : a ∈ s.live) (hb : b ∈ s.live)
    (he : s.key a = s.key b) : a = b := by
  obtain ⟨q, -, hq⟩ := h.find (s.key b)
  exact Option.some.inj (((hq a).2 ⟨ha, he⟩).symm.trans ((hq b).2 ⟨hb, rfl⟩))

omit [LinearOrder κ] in
/-- The root of a call's result takes its place. -/
theorem setRoot_rep (h : s.Rep q t) (hn : (toList t).Nodup) :
    (s.setRoot q).Rep (s.setRoot q).root t ∧ (∀ a, (s.setRoot q).root = some a →
      ∀ d, (s.setRoot q).reverse d a = none) := by
  cases q with
  | none => exact ⟨h, nofun⟩
  | some a =>
    refine ⟨?_, fun b hb d => if_pos (Option.some.inj hb).symm⟩
    have hr : ∀ d b, some a ≠ some b → (s.clearReverse a).reverse d b = s.reverse d b :=
      fun d b hb => if_neg fun he => hb (congrArg some he.symm)
    exact Rep.congr (s := s.toLinks) hn (fun _ _ _ => rfl) (fun d b _ hb => hr d b hb)
      (fun _ _ => rfl) h

section

omit [LinearOrder κ]

@[simp] theorem setRoot_key : (s.setRoot q).key = s.key := by cases q <;> rfl

@[simp] theorem setRoot_value : (s.setRoot q).value = s.value := by cases q <;> rfl

@[simp] theorem setRoot_size : (s.setRoot q).size = s.size := by cases q <;> rfl

@[simp] theorem setRoot_live : (s.setRoot q).live = s.live := by cases q <;> rfl

end

/-! ### The calls -/

theorem Holds.insertValue_old (h : s.Holds t) (ha : a ∈ s.live) (hk : s.key a = k)
    (alloc : Option ν) : s.insertValue k v alloc = some (s, some a, false) := by
  obtain ⟨q, hq, hqa⟩ := h.find k
  obtain rfl := (hqa a).2 ⟨ha, hk⟩
  rw [insertValue, hq]
  rfl

theorem Holds.insertValue_none (h : s.Holds t) (hk : ∀ a ∈ s.live, s.key a ≠ k) :
    s.insertValue k v none = some (s, none, false) := by
  obtain ⟨q, hq, hqa⟩ := h.find k
  obtain rfl : q = none := Option.eq_none_iff_forall_ne_some.2 fun a ha =>
    hk a ((hqa a).1 ha).1 ((hqa a).1 ha).2
  rw [insertValue, hq, Option.bind_some, insertRecursive_none h.rep h.balanced h.height_lt]
  exact if_pos (.inr rfl)

/-- A new key is inserted with the node that the allocator returns. -/
theorem Holds.insertValue_new (h : s.Holds t) (hk : ∀ a ∈ s.live, s.key a ≠ k) (ha : a ∉ s.live) :
    ∃ s' t', s.insertValue k v (some a) = some (s', some a, true) ∧ s'.Holds t'
      ∧ s'.key = Function.update s.key a k ∧ s'.value = Function.update s.value a v
      ∧ s'.live = insert a s.live ∧ s'.size = s.size + 1 := by
  obtain ⟨q, hq, hqa⟩ := h.find k
  obtain rfl : q = none := Option.eq_none_iff_forall_ne_some.2 fun a ha =>
    hk a ((hqa a).1 ha).1 ((hqa a).1 ha).2
  have hat : a ∉ toList t := fun hat => ha ((h.live a).2 hat)
  have hkey : ∀ b ∈ toList t, (s.construct a k v).key b = s.key b := fun b hb =>
    construct_key_of_ne fun he => hat (he ▸ hb)
  have hs : Sorted (s.construct a k v).key t := by
    refine h.sorted.imp_of_mem fun hb hc hlt => ?_
    rw [hkey _ hb, hkey _ hc]
    exact hlt
  have hk' : ∀ b ∈ toList t, (s.construct a k v).key b ≠ k := fun b hb =>
    (hkey b hb).symm ▸ hk b ((h.live b).2 hb)
  have hka : (s.construct a k v).key a = k := construct_key_self
  have hk'' : ∀ b ∈ toList t, (s.construct a k v).key b ≠ (s.construct a k v).key a :=
    hka.symm ▸ hk'
  obtain ⟨l, b, hl, hrep, -⟩ := insertRecursive_spec hat h.rep hs h.balanced hk' h.height_lt
  have hs' := hs.insert hk''
  have hperm := perm_insert hs hk''
  obtain ⟨hrep', hroot⟩ := setRoot_rep (s := (s.construct a k v).withLinks l) hrep hs'.nodup
  set s' := ((s.construct a k v).withLinks l).setRoot (some b) with hset
  have hlive : s'.live = insert a s.live := rfl
  have hholds : s'.Holds (BalancedTree.insert (s.construct a k v).key a t) := by
    refine ⟨hrep', hroot, hs', (insert_spec h.balanced hk'').1, ?_, fun c => ?_⟩
    · have hsize : s'.size = s.size + 1 := rfl
      rw [hsize, ← length_toList, hperm.length_eq, List.length_cons, length_toList, h.size]
    · rw [hlive, Finset.mem_insert, hperm.mem_iff, List.mem_cons, h.live]
  obtain ⟨q, hq', hqa'⟩ := hholds.find k
  obtain rfl := (hqa' a).2 ⟨by simp [hlive], hka⟩
  refine ⟨s', _, ?_, hholds, rfl, rfl, hlive, rfl⟩
  have hne : ¬ ((some b : Option ν) = none ∨ ((s.construct a k v).withLinks l).size = s.size) := by
    rintro (he | he)
    · cases he
    · exact absurd he (Nat.succ_ne_self _)
  rw [insertValue, hq, Option.bind_some, hl, Option.bind_some, if_neg hne, ← hset, hq']
  rfl

theorem Holds.setRoot_self (h : s.Holds t) : s.setRoot s.root = s := by
  cases hr : s.root with
  | none =>
    rw [setRoot, ← hr]
  | some a =>
    have hc : s.clearReverse a = s.toLinks := by
      have he : (fun e b => if b = a then none else s.reverse e b) = s.reverse := by
        funext e b
        split_ifs with hb
        · exact (h.root b (hb ▸ hr) e).symm
        · rfl
      rw [clearReverse, he]
    rw [setRoot, hc, ← hr]

theorem Holds.eraseKey_none (h : s.Holds t) (hk : ∀ a ∈ s.live, s.key a ≠ k) :
    s.eraseKey k = some (s, 0) := by
  have hk' : ∀ b ∈ toList t, s.key b ≠ k := fun b hb => hk b ((h.live b).2 hb)
  rw [eraseKey, eraseRecursive_none h.rep h.balanced hk' h.height_lt, Option.map_some,
    h.setRoot_self, Nat.sub_self]

/-- The node of a key is erased, and no other is. -/
theorem Holds.eraseKey (h : s.Holds t) (ha : a ∈ s.live) :
    ∃ s', s.eraseKey (s.key a) = some (s', 1)
      ∧ s'.Holds (BalancedTree.erase s.key (s.key a) t) ∧ s'.key = s.key ∧ s'.value = s.value
      ∧ s'.live = s.live.erase a ∧ s'.size + 1 = s.size := by
  have hat := (h.live a).1 ha
  obtain ⟨l, q, hl, hrep, -⟩ := eraseRecursive_spec h.rep h.sorted h.balanced hat h.height_lt
  obtain ⟨xs, ys, he, he'⟩ := toList_erase h.sorted hat
  have hs' : Sorted s.key (BalancedTree.erase s.key (s.key a) t) := h.sorted.erase hat
  obtain ⟨hrep', hroot⟩ := setRoot_rep (s := (s.destroy a).withLinks l) hrep hs'.nodup
  have hsize : s.size = xs.length + ys.length + 1 := by
    rw [h.size, ← length_toList, he, List.length_append, List.length_cons, Nat.add_assoc]
  have hsub : s.size - (s.size - 1) = 1 := by omega
  refine ⟨((s.destroy a).withLinks l).setRoot q, ?_, ⟨hrep', hroot, ?_, (erase_spec _ h.balanced).1,
    ?_, fun b => ?_⟩, ?_, ?_, ?_, ?_⟩
  · rw [State.eraseKey, hl, Option.map_some]
    exact congrArg (fun n => some (_, n)) hsub
  · rw [setRoot_key]
    exact hs'
  · rw [setRoot_size, ← length_toList, he', List.length_append]
    show s.size - 1 = _
    omega
  · have hn := h.sorted.nodup
    rw [he, List.nodup_middle, List.nodup_cons] at hn
    rw [setRoot_live, he']
    show b ∈ s.live.erase a ↔ _
    rw [Finset.mem_erase, h.live, he, List.mem_append, List.mem_cons, List.mem_append]
    refine ⟨by tauto, fun hb => ⟨fun hba => hn.1 (hba ▸ List.mem_append.2 hb), by tauto⟩⟩
  · exact setRoot_key
  · exact setRoot_value
  · exact setRoot_live
  · rw [setRoot_size]
    show s.size - 1 + 1 = _
    omega

omit [DecidableEq ν] in
/-- An iterator moves to the next node in order. -/
theorem Holds.moveForward (h : s.Holds t) (ha : a ∈ s.live) :
    ∃ xs ys, toList t = xs ++ a :: ys ∧ s.moveForward (some a) = some ys.head? := by
  have hat := (h.live a).1 ha
  rw [State.moveForward]
  cases hr : s.child .right a with
  | some b =>
    obtain ⟨xs, ys, v, u, he, -, hu, -, hle⟩ := h.rep.exists_subtrees hat
    rw [hr] at hu
    have hlt := h.height_lt
    refine ⟨xs ++ toList v, toList u ++ ys, he, ?_⟩
    have hne : toList u ≠ [] := List.ne_nil_of_mem hu.mem
    simp only [findEnd_spec hu (show u.height ≤ s.fuel by omega)]
    rw [List.head?_append_of_ne_nil _ hne]
    rfl
  | none =>
    obtain ⟨r, hroot⟩ : ∃ r, s.root = some r :=
      Option.ne_none_iff_exists'.1 fun hn => by simp [(hn ▸ h.rep).eq_nil] at hat
    have hclimb : s.climb 1 r = some none := by
      rw [climb, h.root r hroot, h.root r hroot]
    obtain ⟨xs, ys, he, hc⟩ := climb_spec (hroot ▸ h.rep) hat hr hclimb
    refine ⟨xs, ys, he, ?_⟩
    have hlt := h.height_lt
    simp only [climb_mono hc (show 1 + t.height ≤ s.fuel by omega), Option.or_none]

theorem Holds.eraseAt (h : s.Holds t) (ha : a ∈ s.live) :
    ∃ s' xs ys, s.eraseAt (some a) = some (s', ys.head?) ∧ toList t = xs ++ a :: ys
      ∧ s.eraseKey (s.key a) = some (s', 1) := by
  obtain ⟨xs, ys, he, hm⟩ := h.moveForward ha
  obtain ⟨s', hs', -⟩ := h.eraseKey ha
  refine ⟨s', xs, ys, ?_, he, hs'⟩
  rw [State.eraseAt, hm, Option.bind_some, hs']
  rfl

theorem Holds.clearLoop (h : s.Holds t) (hn : s.size < n) :
    ∃ s', clearLoop n s = some s' ∧ s'.Holds nil := by
  induction n generalizing s t with
  | zero => omega
  | succ n ih =>
    rw [State.clearLoop]
    split_ifs with hs
    · have ht : t = nil := by
        cases t with
        | nil => rfl
        | node a t u =>
          have := h.size
          simp only [numNodes] at this
          omega
      exact ⟨s, rfl, ht ▸ h⟩
    · rw [findEnd_spec h.rep h.height_lt.le]
      have hne : toList t ≠ [] := by
        intro he
        have := h.size
        rw [← length_toList, he, List.length_nil] at this
        omega
      have hlast : endOf .right (toList t) = some ((toList t).getLast hne) :=
        List.getLast?_eq_some_getLast hne
      have hmem : (toList t).getLast hne ∈ s.live := (h.live _).2 (List.getLast_mem hne)
      obtain ⟨s₁, xs, ys, hs₁, -, he⟩ := h.eraseAt hmem
      obtain ⟨s₂, hs₂, h₂, -, -, -, hsize⟩ := h.eraseKey hmem
      obtain rfl : s₁ = s₂ := congrArg Prod.fst (Option.some.inj (he.symm.trans hs₂))
      obtain ⟨s', hs', h'⟩ := ih h₂ (by omega)
      refine ⟨s', ?_, h'⟩
      rw [hlast, Option.bind_some, hs₁]
      exact hs'

theorem Holds.clear (h : s.Holds t) : ∃ s', s.clear = some s' ∧ s'.Holds nil :=
  h.clearLoop (Nat.lt_succ_self _)

/-! ### Contents -/

/-- The nodes in use hold what the map does. -/
def Maps (s : State ν κ β) (m : κ → Option β) : Prop :=
  ∀ k v, m k = some v ↔ ∃ a ∈ s.live, s.key a = k ∧ s.value a = v

variable {s' : State ν κ β} {m : κ → Option β}

omit [DecidableEq ν] [LinearOrder κ] in
theorem Maps.eq_none_iff (h : s.Maps m) : m k = none ↔ ∀ a ∈ s.live, s.key a ≠ k := by
  refine ⟨fun hm a ha hk => ?_, fun hk => Option.eq_none_iff_forall_ne_some.2 fun v hv => ?_⟩
  · have hs := (h k _).2 ⟨a, ha, hk, rfl⟩
    rw [hm] at hs
    cases hs
  · obtain ⟨a, ha, hak, -⟩ := (h k v).1 hv
    exact hk a ha hak

theorem Maps.insert (h : s.Maps m) (ha : a ∉ s.live) (hk : ∀ b ∈ s.live, s.key b ≠ k)
    (hkey : s'.key = Function.update s.key a k) (hval : s'.value = Function.update s.value a v)
    (hlive : s'.live = insert a s.live) : s'.Maps (Function.update m k (some v)) := by
  intro k' w
  have hb : ∀ b ∈ s.live, b ≠ a := fun b hb hba => ha (hba ▸ hb)
  simp only [hlive, Finset.mem_insert, exists_eq_or_imp, hkey, hval, Function.update_self]
  by_cases hk' : k' = k
  · subst hk'
    rw [Function.update_self]
    refine ⟨fun he => .inl ⟨rfl, Option.some.inj he⟩, ?_⟩
    rintro (⟨-, rfl⟩ | ⟨b, hbl, hbk, -⟩)
    · rfl
    · rw [Function.update_of_ne (hb b hbl)] at hbk
      exact absurd hbk (hk b hbl)
  · rw [Function.update_of_ne hk', h]
    constructor
    · rintro ⟨b, hbl, hbk, hbv⟩
      refine .inr ⟨b, hbl, ?_, ?_⟩
      · rw [Function.update_of_ne (hb b hbl), hbk]
      · rw [Function.update_of_ne (hb b hbl), hbv]
    · rintro (⟨he, -⟩ | ⟨b, hbl, hbk, hbv⟩)
      · exact absurd he.symm hk'
      · rw [Function.update_of_ne (hb b hbl)] at hbk hbv
        exact ⟨b, hbl, hbk, hbv⟩

theorem Maps.erase (h : s.Maps m) (hinj : ∀ b ∈ s.live, s.key b = s.key a → b = a)
    (hkey : s'.key = s.key) (hval : s'.value = s.value) (hlive : s'.live = s.live.erase a) :
    s'.Maps (Function.update m (s.key a) none) := by
  intro k' w
  simp only [hlive, Finset.mem_erase, hkey, hval]
  by_cases hk' : k' = s.key a
  · subst hk'
    rw [Function.update_self]
    refine ⟨nofun, ?_⟩
    rintro ⟨b, ⟨hne, hb⟩, hbk, -⟩
    exact absurd (hinj b hb hbk) hne
  · rw [Function.update_of_ne hk', h]
    constructor
    · rintro ⟨b, hb, rfl, hbv⟩
      exact ⟨b, ⟨fun hba => hk' (hba ▸ rfl), hb⟩, rfl, hbv⟩
    · rintro ⟨b, ⟨-, hb⟩, hbk, hbv⟩
      exact ⟨b, hb, hbk, hbv⟩

/-! ### Runs -/

/-- The tree is a balanced search tree linked both ways, and holds what the map does. -/
structure Correct (s : State ν κ β) (m : κ → Option β) : Prop where
  tree : ∃ t, s.Holds t
  reverse : ∀ a ∈ s.live, s.root ≠ some a → ∃ d, ∃ b ∈ s.live,
    s.child d b = some a ∧ s.reverse d a = some b ∧ s.reverse d.other a = none
  contents : s.Maps m

/-- The iterator is at the first key after `k`, or at the end. -/
def IsNext (s : State ν κ β) (k : κ) (q : Option ν) : Prop :=
  (∀ b, q = some b → b ∈ s.live ∧ k < s.key b)
    ∧ ∀ c ∈ s.live, k < s.key c → ∃ b, q = some b ∧ s.key b ≤ s.key c

/-- What a call returns, and when it changes nothing. -/
def Answered (s : State ν κ β) (m : κ → Option β) : Call ν κ β → State ν κ β → Answer ν → Prop
  | .insert k _ alloc, s', r =>
    if m k ≠ none then s' = s ∧ ∃ a ∈ s.live, s.key a = k ∧ r = .inserted (some a) false
    else if alloc = none then s' = s ∧ r = .inserted none false
    else r = .inserted alloc true
  | .erase k, s', r => if m k = none then s' = s ∧ r = .erased 0 else r = .erased 1
  | .eraseAt none, s', r => s' = s ∧ r = .next none
  | .eraseAt (some a), s', r => ∃ q, r = .next q ∧ s'.IsNext (s.key a) q
  | .clear, _, r => r = .cleared

theorem Holds.isNext (h : s.Holds t) {xs ys : List ν} (he : toList t = xs ++ a :: ys)
    (hkey : s'.key = s.key) (hlive : s'.live = s.live.erase a) : s'.IsNext (s.key a) ys.head? := by
  have hs := h.sorted
  rw [Sorted, he, List.pairwise_append, List.pairwise_cons] at hs
  obtain ⟨-, ⟨hys, hy⟩, hxy⟩ := hs
  have hlive' : ∀ c, c ∈ s'.live ↔ c ≠ a ∧ (c ∈ xs ∨ c = a ∨ c ∈ ys) := by
    intro c
    rw [hlive, Finset.mem_erase, h.live, he, List.mem_append, List.mem_cons]
  rw [IsNext, hkey]
  refine ⟨fun b hb => ?_, fun c hc hlt => ?_⟩
  · have hb := List.mem_of_head? hb
    exact ⟨(hlive' b).2 ⟨fun hba => lt_irrefl _ (hba ▸ hys b hb), .inr (.inr hb)⟩, hys b hb⟩
  · obtain ⟨hne, hc | hc | hc⟩ := (hlive' c).1 hc
    · exact absurd hlt (hxy c hc a List.mem_cons_self).not_gt
    · exact absurd hc hne
    · cases ys with
      | nil => cases hc
      | cons b ys =>
        refine ⟨b, rfl, ?_⟩
        rcases List.mem_cons.1 hc with rfl | hc
        · exact le_rfl
        · exact (List.rel_of_pairwise_cons hy hc).le

/-- A call returns, and keeps the tree and its map. -/
theorem Holds.call (h : s.Holds t) (hm : s.Maps m) {c : Call ν κ β} (hc : c.Legal s) :
    ∃ s' r t', s.call c = some (s', r) ∧ s'.Holds t' ∧ s'.Maps (c.onMap s m)
      ∧ s.Answered m c s' r := by
  cases c with
  | insert k v alloc =>
    rw [State.call, Call.onMap]
    by_cases hk : m k = none
    · have hk' := hm.eq_none_iff.1 hk
      cases alloc with
      | none =>
        refine ⟨s, .inserted none false, t, ?_, h, ?_, ?_⟩
        · rw [h.insertValue_none hk']
          rfl
        · rw [if_neg (by simp)]
          exact hm
        · rw [Answered, if_neg (by simp [hk]), if_pos rfl]
          exact ⟨rfl, rfl⟩
      | some a =>
        have ha : a ∉ s.live := hc a rfl
        obtain ⟨s', t', hs', h', hkey, hval, hlive, -⟩ := h.insertValue_new (v := v) hk' ha
        refine ⟨s', .inserted (some a) true, t', ?_, h', ?_, ?_⟩
        · rw [hs']
          rfl
        · rw [if_pos ⟨hk, nofun⟩]
          exact hm.insert ha hk' hkey hval hlive
        · rw [Answered, if_neg (by simp [hk]), if_neg nofun]
    · obtain ⟨w, hw⟩ := Option.ne_none_iff_exists'.1 hk
      obtain ⟨a, ha, hak, -⟩ := (hm k w).1 hw
      refine ⟨s, .inserted (some a) false, t, ?_, h, ?_, ?_⟩
      · rw [h.insertValue_old ha hak]
        rfl
      · rw [if_neg fun he => hk he.1]
        exact hm
      · rw [Answered, if_pos hk]
        exact ⟨rfl, a, ha, hak, rfl⟩
  | erase k =>
    rw [State.call, Call.onMap]
    by_cases hk : m k = none
    · refine ⟨s, .erased 0, t, ?_, h, ?_, ?_⟩
      · rw [h.eraseKey_none (hm.eq_none_iff.1 hk)]
        rfl
      · rw [← hk, Function.update_eq_self]
        exact hm
      · rw [Answered, if_pos hk]
        exact ⟨rfl, rfl⟩
    · obtain ⟨w, hw⟩ := Option.ne_none_iff_exists'.1 hk
      obtain ⟨a, ha, rfl, -⟩ := (hm k w).1 hw
      obtain ⟨s', hs', h', hkey, hval, hlive, -⟩ := h.eraseKey ha
      refine ⟨s', .erased 1, _, ?_, h', ?_, ?_⟩
      · rw [hs']
        rfl
      · exact hm.erase (fun b hb he => h.key_inj hb ha he) hkey hval hlive
      · rw [Answered, if_neg hk]
  | eraseAt p =>
    cases p with
    | none => exact ⟨s, .next none, t, rfl, h, hm, rfl, rfl⟩
    | some a =>
      have ha : a ∈ s.live := hc a rfl
      obtain ⟨s', xs, ys, hs', he, hs₁⟩ := h.eraseAt ha
      obtain ⟨s₂, hs₂, h', hkey, hval, hlive, -⟩ := h.eraseKey ha
      obtain rfl : s' = s₂ := congrArg Prod.fst (Option.some.inj (hs₁.symm.trans hs₂))
      refine ⟨s', .next ys.head?, _, ?_, h', ?_, ys.head?, rfl, h.isNext he hkey hlive⟩
      · rw [State.call, hs']
        rfl
      · exact hm.erase (fun b hb he => h.key_inj hb ha he) hkey hval hlive
  | clear =>
    obtain ⟨s', hs', h'⟩ := h.clear
    refine ⟨s', .cleared, nil, ?_, h', fun k v => ?_, rfl⟩
    · rw [State.call, hs']
      rfl
    · simp [Call.onMap, h'.live]

end State

open State

variable [DecidableEq ν] [LinearOrder κ] {s : State ν κ β} {m : κ → Option β}

theorem holds_of_run (h : Run s m) : ∃ t, s.Holds t ∧ s.Maps m := by
  induction h with
  | start h =>
    refine ⟨nil, h.holds, fun k v => ?_⟩
    simp [h.2.2]
  | call _ hc hs ih =>
    obtain ⟨t, ht, hm⟩ := ih
    obtain ⟨s', r, t', hs', h', hm', -⟩ := ht.call hm hc
    obtain ⟨rfl, -⟩ := Prod.mk.inj (Option.some.inj (hs'.symm.trans hs))
    exact ⟨t', h', hm'⟩

/-- Whatever the calls and whichever allocations fail, the tree is a balanced search tree linked
both ways that holds what a map would, and every further call returns what it should. -/
theorem search_tree_of_run (h : Run s m) : s.Correct m ∧ ∀ c : Call ν κ β, c.Legal s →
    ∃ s' r, s.call c = some (s', r) ∧ s.Answered m c s' r := by
  obtain ⟨t, ht, hm⟩ := holds_of_run h
  refine ⟨⟨⟨t, ht⟩, fun a ha hr => ?_, hm⟩, fun c hc => ?_⟩
  · obtain ⟨d, b, hb, hd⟩ := ht.rep.reverse ((ht.live a).1 ha) hr
    exact ⟨d, b, (ht.live b).2 hb, hd⟩
  · obtain ⟨s', r, -, hs', -, -, ha⟩ := ht.call hm hc
    exact ⟨s', r, hs', ha⟩

/-- A tree without nodes. -/
def noNodes : State ℕ ℕ ℕ where
  child := fun _ _ => none
  reverse := fun _ _ => none
  depth := fun _ => 0
  key := fun _ => 0
  value := fun _ => 0
  root := none
  size := 0
  live := ∅

/-- Three keys in order, which a rotation balances, one failed insertion, and the root erased. -/
theorem search_tree_of_run_rotated : ∃ (s : State ℕ ℕ ℕ) (m : ℕ → Option ℕ), s.root = some 3
    ∧ s.child .left 3 = some 1 ∧ s.Correct m ∧ m 30 = some 300 ∧ m 20 = none ∧ m 40 = none := by
  have h₀ : Run noNodes fun _ => none := .start ⟨rfl, rfl, rfl⟩
  have h₁ := h₀.call (c := .insert 10 100 (some 1)) (by rintro a -; exact nofun) rfl
  have h₂ := h₁.call (c := .insert 20 200 (some 2)) (by rintro a ⟨⟩; decide) rfl
  have h₃ := h₂.call (c := .insert 30 300 (some 3)) (by rintro a ⟨⟩; decide) rfl
  have h₄ := h₃.call (c := .insert 40 400 none) (by rintro a ⟨⟩) rfl
  have h₅ := h₄.call (c := .erase 20) trivial rfl
  exact ⟨_, _, rfl, rfl, (search_tree_of_run h₅).1, rfl, rfl, rfl⟩

end MinStd.AvlTree
