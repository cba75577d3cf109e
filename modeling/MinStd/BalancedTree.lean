import Mathlib.Algebra.Order.Group.Nat
import Mathlib.Data.List.Nodup
import Mathlib.Data.Tree.Basic
import MinStd.Side

/-!
# Balanced search trees

Binary trees whose two sides never differ in height by more than one, and the operations that keep
them so: a side that has become too high is lifted by one rotation or two.  What is said of one side
is said of the other, so a node is put together from a side, the subtree on it and the other
subtree.  The nodes in order are a list, on which insertion and removal are those of a sorted list.
-/

namespace MinStd

namespace BalancedTree

open BinaryTree

variable {α κ : Type*} {d : Side} {x y z : α} {t u v w l r : BinaryTree α}

/-- The tree with `t` on the side `d` and `u` on the other. -/
def join : Side → α → BinaryTree α → BinaryTree α → BinaryTree α
  | .left, x, t, u => node x t u
  | .right, x, t, u => node x u t

theorem join_other (d : Side) (x : α) (t u : BinaryTree α) : join d.other x t u = join d x u t := by
  cases d <;> rfl

/-- Every node has a subtree on each side. -/
theorem exists_join (d : Side) (h : t ≠ nil) : ∃ x u v, t = join d x u v := by
  cases t with
  | nil => exact absurd rfl h
  | node x l r =>
    cases d with
    | left => exact ⟨x, l, r, rfl⟩
    | right => exact ⟨x, r, l, rfl⟩

@[simp] theorem height_join : (join d x t u).height = max t.height u.height + 1 := by
  cases d with
  | left => rfl
  | right => simp [join, max_comm]

/-- The nodes in order. -/
def toList : BinaryTree α → List α
  | nil => []
  | node x l r => toList l ++ x :: toList r

@[simp] theorem toList_nil : toList (nil : BinaryTree α) = [] := rfl

@[simp] theorem toList_node : toList (node x l r) = toList l ++ x :: toList r := rfl

@[simp] theorem mem_join {a : α} :
    a ∈ toList (join d x t u) ↔ a = x ∨ a ∈ toList t ∨ a ∈ toList u := by
  cases d <;> simp only [join, toList_node, List.mem_append, List.mem_cons] <;> tauto

theorem length_toList (t : BinaryTree α) : (toList t).length = t.numNodes := by
  induction t with
  | nil => rfl
  | node x l r hl hr => simp [hl, hr, Nat.add_assoc]

theorem nodup_join : (toList (join d x t u)).Nodup ↔ x ∉ toList t ∧ x ∉ toList u
    ∧ (toList t).Nodup ∧ (toList u).Nodup ∧ (toList t).Disjoint (toList u) := by
  have h : ∀ l m : List α, (l ++ x :: m).Nodup ↔
      x ∉ l ∧ x ∉ m ∧ l.Nodup ∧ m.Nodup ∧ l.Disjoint m := by
    intro l m
    simp only [List.nodup_append', List.nodup_cons, List.disjoint_cons_right]
    tauto
  cases d with
  | left => exact h _ _
  | right =>
    refine (h _ _).trans ⟨fun ⟨h₁, h₂, h₃, h₄, h₅⟩ => ⟨h₂, h₁, h₄, h₃, ?_⟩,
      fun ⟨h₁, h₂, h₃, h₄, h₅⟩ => ⟨h₂, h₁, h₄, h₃, ?_⟩⟩
    · exact fun _ ht hu => h₅ hu ht
    · exact fun _ hu ht => h₅ ht hu

/-- The heights of a node's sides differ by one at most. -/
def Balanced : BinaryTree α → Prop
  | nil => True
  | node _ l r => Balanced l ∧ Balanced r ∧ l.height ≤ r.height + 1 ∧ r.height ≤ l.height + 1

theorem balanced_join : Balanced (join d x t u) ↔ Balanced t ∧ Balanced u
    ∧ t.height ≤ u.height + 1 ∧ u.height ≤ t.height + 1 := by
  cases d with
  | left => exact Iff.rfl
  | right =>
    simp only [join, Balanced]
    tauto

/-! ### Rotations -/

/-- The subtree on the side `d` is lifted: its root becomes the root. -/
def rotate (d : Side) (x : α) : BinaryTree α → BinaryTree α → BinaryTree α
  | nil, u => join d x nil u
  | node y l r, u =>
    match d with
    | .left => join .left y l (join .left x r u)
    | .right => join .right y r (join .right x l u)

@[simp] theorem rotate_join : rotate d x (join d y t v) u = join d y t (join d x v u) := by
  cases d <;> rfl

/-- The subtree on the side `d` is lifted, by two rotations where its inner side is the higher. -/
def lift (d : Side) (x : α) : BinaryTree α → BinaryTree α → BinaryTree α
  | nil, u => join d x nil u
  | node y l r, u =>
    match d with
    | .left =>
      if r.height ≤ l.height then rotate .left x (node y l r) u
      else rotate .left x (rotate .right y r l) u
    | .right =>
      if l.height ≤ r.height then rotate .right x (node y l r) u
      else rotate .right x (rotate .left y l r) u

theorem lift_join : lift d x (join d y t v) u =
    if v.height ≤ t.height then join d y t (join d x v u)
    else rotate d x (rotate d.other y v t) u := by
  cases d <;> rfl

theorem toList_rotate : toList (rotate d x t u) = toList (join d x t u) := by
  cases t with
  | nil => rfl
  | node y l r => cases d <;> simp [rotate, join]

theorem toList_lift : toList (lift d x t u) = toList (join d x t u) := by
  cases t with
  | nil => rfl
  | node y l r =>
    cases d with
    | left =>
      simp only [lift]
      split_ifs
      · rw [toList_rotate]
      · rw [toList_rotate]
        simp only [join, toList_node, toList_rotate]
    | right =>
      simp only [lift]
      split_ifs
      · rw [toList_rotate]
      · rw [toList_rotate]
        simp only [join, toList_node, toList_rotate]

/-- A side two higher than the other is brought into balance; the height is the side's own, unless
its own sides were even. -/
theorem lift_spec (ht : Balanced t) (hu : Balanced u) (h : t.height = u.height + 2) :
    Balanced (lift d x t u) ∧ t.height ≤ (lift d x t u).height
      ∧ (lift d x t u).height ≤ t.height + 1
      ∧ (∀ y v w, t = join d y v w → v.height ≠ w.height → (lift d x t u).height = t.height) := by
  have hne : t ≠ nil := by
    rintro rfl
    simp at h
  obtain ⟨y, v, w, rfl⟩ := exists_join d hne
  obtain ⟨hv, hw, hvw, hwv⟩ := balanced_join.1 ht
  rw [height_join] at h
  rw [lift_join]
  split_ifs with hle
  · refine ⟨balanced_join.2 ⟨hv, balanced_join.2 ⟨hw, hu, ?_, ?_⟩, ?_, ?_⟩, ?_, ?_,
      fun z p q he hpq => ?_⟩
    all_goals try simp only [height_join]
    all_goals try omega
    obtain ⟨-, rfl, rfl⟩ : y = z ∧ v = p ∧ w = q := by cases d <;> simpa [join, and_comm] using he
    omega
  · have hwne : w ≠ nil := by
      rintro rfl
      simp at hle
    obtain ⟨z, p, q, rfl⟩ := exists_join d.other hwne
    obtain ⟨hp, hq, hpq, hqp⟩ := balanced_join.1 hw
    rw [rotate_join, join_other, rotate_join]
    simp only [height_join] at *
    refine ⟨balanced_join.2 ⟨balanced_join.2 ⟨?_, ?_, ?_, ?_⟩,
      balanced_join.2 ⟨?_, ?_, ?_, ?_⟩, ?_, ?_⟩, ?_, ?_, ?_⟩
    all_goals try simp only [height_join]
    all_goals try assumption
    all_goals omega

/-- The node `x` over its two subtrees; one that is two higher than the other is lifted. -/
def rebalance (d : Side) (x : α) (t u : BinaryTree α) : BinaryTree α :=
  if u.height + 1 < t.height then lift d x t u
  else if t.height + 1 < u.height then lift d.other x u t
  else join d x t u

theorem rebalance_other : rebalance d.other x t u = rebalance d x u t := by
  unfold rebalance
  rw [Side.other_other, join_other]
  split_ifs
  · omega
  · rfl
  · rfl
  · rfl

theorem rebalance_of_even (h : t.height ≤ u.height + 1) (h' : u.height ≤ t.height + 1) :
    rebalance d x t u = join d x t u := by
  unfold rebalance
  rw [if_neg (by omega), if_neg (by omega)]

theorem rebalance_of_high (h : u.height + 1 < t.height) : rebalance d x t u = lift d x t u :=
  if_pos h

theorem toList_rebalance : toList (rebalance d x t u) = toList (join d x t u) := by
  unfold rebalance
  split_ifs
  · exact toList_lift
  · rw [toList_lift, join_other]
  · rfl

/-- Two balanced subtrees two apart at most make a balanced tree, of the height of the node over
them or one less. -/
theorem rebalance_spec (ht : Balanced t) (hu : Balanced u) (h : t.height ≤ u.height + 2)
    (h' : u.height ≤ t.height + 2) :
    Balanced (rebalance d x t u) ∧ max t.height u.height ≤ (rebalance d x t u).height
      ∧ (rebalance d x t u).height ≤ max t.height u.height + 1 := by
  rcases Nat.lt_or_ge (u.height + 1) t.height with hlt | hle
  · rw [rebalance_of_high hlt]
    obtain ⟨hb, h₁, h₂, -⟩ := lift_spec (d := d) (x := x) ht hu (by omega)
    exact ⟨hb, by omega, by omega⟩
  · rcases Nat.lt_or_ge (t.height + 1) u.height with hlt' | hle'
    · rw [← rebalance_other, rebalance_of_high hlt']
      obtain ⟨hb, h₁, h₂, -⟩ := lift_spec (d := d.other) (x := x) hu ht (by omega)
      exact ⟨hb, by omega, by omega⟩
    · rw [rebalance_of_even hle hle', height_join]
      exact ⟨balanced_join.2 ⟨ht, hu, hle, hle'⟩, by omega, by omega⟩

/-! ### Search order -/

variable [LinearOrder κ] (key : α → κ)

/-- The keys increase along the nodes. -/
def Sorted (t : BinaryTree α) : Prop :=
  (toList t).Pairwise fun x y => key x < key y

/-- The tree with a node added where its key belongs. -/
def insert (a : α) : BinaryTree α → BinaryTree α
  | nil => node a nil nil
  | node x l r =>
    if key a < key x then rebalance .left x (insert a l) r
    else if key x < key a then rebalance .right x (insert a r) l
    else node x l r

/-- The first node, and the tree without it. -/
def unlinkFront : α → BinaryTree α → BinaryTree α → α × BinaryTree α
  | x, nil, r => (x, r)
  | x, node y l' r', r => ((unlinkFront y l' r').1, rebalance .left x (unlinkFront y l' r').2 r)

/-- The two sides of a removed node, under the first node of the right one. -/
def merge : BinaryTree α → BinaryTree α → BinaryTree α
  | nil, r => r
  | l, nil => l
  | l, node y l' r' => rebalance .right (unlinkFront y l' r').1 (unlinkFront y l' r').2 l

/-- The tree without the node of the key. -/
def erase (k : κ) : BinaryTree α → BinaryTree α
  | nil => nil
  | node x l r =>
    if k < key x then rebalance .left x (erase k l) r
    else if key x < k then rebalance .right x (erase k r) l
    else merge l r

variable {key} {k : κ} {a : α}

theorem sorted_join : Sorted key (join d x t u) ↔ Sorted key t ∧ Sorted key u
    ∧ (∀ y ∈ toList t, d.Before (key y) (key x))
    ∧ ∀ y ∈ toList u, d.other.Before (key y) (key x) := by
  have h : ∀ l m : List α, (l ++ x :: m).Pairwise (fun y z => key y < key z) ↔
      l.Pairwise (fun y z => key y < key z) ∧ m.Pairwise (fun y z => key y < key z)
        ∧ (∀ y ∈ l, key y < key x) ∧ ∀ y ∈ m, key x < key y := by
    intro l m
    simp only [List.pairwise_append, List.pairwise_cons, List.mem_cons]
    refine ⟨fun ⟨hl, ⟨hx, hm⟩, hlm⟩ => ⟨hl, hm, fun y hy => hlm y hy x (.inl rfl), hx⟩,
      fun ⟨hl, hm, hlx, hx⟩ => ⟨hl, ⟨hx, hm⟩, ?_⟩⟩
    rintro y hy z (rfl | hz)
    · exact hlx y hy
    · exact (hlx y hy).trans (hx z hz)
  cases d with
  | left => exact h _ _
  | right =>
    refine (h _ _).trans ⟨fun ⟨h₁, h₂, h₃, h₄⟩ => ⟨h₂, h₁, h₄, h₃⟩,
      fun ⟨h₁, h₂, h₃, h₄⟩ => ⟨h₂, h₁, h₄, h₃⟩⟩

theorem Sorted.nodup (h : Sorted key t) : (toList t).Nodup :=
  h.imp fun hlt => by
    rintro rfl
    exact lt_irrefl _ hlt

theorem insert_join (h : d.Before (key a) (key x)) :
    insert key a (join d x t u) = rebalance d x (insert key a t) u := by
  cases d with
  | left => exact if_pos h
  | right => exact (if_neg (lt_asymm h)).trans (if_pos h)

theorem erase_join (h : d.Before k (key x)) :
    erase key k (join d x t u) = rebalance d x (erase key k t) u := by
  cases d with
  | left => exact if_pos h
  | right => exact (if_neg (lt_asymm h)).trans (if_pos h)

/-- The new node stands between the smaller keys and the greater ones. -/
theorem toList_insert (h : Sorted key t) (ha : ∀ y ∈ toList t, key y ≠ key a) :
    ∃ l m, toList t = l ++ m ∧ toList (insert key a t) = l ++ a :: m
      ∧ (∀ y ∈ l, key y < key a) ∧ ∀ y ∈ m, key a < key y := by
  induction t with
  | nil => exact ⟨[], [], rfl, rfl, by simp, by simp⟩
  | node x t u iht ihu =>
    obtain ⟨ht, hu, htx, hux⟩ := sorted_join.1 (show Sorted key (join .left x t u) from h)
    simp only [toList_node, List.mem_append, List.mem_cons] at ha
    rcases lt_trichotomy (key a) (key x) with hlt | he | hgt
    · obtain ⟨l, m, he, he', hl, hm⟩ := iht ht fun y hy => ha y (.inl hy)
      refine ⟨l, m ++ x :: toList u, by simp [he], ?_, hl, fun y hy => ?_⟩
      · rw [show node x t u = join .left x t u from rfl, insert_join (d := .left) hlt,
          toList_rebalance]
        simp [join, he']
      · rcases List.mem_append.1 hy with hy | hy
        · exact hm y hy
        · rcases List.mem_cons.1 hy with rfl | hy
          · exact hlt
          · exact hlt.trans (hux y hy)
    · exact absurd he.symm (ha x (.inr (.inl rfl)))
    · obtain ⟨l, m, he, he', hl, hm⟩ := ihu hu fun y hy => ha y (.inr (.inr hy))
      refine ⟨toList t ++ x :: l, m, by simp [he], ?_, fun y hy => ?_, hm⟩
      · rw [show node x t u = join .right x u t from rfl, insert_join (d := .right) hgt,
          toList_rebalance]
        simp [join, he']
      · rcases List.mem_append.1 hy with hy | hy
        · exact (htx y hy).trans hgt
        · rcases List.mem_cons.1 hy with rfl | hy
          · exact hgt
          · exact hl y hy

theorem perm_insert (h : Sorted key t) (ha : ∀ y ∈ toList t, key y ≠ key a) :
    (toList (insert key a t)).Perm (a :: toList t) := by
  obtain ⟨l, m, he, he', -⟩ := toList_insert h ha
  rw [he, he']
  exact List.perm_middle

theorem Sorted.insert (h : Sorted key t) (ha : ∀ y ∈ toList t, key y ≠ key a) :
    Sorted key (insert key a t) := by
  obtain ⟨l, m, he, he', hl, hm⟩ := toList_insert h ha
  unfold Sorted at h ⊢
  rw [he, List.pairwise_append] at h
  rw [he', List.pairwise_append, List.pairwise_cons]
  refine ⟨h.1, ⟨hm, h.2.1⟩, fun y hy z hz => ?_⟩
  rcases List.mem_cons.1 hz with rfl | hz
  · exact hl y hy
  · exact (hl y hy).trans (hm z hz)

theorem toList_unlinkFront (x : α) (l r : BinaryTree α) :
    toList (node x l r) = (unlinkFront x l r).1 :: toList (unlinkFront x l r).2 := by
  induction l generalizing x r with
  | nil => rfl
  | node y l' r' hl _ =>
    rw [unlinkFront, toList_node, hl, toList_rebalance, join, toList_node, List.cons_append]

theorem toList_merge (l r : BinaryTree α) : toList (merge l r) = toList l ++ toList r := by
  cases l with
  | nil => rfl
  | node x l₁ l₂ =>
    cases r with
    | nil => simp [merge]
    | node y l' r' =>
      rw [merge, toList_rebalance, join, toList_node, toList_unlinkFront y]
      exact nofun

/-- The node of the key leaves its place, and no other does. -/
theorem toList_erase (h : Sorted key t) (ha : a ∈ toList t) :
    ∃ l m, toList t = l ++ a :: m ∧ toList (erase key (key a) t) = l ++ m := by
  induction t with
  | nil => simp at ha
  | node x t u iht ihu =>
    obtain ⟨ht, hu, htx, hux⟩ := sorted_join.1 (show Sorted key (join .left x t u) from h)
    simp only [toList_node, List.mem_append, List.mem_cons] at ha
    rcases ha with ha | rfl | ha
    · obtain ⟨l, m, he, he'⟩ := iht ht ha
      refine ⟨l, m ++ x :: toList u, by simp [he], ?_⟩
      rw [show node x t u = join .left x t u from rfl, erase_join (htx a ha), toList_rebalance]
      simp [join, he']
    · refine ⟨toList t, toList u, rfl, ?_⟩
      rw [erase, if_neg (lt_irrefl _), if_neg (lt_irrefl _), toList_merge]
    · obtain ⟨l, m, he, he'⟩ := ihu hu ha
      refine ⟨toList t ++ x :: l, m, by simp [he], ?_⟩
      rw [show node x t u = join .right x u t from rfl, erase_join (d := .right) (hux a ha),
        toList_rebalance]
      simp [join, he']

theorem sublist_erase (h : Sorted key t) (ha : a ∈ toList t) :
    (toList (erase key (key a) t)).Sublist (toList t) := by
  obtain ⟨l, m, he, he'⟩ := toList_erase h ha
  rw [he, he']
  exact (List.sublist_cons_self a m).append_left l

theorem Sorted.erase (h : Sorted key t) (ha : a ∈ toList t) : Sorted key (erase key (key a) t) :=
  List.Pairwise.sublist (sublist_erase h ha) h

/-! ### Balance -/

/-- The tree is higher on the side on which the key is. -/
def Leans (key : α → κ) (k : κ) (t : BinaryTree α) : Prop :=
  ∃ d x u v, t = join d x u v ∧ d.Before k (key x) ∧ v.height < u.height

/-- What an insertion does to the height: a tree that grows and was not empty leans to the new
node. -/
def Grown (key : α → κ) (k : κ) (t t' : BinaryTree α) : Prop :=
  t'.height = t.height ∨ t'.height = t.height + 1 ∧ (t = nil ∨ Leans key k t')

theorem Grown.leans (h : Grown key k t v) (hu : t.height ≤ u.height + 1)
    (hv : u.height + 1 < v.height) : Leans key k v := by
  rcases h with h | ⟨h, rfl | hl⟩
  · omega
  · simp only [height] at h
    omega
  · exact hl

theorem leans_join : Leans key k (join d x t u) ↔
    d.Before k (key x) ∧ u.height < t.height ∨ d.Before (key x) k ∧ t.height < u.height := by
  constructor
  · rintro ⟨e, y, v, w, he, hb, hlt⟩
    rcases Side.eq_or_other d e with rfl | rfl
    · obtain ⟨rfl, rfl, rfl⟩ : x = y ∧ t = v ∧ u = w := by
        cases e <;> simpa [join, and_comm] using he
      exact .inl ⟨hb, hlt⟩
    · obtain ⟨rfl, rfl, rfl⟩ : x = y ∧ u = v ∧ t = w := by
        cases d <;> simpa [join, Side.other, and_comm] using he
      exact .inr ⟨d.before_other.1 hb, hlt⟩
  · rintro (⟨hb, hlt⟩ | ⟨hb, hlt⟩)
    · exact ⟨d, x, t, u, rfl, hb, hlt⟩
    · exact ⟨d.other, x, u, t, join_other d x u t ▸ rfl, d.before_other.2 hb, hlt⟩

theorem Leans.uneven (h : Leans key k t) (y : α) (v w : BinaryTree α) (he : t = join d y v w) :
    v.height ≠ w.height := by
  rcases leans_join.1 (he ▸ h) with ⟨-, hlt⟩ | ⟨-, hlt⟩ <;> omega

theorem Grown.rebalance (hb : Balanced (join d x t u)) (hd : d.Before k (key x)) (hv : Balanced v)
    (h : Grown key k t v) :
    Balanced (rebalance d x v u) ∧ Grown key k (join d x t u) (rebalance d x v u) := by
  obtain ⟨ht, hu, htu, hut⟩ := balanced_join.1 hb
  rcases Nat.lt_or_ge (u.height + 1) v.height with hlt | hle
  · have hl := h.leans htu hlt
    have hh : v.height = t.height + 1 := by
      rcases h with h | ⟨h, -⟩ <;> omega
    obtain ⟨hb', -, -, he⟩ := lift_spec (d := d) (x := x) hv hu (by omega)
    obtain ⟨y, p, q, rfl⟩ := exists_join d (t := v) (by rintro rfl; simp at hlt)
    rw [rebalance_of_high hlt]
    refine ⟨hb', .inl ?_⟩
    rw [he y p q rfl (hl.uneven y p q rfl), hh, height_join (t := t)]
    omega
  · have hle' : u.height ≤ v.height + 1 := by
      rcases h with h | ⟨h, -⟩ <;> omega
    rw [rebalance_of_even hle hle']
    refine ⟨balanced_join.2 ⟨hv, hu, hle, hle'⟩, ?_⟩
    unfold Grown
    rw [height_join, height_join]
    rcases h with h | ⟨h, -⟩
    · exact .inl (by omega)
    · rcases Nat.lt_or_ge t.height u.height with hlt | hge
      · exact .inl (by omega)
      · exact .inr ⟨by omega, .inr ⟨d, x, v, u, rfl, hd, by omega⟩⟩

theorem insert_spec (h : Balanced t) (ha : ∀ y ∈ toList t, key y ≠ key a) :
    Balanced (insert key a t) ∧ Grown key (key a) t (insert key a t) := by
  induction t with
  | nil => exact ⟨⟨trivial, trivial, by simp, by simp⟩, .inr ⟨rfl, .inl rfl⟩⟩
  | node x t u iht ihu =>
    simp only [toList_node, List.mem_append, List.mem_cons] at ha
    rcases lt_trichotomy (key a) (key x) with hlt | he | hgt
    · obtain ⟨hb, hg⟩ := iht h.1 fun y hy => ha y (.inl hy)
      rw [show node x t u = join .left x t u from rfl] at h ⊢
      rw [insert_join (d := .left) hlt]
      exact hg.rebalance h hlt hb
    · exact absurd he.symm (ha x (.inr (.inl rfl)))
    · obtain ⟨hb, hg⟩ := ihu h.2.1 fun y hy => ha y (.inr (.inr hy))
      rw [show node x t u = join .right x u t from rfl] at h ⊢
      rw [insert_join (d := .right) hgt]
      exact hg.rebalance h hgt hb

/-- What a removal does to the height. -/
def Shrunk (t t' : BinaryTree α) : Prop :=
  t'.height ≤ t.height ∧ t.height ≤ t'.height + 1

theorem Shrunk.rebalance (hb : Balanced (join d x t u)) (hv : Balanced v) (h : Shrunk t v) :
    Balanced (rebalance d y v u) ∧ Shrunk (join d x t u) (rebalance d y v u) := by
  obtain ⟨ht, hu, htu, hut⟩ := balanced_join.1 hb
  obtain ⟨h₁, h₂⟩ := h
  obtain ⟨hb', h₃, h₄⟩ := rebalance_spec (d := d) (x := y) hv hu (by omega) (by omega)
  refine ⟨hb', ?_, ?_⟩
  · rw [height_join]
    omega
  · rw [height_join]
    rcases Nat.lt_or_ge (v.height + 1) u.height with hlt | hge
    · omega
    · rw [rebalance_of_even (by omega) (by omega), height_join]
      omega

theorem unlinkFront_spec (x : α) (l r : BinaryTree α) (h : Balanced (node x l r)) :
    Balanced (unlinkFront x l r).2 ∧ Shrunk (node x l r) (unlinkFront x l r).2 := by
  induction l generalizing x r with
  | nil => exact ⟨h.2.1, by simp [unlinkFront], by simp [unlinkFront]⟩
  | node y l' r' hl _ =>
    obtain ⟨hb, hs⟩ := hl y r' h.1
    exact hs.rebalance (d := .left) h hb

theorem merge_spec (h : Balanced (node x l r)) :
    Balanced (merge l r) ∧ Shrunk (node x l r) (merge l r) := by
  cases l with
  | nil => exact ⟨h.2.1, by simp [merge], by simp [merge]⟩
  | node z l₁ l₂ =>
    cases r with
    | nil => exact ⟨h.1, by simp [merge], by simp [merge]⟩
    | node y l' r' =>
      obtain ⟨hb, hs⟩ := unlinkFront_spec y l' r' h.2.1
      have hb' : Balanced (join .right x (node y l' r') (node z l₁ l₂)) := h
      exact hs.rebalance hb' hb

theorem erase_spec (k : κ) (h : Balanced t) :
    Balanced (erase key k t) ∧ Shrunk t (erase key k t) := by
  induction t with
  | nil => exact ⟨trivial, by simp [erase], by simp [erase]⟩
  | node x t u iht ihu =>
    rcases lt_trichotomy k (key x) with hlt | he | hgt
    · obtain ⟨hb, hs⟩ := iht h.1
      rw [show node x t u = join .left x t u from rfl] at h ⊢
      rw [erase_join (d := .left) hlt]
      exact hs.rebalance h hb
    · rw [erase, if_neg he.not_lt, if_neg he.not_gt]
      exact merge_spec h
    · obtain ⟨hb, hs⟩ := ihu h.2.1
      rw [show node x t u = join .right x u t from rfl] at h ⊢
      rw [erase_join (d := .right) hgt]
      exact hs.rebalance h hb

end BalancedTree

end MinStd
