import MinStd.Proofs.AvlTreeLinks

/-!
# Insertion and removal by recursion

On the nodes of a balanced search tree the two recursions do what `insert` and `erase` do on the
tree, and nothing to other nodes.
-/

namespace MinStd.AvlTree.State

open BinaryTree BalancedTree Links

variable {ν κ β : Type*} [DecidableEq ν] {s : State ν κ β} {l l' : Links ν} {d : Side} {a b x : ν}
  {p q : Option ν} {t u : BinaryTree ν} {k : κ} {v : β} {n : ℕ}

theorem exists_fuel {m n : ℕ} (h : m < n) : ∃ k, n = k + 1 :=
  Nat.exists_eq_succ_of_ne_zero (by omega)

/-! ### Insertion -/

theorem construct_key_of_ne (h : b ≠ a) : (s.construct a k v).key b = s.key b :=
  Function.update_of_ne h _ _

@[simp] theorem construct_key_self : (s.construct a k v).key a = k := Function.update_self _ _ _

theorem SameOff_construct : SameOff [a] s.toLinks (s.construct a k v).toLinks := by
  refine ⟨fun d b hb => if_neg ?_, fun d b hb => if_neg ?_,
    fun b hb => Function.update_of_ne ?_ _ _⟩
  all_goals exact fun he => hb (by simp [he])

theorem construct_rep : (s.construct a k v).Rep (some a) (node a nil nil) := by
  refine ⟨rfl, Function.update_self _ _ _, if_pos rfl, if_pos rfl, ?_, ?_⟩
  all_goals
    intro b hb
    exact absurd ((if_pos rfl).symm.trans hb) nofun

variable [LinearOrder κ]

/-- A node on the way back from the new one. -/
theorem rebalanceAfterInsert_step {key : ν → κ} (h : l.Rep p (join d x t u))
    (ha : a ∉ toList (join d x t u)) (hs : Sorted key (join d x t u))
    (hb : Balanced (join d x t u)) (hk : ∀ b ∈ toList (join d x t u), key b ≠ key a)
    (hd : d.Before (key a) (key x)) (hl : l'.Rep q (BalancedTree.insert key a t))
    (hoff : SameOff (a :: toList t) l l') :
    ∃ l'' b, (l'.setChild d x q).rebalanceAfterInsert key x (key a) = some (l'', b)
      ∧ l''.Rep (some b) (BalancedTree.insert key a (join d x t u))
      ∧ SameOff (a :: toList (join d x t u)) l l'' := by
  obtain ⟨hxt, hxu, hnt, hnu, htu⟩ := nodup_join.1 hs.nodup
  obtain ⟨hst, -⟩ := sorted_join.1 hs
  obtain ⟨hbt, hbu, hle, hle'⟩ := balanced_join.1 hb
  simp only [mem_join, not_or] at ha hk
  have hkt : ∀ b ∈ toList t, key b ≠ key a := fun b hb => hk b (.inr (.inl hb))
  obtain ⟨hbt', hg⟩ := insert_spec hbt hkt
  have hperm := perm_insert hst hkt
  have hn : (toList (join d x (BalancedTree.insert key a t) u)).Nodup := by
    refine nodup_join.2 ⟨?_, hxu, ?_, hnu, fun b hb hbu => ?_⟩
    · rw [hperm.mem_iff, List.mem_cons, not_or]
      exact ⟨fun he => ha.1 he.symm, hxt⟩
    · rw [hperm.nodup_iff, List.nodup_cons]
      exact ⟨ha.2.1, hnt⟩
    · rcases List.mem_cons.1 (hperm.mem_iff.1 hb) with rfl | hb
      · exact ha.2.2 hbu
      · exact htu hb hbu
  have hover : (l'.setChild d x q).Over d x (BalancedTree.insert key a t) u := by
    refine (rep_join.1 h).2.2.relink hoff ?_ (fun b hb => ?_) hl hn
    · simp only [List.mem_cons, not_or]
      exact ⟨fun he => ha.1 he.symm, hxt⟩
    · simp only [List.mem_cons, not_or]
      exact ⟨fun he => ha.2.2 (he ▸ hb), fun hbt => htu hbt hb⟩
  have hlean : u.height + 1 < (BalancedTree.insert key a t).height →
      Leans key (key a) (BalancedTree.insert key a t) := hg.leans hle
  have hlow : ¬ (BalancedTree.insert key a t).height + 1 < u.height := by
    rcases hg with hg | ⟨hg, -⟩ <;> omega
  have hspec : ∃ l'' b, (l'.setChild d x q).rebalanceAfterInsert key x (key a) = some (l'', b)
      ∧ l''.Rep (some b) (rebalance d x (BalancedTree.insert key a t) u)
      ∧ SameOff (toList (join d x (BalancedTree.insert key a t) u)) (l'.setChild d x q) l'' := by
    cases d with
    | left => exact rebalanceAfterInsert_spec hover hn hlean fun h => absurd h hlow
    | right =>
      obtain ⟨l'', b, he, hr, hoff'⟩ :=
        rebalanceAfterInsert_spec hover.other hn (fun h => absurd h hlow) hlean
      exact ⟨l'', b, he, rebalance_other (d := .left) ▸ hr, hoff'⟩
  obtain ⟨l'', b, he, hr, hoff'⟩ := hspec
  refine ⟨l'', b, he, ?_, hoff.relink hl hoff' ?_ (by simp) ?_ ?_⟩
  · rw [insert_join hd]
    exact hr
  · intro z hz
    rw [List.mem_cons] at hz ⊢
    exact hz.imp_right fun hz => mem_join.2 (.inr (.inl hz))
  · intro z hz
    rw [hperm.mem_iff, List.mem_cons] at hz
    rw [List.mem_cons]
    exact hz.imp_right fun hz => mem_join.2 (.inr (.inl hz))
  · exact fun z hz => List.mem_cons_of_mem _ (mem_join.2 (.inr (.inr hz)))

theorem insertRecursive_spec (ha : a ∉ toList t) (h : s.Rep p t)
    (hs : Sorted (s.construct a k v).key t) (hb : Balanced t)
    (hk : ∀ b ∈ toList t, (s.construct a k v).key b ≠ k) (hn : t.height < n) :
    ∃ l b, insertRecursive k v (some a) n s p = some ((s.construct a k v).withLinks l, some b)
      ∧ l.Rep (some b) (BalancedTree.insert (s.construct a k v).key a t)
      ∧ SameOff (a :: toList t) s.toLinks l := by
  induction t generalizing p n with
  | nil =>
    obtain ⟨n, rfl⟩ := exists_fuel hn
    obtain rfl : p = none := h
    exact ⟨(s.construct a k v).toLinks, a, rfl, construct_rep, SameOff_construct⟩
  | node x t u iht ihu =>
    obtain ⟨n, rfl⟩ := exists_fuel hn
    simp only [height] at hn
    have hx : (s.construct a k v).key x = s.key x := construct_key_of_ne fun he => ha (by simp [he])
    have hka : (s.construct a k v).key a = k := construct_key_self
    obtain ⟨rfl, -, ht, hu, -⟩ := id h
    obtain ⟨hst, hsu, -⟩ := sorted_join.1 (show Sorted _ (join .left x t u) from hs)
    have hmt : ∀ b ∈ toList t, b ∈ toList (node x t u) := fun b hb => List.mem_append_left _ hb
    have hmu : ∀ b ∈ toList u, b ∈ toList (node x t u) := fun b hb =>
      List.mem_append_right _ (List.mem_cons_of_mem _ hb)
    have hk' : ∀ b ∈ toList (node x t u), (s.construct a k v).key b ≠ (s.construct a k v).key a :=
      hka.symm ▸ hk
    rcases lt_trichotomy k (s.key x) with hlt | he | hgt
    · obtain ⟨l, b, hl, hrep, hoff⟩ :=
        iht (fun hc => ha (hmt a hc)) ht hst hb.1 (fun b hb => hk b (hmt b hb)) (n := n) (by omega)
      obtain ⟨l', c, hl', hrep', hoff'⟩ := rebalanceAfterInsert_step (d := .left) h ha hs hb hk'
        (by rw [hka, hx]; exact hlt) hrep hoff
      refine ⟨l', c, ?_, hrep', hoff'⟩
      rw [hka] at hl'
      rw [insertRecursive, if_pos hlt, hl]
      exact congrArg (relinked _) hl'
    · exact absurd (hx.trans he.symm) (hk x (by simp))
    · obtain ⟨l, b, hl, hrep, hoff⟩ :=
        ihu (fun hc => ha (hmu a hc)) hu hsu hb.2.1 (fun b hb => hk b (hmu b hb)) (n := n)
          (by omega)
      have hb' : Balanced (join .right x u t) := hb
      obtain ⟨l', c, hl', hrep', hoff'⟩ := rebalanceAfterInsert_step (d := .right) h ha hs hb' hk'
        (by rw [hka, hx]; exact hgt) hrep hoff
      refine ⟨l', c, ?_, hrep', hoff'⟩
      rw [hka] at hl'
      rw [insertRecursive, if_neg hgt.not_gt, if_pos hgt, hl]
      exact congrArg (relinked _) hl'

/-- Without a node to insert nothing changes. -/
theorem insertRecursive_none (h : s.Rep p t) (hb : Balanced t) (hn : t.height < n) :
    insertRecursive k v none n s p = some (s, p) := by
  induction t generalizing p n with
  | nil =>
    obtain ⟨n, rfl⟩ := exists_fuel hn
    obtain rfl : p = none := h
    rfl
  | node x t u iht ihu =>
    obtain ⟨n, rfl⟩ := exists_fuel hn
    simp only [height] at hn
    obtain ⟨rfl, -, ht, hu, hbt, hbu⟩ := id h
    rw [insertRecursive]
    split_ifs
    · rw [iht ht hb.1 (by omega), Option.bind_some, setLeft, setChild_self hbt,
        rebalanceAfterInsert_self h hb]
      rfl
    · rw [ihu hu hb.2.1 (by omega), Option.bind_some, setRight, setChild_self hbu,
        rebalanceAfterInsert_self h hb]
      rfl
    · rfl

/-! ### Removal -/

/-- Without a node of the key nothing changes. -/
theorem eraseRecursive_none (h : s.Rep p t) (hb : Balanced t) (hk : ∀ b ∈ toList t, s.key b ≠ k)
    (hn : t.height < n) : eraseRecursive k n s p = some (s, p) := by
  induction t generalizing p n with
  | nil =>
    obtain ⟨n, rfl⟩ := exists_fuel hn
    obtain rfl : p = none := h
    rfl
  | node x t u iht ihu =>
    obtain ⟨n, rfl⟩ := exists_fuel hn
    simp only [height] at hn
    simp only [toList_node, List.mem_append, List.mem_cons] at hk
    obtain ⟨rfl, -, ht, hu, hbt, hbu⟩ := id h
    rcases lt_trichotomy k (s.key x) with hlt | he | hgt
    · rw [eraseRecursive, if_pos hlt, iht ht hb.1 (fun b hb => hk b (.inl hb)) (by omega),
        Option.bind_some, setLeft, setChild_self hbt, rebalanceAfterErase_self h hb]
      rfl
    · exact absurd he.symm (hk x (.inr (.inl rfl)))
    · rw [eraseRecursive, if_neg hgt.not_gt, if_pos hgt,
        ihu hu hb.2.1 (fun b hb => hk b (.inr (.inr hb))) (by omega),
        Option.bind_some, setRight, setChild_self hbu, rebalanceAfterErase_self h hb]
      rfl

/-- A node on the way back from the erased one. -/
theorem rebalanceAfterErase_step {key : ν → κ} (h : l.Rep p (join d x t u))
    (hs : Sorted key (join d x t u)) (ha : a ∈ toList t)
    (hl : l'.Rep q (BalancedTree.erase key (key a) t)) (hoff : SameOff (toList t) l l') :
    ∃ l'' b, (l'.setChild d x q).rebalanceAfterErase x = some (l'', b)
      ∧ l''.Rep (some b) (BalancedTree.erase key (key a) (join d x t u))
      ∧ SameOff (toList (join d x t u)) l l'' := by
  obtain ⟨hxt, hxu, hnt, hnu, htu⟩ := nodup_join.1 hs.nodup
  obtain ⟨hst, -, hx, -⟩ := sorted_join.1 hs
  have hsub := sublist_erase hst ha
  have hn : (toList (join d x (BalancedTree.erase key (key a) t) u)).Nodup :=
    nodup_join.2 ⟨fun hc => hxt (hsub.subset hc), hxu, hsub.nodup hnt, hnu,
      fun b hb hbu => htu (hsub.subset hb) hbu⟩
  have hover : (l'.setChild d x q).Over d x (BalancedTree.erase key (key a) t) u :=
    (rep_join.1 h).2.2.relink hoff hxt (fun b hb hbt => htu hbt hb) hl hn
  have hspec : ∃ l'' b, (l'.setChild d x q).rebalanceAfterErase x = some (l'', b)
      ∧ l''.Rep (some b) (rebalance d x (BalancedTree.erase key (key a) t) u)
      ∧ SameOff (toList (join d x (BalancedTree.erase key (key a) t) u))
        (l'.setChild d x q) l'' := by
    cases d with
    | left => exact rebalanceAfterErase_spec hover hn
    | right =>
      obtain ⟨l'', b, he, hr, hoff'⟩ := rebalanceAfterErase_spec hover.other hn
      exact ⟨l'', b, he, rebalance_other (d := .left) ▸ hr, hoff'⟩
  obtain ⟨l'', b, he, hr, hoff'⟩ := hspec
  refine ⟨l'', b, he, ?_, hoff.relink hl hoff' ?_ (mem_join.2 (.inl rfl)) ?_ ?_⟩
  · rw [erase_join (hx a ha)]
    exact hr
  · exact fun z hz => mem_join.2 (.inr (.inl hz))
  · exact fun z hz => mem_join.2 (.inr (.inl (hsub.subset hz)))
  · exact fun z hz => mem_join.2 (.inr (.inr hz))

omit [LinearOrder κ] in
/-- What takes the erased node's place, once it is rebalanced. -/
theorem replace_spec (h : s.Rep (some a) (node a t u)) (hn : (toList (node a t u)).Nodup)
    (hb : Balanced (node a t u)) (hf : u.height ≤ n) :
    ∃ l q l' q', s.replace n a = some (l, q)
      ∧ (q = none ∧ l' = l ∧ q' = none
        ∨ ∃ b c, q = some b ∧ q' = some c ∧ l.rebalanceAfterErase b = some (l', c))
      ∧ l'.Rep q' (merge t u) ∧ SameOff (toList (node a t u)) s.toLinks l' := by
  obtain ⟨-, -, ht, hu, hbt, hbu⟩ := id h
  rw [replace]
  cases t with
  | nil =>
    have hl : s.child .left a = none := ht
    rw [hl]
    cases u with
    | nil =>
      have hr : s.child .right a = none := hu
      rw [hr]
      exact ⟨_, _, s.toLinks, none, rfl, .inl ⟨rfl, rfl, rfl⟩, rfl, .rfl⟩
    | node b v w =>
      have hr : s.child .right a = some b := hu.1
      rw [hr] at hu ⊢
      exact ⟨_, _, s.toLinks, some b, rfl,
        .inr ⟨b, b, rfl, rfl, rebalanceAfterErase_self hu hb.2.1⟩, hu, .rfl⟩
  | node b v w =>
    have hl : s.child .left a = some b := ht.1
    rw [hl] at ht ⊢
    cases u with
    | nil =>
      have hr : s.child .right a = none := hu
      rw [hr]
      exact ⟨_, _, s.toLinks, some b, rfl,
        .inr ⟨b, b, rfl, rfl, rebalanceAfterErase_self ht hb.1⟩, ht, .rfl⟩
    | node c x y =>
      have hr : s.child .right a = some c := hu.1
      rw [hr] at hu ⊢
      obtain ⟨hat, hau, hnt, hnu, htu⟩ :=
        nodup_join.1 (show (toList (join .left a (node b v w) (node c x y))).Nodup from hn)
      simp only [height] at hf
      obtain ⟨l, q, hl, hq, hoff⟩ := unlinkFront_spec hu hnu (n := n) (by omega)
      have hlist := toList_unlinkFront c x y
      set f := (BalancedTree.unlinkFront c x y).1
      set rest := (BalancedTree.unlinkFront c x y).2
      have hfu : f ∈ toList (node c x y) := hlist ▸ List.mem_cons_self
      have hru : ∀ z ∈ toList rest, z ∈ toList (node c x y) := fun z hz =>
        hlist ▸ List.mem_cons_of_mem _ hz
      obtain ⟨hfr, hnr⟩ := List.nodup_cons.1 (hlist ▸ hnu)
      have hft : f ∉ toList (node b v w) := fun hc => htu hc hfu
      have hn₁ : (toList (node f (node b v w) rest)).Nodup :=
        (nodup_join (d := .left)).2 ⟨hft, hfr, hnt, hnr, fun z hz hz' => htu hz (hru z hz')⟩
      have ht₁ : l.Rep (some b) (node b v w) :=
        ht.of_sameOff hnt hoff fun z hz hz' => htu hz hz'
      obtain ⟨hover, hoff₁⟩ := setChildren_over ht₁ hq hn₁
      obtain ⟨l', g, he, hrep, hoff₂⟩ := rebalanceAfterErase_spec hover hn₁
      have hsub : toList (node c x y) ⊆ toList (node a (node b v w) (node c x y)) :=
        fun z hz => List.mem_append_right _ (List.mem_cons_of_mem _ hz)
      have hsub₁ : toList (node f (node b v w) rest)
          ⊆ toList (node a (node b v w) (node c x y)) := by
        intro z hz
        rcases (mem_join (d := .left)).1 hz with rfl | hz | hz
        · exact hsub hfu
        · exact List.mem_append_left _ hz
        · exact hsub (hru z hz)
      have hm : merge (node b v w) (node c x y) = rebalance .left f (node b v w) rest :=
        (rebalance_other (d := .right)).symm
      refine ⟨_, some f, l', some g, ?_, .inr ⟨f, g, rfl, rfl, he⟩, hm ▸ hrep,
        (hoff.mono hsub).trans ((hoff₁.trans hoff₂).mono hsub₁)⟩
      change Option.map _ (Links.unlinkFront n s.toLinks c) = _
      rw [hl]
      rfl

theorem eraseRecursive_spec (h : s.Rep p t) (hs : Sorted s.key t) (hb : Balanced t)
    (ha : a ∈ toList t) (hn : t.height < n) :
    ∃ l q, eraseRecursive (s.key a) n s p = some ((s.destroy a).withLinks l, q)
      ∧ l.Rep q (BalancedTree.erase s.key (s.key a) t)
      ∧ SameOff (toList t) s.toLinks l := by
  induction t generalizing p n with
  | nil => simp at ha
  | node x t u iht ihu =>
    obtain ⟨n, rfl⟩ := exists_fuel hn
    simp only [height] at hn
    obtain ⟨hst, hsu, hxt, hxu⟩ := sorted_join.1 (show Sorted _ (join .left x t u) from hs)
    obtain ⟨rfl, -, ht, hu, -⟩ := id h
    rw [toList_node, List.mem_append, List.mem_cons] at ha
    rcases ha with ha | rfl | ha
    · obtain ⟨l, q, hl, hrep, hoff⟩ := iht ht hst hb.1 ha (n := n) (by omega)
      have hlt : s.key a < s.key x := hxt a ha
      obtain ⟨l', c, hl', hrep', hoff'⟩ :=
        rebalanceAfterErase_step (d := .left) h hs ha hrep hoff
      refine ⟨l', some c, ?_, hrep', hoff'⟩
      rw [eraseRecursive, if_pos hlt, hl]
      exact congrArg (relinked _) hl'
    · obtain ⟨l, q, l', q', hl, hq, hrep, hoff⟩ := replace_spec h hs.nodup hb (n := n) (by omega)
      refine ⟨l', q', ?_, ?_, hoff⟩
      · rw [eraseRecursive, if_neg (lt_irrefl _), if_neg (lt_irrefl _), hl]
        rcases hq with ⟨rfl, rfl, rfl⟩ | ⟨b, c, rfl, rfl, he⟩
        · rfl
        · exact congrArg (relinked _) he
      · rw [BalancedTree.erase, if_neg (lt_irrefl _), if_neg (lt_irrefl _)]
        exact hrep
    · obtain ⟨l, q, hl, hrep, hoff⟩ := ihu hu hsu hb.2.1 ha (n := n) (by omega)
      have hgt : s.key x < s.key a := hxu a ha
      obtain ⟨l', c, hl', hrep', hoff'⟩ :=
        rebalanceAfterErase_step (d := .right) h hs ha hrep hoff
      refine ⟨l', some c, ?_, hrep', hoff'⟩
      rw [eraseRecursive, if_neg hgt.not_gt, if_pos hgt, hl]
      exact congrArg (relinked _) hl'

end MinStd.AvlTree.State
