import MinStd.AvlTree

/-!
# The links of the tree as a tree

The nodes under a pointer are those of a tree if the children, the depths and the reverse links
follow its shape; only its root's reverse links are left open, since whoever links to it sets them.
The rotations and the rebalancing act on the links as those of `BalancedTree` act on the tree, and
touch nothing outside it.
-/

namespace MinStd.AvlTree.Links

open BinaryTree BalancedTree

variable {ν κ : Type*} {s s' s'' : Links ν} {d e : Side} {a b c : ν} {p q : Option ν}
  {t u v w : BinaryTree ν} {A B : List ν}

/-- The child on the side `d` links back to `a`, and on no other side. -/
def Back (s : Links ν) (d : Side) (a : ν) : Prop :=
  ∀ b, s.child d a = some b → s.reverse d b = some a ∧ s.reverse d.other b = none

/-- The nodes under `p` are those of the tree. -/
def Rep (s : Links ν) : Option ν → BinaryTree ν → Prop
  | p, nil => p = none
  | p, node a t u => p = some a ∧ s.depth a = max t.height u.height + 1
      ∧ Rep s (s.child .left a) t ∧ Rep s (s.child .right a) u ∧ s.Back .left a ∧ s.Back .right a

/-- The children of `a` are the roots of `t`, on the side `d`, and `u`. -/
structure Over (s : Links ν) (d : Side) (a : ν) (t u : BinaryTree ν) : Prop where
  rep : s.Rep (s.child d a) t
  rep' : s.Rep (s.child d.other a) u
  back : s.Back d a
  back' : s.Back d.other a

theorem Over.other (h : s.Over d a t u) : s.Over d.other a u t := by
  refine ⟨h.rep', ?_, h.back', ?_⟩
  · rw [Side.other_other]
    exact h.rep
  · rw [Side.other_other]
    exact h.back

theorem rep_join : s.Rep p (join d a t u) ↔
    p = some a ∧ s.depth a = max t.height u.height + 1 ∧ s.Over d a t u := by
  cases d with
  | left =>
    exact ⟨fun ⟨hp, hd, ht, hu, hb, hb'⟩ => ⟨hp, hd, ht, hu, hb, hb'⟩,
      fun ⟨hp, hd, ht, hu, hb, hb'⟩ => ⟨hp, hd, ht, hu, hb, hb'⟩⟩
  | right =>
    rw [max_comm]
    exact ⟨fun ⟨hp, hd, ht, hu, hb, hb'⟩ => ⟨hp, hd, hu, ht, hb', hb⟩,
      fun ⟨hp, hd, hu, ht, hb', hb⟩ => ⟨hp, hd, ht, hu, hb, hb'⟩⟩

theorem Rep.eq_nil (h : s.Rep none t) : t = nil := by
  cases t with
  | nil => rfl
  | node a t u => simp [Rep] at h

theorem Rep.exists_join (d : Side) (h : s.Rep (some a) t) : ∃ u v, t = join d a u v := by
  obtain ⟨b, u, v, rfl⟩ := BalancedTree.exists_join d (t := t) (by rintro rfl; simp [Rep] at h)
  obtain ⟨hp, -⟩ := rep_join.1 h
  exact ⟨u, v, by rw [Option.some.inj hp]⟩

theorem Rep.mem (h : s.Rep (some a) t) : a ∈ toList t := by
  obtain ⟨u, v, rfl⟩ := h.exists_join .left
  exact mem_join.2 (.inl rfl)

theorem Rep.depthOf (h : s.Rep p t) : s.depthOf p = t.height := by
  cases t with
  | nil =>
    simp only [Rep] at h
    rw [h]
    rfl
  | node a t u => rw [h.1, Links.depthOf, h.2.1, height]

/-! ### What is left as it was -/

/-- Nothing outside `A` has changed. -/
structure SameOff (A : List ν) (s s' : Links ν) : Prop where
  child : ∀ d, ∀ b ∉ A, s'.child d b = s.child d b
  reverse : ∀ d, ∀ b ∉ A, s'.reverse d b = s.reverse d b
  depth : ∀ b ∉ A, s'.depth b = s.depth b

theorem SameOff.rfl : SameOff A s s :=
  ⟨fun _ _ _ => .refl _, fun _ _ _ => .refl _, fun _ _ => .refl _⟩

theorem SameOff.trans (h : SameOff A s s') (h' : SameOff A s' s'') : SameOff A s s'' :=
  ⟨fun d b hb => (h'.child d b hb).trans (h.child d b hb),
    fun d b hb => (h'.reverse d b hb).trans (h.reverse d b hb),
    fun b hb => (h'.depth b hb).trans (h.depth b hb)⟩

theorem SameOff.mono (h : SameOff A s s') (hAB : A ⊆ B) : SameOff B s s' :=
  ⟨fun d b hb => h.child d b fun hA => hb (hAB hA),
    fun d b hb => h.reverse d b fun hA => hb (hAB hA), fun b hb => h.depth b fun hA => hb (hAB hA)⟩

/-- A tree stays one if its links do, the root's reverse links apart. -/
theorem Rep.congr (hn : (toList t).Nodup) (hc : ∀ d, ∀ b ∈ toList t, s'.child d b = s.child d b)
    (hr : ∀ d, ∀ b ∈ toList t, p ≠ some b → s'.reverse d b = s.reverse d b)
    (hd : ∀ b ∈ toList t, s'.depth b = s.depth b) (h : s.Rep p t) : s'.Rep p t := by
  induction t generalizing p with
  | nil => exact h
  | node a t u iht ihu =>
    obtain ⟨rfl, hdep, ht, hu, hbt, hbu⟩ := h
    obtain ⟨hat, hau, hnt, hnu, -⟩ := nodup_join.1 (show (toList (join .left a t u)).Nodup from hn)
    simp only [toList_node, List.mem_append, List.mem_cons] at hc hr hd
    have hct := hc .left a (.inr (.inl rfl))
    have hcu := hc .right a (.inr (.inl rfl))
    have hne : ∀ {b}, a ∉ toList t → b ∈ toList t → some a ≠ some b := by
      rintro b ha hb he
      exact ha (Option.some.inj he ▸ hb)
    refine ⟨rfl, (hd a (.inr (.inl rfl))).trans hdep, ?_, ?_, ?_, ?_⟩
    · rw [hct]
      exact iht hnt (fun d b hb => hc d b (.inl hb))
        (fun d b hb _ => hr d b (.inl hb) fun he => hat (Option.some.inj he ▸ hb))
        (fun b hb => hd b (.inl hb)) ht
    · rw [hcu]
      exact ihu hnu (fun d b hb => hc d b (.inr (.inr hb)))
        (fun d b hb _ => hr d b (.inr (.inr hb)) fun he => hau (Option.some.inj he ▸ hb))
        (fun b hb => hd b (.inr (.inr hb))) hu
    · intro b hb
      rw [hct] at hb
      have hmem := Rep.mem (hb ▸ ht)
      have hab : some a ≠ some b := fun he => hat (Option.some.inj he ▸ hmem)
      rw [hr _ b (.inl hmem) hab, hr _ b (.inl hmem) hab]
      exact hbt b hb
    · intro b hb
      rw [hcu] at hb
      have hmem := Rep.mem (hb ▸ hu)
      have hab : some a ≠ some b := fun he => hau (Option.some.inj he ▸ hmem)
      rw [hr _ b (.inr (.inr hmem)) hab, hr _ b (.inr (.inr hmem)) hab]
      exact hbu b hb

theorem Rep.of_sameOff (h : s.Rep p t) (hn : (toList t).Nodup) (hs : SameOff A s s')
    (hA : ∀ b ∈ toList t, b ∉ A) : s'.Rep p t :=
  h.congr hn (fun d b hb => hs.child d b (hA b hb)) (fun d b hb _ => hs.reverse d b (hA b hb))
    fun b hb => hs.depth b (hA b hb)

/-! ### Setting a child -/

variable [DecidableEq ν]

@[simp] theorem setChild_depth : (s.setChild d a q).depth = s.depth := by cases q <;> rfl

theorem setChild_child :
    (s.setChild d a q).child e b = if e = d ∧ b = a then q else s.child e b := by
  cases q <;> rfl

@[simp] theorem setChild_child_self : (s.setChild d a q).child d a = q := by
  rw [setChild_child, if_pos ⟨rfl, rfl⟩]

@[simp] theorem setChild_child_other : (s.setChild d a q).child d.other b = s.child d.other b := by
  rw [setChild_child, if_neg fun h => d.ne_other h.1.symm]

theorem setChild_child_of_ne (h : b ≠ a) : (s.setChild d a q).child e b = s.child e b := by
  rw [setChild_child, if_neg fun hb => h hb.2]

theorem setChild_reverse_of_ne (h : q ≠ some b) :
    (s.setChild d a q).reverse e b = s.reverse e b := by
  cases q with
  | none => rfl
  | some c => exact if_neg fun he => h (congrArg some he.symm)

theorem setChild_back : (s.setChild d a q).Back d a := by
  intro b hb
  rw [setChild_child_self] at hb
  subst hb
  exact ⟨by simp [setChild], by simp [setChild, d.ne_other.symm]⟩

theorem SameOff.setChild (ha : a ∈ A) (hq : ∀ b, q = some b → b ∈ A) :
    SameOff A s (s.setChild d a q) := by
  refine ⟨fun e b hb => setChild_child_of_ne ?_, fun e b hb => setChild_reverse_of_ne ?_,
    fun b hb => by rw [setChild_depth]⟩
  · rintro rfl
    exact hb ha
  · exact fun he => hb (hq b he)

theorem setChild_rep (ht : s.Rep q t) (hn : (toList t).Nodup) (ha : a ∉ toList t) :
    (s.setChild d a q).Rep q t :=
  ht.congr hn (fun e b hb => setChild_child_of_ne fun he => ha (he ▸ hb))
    (fun e b _ hq => setChild_reverse_of_ne hq) fun b _ => by rw [setChild_depth]

/-- A child that is the root of `t` comes onto the side `d`, whatever was there. -/
theorem setChild_over (ht : s.Rep q t) (hu : s.Rep (s.child d.other a) u) (hb : s.Back d.other a)
    (hn : (toList (join d a t u)).Nodup) : (s.setChild d a q).Over d a t u := by
  obtain ⟨hat, hau, hnt, hnu, hd⟩ := nodup_join.1 hn
  have hqu : ∀ b ∈ toList u, q ≠ some b := by
    rintro b hbu rfl
    exact hd ht.mem hbu
  refine ⟨?_, ?_, setChild_back, ?_⟩
  · rw [setChild_child_self]
    exact setChild_rep ht hnt hat
  · rw [setChild_child_other]
    exact hu.congr hnu (fun e b hb => setChild_child_of_ne fun he => hau (he ▸ hb))
      (fun e b hb _ => setChild_reverse_of_ne (hqu b hb)) fun b _ => by rw [setChild_depth]
  · intro b hb'
    rw [setChild_child_other] at hb'
    have hq := hqu b (Rep.mem (hb' ▸ hu))
    rw [setChild_reverse_of_ne hq, setChild_reverse_of_ne hq]
    exact hb b hb'

/-- What was under `a` on the side `d` has become `v`, and is linked to again. -/
theorem Over.relink (h : s.Over d a t u) (hoff : SameOff A s s') (ha : a ∉ A)
    (hu : ∀ b ∈ toList u, b ∉ A) (hv : s'.Rep q v) (hn : (toList (join d a v u)).Nodup) :
    (s'.setChild d a q).Over d a v u := by
  have hc : s'.child d.other a = s.child d.other a := hoff.child _ a ha
  refine setChild_over hv ?_ ?_ hn
  · rw [hc]
    exact h.rep'.of_sameOff (nodup_join.1 hn).2.2.2.1 hoff hu
  · intro b hb
    rw [hc] at hb
    have hbA := hu b (Rep.mem (hb ▸ h.rep'))
    rw [hoff.reverse _ b hbA, hoff.reverse _ b hbA]
    exact h.back' b hb

/-- A node that is given two children, both roots. -/
theorem setChildren_over (ht : s.Rep p t) (hu : s.Rep q u) (hn : (toList (node a t u)).Nodup) :
    ((s.setChild .left a p).setChild .right a q).Over .left a t u
      ∧ SameOff (toList (node a t u)) s ((s.setChild .left a p).setChild .right a q) := by
  have hn' : (toList (join .right a u t)).Nodup := hn
  obtain ⟨hau, hat, hnu, hnt, hut⟩ := nodup_join.1 hn'
  have hp : ∀ b, p = some b → b ∈ toList t := fun b hb => Rep.mem (hb ▸ ht)
  have hq : ∀ b, q = some b → b ∈ toList u := fun b hb => Rep.mem (hb ▸ hu)
  have hu' : (s.setChild .left a p).Rep q u := by
    refine hu.congr hnu (fun e b hb => setChild_child_of_ne fun he => hau (he ▸ hb))
      (fun e b hb _ => setChild_reverse_of_ne fun he => hut hb (hp b he)) fun b _ => ?_
    rw [setChild_depth]
  refine ⟨?_, (SameOff.setChild (by simp) fun b hb => ?_).trans
    (SameOff.setChild (by simp) fun b hb => ?_)⟩
  · refine (setChild_over (d := .right) hu' ?_ setChild_back hn').other
    exact (setChild_child_self (s := s) (d := .left)).symm ▸ setChild_rep ht hnt hat
  · exact List.mem_append_left _ (hp b hb)
  · exact List.mem_append_right _ (List.mem_cons_of_mem _ (hq b hb))

theorem SameOff.relink (hoff : SameOff A s s') (hv : s'.Rep q v)
    (hoff' : SameOff (toList (join e a v u)) (s'.setChild d a q) s'') (hA : A ⊆ B) (ha : a ∈ B)
    (hvB : toList v ⊆ B) (hu : toList u ⊆ B) : SameOff B s s'' := by
  refine (hoff.mono hA).trans ((SameOff.setChild ha ?_).trans (hoff'.mono ?_))
  · rintro b rfl
    exact hvB hv.mem
  · intro b hb
    rcases mem_join.1 hb with rfl | hb | hb
    · exact ha
    · exact hvB hb
    · exact hu hb

/-! ### Depths -/

theorem SameOff.fixDepth (ha : a ∈ A) : SameOff A s (s.fixDepth a) :=
  ⟨fun _ _ _ => .refl _, fun _ _ _ => .refl _, fun b hb => Function.update_of_ne
    (by rintro rfl; exact hb ha) _ _⟩

theorem Rep.fixDepth (h : s.Rep p t) (hn : (toList t).Nodup) (ha : a ∉ toList t) :
    (s.fixDepth a).Rep p t :=
  h.of_sameOff hn (SameOff.fixDepth (A := [a]) (by simp)) fun b hb hb' =>
    ha (List.mem_singleton.1 hb' ▸ hb)

omit [DecidableEq ν] in
theorem Over.max_depthOf (h : s.Over d a t u) :
    max (s.depthOf (s.child .left a)) (s.depthOf (s.child .right a)) = max t.height u.height := by
  cases d with
  | left => rw [← h.rep.depthOf, ← h.rep'.depthOf]; rfl
  | right => rw [max_comm, ← h.rep.depthOf, ← h.rep'.depthOf]; rfl

theorem Over.fixDepth (h : s.Over d a t u) (hn : (toList (join d a t u)).Nodup) :
    (s.fixDepth a).Rep (some a) (join d a t u) := by
  obtain ⟨hat, hau, hnt, hnu, hd⟩ := nodup_join.1 hn
  refine rep_join.2 ⟨rfl, ?_, h.rep.fixDepth hnt hat, h.rep'.fixDepth hnu hau, h.back, h.back'⟩
  rw [← h.max_depthOf]
  exact Function.update_self _ _ _

/-! ### Rotations -/

theorem rotate_spec (h : s.Over d a (join d b t v) u)
    (hn : (toList (join d a (join d b t v) u)).Nodup) :
    ∃ s', s.rotate d a = some (s', b) ∧ s'.Rep (some b) (join d b t (join d a v u))
      ∧ SameOff (toList (join d a (join d b t v) u)) s s' := by
  obtain ⟨hab, hau, hnb, hnu, hbu⟩ := nodup_join.1 hn
  obtain ⟨hbt, hbv, hnt, hnv, htv⟩ := nodup_join.1 hnb
  simp only [mem_join, not_or] at hab
  obtain ⟨hne, hat, hav⟩ := hab
  have hba : b ≠ a := fun he => hne he.symm
  have hbu' : b ∉ toList u := hbu (mem_join.2 (.inl rfl))
  have htu : ∀ c ∈ toList t, c ∉ toList u := fun c hc => hbu (mem_join.2 (.inr (.inl hc)))
  have hvu : ∀ c ∈ toList v, c ∉ toList u := fun c hc => hbu (mem_join.2 (.inr (.inr hc)))
  obtain ⟨hcb, -, hb⟩ := rep_join.1 h.rep
  have hn₁ : (toList (join d a v u)).Nodup :=
    nodup_join.2 ⟨hav, hau, hnv, hnu, fun c hc hc' => hvu c hc hc'⟩
  have hn₂ : (toList (join d b t (join d a v u))).Nodup := by
    refine nodup_join.2 ⟨hbt, ?_, hnt, hn₁, fun c hc hc' => ?_⟩
    · simp only [mem_join, not_or]
      exact ⟨hba, hbv, hbu'⟩
    · rcases mem_join.1 hc' with rfl | hc' | hc'
      · exact hat hc
      · exact htv hc hc'
      · exact htu c hc hc'
  have hvroot : ∀ c, s.child d.other b = some c → c ∈ toList v := fun c hc => Rep.mem (hc ▸ hb.rep')
  -- the child takes `a` on its inner side, and `a` takes what was there
  set s₁ := s.setChild d.other b (some a) with hs₁
  have hoff₁ : SameOff [b, a] s s₁ := SameOff.setChild (by simp) (by simp)
  have hv₁ : s₁.Rep (s.child d.other b) v := hb.rep'.of_sameOff hnv hoff₁ fun c hc hc' => by
    rcases List.mem_pair.1 hc' with rfl | rfl
    · exact hbv hc
    · exact hav hc
  have hout : s₁.child d.other a = s.child d.other a := setChild_child_of_ne hne
  have hu₁ : s₁.Rep (s₁.child d.other a) u := by
    rw [hout]
    refine h.rep'.of_sameOff hnu hoff₁ fun c hc hc' => ?_
    rcases List.mem_pair.1 hc' with rfl | rfl
    · exact hbu' hc
    · exact hau hc
  have hback₁ : s₁.Back d.other a := by
    intro c hc
    rw [hout] at hc
    have hca : some a ≠ some c := fun he => hau (Option.some.inj he ▸ Rep.mem (hc ▸ h.rep'))
    rw [hs₁, setChild_reverse_of_ne hca, setChild_reverse_of_ne hca]
    exact h.back' c hc
  have hrep₃ := (setChild_over hv₁ hu₁ hback₁ hn₁).fixDepth hn₁
  set s₃ := (s₁.setChild d a (s.child d.other b)).fixDepth a with hs₃
  have hoff : SameOff (b :: a :: toList v) s s₃ := by
    refine (hoff₁.mono (by simp)).trans (SameOff.trans ?_ (SameOff.fixDepth (by simp)))
    exact SameOff.setChild (by simp) fun c hc => by simp [hvroot c hc]
  have ht₃ : ∀ c ∈ toList t, c ∉ b :: a :: toList v := by
    intro c hc
    simp only [List.mem_cons, not_or]
    exact ⟨fun he => hbt (he ▸ hc), fun he => hat (he ▸ hc), htv hc⟩
  -- so the child is over what it had on its outer side, and `a`
  have hchild : s₃.child d b = s.child d b := by
    rw [hs₃, Links.fixDepth, setChild_child_of_ne hba, hs₁, setChild_child,
      if_neg fun he => d.ne_other he.1]
  have hchild' : s₃.child d.other b = some a := by
    rw [hs₃, Links.fixDepth, setChild_child_of_ne hba, hs₁, setChild_child_self]
  have hover : s₃.Over d b t (join d a v u) := by
    refine ⟨?_, hchild' ▸ hrep₃, fun c hc => ?_, fun c hc => ?_⟩
    · rw [hchild]
      exact hb.rep.of_sameOff hnt hoff ht₃
    · rw [hchild] at hc
      have hct := ht₃ c (Rep.mem (hc ▸ hb.rep))
      rw [hoff.reverse _ c hct, hoff.reverse _ c hct]
      exact hb.back c hc
    · obtain rfl : a = c := Option.some.inj (hchild'.symm.trans hc)
      have hq : s.child d.other b ≠ some a := fun he => hav (hvroot a he)
      rw [hs₃, Links.fixDepth, setChild_reverse_of_ne hq, setChild_reverse_of_ne hq]
      exact setChild_back a setChild_child_self
  refine ⟨s₃.fixDepth b, ?_, hover.fixDepth hn₂, ?_⟩
  · rw [rotate, hcb]
    rfl
  · refine (hoff.trans (SameOff.fixDepth (by simp))).mono fun c hc => ?_
    simp only [mem_join]
    simp only [List.mem_cons] at hc
    tauto

theorem rotateTwice_spec {x y : BinaryTree ν}
    (h : s.Over d a (join d b t (join d.other c x y)) u)
    (hn : (toList (join d a (join d b t (join d.other c x y)) u)).Nodup) :
    ∃ s', s.rotateTwice d a = some (s', c)
      ∧ s'.Rep (some c) (join d c (join d.other b y t) (join d a x u))
      ∧ SameOff (toList (join d a (join d b t (join d.other c x y)) u)) s s' := by
  obtain ⟨hab, -, hnb, -, hbu⟩ := nodup_join.1 hn
  obtain ⟨hcb, -, hb⟩ := rep_join.1 h.rep
  rw [← join_other] at hnb hab hbu
  obtain ⟨s₁, hs₁, hrep₁, hoff₁⟩ := rotate_spec hb.other hnb
  rw [join_other] at hrep₁
  have hn₁ : (toList (join d a (join d c (join d.other b y t) x) u)).Nodup := by
    simp only [nodup_join, mem_join, List.Disjoint] at hn ⊢
    grind
  have hover := h.relink hoff₁ hab (fun z hz hz' => hbu hz' hz) hrep₁ hn₁
  obtain ⟨s₂, hs₂, hrep₂, hoff₂⟩ := rotate_spec hover hn₁
  refine ⟨s₂, ?_, hrep₂, ?_⟩
  · rw [rotateTwice, hcb, Option.bind_some, hs₁]
    exact hs₂
  · refine hoff₁.relink hrep₁ hoff₂ ?_ (mem_join.2 (.inl rfl)) ?_ ?_
    · intro z hz
      rw [join_other] at hz
      exact mem_join.2 (.inr (.inl hz))
    · intro z
      simp only [mem_join]
      tauto
    · exact fun z hz => mem_join.2 (.inr (.inr hz))

theorem Over.rotate_eq_lift (h : s.Over d a (join d b t v) u)
    (hn : (toList (join d a (join d b t v) u)).Nodup) (hle : v.height ≤ t.height) :
    ∃ s' c, s.rotate d a = some (s', c) ∧ s'.Rep (some c) (lift d a (join d b t v) u)
      ∧ SameOff (toList (join d a (join d b t v) u)) s s' := by
  obtain ⟨s', hs, hr, hoff⟩ := rotate_spec h hn
  refine ⟨s', b, hs, ?_, hoff⟩
  rw [lift_join, if_pos hle]
  exact hr

theorem Over.rotateTwice_eq_lift (h : s.Over d a (join d b t v) u)
    (hn : (toList (join d a (join d b t v) u)).Nodup) (hlt : t.height < v.height) :
    ∃ s' c, s.rotateTwice d a = some (s', c) ∧ s'.Rep (some c) (lift d a (join d b t v) u)
      ∧ SameOff (toList (join d a (join d b t v) u)) s s' := by
  obtain ⟨c, x, y, rfl⟩ := BalancedTree.exists_join d.other (t := v) (by rintro rfl; simp at hlt)
  obtain ⟨s', hs, hr, hoff⟩ := rotateTwice_spec h hn
  refine ⟨s', c, hs, ?_, hoff⟩
  rw [lift_join, if_neg (by omega), rotate_join, join_other, rotate_join]
  exact hr

omit [DecidableEq ν] in
theorem Rep.getBalance (h : s.Rep p (node a t u)) :
    s.getBalance p = (t.height : ℤ) - u.height := by
  obtain ⟨rfl, -, ht, hu, -⟩ := h
  rw [Links.getBalance, ht.depthOf, hu.depthOf]

/-! ### Rebalancing -/

theorem rebalanceAfterErase_spec (h : s.Over .left a t u) (hn : (toList (node a t u)).Nodup) :
    ∃ s' b, s.rebalanceAfterErase a = some (s', b) ∧ s'.Rep (some b) (rebalance .left a t u)
      ∧ SameOff (toList (node a t u)) s s' := by
  have hr := h.fixDepth hn
  have hoff : SameOff (toList (node a t u)) s (s.fixDepth a) := SameOff.fixDepth (by simp)
  obtain ⟨-, -, h₁⟩ := rep_join.1 hr
  have hbal : (s.fixDepth a).getBalance (some a) = (t.height : ℤ) - u.height :=
    Rep.getBalance hr
  rw [rebalanceAfterErase]
  simp only [hbal]
  rcases Nat.lt_or_ge (u.height + 1) t.height with hlt | hle
  · obtain ⟨b, v, w, rfl⟩ := BalancedTree.exists_join .left (t := t) (by rintro rfl; simp at hlt)
    have hb : (s.fixDepth a).getBalance ((s.fixDepth a).child .left a)
        = (v.height : ℤ) - w.height := Rep.getBalance h₁.rep
    rw [hb, rebalance_of_high hlt]
    rcases Nat.lt_or_ge v.height w.height with hvw | hvw
    · obtain ⟨s', c, hs, hrep, hoff'⟩ := h₁.rotateTwice_eq_lift hn hvw
      rw [if_neg (by omega), if_neg (by omega), if_pos (by omega)]
      exact ⟨s', c, hs, hrep, hoff.trans hoff'⟩
    · obtain ⟨s', c, hs, hrep, hoff'⟩ := h₁.rotate_eq_lift hn hvw
      rw [if_pos (by omega)]
      exact ⟨s', c, hs, hrep, hoff.trans hoff'⟩
  · rcases Nat.lt_or_ge (t.height + 1) u.height with hlt' | hle'
    · obtain ⟨b, v, w, rfl⟩ := BalancedTree.exists_join .right (t := u)
        (by rintro rfl; simp at hlt')
      have hb : (s.fixDepth a).getBalance ((s.fixDepth a).child .right a)
          = (w.height : ℤ) - v.height := Rep.getBalance h₁.rep'
      have hn' : (toList (join .right a (join .right b v w) t)).Nodup := hn
      rw [hb, ← rebalance_other, rebalance_of_high hlt', if_neg (by omega)]
      rcases Nat.lt_or_ge v.height w.height with hvw | hvw
      · obtain ⟨s', c, hs, hrep, hoff'⟩ := h₁.other.rotateTwice_eq_lift hn' hvw
        rw [if_neg (by omega), if_neg (by omega), if_pos (by omega)]
        exact ⟨s', c, hs, hrep, hoff.trans hoff'⟩
      · obtain ⟨s', c, hs, hrep, hoff'⟩ := h₁.other.rotate_eq_lift hn' hvw
        rw [if_pos (by omega)]
        exact ⟨s', c, hs, hrep, hoff.trans hoff'⟩
    · rw [if_neg (by omega), if_neg (by omega), if_neg (by omega), if_neg (by omega),
        rebalance_of_even hle hle']
      exact ⟨_, a, rfl, hr, hoff⟩

/-- After an insertion the higher side leans to the new key, so the keys tell which rotation. -/
theorem rebalanceAfterInsert_spec [LinearOrder κ] {key : ν → κ} {k : κ} (h : s.Over .left a t u)
    (hn : (toList (node a t u)).Nodup) (hl : u.height + 1 < t.height → Leans key k t)
    (hr : t.height + 1 < u.height → Leans key k u) :
    ∃ s' b, s.rebalanceAfterInsert key a k = some (s', b) ∧ s'.Rep (some b) (rebalance .left a t u)
      ∧ SameOff (toList (node a t u)) s s' := by
  have hrep := h.fixDepth hn
  have hoff : SameOff (toList (node a t u)) s (s.fixDepth a) := SameOff.fixDepth (by simp)
  obtain ⟨-, -, h₁⟩ := rep_join.1 hrep
  have hbal : (s.fixDepth a).getBalance (some a) = (t.height : ℤ) - u.height :=
    Rep.getBalance hrep
  rw [rebalanceAfterInsert]
  simp only [hbal]
  rcases Nat.lt_or_ge (u.height + 1) t.height with hlt | hle
  · obtain ⟨b, v, w, rfl⟩ := BalancedTree.exists_join .left (t := t) (by rintro rfl; simp at hlt)
    have hb := (rep_join.1 h₁.rep).1
    simp only [hb, Option.mem_some_iff, exists_eq_left']
    rw [rebalance_of_high hlt]
    rcases leans_join.1 (hl hlt) with ⟨hk, hvw⟩ | ⟨hk, hvw⟩
    · obtain ⟨s', c, hs, hrep', hoff'⟩ := h₁.rotate_eq_lift hn hvw.le
      rw [if_pos ⟨by omega, hk⟩]
      exact ⟨s', c, hs, hrep', hoff.trans hoff'⟩
    · obtain ⟨s', c, hs, hrep', hoff'⟩ := h₁.rotateTwice_eq_lift hn hvw
      rw [if_neg fun he => lt_asymm he.2 hk, if_neg (by omega), if_pos ⟨by omega, hk⟩]
      exact ⟨s', c, hs, hrep', hoff.trans hoff'⟩
  · rcases Nat.lt_or_ge (t.height + 1) u.height with hlt' | hle'
    · obtain ⟨b, v, w, rfl⟩ := BalancedTree.exists_join .right (t := u)
        (by rintro rfl; simp at hlt')
      have hn' : (toList (join .right a (join .right b v w) t)).Nodup := hn
      have hb : (s.fixDepth a).child .right a = some b := (rep_join.1 h₁.rep').1
      simp only [hb, Option.mem_some_iff, exists_eq_left']
      rw [← rebalance_other, rebalance_of_high hlt', if_neg (by omega)]
      rcases leans_join.1 (hr hlt') with ⟨hk, hvw⟩ | ⟨hk, hvw⟩
      · obtain ⟨s', c, hs, hrep', hoff'⟩ := h₁.other.rotate_eq_lift hn' hvw.le
        rw [if_pos ⟨by omega, hk⟩]
        exact ⟨s', c, hs, hrep', hoff.trans hoff'⟩
      · obtain ⟨s', c, hs, hrep', hoff'⟩ := h₁.other.rotateTwice_eq_lift hn' hvw
        rw [if_neg fun he => lt_asymm he.2 hk, if_neg (by omega), if_pos ⟨by omega, hk⟩]
        exact ⟨s', c, hs, hrep', hoff.trans hoff'⟩
    · rw [if_neg (by omega), if_neg (by omega), if_neg (by omega), if_neg (by omega),
        rebalance_of_even hle hle']
      exact ⟨_, a, rfl, hrep, hoff⟩

/-! ### A balanced tree is left as it is -/

theorem setChild_self (h : s.Back d a) : s.setChild d a (s.child d a) = s := by
  have hc : (s.setChild d a (s.child d a)).child = s.child := by
    funext e b
    rw [setChild_child]
    split_ifs with he
    · rw [he.1, he.2]
    · rfl
  have hr : (s.setChild d a (s.child d a)).reverse = s.reverse := by
    funext e b
    by_cases hb : s.child d a = some b
    · obtain ⟨h₁, h₂⟩ := h b hb
      rw [hb]
      rcases Side.eq_or_other d e with rfl | rfl
      · simp [setChild, h₁]
      · simp [setChild, h₂, d.ne_other.symm]
    · exact setChild_reverse_of_ne hb
  have hd : (s.setChild d a (s.child d a)).depth = s.depth := setChild_depth
  revert hc hr hd
  cases s.setChild d a (s.child d a)
  rintro rfl rfl rfl
  rfl

theorem Rep.fixDepth_self (h : s.Rep (some a) (node a t u)) : s.fixDepth a = s := by
  have hd := ((rep_join (d := .left)).1 h).2.2.max_depthOf
  rw [Links.fixDepth, hd, ← h.2.1, Function.update_eq_self]

theorem rebalanceAfterErase_self (h : s.Rep (some a) (node a t u)) (hb : Balanced (node a t u)) :
    s.rebalanceAfterErase a = some (s, a) := by
  obtain ⟨-, -, h₁, h₂⟩ := hb
  rw [rebalanceAfterErase]
  simp only [h.fixDepth_self, h.getBalance]
  rw [if_neg (by omega), if_neg (by omega), if_neg (by omega), if_neg (by omega)]

theorem rebalanceAfterInsert_self [LinearOrder κ] {key : ν → κ} {k : κ}
    (h : s.Rep (some a) (node a t u)) (hb : Balanced (node a t u)) :
    s.rebalanceAfterInsert key a k = some (s, a) := by
  obtain ⟨-, -, h₁, h₂⟩ := hb
  rw [rebalanceAfterInsert]
  simp only [h.fixDepth_self, h.getBalance]
  rw [if_neg (by omega), if_neg (by omega), if_neg (by omega), if_neg (by omega)]

/-! ### Unlinking the first node -/

theorem unlinkFront_spec {n : ℕ} (h : s.Rep (some a) (node a t u))
    (hn : (toList (node a t u)).Nodup) (hf : t.height < n) :
    ∃ s' q, s.unlinkFront n a = some (s', (BalancedTree.unlinkFront a t u).1, q)
      ∧ s'.Rep q (BalancedTree.unlinkFront a t u).2 ∧ SameOff (toList (node a t u)) s s' := by
  induction t generalizing a u n with
  | nil =>
    obtain ⟨n, rfl⟩ := Nat.exists_eq_succ_of_ne_zero (by omega : n ≠ 0)
    obtain ⟨-, -, hl, hr, -⟩ := h
    have hl : s.child .left a = none := hl
    refine ⟨s, s.child .right a, ?_, hr, .rfl⟩
    rw [Links.unlinkFront, hl]
    rfl
  | node b v w ih _ =>
    obtain ⟨n, rfl⟩ := Nat.exists_eq_succ_of_ne_zero (by omega : n ≠ 0)
    have hover : s.Over .left a (node b v w) u := (rep_join.1 h).2.2
    have hcb : s.child .left a = some b := hover.rep.1
    obtain ⟨hab, hau, hnb, hnu, hbu⟩ :=
      nodup_join.1 (show (toList (join .left a (node b v w) u)).Nodup from hn)
    simp only [height] at hf
    obtain ⟨s₁, q, hs₁, hq, hoff₁⟩ := ih (hcb ▸ hover.rep) hnb (n := n) (by omega)
    have hlist := toList_unlinkFront b v w
    have hsub : ∀ c ∈ toList (BalancedTree.unlinkFront b v w).2, c ∈ toList (node b v w) := by
      intro c hc
      rw [hlist]
      exact List.mem_cons_of_mem _ hc
    have hn₁ : (toList (node a (BalancedTree.unlinkFront b v w).2 u)).Nodup := by
      refine (nodup_join (d := .left)).2 ⟨fun hc => hab (hsub a hc), hau, ?_, hnu,
        fun c hc hcu => hbu (hsub c hc) hcu⟩
      rw [hlist] at hnb
      exact (List.nodup_cons.1 hnb).2
    have hover₁ := hover.relink hoff₁ hab (fun c hc hcb => hbu hcb hc) hq hn₁
    obtain ⟨s₂, c, hs₂, hrep, hoff₂⟩ := rebalanceAfterErase_spec hover₁ hn₁
    refine ⟨s₂, some c, ?_, hrep, ?_⟩
    · rw [Links.unlinkFront, hcb]
      simp only [hs₁, Option.bind_some, setLeft, hs₂, Option.map_some]
      rfl
    · refine hoff₁.relink hq (e := .left) hoff₂ ?_ (by simp) ?_ ?_
      · exact fun z hz => List.mem_append_left _ hz
      · exact fun z hz => List.mem_append_left _ (hsub z hz)
      · exact fun z hz => List.mem_append_right _ (List.mem_cons_of_mem _ hz)

end MinStd.AvlTree.Links
