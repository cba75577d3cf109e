import MinStd.NodeList
import MinStd.Proofs.LruCache

/-!
# The list against the reference sequence

The nodes of the reference sequence, in order, are the nodes the links lead through from both ends,
and hold its values.
-/

namespace MinStd

/-! ### Links -/

namespace TwoWay

variable {α : Type*} [DecidableEq α] {s : TwoWay α} {d : Side} {a b : α} {p q : Option α}

theorem setLink_comm : (s.setLink d a p).setLink d.other b q =
    (s.setLink d.other b q).setLink d a p := by
  simp only [setLink, Function.update_of_ne d.ne_other, Function.update_of_ne d.ne_other.symm,
    TwoWay.mk.injEq, true_and]
  exact Function.update_comm d.ne_other _ _ _

theorem setLink_setLink : (s.setLink d a p).setLink d a q = s.setLink d a q := by
  simp [setLink]

end TwoWay

namespace LruCache.NodeList

variable {ν ε : Type*} [DecidableEq ν] {s s' : NodeList ν ε} {l l₁ l₂ : List ν} {a b pos : ν}
  {e : ε}

/-! ### The list and its nodes -/

/-- At the back, the second way to reach the node before the new one changes nothing. -/
theorem Holds.emplaceBack_eq (h : s.Holds l) (ha : a ∉ s.live) :
    s.emplaceBack a e = some
      { toTwoWay := s.push .right a
        element := Function.update s.element a e
        size := s.size + 1
        live := insert a s.live } := by
  have hcomm (p : Option ν) : (s.setLink .right a none).setLink .left a p =
      (s.setLink .left a p).setLink .right a none := TwoWay.setLink_comm
  have hback := h.links.tip .right
  rcases hb : s.tip .right with _ | b
  · obtain rfl : l = [] := by simpa [Side.orient, hb] using hback.symm
    have hfront : s.tip .left = none := h.links.tip .left
    simp [emplaceBack, construct, TwoWay.push, hb, hfront, hcomm, Side.other, TwoWay.setTip]
  · obtain ⟨l₁, rfl⟩ : ∃ l₁, l = l₁ ++ [b] :=
      List.getLast?_eq_some_iff.1 (by simpa [Side.orient, hb] using hback.symm)
    have hprevious : s.link .left b = l₁.getLast? :=
      (h.links.link (show Side.left.orient (l₁ ++ [b]) = l₁ ++ b :: [] from rfl)).1
    obtain ⟨f, hfront⟩ : ∃ f, s.tip .left = some f := by
      rw [h.links.tip]
      cases l₁ <;> simp [Side.orient]
    have hba : b ≠ a := by
      rintro rfl
      exact ha ((h.live _).2 (by simp))
    set t := ((s.setLink .right a none).setLink .left a (some b)).setLink .right b (some a) with ht
    have htip : t.tip = s.tip := rfl
    have hsame : (if t.link .left b = none then
        (t.tip .left).map fun f => t.setLink .right f (some a) else some t) = some t := by
      split_ifs with hnone
      · have hlink : t.link .left b = s.link .left b := by
          simp [ht, TwoWay.setLink, Function.update_of_ne hba]
        obtain rfl : l₁ = [] := by
          rw [← List.getLast?_eq_none_iff, ← hprevious, ← hlink]
          exact hnone
        have hfb : s.tip .left = some b := h.links.tip .left
        rw [htip, hfb, Option.map_some, ht, TwoWay.setLink_setLink]
      · rfl
    have ht' : t = ((s.setLink .left a (some b)).setLink .right a none).setLink .right b
        (some a) := by
      rw [ht, hcomm]
    have hother : (t.setTip .right (some a)).tip .left = some f := hfront
    have hpush : s.push .right a = t.setTip .right (some a) := by
      rw [TwoWay.push, hb]
      show (if ((((s.setLink .left a (some b)).setLink .right a none).setLink .right b
        (some a)).setTip .right (some a)).tip .left = none then _ else _) = _
      rw [← ht', if_neg (by simp [hother]), ht']
      rfl
    rw [hpush]
    simp only [emplaceBack, construct, hb, TwoWay.setLink_tip, ← ht]
    rw [hsame]
    simp only [Option.map_some, hother]
    rfl

theorem Holds.pushBack (h : s.Holds l) (ha : a ∉ s.live) :
    ∃ s', s.emplaceBack a e = some s' ∧ s'.Holds (l ++ [a]) ∧
      s'.element = Function.update s.element a e := by
  refine ⟨_, h.emplaceBack_eq ha, ⟨?_, ?_, fun b => ?_⟩, rfl⟩
  · have hlist : Side.right.orient (a :: Side.right.orient l) = l ++ [a] := by
      simp [Side.orient]
    exact hlist ▸ h.links.push (d := .right) fun hl => ha ((h.live a).2 hl)
  · simp [h.size]
  · simp [h.live, or_comm]

theorem Holds.emplaceAfter (h : s.Holds (l₁ ++ pos :: l₂)) (ha : a ∉ s.live) :
    (s.emplaceAfter pos a e).Holds (l₁ ++ pos :: a :: l₂) := by
  refine ⟨?_, ?_, fun b => ?_⟩
  · exact h.links.insertAfter (d := .right) rfl fun hl => ha ((h.live a).2 hl)
  · show s.size + 1 = _
    rw [h.size]
    simp only [List.length_append, List.length_cons]
    omega
  · show b ∈ insert a s.live ↔ _
    rw [Finset.mem_insert, h.live]
    simp only [List.mem_append, List.mem_cons]
    tauto

/-- The node after is erased as any other is. -/
theorem Holds.eraseAfter_eq (h : s.Holds (l₁ ++ pos :: b :: l₂)) :
    s.eraseAfter pos = s.erase b := by
  have hnext : s.link .right pos = some b :=
    (h.links.link (show Side.left.orient (l₁ ++ pos :: b :: l₂) = l₁ ++ pos :: b :: l₂ from rfl)).2
  have hprevious : s.link .left b = some pos := by
    have hlink := (h.links.link
      (show Side.left.orient (l₁ ++ pos :: b :: l₂) = (l₁ ++ [pos]) ++ b :: l₂ by
        simp [Side.orient])).1
    simpa using hlink
  have hne : pos ≠ b := by
    rintro rfl
    have := h.links.nodup
    simp [List.nodup_append] at this
  have hself : (s.setLink .right pos (s.link .right b)).link .right pos = s.link .right b := by
    simp
  have hother : (s.setLink .right pos (s.link .right b)).link .right b = s.link .right b := by
    simp [Function.update_of_ne hne.symm]
  have hleft : (s.setLink .right pos (s.link .right b)).link .left b = some pos := hprevious
  unfold eraseAfter NodeList.erase TwoWay.unlink
  rcases hb : s.link .right b with _ | m
  · rw [hb] at hself hother hleft
    simp only [TwoWay.bypass, hnext, hprevious, Side.other, hself, hother, hleft, hb]
  · rw [hb] at hself hother hleft
    simp only [TwoWay.bypass, hnext, hprevious, Side.other, hself, hother, hleft, hb]

theorem Holds.eraseAfter_last (h : s.Holds (l₁ ++ [pos])) : s.eraseAfter pos = s := by
  have hnext : s.link .right pos = none := (h.links.link (d := .left) rfl).2
  rw [eraseAfter, hnext]

/-! ### The reference sequence -/

namespace Sequence

variable {r r₁ r₂ : List (ν × ε)} {x : ν × ε} {v : ε}

theorem insertAfter_eq (h : pos ∉ r₁.map Prod.fst) :
    insertAfter pos x (r₁ ++ (pos, v) :: r₂) = r₁ ++ (pos, v) :: x :: r₂ := by
  induction r₁ with
  | nil => simp [insertAfter]
  | cons y r₁ ih =>
    rw [List.map_cons, List.mem_cons, not_or] at h
    rw [List.cons_append, insertAfter, if_neg (Ne.symm h.1), ih h.2]
    rfl

theorem eraseAfter_eq (h : pos ∉ r₁.map Prod.fst) :
    eraseAfter pos (r₁ ++ (pos, v) :: r₂) = r₁ ++ (pos, v) :: r₂.tail := by
  induction r₁ with
  | nil => simp [eraseAfter]
  | cons y r₁ ih =>
    rw [List.map_cons, List.mem_cons, not_or] at h
    rw [List.cons_append, eraseAfter, if_neg (Ne.symm h.1), ih h.2]
    rfl

theorem filter_ne (h : pos ∉ r.map Prod.fst) : (r.filter fun y => y.1 ≠ pos) = r := by
  refine List.filter_eq_self.2 fun y hy => ?_
  simp only [decide_eq_true_eq]
  rintro rfl
  exact h (List.mem_map_of_mem hy)

theorem filter_eq (h : pos ∉ r.map Prod.fst) : (r.filter fun y => y.1 = pos) = [] := by
  refine List.filter_eq_nil_iff.2 fun y hy => ?_
  simp only [decide_eq_true_eq]
  rintro rfl
  exact h (List.mem_map_of_mem hy)

theorem erase_eq (h₁ : pos ∉ r₁.map Prod.fst) (h₂ : pos ∉ r₂.map Prod.fst) :
    erase pos (r₁ ++ (pos, v) :: r₂) = r₁ ++ r₂ := by
  rw [erase, List.filter_append, filter_ne h₁, List.filter_cons_of_neg (by simp), filter_ne h₂]

theorem moveFront_eq (h₁ : pos ∉ r₁.map Prod.fst) (h₂ : pos ∉ r₂.map Prod.fst) :
    moveFront pos (r₁ ++ (pos, v) :: r₂) = (pos, v) :: (r₁ ++ r₂) := by
  have herase := erase_eq (v := v) h₁ h₂
  rw [erase] at herase
  rw [moveFront, herase, List.filter_append, filter_eq h₁, List.filter_cons_of_pos (by simp),
    filter_eq h₂]
  rfl

end Sequence

/-- The list is linked through the nodes of the sequence, which hold its values. -/
structure Refines (s : NodeList ν ε) (r : List (ν × ε)) : Prop where
  nodes : s.Holds (r.map Prod.fst)
  values : ∀ x ∈ r, s.element x.1 = x.2

namespace Refines

variable {r r₁ r₂ : List (ν × ε)} {v : ε}

omit [DecidableEq ν] in
theorem split (h : s.Refines r) (hpos : pos ∈ s.live) : ∃ r₁ v r₂, r = r₁ ++ (pos, v) :: r₂ := by
  obtain ⟨⟨a, v⟩, hx, rfl⟩ := List.mem_map.1 ((h.nodes.live pos).1 hpos)
  obtain ⟨r₁, r₂, rfl⟩ := List.append_of_mem hx
  exact ⟨r₁, v, r₂, rfl⟩

omit [DecidableEq ν] in
theorem map_split (r₁ r₂ : List (ν × ε)) (x : ν × ε) :
    (r₁ ++ x :: r₂).map Prod.fst = r₁.map Prod.fst ++ x.1 :: r₂.map Prod.fst := by
  rw [List.map_append, List.map_cons]

omit [DecidableEq ν] in
theorem notMem (h : s.Refines (r₁ ++ (pos, v) :: r₂)) :
    pos ∉ r₁.map Prod.fst ∧ pos ∉ r₂.map Prod.fst := by
  have hnodup := h.nodes.links.nodup
  rw [map_split] at hnodup
  obtain ⟨-, h₂, hdis⟩ := List.nodup_append'.1 hnodup
  exact ⟨fun hmem => hdis hmem List.mem_cons_self, (List.nodup_cons.1 h₂).1⟩

/-- A new node is given its value; the others keep theirs. -/
theorem values_update (h : s.Refines r) (ha : a ∉ s.live) :
    ∀ x ∈ r, Function.update s.element a e x.1 = x.2 := by
  intro x hx
  have hne : x.1 ≠ a := by
    rintro rfl
    exact ha ((h.nodes.live _).2 (List.mem_map_of_mem hx))
  rw [Function.update_of_ne hne]
  exact h.values x hx

/-- An element taken out of the middle. -/
theorem out (h : s.Refines (r₁ ++ (pos, v) :: r₂)) {u : TwoWay ν}
    (hu : u.Holds (((r₁ ++ (pos, v) :: r₂).map Prod.fst).erase pos)) :
    (s.destroy pos u).Refines (r₁ ++ r₂) := by
  have herase : ((r₁ ++ (pos, v) :: r₂).map Prod.fst).erase pos = (r₁ ++ r₂).map Prod.fst := by
    rw [map_split, List.erase_append_right _ h.notMem.1, List.erase_cons_head, List.map_append]
  refine ⟨herase ▸ h.nodes.destroy (by simp) hu, fun x hx => h.values x ?_⟩
  rcases List.mem_append.1 hx with hx | hx
  · exact List.mem_append_left _ hx
  · exact List.mem_append_right _ (List.mem_cons_of_mem _ hx)

theorem emplaceFront (h : s.Refines r) (ha : a ∉ s.live) :
    (s.emplaceFront a e).Refines ((a, e) :: r) := by
  refine ⟨h.nodes.emplaceFront ha, fun x hx => ?_⟩
  rcases List.mem_cons.1 hx with rfl | hx
  · exact Function.update_self ..
  · exact h.values_update ha x hx

theorem emplaceBack (h : s.Refines r) (ha : a ∉ s.live) :
    ∃ s', s.emplaceBack a e = some s' ∧ s'.Refines (r ++ [(a, e)]) := by
  obtain ⟨s', hs', hholds, helement⟩ := h.nodes.pushBack (e := e) ha
  refine ⟨s', hs', by rwa [List.map_append], fun x hx => ?_⟩
  rw [helement]
  rcases List.mem_append.1 hx with hx | hx
  · exact h.values_update ha x hx
  · rw [List.mem_singleton.1 hx]
    exact Function.update_self ..

theorem emplaceAfter (h : s.Refines r) (hpos : pos ∈ s.live) (ha : a ∉ s.live) :
    (s.emplaceAfter pos a e).Refines (Sequence.insertAfter pos (a, e) r) := by
  obtain ⟨r₁, v, r₂, rfl⟩ := h.split hpos
  have hnodes := h.nodes
  rw [map_split] at hnodes
  rw [Sequence.insertAfter_eq h.notMem.1]
  refine ⟨by simpa using hnodes.emplaceAfter ha, fun x hx => ?_⟩
  have hcases : x = (a, e) ∨ x ∈ r₁ ++ (pos, v) :: r₂ := by
    simp only [List.mem_append, List.mem_cons] at hx ⊢
    tauto
  rcases hcases with rfl | hx
  · exact Function.update_self ..
  · exact h.values_update ha x hx

theorem erase (h : s.Refines r) (hpos : pos ∈ s.live) :
    (s.erase pos).Refines (Sequence.erase pos r) := by
  obtain ⟨r₁, v, r₂, rfl⟩ := h.split hpos
  rw [Sequence.erase_eq h.notMem.1 h.notMem.2]
  exact h.out (h.nodes.links.unlink (by simp))

theorem eraseAfter (h : s.Refines r) (hpos : pos ∈ s.live) :
    (s.eraseAfter pos).Refines (Sequence.eraseAfter pos r) := by
  obtain ⟨r₁, v, r₂, rfl⟩ := h.split hpos
  have hnodes := h.nodes
  rw [map_split] at hnodes
  rw [Sequence.eraseAfter_eq h.notMem.1]
  rcases r₂ with _ | ⟨⟨b, w⟩, r₂⟩
  · rw [hnodes.eraseAfter_last]
    exact h
  · rw [hnodes.eraseAfter_eq]
    have hsplit : r₁ ++ (pos, v) :: (b, w) :: r₂ = (r₁ ++ [(pos, v)]) ++ (b, w) :: r₂ := by simp
    rw [hsplit] at h
    rw [List.tail_cons, ← List.singleton_append, ← List.append_assoc]
    exact h.out (h.nodes.links.unlink (by simp))

theorem moveFront (h : s.Refines r) (hpos : pos ∈ s.live) :
    ∃ s', s.moveFront (some pos) = some s' ∧ s'.Refines (Sequence.moveFront pos r) := by
  obtain ⟨r₁, v, r₂, rfl⟩ := h.split hpos
  obtain ⟨s', hs', hholds, helement⟩ := h.nodes.moveFront ((h.nodes.live pos).1 hpos)
  rw [Sequence.moveFront_eq h.notMem.1 h.notMem.2]
  refine ⟨s', hs', ?_, fun x hx => ?_⟩
  · rw [map_split, List.erase_append_right _ h.notMem.1, List.erase_cons_head] at hholds
    simpa using hholds
  · rw [helement]
    refine h.values x ?_
    simp only [List.mem_append, List.mem_cons] at hx ⊢
    tauto

theorem popFront (h : s.Refines r) : s.popFront.Refines r.tail := by
  rcases r with _ | ⟨⟨a, v⟩, r⟩
  · have hfront : s.tip .left = none := h.nodes.links.tip .left
    rw [NodeList.popFront, hfront]
    exact h
  · rw [(h.nodes.popFront).1]
    rw [← List.nil_append ((a, v) :: r)] at h
    exact h.out (h.nodes.links.unlink (by simp))

theorem popBack (h : s.Refines r) : s.popBack.Refines r.dropLast := by
  rcases List.eq_nil_or_concat r with rfl | ⟨r, ⟨a, v⟩, rfl⟩
  · have hback : s.tip .right = none := h.nodes.links.tip .right
    rw [NodeList.popBack, hback]
    exact h
  · rw [List.concat_eq_append] at h ⊢
    have hback : s.tip .right = some a := by
      rw [h.nodes.links.tip]
      simp [Side.orient]
    rw [(h.nodes.popBack hback).1, List.dropLast_concat, ← List.append_nil r]
    exact h.out (h.nodes.links.unlink (by simp))

theorem clear (h : s.Refines r) : ∃ s', s.clear = some s' ∧ s'.Refines [] := by
  obtain ⟨s', hs', hholds⟩ := h.nodes.clear
  exact ⟨s', hs', hholds, by simp⟩

/-- A legal call returns, and the reference sequence follows it. -/
theorem call (h : s.Refines r) {c : Call ν ε} (hc : c.Legal s) :
    ∃ s', s.call c = some s' ∧ s'.Refines (c.reference r) := by
  obtain ⟨halloc, hpos⟩ := hc
  cases c with
  | pushFront alloc e =>
    rcases alloc with _ | a
    · exact ⟨s, rfl, h⟩
    · exact ⟨_, rfl, h.emplaceFront (halloc a rfl)⟩
  | pushBack alloc e =>
    rcases alloc with _ | a
    · exact ⟨s, rfl, h⟩
    · exact h.emplaceBack (halloc a rfl)
  | emplaceFront a e => exact ⟨_, rfl, h.emplaceFront (halloc a rfl)⟩
  | emplaceBack a e => exact h.emplaceBack (halloc a rfl)
  | insertAfter pos alloc e =>
    rcases alloc with _ | a
    · exact ⟨s, rfl, h⟩
    · exact ⟨_, rfl, h.emplaceAfter (hpos pos rfl) (halloc a rfl)⟩
  | emplaceAfter pos alloc e =>
    rcases alloc with _ | a
    · exact ⟨s, rfl, h⟩
    · exact ⟨_, rfl, h.emplaceAfter (hpos pos rfl) (halloc a rfl)⟩
  | erase pos => exact ⟨_, rfl, h.erase (hpos pos rfl)⟩
  | eraseAfter pos => exact ⟨_, rfl, h.eraseAfter (hpos pos rfl)⟩
  | moveFront pos =>
    rcases pos with _ | a
    · exact ⟨s, rfl, h⟩
    · exact h.moveFront (hpos a rfl)
  | popFront => exact ⟨_, rfl, h.popFront⟩
  | popBack => exact ⟨_, rfl, h.popBack⟩
  | clear => exact h.clear

end Refines

/-! ### Runs -/

theorem refines_of_run {r : List (ν × ε)} (h : Run s r) : s.Refines r := by
  induction h with
  | start h =>
    refine ⟨⟨fun d => ?_, h.size, by simp [h.live]⟩, by simp⟩
    cases d <;> exact h.tip _
  | call _ hlegal hcall ih =>
    obtain ⟨s', hs', hrefines⟩ := ih.call hlegal
    obtain rfl := Option.some.inj (hs'.symm.trans hcall)
    exact hrefines

/-- What the list is, against the reference sequence, and what its next call does. -/
structure Correct (s : NodeList ν ε) (r : List (ν × ε)) : Prop where
  front : s.tip .left = (r.map Prod.fst).head?
  back : s.tip .right = (r.map Prod.fst).getLast?
  links : ∀ l₁ a l₂, r.map Prod.fst = l₁ ++ a :: l₂ →
    s.link .right a = l₂.head? ∧ s.link .left a = l₁.getLast?
  undone : ∀ a ∈ r.map Prod.fst, ∀ b, s.link .right a = some b → s.link .left b = some a
  nodup : (r.map Prod.fst).Nodup
  size : s.size = r.length
  values : r.map (fun x => s.element x.1) = r.map Prod.snd
  live : ∀ a, a ∈ s.live ↔ a ∈ r.map Prod.fst
  kept : ∀ c : Call ν ε, c.Legal s → ∃ s', s.call c = some s' ∧
    ∀ x ∈ r, x ∈ c.reference r → x.1 ∈ s'.live ∧ s'.element x.1 = s.element x.1
  failed : ∀ pos e, s.call (.pushFront none e) = some s ∧ s.call (.pushBack none e) = some s ∧
    s.call (.insertAfter pos none e) = some s ∧ s.call (.emplaceAfter pos none e) = some s

theorem Refines.correct {r : List (ν × ε)} (h : s.Refines r) : s.Correct r := by
  have hlinks (l₁ : List ν) (a : ν) (l₂ : List ν) (he : r.map Prod.fst = l₁ ++ a :: l₂) :
      s.link .right a = l₂.head? ∧ s.link .left a = l₁.getLast? :=
    (h.nodes.links.link (d := .left) he).symm
  refine ⟨h.nodes.links.tip .left, ?_, hlinks, ?_, h.nodes.links.nodup, ?_, ?_, h.nodes.live, ?_,
    fun _ _ => ⟨rfl, rfl, rfl, rfl⟩⟩
  · rw [h.nodes.links.tip]
    exact List.head?_reverse
  · intro a ha b hb
    obtain ⟨l₁, l₂, he⟩ := List.append_of_mem ha
    have hnext := (hlinks l₁ a l₂ he).1
    rw [hb] at hnext
    obtain ⟨m, rfl⟩ := List.head?_eq_some_iff.1 hnext.symm
    have hlink := (hlinks (l₁ ++ [a]) b m (by simpa using he)).2
    rw [hlink, List.getLast?_concat]
  · rw [h.nodes.size, List.length_map]
  · exact List.map_congr_left fun x hx => h.values x hx
  · intro c hc
    obtain ⟨s', hs', hrefines⟩ := h.call hc
    refine ⟨s', hs', fun x hx hx' => ⟨?_, ?_⟩⟩
    · exact (hrefines.nodes.live _).2 (List.mem_map_of_mem hx')
    · rw [hrefines.values x hx', h.values x hx]

/-- After any calls, the list is the reference sequence under the same calls. -/
theorem sequence_of_run {r : List (ν × ε)} (h : Run s r) : s.Correct r := (refines_of_run h).correct

/-- A new list of numbers. -/
def noNodes : NodeList ℕ ℕ where
  tip _ := none
  link _ _ := none
  element _ := 0
  size := 0
  live := ∅

/-- Two nodes at the back and one between them; the last is moved to the front, and the one that
follows it there erased. -/
theorem sequence_of_run_calls : ∃ s : NodeList ℕ ℕ, s.Correct [(2, 20), (3, 30)] := by
  have hstart : Run noNodes [] := .start ⟨fun _ => rfl, rfl, rfl⟩
  have hback := hstart.call (c := .pushBack (some 1) 10)
    ⟨by rintro _ ⟨⟩; decide, by rintro _ ⟨⟩⟩ rfl
  have hback := hback.call (c := .pushBack (some 2) 20)
    ⟨by rintro _ ⟨⟩; decide, by rintro _ ⟨⟩⟩ rfl
  have hafter := hback.call (c := .insertAfter 1 (some 3) 30)
    ⟨by rintro _ ⟨⟩; decide, by rintro _ ⟨⟩; decide⟩ rfl
  have hfront := hafter.call (c := .moveFront (some 2))
    ⟨by rintro _ ⟨⟩, by rintro _ ⟨⟩; decide⟩ rfl
  have herase := hfront.call (c := .eraseAfter 2)
    ⟨by rintro _ ⟨⟩, by rintro _ ⟨⟩; decide⟩ rfl
  exact ⟨_, sequence_of_run herase⟩

end LruCache.NodeList

end MinStd
