import MinStd.Chain
import MinStd.Side

/-!
# Lists linked both ways

A node links to its neighbour on either side, and the list to its first node from either side.  The
links are those of a list of nodes if they lead through it from both ends (`Linked`), so whatever
is done at one end can be done at the other.
-/

namespace MinStd

variable {α : Type*}

/-- The first node and the neighbours, by side. -/
structure TwoWay (α : Type*) where
  tip : Side → Option α
  link : Side → α → Option α

/-- The nodes as they follow each other from the side. -/
def Side.orient : Side → List α → List α
  | .left, l => l
  | .right, l => l.reverse

@[simp] theorem Side.mem_orient {d : Side} {a : α} {l : List α} : a ∈ d.orient l ↔ a ∈ l := by
  cases d <;> simp [orient]

theorem Side.orient_other (d : Side) (l : List α) : d.other.orient l = (d.orient l).reverse := by
  cases d <;> simp [orient, other]

theorem Side.nodup_orient {d : Side} {l : List α} : (d.orient l).Nodup ↔ l.Nodup := by
  cases d <;> simp [orient]

theorem Side.orient_erase [DecidableEq α] {d : Side} {a : α} {l : List α} (h : l.Nodup) :
    d.orient (l.erase a) = (d.orient l).erase a := by
  cases d with
  | left => rfl
  | right =>
    by_cases ha : a ∈ l
    · obtain ⟨l₁, l₂, rfl⟩ := List.append_of_mem ha
      obtain ⟨-, h₂, hd⟩ := List.nodup_append'.1 h
      have h₁ : a ∉ l₁ := fun ha₁ => hd ha₁ List.mem_cons_self
      have h₂ : a ∉ l₂.reverse := by
        rw [List.mem_reverse]
        exact (List.nodup_cons.1 h₂).1
      rw [orient, orient, List.erase_append_right _ h₁, List.erase_cons_head,
        List.reverse_append, List.reverse_append, List.reverse_cons, List.append_assoc,
        List.erase_append_right _ h₂]
      simp
    · rw [List.erase_of_not_mem ha, List.erase_of_not_mem (by rwa [mem_orient])]

namespace Linked

variable {next : α → Option α} {p : Option α} {l l₁ l₂ : List α} {a : α}

theorem head_eq (h : Linked some next p l none) : p = l.head? := by
  cases l with
  | nil => exact h
  | cons a l => exact h.1

theorem next_eq (h : Linked some next p (l₁ ++ a :: l₂) none) : next a = l₂.head? := by
  obtain ⟨m, -, -, h⟩ := append_iff.1 h
  exact h.head_eq

end Linked

namespace TwoWay

variable {s s' : TwoWay α} {d : Side} {a b : α} {p : Option α} {l l₁ l₂ : List α}

/-- The links lead through the list from both ends. -/
def Holds (s : TwoWay α) (l : List α) : Prop :=
  ∀ d, Linked some (s.link d.other) (s.tip d) (d.orient l) none

theorem Holds.nodup (h : s.Holds l) : l.Nodup :=
  (h .left).nodup (fun _ _ => Option.some.inj) fun _ => Option.some_ne_none _

theorem Holds.tip (h : s.Holds l) (d : Side) : s.tip d = (d.orient l).head? := (h d).head_eq

/-- The neighbours of a node. -/
theorem Holds.link (h : s.Holds l) (he : d.orient l = l₁ ++ a :: l₂) :
    s.link d a = l₁.getLast? ∧ s.link d.other a = l₂.head? := by
  refine ⟨?_, (he ▸ h d).next_eq⟩
  have h' := h d.other
  rw [Side.other_other, Side.orient_other, he, List.reverse_append, List.reverse_cons,
    List.append_assoc] at h'
  exact h'.next_eq.trans List.head?_reverse

def setTip (s : TwoWay α) (d : Side) (p : Option α) : TwoWay α :=
  { s with tip := Function.update s.tip d p }

@[simp] theorem setTip_tip_self : (s.setTip d p).tip d = p := Function.update_self _ _ _

@[simp] theorem setTip_tip_other : (s.setTip d p).tip d.other = s.tip d.other :=
  Function.update_of_ne d.ne_other.symm _ _

@[simp] theorem setTip_other_tip : (s.setTip d.other p).tip d = s.tip d :=
  Function.update_of_ne d.ne_other _ _

@[simp] theorem setTip_link : (s.setTip d p).link = s.link := rfl

variable [DecidableEq α]

def setLink (s : TwoWay α) (d : Side) (a : α) (p : Option α) : TwoWay α :=
  { s with link := Function.update s.link d (Function.update (s.link d) a p) }

@[simp] theorem setLink_tip : (s.setLink d a p).tip = s.tip := rfl

@[simp] theorem setLink_link_self :
    (s.setLink d a p).link d = Function.update (s.link d) a p := Function.update_self _ _ _

@[simp] theorem setLink_link_other : (s.setLink d a p).link d.other = s.link d.other :=
  Function.update_of_ne d.ne_other.symm _ _

@[simp] theorem setLink_other_link : (s.setLink d.other a p).link d = s.link d :=
  Function.update_of_ne d.ne_other _ _

/-- A node put first from the side `d`. -/
def push (s : TwoWay α) (d : Side) (a : α) : TwoWay α :=
  let s' := (s.setLink d.other a (s.tip d)).setLink d a none
  let s' := (match s.tip d with
    | none => s'
    | some b => s'.setLink d b (some a)).setTip d (some a)
  if s'.tip d.other = none then s'.setTip d.other (some a) else s'

/-- The neighbour of `a` on the side `d`, or the list, linked past it. -/
def bypass (s : TwoWay α) (d : Side) (a : α) : TwoWay α :=
  match s.link d a with
  | none => s.setTip d (s.link d.other a)
  | some b => s.setLink d.other b (s.link d.other a)

def unlink (s : TwoWay α) (d : Side) (a : α) : TwoWay α :=
  (s.bypass d a).bypass d.other a

/-- The first node taken off. -/
def pop (s : TwoWay α) (d : Side) : TwoWay α :=
  match s.tip d with
  | none => s
  | some a =>
    match s.link d.other a with
    | none => (s.setTip d none).setTip d.other none
    | some b => (s.setTip d (some b)).setLink d b none

/-- A node put between `a` and its neighbour on the side `d`. -/
def insertAfter (s : TwoWay α) (d : Side) (a b : α) : TwoWay α :=
  let s' := ((s.setLink d b (s.link d a)).setLink d.other b (some a)).setLink d a (some b)
  match s'.link d b with
  | none => s'.setTip d (some b)
  | some c => s'.setLink d.other c (some b)

theorem Holds.push (h : s.Holds l) (ha : a ∉ l) :
    (s.push d a).Holds (d.orient (a :: d.orient l)) := by
  have had : a ∉ d.orient l := fun hm => ha (Side.mem_orient.1 hm)
  have hd := h d
  have ho := h d.other
  have hn := Side.nodup_orient (d := d).2 h.nodup
  have hlist : d.orient (d.orient (a :: d.orient l)) = a :: d.orient l := by
    cases d <;> simp [Side.orient]
  have hlist' : d.other.orient (d.orient (a :: d.orient l)) = (d.orient l).reverse ++ [a] := by
    rw [Side.orient_other, hlist, List.reverse_cons]
  rw [Side.orient_other, Side.other_other] at ho
  have hlink : (s.push d a).link d.other = Function.update (s.link d.other) a (s.tip d) := by
    unfold TwoWay.push
    cases s.tip d <;> dsimp only <;> split_ifs <;> simp
  have htip : (s.push d a).tip d = some a := by
    unfold TwoWay.push
    cases s.tip d <;> dsimp only <;> split_ifs <;> simp
  intro e
  rcases Side.eq_or_other d e with rfl | rfl
  · rw [hlist, hlink, htip]
    exact (hd.update had _).push (Function.update_self _ _ _)
  · rw [hlist', Side.other_other]
    cases hL : d.orient l with
    | nil =>
      rw [hL] at hd ho
      have hd : s.tip d = none := hd
      have ho : s.tip d.other = none := ho
      unfold TwoWay.push
      simp [hd, ho]
    | cons b m =>
      rw [hL] at hd ho hn had
      have hd : s.tip d = some b := hd.1
      rw [List.mem_cons, not_or] at had
      have ho' : s.tip d.other ≠ none := by
        rw [ho.head_eq]
        simp
      unfold TwoWay.push
      simp only [hd, setTip_tip_other, setLink_tip, if_neg ho', setTip_link, setLink_link_self]
      rw [List.reverse_cons] at ho ⊢
      obtain ⟨p, h₁, rfl, h₂⟩ := Linked.append_iff.1 ho
      refine Linked.append_iff.2 ⟨some a, Linked.append_iff.2 ⟨some b, ?_, rfl, ?_⟩, rfl, ?_⟩
      · refine h₁.congr fun c hc => ?_
        rw [List.mem_reverse] at hc
        have hcb : c ≠ b := by
          rintro rfl
          exact (List.nodup_cons.1 hn).1 hc
        have hca : c ≠ a := by
          rintro rfl
          exact had.2 hc
        rw [Function.update_of_ne hcb, Function.update_of_ne hca, setLink_other_link]
      · exact Function.update_self _ _ _
      · rw [Function.update_of_ne had.1, Function.update_self]
        rfl

theorem bypass_link : (s.bypass d a).link d = s.link d := by
  unfold bypass
  split
  · rfl
  · rw [setLink_other_link]

theorem bypass_tip_other : (s.bypass d a).tip d.other = s.tip d.other := by
  unfold bypass
  split
  · rw [setTip_tip_other]
  · rfl

/-- Linked past a node, the chain from the side `d` misses it. -/
theorem Holds.bypass (h : s.Holds l) (ha : a ∈ l) :
    Linked some ((s.bypass d a).link d.other) ((s.bypass d a).tip d) ((d.orient l).erase a) none
      ∧ (s.bypass d a).link d.other a = s.link d.other a := by
  have hn := Side.nodup_orient (d := d).2 h.nodup
  obtain ⟨l₁, l₂, he⟩ := List.append_of_mem (Side.mem_orient (d := d).2 ha)
  obtain ⟨hl, hr⟩ := h.link he
  have hd := h d
  unfold TwoWay.bypass
  rcases List.eq_nil_or_concat l₁ with rfl | ⟨m, b, rfl⟩
  · rw [hl]
    rw [he] at hd ⊢
    simp only [List.nil_append, List.getLast?_nil, setTip_tip_self, setTip_link,
      List.erase_cons_head]
    exact ⟨hd.2, trivial⟩
  · have hlb : s.link d a = some b := by rw [hl]; simp
    have hab : a ≠ b := by
      rintro rfl
      rw [he] at hn
      simp [List.nodup_append] at hn
    simp only [hlb, setLink_tip, setLink_link_self]
    have hb : b ∈ d.orient l := by rw [he]; simp
    have hnext : s.link d.other b = some a := by
      rw [he, List.concat_append] at hd
      exact hd.next_eq
    exact ⟨(hd.unlink_after (fun _ _ => Option.some.inj) (fun _ => Option.some_ne_none _) hb
      hnext).1, Function.update_of_ne hab _ _⟩

theorem bypass_congr (ha : s'.link d a = s.link d a) (hl : s'.link d.other = s.link d.other)
    (ht : s'.tip d = s.tip d) : (s'.bypass d a).link d.other = (s.bypass d a).link d.other
      ∧ (s'.bypass d a).tip d = (s.bypass d a).tip d := by
  unfold TwoWay.bypass
  rw [ha]
  split
  · simp [hl]
  · simp [hl, ht]

/-- A node taken out. -/
theorem Holds.unlink (h : s.Holds l) (ha : a ∈ l) : (s.unlink d a).Holds (l.erase a) := by
  obtain ⟨h₁, hlink⟩ := h.bypass (d := d) ha
  obtain ⟨h₂, -⟩ := h.bypass (d := d.other) ha
  have hc := bypass_congr (s := s) (d := d.other) hlink
    (by rw [Side.other_other]; exact bypass_link) bypass_tip_other
  intro e
  rw [Side.orient_erase h.nodup]
  unfold TwoWay.unlink
  rcases Side.eq_or_other d e with rfl | rfl
  · have hl := bypass_link (s := s.bypass e a) (d := e.other) (a := a)
    have ht := bypass_tip_other (s := s.bypass e a) (d := e.other) (a := a)
    rw [Side.other_other] at ht
    rw [hl, ht]
    exact h₁
  · rw [hc.1, hc.2]
    exact h₂

/-- The first node is taken out. -/
theorem Holds.pop_eq (h : s.Holds l) (ha : s.tip d = some a) : s.pop d = s.unlink d a := by
  obtain ⟨l₂, he⟩ : ∃ l₂, d.orient l = [] ++ a :: l₂ := by
    have := h.tip d
    rw [ha] at this
    exact List.head?_eq_some_iff.1 this.symm
  obtain ⟨hl, hr⟩ := h.link he
  have hl : s.link d a = none := hl
  rw [TwoWay.pop, ha, TwoWay.unlink, TwoWay.bypass, TwoWay.bypass]
  simp only [hl, setTip_link, Side.other_other]
  cases hn : s.link d.other a with
  | none => simp
  | some b => simp

theorem Holds.insertAfter (h : s.Holds l) (he : d.other.orient l = l₁ ++ a :: l₂) (hb : b ∉ l) :
    (s.insertAfter d a b).Holds (d.other.orient (l₁ ++ a :: b :: l₂)) := by
  have hbe : b ∉ l₁ ++ a :: l₂ := by
    rw [← he, Side.mem_orient]
    exact hb
  have hba : b ≠ a := by
    rintro rfl
    exact hbe (by simp)
  obtain ⟨hleft, hright⟩ := h.link he
  rw [Side.other_other] at hright
  have hd := h d.other
  rw [Side.other_other, he] at hd
  have ho : Linked some (s.link d.other) (s.tip d) (l₁ ++ a :: l₂).reverse none := by
    rw [← he, ← Side.orient_other, Side.other_other]
    exact h d
  have hbr : b ∉ (l₁ ++ a :: l₂).reverse := fun hm => hbe (List.mem_reverse.1 hm)
  have hlist : d.other.orient (d.other.orient (l₁ ++ a :: b :: l₂)) = l₁ ++ a :: b :: l₂ := by
    cases d <;> simp [Side.orient, Side.other]
  have hlist' : d.orient (d.other.orient (l₁ ++ a :: b :: l₂)) = (l₁ ++ a :: b :: l₂).reverse := by
    cases d <;> simp [Side.orient, Side.other]
  set t := ((s.setLink d b (s.link d a)).setLink d.other b (some a)).setLink d a (some b) with ht
  have htd : t.link d =
      Function.update (Function.update (s.link d) b (s.link d a)) a (some b) := by simp [ht]
  have hto : t.link d.other = Function.update (s.link d.other) b (some a) := by simp [ht]
  have htip : t.tip = s.tip := rfl
  have htb : t.link d b = s.link d a := by
    rw [htd, Function.update_of_ne hba, Function.update_self]
  have hfrom : Linked some (t.link d) (s.tip d.other) (l₁ ++ a :: b :: l₂) none := by
    rw [htd]
    refine Linked.insert_between (fun _ _ => Option.some.inj) (fun _ => Option.some_ne_none _)
      (hd.update hbe _) hbe ?_
    rw [Function.update_self, Function.update_of_ne hba.symm]
  have heq : s.insertAfter d a b = match t.link d b with
    | none => t.setTip d (some b)
    | some c => t.setLink d.other c (some b) := rfl
  rw [htb, hright] at heq
  rw [heq]
  intro e
  rcases Side.eq_or_other d e with rfl | rfl
  · rw [hlist']
    rcases l₂ with _ | ⟨c, m⟩
    · simp only [List.head?_nil, setTip_tip_self, setTip_link, hto]
      simp only [List.reverse_append, List.reverse_cons, List.reverse_nil, List.nil_append,
        List.cons_append] at ho hbr ⊢
      refine Linked.push (ho.update hbr _) ?_
      rw [Function.update_self]
      exact ho.1.symm
    · simp only [List.head?_cons, setLink_tip, setLink_link_self, hto, htip]
      simp only [List.reverse_append, List.reverse_cons, List.append_assoc, List.cons_append,
        List.nil_append] at ho hbr ⊢
      have hcb : c ≠ b := by
        rintro rfl
        exact hbr (by simp)
      refine Linked.insert_between (fun _ _ => Option.some.inj) (fun _ => Option.some_ne_none _)
        (ho.update hbr _) hbr ?_
      rw [Function.update_self, Function.update_of_ne hcb]
      exact ho.next_eq.symm
  · rw [hlist, Side.other_other]
    split
    · simpa [htip] using hfrom
    · simpa [htip] using hfrom

end TwoWay

end MinStd
