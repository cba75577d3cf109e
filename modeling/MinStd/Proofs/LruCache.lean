import MinStd.LruCache
import MinStd.Proofs.AvlTree

/-!
# The cache against the reference cache

The list's nodes, in order, hold the entries of the reference cache, and the tree holds for each
key the node of its entry.  A node that is moved, or that stays while another goes, keeps its
element, so the stored iterators stay right.
-/

namespace MinStd.LruCache

variable {ν μ κ β : Type*} [DecidableEq ν]

namespace NodeList

variable {ε : Type*} {s : NodeList ν ε} {l : List ν} {a : ν} {e : ε} {n : ℕ}

/-- The nodes in use are those of the list. -/
structure Holds (s : NodeList ν ε) (l : List ν) : Prop where
  links : s.toTwoWay.Holds l
  size : s.size = l.length
  live : ∀ a, a ∈ s.live ↔ a ∈ l

theorem Holds.emplaceFront (h : s.Holds l) (ha : a ∉ s.live) :
    (s.emplaceFront a e).Holds (a :: l) := by
  refine ⟨h.links.push (d := .left) fun hl => ha ((h.live a).2 hl), ?_, fun b => ?_⟩
  · show s.size + 1 = _
    rw [h.size, List.length_cons]
  · show b ∈ insert a s.live ↔ _
    rw [Finset.mem_insert, h.live, List.mem_cons]

theorem Holds.destroy {u : TwoWay ν} (h : s.Holds l) (ha : a ∈ l) (hu : u.Holds (l.erase a)) :
    (s.destroy a u).Holds (l.erase a) := by
  refine ⟨hu, ?_, fun b => ?_⟩
  · show s.size - 1 = _
    rw [h.size, List.length_erase_of_mem ha]
  · show b ∈ s.live.erase a ↔ _
    rw [Finset.mem_erase, h.live, h.links.nodup.mem_erase_iff]

theorem Holds.erase (h : s.Holds l) (ha : a ∈ l) : (s.erase a).Holds (l.erase a) :=
  h.destroy ha (h.links.unlink ha)

theorem Holds.popFront (h : s.Holds (a :: l)) :
    s.popFront = s.destroy a (s.unlink .left a) ∧ s.popFront.Holds l := by
  have ht : s.tip .left = some a := h.links.tip .left
  have he : s.popFront = s.destroy a (s.unlink .left a) := by
    rw [NodeList.popFront, ht, h.links.pop_eq ht]
  refine ⟨he, ?_⟩
  have hd := h.erase List.mem_cons_self
  rw [List.erase_cons_head] at hd
  rw [he]
  exact hd

theorem Holds.popBack (h : s.Holds l) (ha : s.tip .right = some a) :
    s.popBack = s.destroy a (s.unlink .right a) ∧ s.popBack.Holds (l.erase a) := by
  have he : s.popBack = s.destroy a (s.unlink .right a) := by
    rw [NodeList.popBack, ha, h.links.pop_eq ha]
  have hl : a ∈ l := by
    have ht := h.links.tip .right
    rw [ha] at ht
    exact Side.mem_orient.1 (List.mem_of_head? ht.symm)
  exact ⟨he, he ▸ h.destroy hl (h.links.unlink hl)⟩

/-- The moved node comes first; no element changes. -/
theorem Holds.moveFront (h : s.Holds l) (ha : a ∈ l) :
    ∃ s', s.moveFront (some a) = some s' ∧ s'.Holds (a :: l.erase a) ∧ s'.element = s.element := by
  obtain ⟨l₁, l₂, he⟩ := List.append_of_mem ha
  obtain ⟨hl, -⟩ := h.links.link (d := .left) he
  rw [NodeList.moveFront]
  split_ifs with hf
  · obtain rfl : l₁ = [] := by
      rw [hf] at hl
      exact List.getLast?_eq_none_iff.1 hl.symm
    subst he
    exact ⟨s, rfl, by simpa using h, rfl⟩
  · have hu := h.links.unlink (d := .left) ha
    have hn : a ∉ l.erase a := h.links.nodup.not_mem_erase
    have hne : l.erase a ≠ [] := by
      intro hnil
      refine hf (hl.trans ?_)
      rw [List.getLast?_eq_none_iff]
      have hlen := List.length_erase_of_mem ha
      rw [hnil, he] at hlen
      simp only [List.length_nil, List.length_append, List.length_cons] at hlen
      exact List.length_eq_zero_iff.1 (by omega)
    have hpush := hu.push (d := .left) hn
    obtain ⟨f, m, hfm⟩ := List.exists_cons_of_ne_nil hne
    have htip : (s.unlink .left a).tip .left = some f := by
      rw [hu.tip, hfm]
      rfl
    have hback : (s.unlink .left a).tip .right ≠ none := by
      rw [hu.tip, hfm]
      simp [Side.orient]
    have hpe : (s.unlink .left a).push .left a
        = ((((s.unlink .left a).setLink .right a (some f)).setLink .left a none).setLink .left f
            (some a)).setTip .left (some a) := by
      rw [TwoWay.push, htip]
      exact if_neg hback
    refine ⟨{ s with toTwoWay := (s.unlink .left a).push .left a }, ?_,
      ⟨hpush, ?_, fun b => ?_⟩, rfl⟩
    · dsimp only
      rw [htip, hpe]
      rfl
    · show s.size = _
      rw [h.size, List.length_cons, List.length_erase_of_mem ha,
        Nat.sub_add_cancel (List.length_pos_of_mem ha)]
    · show b ∈ s.live ↔ _
      rw [h.live, List.mem_cons, h.links.nodup.mem_erase_iff]
      by_cases hb : b = a
      · simp [hb, ha]
      · simp [hb]

theorem clearLoop_spec {p : Option ν} {live : Finset ν} (h : Linked some (s.link .right) p l none)
    (hl : ∀ b ∈ live, b ∈ l) : s.clearLoop l.length p live = some ∅ := by
  induction l generalizing p live with
  | nil =>
    obtain rfl : p = none := h
    rw [Finset.eq_empty_iff_forall_notMem.2 fun b hb => List.not_mem_nil (hl b hb)]
    rfl
  | cons a l ih =>
    obtain ⟨rfl, h⟩ := h
    refine ih h fun b hb => ?_
    obtain ⟨hne, hb⟩ := Finset.mem_erase.1 hb
    exact (List.mem_cons.1 (hl b hb)).resolve_left hne

theorem Holds.clear (h : s.Holds l) : ∃ s', s.clear = some s' ∧ s'.Holds [] := by
  have hc := clearLoop_spec (h.links .left) fun b hb => (h.live b).1 hb
  refine ⟨_, by rw [NodeList.clear, h.size]; exact congrArg _ hc, ⟨fun d => ?_, rfl, by simp⟩⟩
  cases d <;> rfl

end NodeList

namespace Arg

variable {ε γ : Type*} {s s' : NodeList ν ε} {arg : Arg ν ε γ} {a : ν} {v : γ} {e : ε}

theorem read_congr (hel : s'.element = s.element)
    (hlive : ∀ a, arg.Inside a → (a ∈ s'.live ↔ a ∈ s.live)) : arg.read s' = arg.read s := by
  cases arg with
  | outside v => rfl
  | inside b part =>
    unfold read
    rw [hel]
    exact if_congr (hlive b rfl) rfl rfl

theorem read_gone (hin : arg.Inside a) (ha : a ∉ s.live) : arg.read s = none := by
  cases arg with
  | outside v => exact hin.elim
  | inside b part =>
    obtain rfl : b = a := hin
    exact if_neg ha

theorem read_emplaceFront (ha : a ∉ s.live) (h : arg.read s = some v) :
    arg.read (s.emplaceFront a e) = some v := by
  cases arg with
  | outside v => exact h
  | inside b part =>
    change (if b ∈ s.live then some (part (s.element b)) else none) = some v at h
    split_ifs at h with hb
    have hba : b ≠ a := fun hba => ha (hba ▸ hb)
    refine (if_pos (Finset.mem_insert_of_mem hb)).trans ?_
    rw [← h]
    show some (part (Function.update s.element a e b)) = _
    rw [Function.update_of_ne hba]

end Arg

namespace State

variable [DecidableEq μ] [LinearOrder κ] {s s' : State ν μ κ β} {l : List ν} {t : BinaryTree μ}
  {k : κ} {v : β} {a : ν} {alloc : Option μ}

/-- The key that a node of the list holds. -/
def keyOf (s : State ν μ κ β) (a : ν) : κ := (s.cacheEntries.element a).1

/-- The list's nodes are in use, with distinct keys, and for each key the tree holds its node. -/
structure Holds (s : State ν μ κ β) (l : List ν) (t : BinaryTree μ) : Prop where
  list : s.cacheEntries.Holds l
  tree : s.cacheEntryMap.Holds t
  stored : ∃ m, s.cacheEntryMap.Maps m ∧ ∀ k p, m k = some p ↔ ∃ a ∈ l, p = some a ∧ s.keyOf a = k
  keys : (l.map s.keyOf).Nodup
  length_le : l.length ≤ s.maxCacheSize

/-- What the list holds. -/
def entries (s : State ν μ κ β) (l : List ν) : List (κ × β) := l.map s.cacheEntries.element

omit [DecidableEq ν] [DecidableEq μ] in
theorem Empty.holds (h : s.Empty) : s.Holds [] .nil := by
  refine ⟨⟨fun d => ?_, h.size, fun a => ?_⟩, h.map.holds, ⟨fun _ => none, ?_, by simp⟩,
    List.nodup_nil, Nat.zero_le _⟩
  · cases d <;> exact h.tip _
  · simp [h.live]
  · intro k v
    simp [h.map.2.2]

omit [DecidableEq ν] [DecidableEq μ] in
/-- The search for a key ends at its node, if it is in the list. -/
theorem Holds.find (h : s.Holds l t) (k : κ) :
    s.cacheEntryMap.find k = some none ∧ (∀ a ∈ l, s.keyOf a ≠ k)
      ∨ ∃ b ∈ s.cacheEntryMap.live, ∃ a ∈ l, s.cacheEntryMap.find k = some (some b)
        ∧ s.cacheEntryMap.key b = k ∧ s.cacheEntryMap.value b = some a ∧ s.keyOf a = k := by
  obtain ⟨m, hm, hl⟩ := h.stored
  obtain ⟨q, hq, hqb⟩ := h.tree.find k
  cases q with
  | none =>
    refine .inl ⟨hq, fun a ha hk => ?_⟩
    obtain ⟨b, hb, hbk, -⟩ := (hm k (some a)).1 ((hl k _).2 ⟨a, ha, rfl, hk⟩)
    cases (hqb b).2 ⟨hb, hbk⟩
  | some b =>
    obtain ⟨hb, hbk⟩ := (hqb b).1 rfl
    obtain ⟨a, ha, hv, hak⟩ := (hl k _).1 ((hm k _).2 ⟨b, hb, hbk, rfl⟩)
    exact .inr ⟨b, hb, a, ha, hq, hbk, hv, hak⟩

omit [DecidableEq ν] [DecidableEq μ] in
theorem Holds.key_inj (h : s.Holds l t) {b : ν} (ha : a ∈ l) (hb : b ∈ l)
    (he : s.keyOf a = s.keyOf b) : a = b :=
  List.inj_on_of_nodup_map h.keys ha hb he

/-- An entry goes, from the list and from the tree. -/
theorem Holds.drop (h : s.Holds l t) (ha : a ∈ l) {b : μ} (hb : b ∈ s.cacheEntryMap.live)
    (hk : s.cacheEntryMap.key b = s.keyOf a) {u : TwoWay ν} (hu : u.Holds (l.erase a))
    (hs : s'.cacheEntries = s.cacheEntries.destroy a u)
    (he : s.cacheEntryMap.eraseKey (s.keyOf a) = some (s'.cacheEntryMap, 1))
    (hmax : s'.maxCacheSize = s.maxCacheSize) : ∃ t', s'.Holds (l.erase a) t' := by
  obtain ⟨m, hm, hl⟩ := h.stored
  obtain ⟨x, hx, hx', hkey, hval, hlive, -⟩ := h.tree.eraseKey hb
  rw [hk, he] at hx
  obtain rfl : s'.cacheEntryMap = x := congrArg Prod.fst (Option.some.inj hx)
  have hkeyOf : s'.keyOf = s.keyOf := by
    funext c
    rw [keyOf, hs]
    rfl
  refine ⟨_, hs ▸ h.list.destroy ha hu, hx',
    ⟨_, hm.erase (fun c hc he => h.tree.key_inj hc hb he) hkey hval hlive, fun k p => ?_⟩, ?_, ?_⟩
  · simp only [h.list.links.nodup.mem_erase_iff, hkeyOf, hk]
    by_cases hka : k = s.keyOf a
    · subst hka
      rw [Function.update_self]
      refine ⟨nofun, ?_⟩
      rintro ⟨c, ⟨hne, hc⟩, -, hck⟩
      exact absurd (h.key_inj hc ha hck) hne
    · rw [Function.update_of_ne hka, hl]
      constructor
      · rintro ⟨c, hc, rfl, rfl⟩
        exact ⟨c, ⟨fun hca => hka (hca ▸ rfl), hc⟩, rfl, rfl⟩
      · rintro ⟨c, ⟨-, hc⟩, hp, hck⟩
        exact ⟨c, hc, hp, hck⟩
  · rw [hkeyOf]
    exact h.keys.sublist (List.erase_sublist.map _)
  · rw [hmax]
    exact (List.length_erase_le).trans h.length_le

omit [DecidableEq μ] in
theorem Holds.dropLast_eq (h : s.Holds l t) (ha : s.cacheEntries.tip .right = some a) :
    a ∈ l ∧ l.erase a = l.dropLast := by
  have ht := h.list.links.tip .right
  rw [ha] at ht
  have hl : l.getLast? = some a := by
    rw [← List.head?_reverse]
    exact ht.symm
  obtain ⟨m, rfl⟩ := List.getLast?_eq_some_iff.1 hl
  have hn := (List.nodup_append'.1 h.list.links.nodup).2.2
  have ham : a ∉ m := fun hm => hn hm (List.mem_singleton.2 rfl)
  refine ⟨by simp, ?_⟩
  rw [List.erase_append_right _ ham, List.erase_cons_head, List.dropLast_concat, List.append_nil]

/-- Room is made by dropping the last entry. -/
theorem Holds.insureSpaceExists (h : s.Holds l t) (hmax : s.maxCacheSize ≠ 0) :
    ∃ s' t', s.insureSpaceExists = some s'
      ∧ s'.Holds (if s.maxCacheSize ≤ l.length then l.dropLast else l) t'
      ∧ s'.cacheEntries.element = s.cacheEntries.element ∧ s'.maxCacheSize = s.maxCacheSize
      ∧ (if s.maxCacheSize ≤ l.length then l.dropLast else l).length < s.maxCacheSize := by
  rw [State.insureSpaceExists, h.list.size]
  split_ifs with hle
  · have hne : l ≠ [] := by
      rintro rfl
      exact hmax (Nat.le_zero.1 hle)
    obtain ⟨a, ha⟩ : ∃ a, s.cacheEntries.tip .right = some a := by
      rw [h.list.links.tip]
      exact ⟨_, (List.head?_reverse (l := l)).trans (List.getLast?_eq_some_getLast hne)⟩
    obtain ⟨hal, hlast⟩ := h.dropLast_eq ha
    obtain ⟨-, hnone⟩ | ⟨b, hb, c, hc, -, hbk, -, hck⟩ := h.find (s.keyOf a)
    · exact absurd rfl (hnone a hal)
    · obtain ⟨x, hx, -⟩ := h.tree.eraseKey hb
      obtain ⟨hpop, -⟩ := h.list.popBack ha
      rw [hbk] at hx
      set s' : State ν μ κ β :=
        { s with cacheEntryMap := x, cacheEntries := s.cacheEntries.popBack } with hs'
      have hcut : s'.cacheEntries = _ := hpop
      obtain ⟨t', ht'⟩ := h.drop hal hb hbk (h.list.links.unlink (d := .right) hal) hcut hx rfl
      rw [hlast] at ht'
      refine ⟨s', t', ?_, ht', ?_, rfl, ?_⟩
      · rw [ha, Option.bind_some]
        show (s.cacheEntryMap.eraseKey (s.keyOf a)).map _ = _
        rw [hx]
        rfl
      · show s.cacheEntries.popBack.element = _
        rw [hpop]
        rfl
      · have hlen := h.length_le
        rw [List.length_dropLast]
        omega
  · exact ⟨s, t, rfl, h, rfl, rfl, by omega⟩

omit [DecidableEq ν] [DecidableEq μ] in
theorem Holds.absent (h : s.Holds l t) (hk : ∀ a ∈ l, s.keyOf a ≠ k) :
    ∀ b ∈ s.cacheEntryMap.live, s.cacheEntryMap.key b ≠ k := by
  obtain ⟨m, hm, hl⟩ := h.stored
  intro b hb hbk
  obtain ⟨a, ha, -, hak⟩ := (hl k _).1 ((hm k _).2 ⟨b, hb, hbk, rfl⟩)
  exact hk a ha hak

/-- With a node for the tree a new entry comes first. -/
theorem Holds.insert (h : s.Holds l t) (hk : ∀ a ∈ l, s.keyOf a ≠ k) (ha : a ∉ s.cacheEntries.live)
    (hlen : l.length < s.maxCacheSize) {b : μ} (hb : b ∉ s.cacheEntryMap.live) :
    ∃ x t', s.cacheEntryMap.insertValue k (some a) (some b) = some (x, some b, true)
      ∧ ({ s with
            cacheEntries := s.cacheEntries.emplaceFront a (k, v)
            cacheEntryMap := x } : State ν μ κ β).Holds (a :: l) t' := by
  obtain ⟨m, hm, hl⟩ := h.stored
  obtain ⟨x, t', hx, ht', hkey, hval, hlive, -⟩ :=
    h.tree.insertValue_new (v := some a) (h.absent hk) hb
  refine ⟨x, t', hx, h.list.emplaceFront ha, ht',
    ⟨_, hm.insert hb (h.absent hk) hkey hval hlive, fun k' p => ?_⟩, ?_, hlen⟩
  all_goals
    have hal : ∀ c ∈ l, c ≠ a := fun c hc hca => ha ((h.list.live a).2 (hca ▸ hc))
    have hkeyOf : ∀ c ∈ l, (Function.update s.cacheEntries.element a (k, v) c).1 = s.keyOf c :=
      fun c hc => by rw [Function.update_of_ne (hal c hc)]; rfl
  · show _ ↔ ∃ c ∈ a :: l, p = some c ∧ (Function.update s.cacheEntries.element a (k, v) c).1 = k'
    simp only [List.mem_cons, exists_eq_or_imp, Function.update_self]
    by_cases hk' : k' = k
    · subst hk'
      rw [Function.update_self, Option.some.injEq]
      refine ⟨fun he => .inl ⟨he.symm, rfl⟩, ?_⟩
      rintro (⟨rfl, -⟩ | ⟨c, hc, -, hck⟩)
      · rfl
      · exact absurd ((hkeyOf c hc).symm.trans hck) (hk c hc)
    · rw [Function.update_of_ne hk', hl]
      constructor
      · rintro ⟨c, hc, hp, hck⟩
        exact .inr ⟨c, hc, hp, (hkeyOf c hc).trans hck⟩
      · rintro (⟨-, he⟩ | ⟨c, hc, hp, hck⟩)
        · exact absurd he.symm hk'
        · exact ⟨c, hc, hp, (hkeyOf c hc).symm.trans hck⟩
  · show ((a :: l).map fun c => (Function.update s.cacheEntries.element a (k, v) c).1).Nodup
    rw [List.map_cons, List.map_congr_left hkeyOf, Function.update_self, List.nodup_cons]
    refine ⟨fun hm => ?_, h.keys⟩
    obtain ⟨c, hc, hck⟩ := List.mem_map.1 hm
    exact hk c hc hck

/-- Without one the new entry is taken back. -/
theorem Holds.insert_none (h : s.Holds l t) (hk : ∀ a ∈ l, s.keyOf a ≠ k)
    (ha : a ∉ s.cacheEntries.live) :
    s.cacheEntryMap.insertValue k (some a) none = some (s.cacheEntryMap, none, false)
      ∧ ({ s with cacheEntries := (s.cacheEntries.emplaceFront a (k, v)).popFront } :
          State ν μ κ β).Holds l t
      ∧ ∀ b ∈ l, (s.cacheEntries.emplaceFront a (k, v)).popFront.element b
          = s.cacheEntries.element b := by
  obtain ⟨m, hm, hl⟩ := h.stored
  have hpush := h.list.emplaceFront (e := (k, v)) ha
  obtain ⟨hpop, hlist⟩ := hpush.popFront
  have hel : ∀ b ∈ l, (s.cacheEntries.emplaceFront a (k, v)).popFront.element b
      = s.cacheEntries.element b := by
    intro b hb
    have hba : b ≠ a := by
      rintro rfl
      exact ha ((h.list.live b).2 hb)
    rw [hpop]
    exact Function.update_of_ne hba _ _
  have hkeyOf : ∀ b ∈ l, ((s.cacheEntries.emplaceFront a (k, v)).popFront.element b).1
      = s.keyOf b := fun b hb => congrArg Prod.fst (hel b hb)
  refine ⟨h.tree.insertValue_none (h.absent hk), ⟨hlist, h.tree, ⟨m, hm, fun k' p => ?_⟩, ?_,
    h.length_le⟩, hel⟩
  · rw [hl]
    refine exists_congr fun b => and_congr_right fun hb => ?_
    rw [← hkeyOf b hb]
    rfl
  · show (l.map fun b => ((s.cacheEntries.emplaceFront a (k, v)).popFront.element b).1).Nodup
    rw [List.map_congr_left hkeyOf]
    exact h.keys

/-! ### The reference's steps on the entries -/

omit [DecidableEq ν] [DecidableEq μ] [LinearOrder κ] in
theorem mem_keys_entries : k ∈ (s.entries l).map Prod.fst ↔ ∃ a ∈ l, s.keyOf a = k := by
  simp [entries, keyOf]

omit [DecidableEq ν] [DecidableEq μ] in
theorem Holds.find?_entries (h : s.Holds l t) (ha : a ∈ l) (hk : s.keyOf a = k) :
    (s.entries l).find? (fun e => e.1 = k) = some (s.cacheEntries.element a) := by
  cases hf : (s.entries l).find? fun e => e.1 = k with
  | none =>
    have hn := List.find?_eq_none.1 hf _ (List.mem_map_of_mem ha)
    exact absurd hk (by simpa [keyOf] using hn)
  | some e =>
    obtain ⟨c, hc, rfl⟩ := List.mem_map.1 (List.mem_of_find?_eq_some hf)
    have hck : s.keyOf c = k := by simpa [keyOf] using List.find?_some hf
    rw [h.key_inj hc ha (hck.trans hk.symm)]

omit [DecidableEq ν] [DecidableEq μ] in
theorem find?_entries_none (hk : ∀ a ∈ l, s.keyOf a ≠ k) :
    (s.entries l).find? (fun e => e.1 = k) = none := by
  rw [List.find?_eq_none]
  intro e he
  obtain ⟨c, hc, rfl⟩ := List.mem_map.1 he
  simpa [keyOf] using hk c hc

omit [DecidableEq μ] in
theorem Holds.filter_entries (h : s.Holds l t) (ha : a ∈ l) (hk : s.keyOf a = k) :
    (s.entries l).filter (fun e => e.1 ≠ k) = s.entries (l.erase a) := by
  rw [entries, List.filter_map, entries, h.list.links.nodup.erase_eq_filter]
  congr 1
  refine List.filter_congr fun c hc => ?_
  have hiff : s.keyOf c = k ↔ c = a :=
    ⟨fun hck => h.key_inj hc ha (hck.trans hk.symm), fun he => he ▸ hk⟩
  by_cases hca : c = a
  · simp [hca, show (s.cacheEntries.element a).1 = k from hk]
  · simp [hca, show (s.cacheEntries.element c).1 ≠ k from fun hck => hca (hiff.1 hck)]

omit [DecidableEq ν] [DecidableEq μ] in
theorem filter_entries_none (hk : ∀ a ∈ l, s.keyOf a ≠ k) :
    (s.entries l).filter (fun e => e.1 ≠ k) = s.entries l := by
  rw [List.filter_eq_self]
  intro e he
  obtain ⟨c, hc, rfl⟩ := List.mem_map.1 he
  simpa [keyOf] using hk c hc

/-! ### The calls -/

omit [DecidableEq μ] in
/-- Room is made in the list by one node's going. -/
theorem Holds.mem_live (h : s.Holds l t) {u : State ν μ κ β} {t' : BinaryTree μ}
    (h' : u.Holds (if s.maxCacheSize ≤ l.length then l.dropLast else l) t') (hne : s.maxCacheSize ≠ 0)
    (b : ν) : b ∈ u.cacheEntries.live ↔ b ∈ s.cacheEntries.live
      ∧ ¬ (s.maxCacheSize ≤ s.cacheEntries.size ∧ s.cacheEntries.tip .right = some b) := by
  rw [h'.list.live, h.list.live, h.list.size]
  split_ifs with hle
  · obtain ⟨c, hc⟩ : ∃ c, s.cacheEntries.tip .right = some c := by
      have hl : l ≠ [] := by
        rintro rfl
        exact hne (Nat.le_zero.1 hle)
      rw [h.list.links.tip]
      exact ⟨_, (List.head?_reverse (l := l)).trans (List.getLast?_eq_some_getLast hl)⟩
    obtain ⟨-, hlast⟩ := h.dropLast_eq hc
    rw [← hlast, h.list.links.nodup.mem_erase_iff, hc, Option.some.injEq, and_comm, eq_comm]
    exact and_congr_right fun _ => ⟨fun hn hbc => hn hbc.2, fun hn hbc => hn ⟨hle, hbc⟩⟩
  · exact ⟨fun hb => ⟨hb, fun hn => hle hn.1⟩, And.left⟩

section Add

variable {key : κ} {value : β} {k : Arg ν (κ × β) κ} {v : Arg ν (κ × β) β}

omit [DecidableEq μ] in
/-- What an argument spared by the making of room says after it. -/
theorem Holds.read_spared (h : s.Holds l t) {u : State ν μ κ β} {t' : BinaryTree μ}
    (h' : u.Holds (if s.maxCacheSize ≤ l.length then l.dropLast else l) t')
    (hel : u.cacheEntries.element = s.cacheEntries.element) (hne : s.maxCacheSize ≠ 0)
    {γ : Type*} {arg : Arg ν (κ × β) γ} (hs : s.maxCacheSize ≤ s.cacheEntries.size →
      ∀ a, s.cacheEntries.tip .right = some a → ¬ arg.Inside a) :
    arg.read u.cacheEntries = arg.read s.cacheEntries :=
  Arg.read_congr hel fun b hb => (h.mem_live h' hne b).trans
    (and_iff_left fun hn => hs hn.1 b hn.2 hb)

theorem Holds.add (h : s.Holds l t) (hc : Call.Legal s (.add k v a alloc : Call ν μ κ β))
    (hs : Call.Spares s (.add k v a alloc : Call ν μ κ β)) (hk : k.read s.cacheEntries = some key)
    (hv : v.read s.cacheEntries = some value) :
    ∃ s' b l' t', s.add k v a alloc = some (s', b) ∧ s'.Holds l' t'
      ∧ (s'.entries l', b) = Reference.add s.maxCacheSize key value alloc.isSome (s.entries l)
      ∧ s'.maxCacheSize = s.maxCacheSize := by
  rw [State.add, Reference.add]
  by_cases hmax : s.maxCacheSize = 0
  · rw [if_pos hmax, if_pos hmax]
    exact ⟨s, false, l, t, rfl, h, rfl, rfl⟩
  rw [if_neg hmax, if_neg hmax, hk, Option.bind_some]
  obtain ⟨hf, hkey⟩ | ⟨b, -, c, hcl, hf, -, -, hck⟩ := h.find key
  swap
  · rw [if_pos (mem_keys_entries.2 ⟨c, hcl, hck⟩), hf]
    exact ⟨s, false, l, t, rfl, h, rfl, rfl⟩
  have hadds : s.Adds k := ⟨hmax, key, hk, hf⟩
  have hmem : key ∉ (s.entries l).map Prod.fst := fun hm =>
    (mem_keys_entries.1 hm).elim fun c hc => hkey c hc.1 hc.2
  rw [if_neg hmem, hf, Option.bind_some, if_neg (not_not.2 rfl)]
  obtain ⟨u, t', hu, h', hel, hmax', hlen⟩ := h.insureSpaceExists hmax
  obtain ⟨ha, hb⟩ := hc.2.2 hadds u hu
  have hk' : k.read u.cacheEntries = some key :=
    (h.read_spared h' hel hmax fun hle c hc => (hs hadds hle c hc).1).trans hk
  have hv' : v.read u.cacheEntries = some value :=
    (h.read_spared h' hel hmax fun hle c hc => (hs hadds hle c hc).2).trans hv
  rw [hu, Option.bind_some, hk', Option.bind_some, hv', Option.bind_some]
  have hents : ∀ l, u.entries l = s.entries l := fun l => by rw [entries, hel, entries]
  have hlist : (if s.maxCacheSize ≤ (s.entries l).length then (s.entries l).dropLast
      else s.entries l) = u.entries (if s.maxCacheSize ≤ l.length then l.dropLast else l) := by
    rw [hents, entries, List.length_map, ← List.map_dropLast, entries]
    split_ifs <;> rfl
  dsimp only
  rw [hlist, Arg.read_emplaceFront ha hk', Option.bind_some]
  set l' := if s.maxCacheSize ≤ l.length then l.dropLast else l with hl'
  have hsub : ∀ c ∈ l', c ∈ l := by
    intro c hc
    rw [hl'] at hc
    split_ifs at hc
    · exact List.dropLast_subset _ hc
    · exact hc
  have hkey' : ∀ c ∈ l', u.keyOf c ≠ key := by
    intro c hc
    rw [keyOf, hel]
    exact hkey c (hsub c hc)
  have htip : (u.cacheEntries.emplaceFront a (key, value)).tip .left = some a :=
    (h'.list.emplaceFront (e := (key, value)) ha).links.tip .left
  rw [htip]
  rw [← hmax'] at hlen
  cases alloc with
  | none =>
    obtain ⟨hi, hh, he⟩ := h'.insert_none (v := value) hkey' ha
    refine ⟨_, false, l', t', by rw [hi]; rfl, hh, ?_, hmax'⟩
    exact congrArg (·, false) (List.map_congr_left he)
  | some b =>
    obtain ⟨x, t'', hi, hh⟩ := h'.insert (v := value) hkey' ha hlen (hb b rfl)
    refine ⟨_, true, a :: l', t'', by rw [hi]; rfl, hh, ?_, hmax'⟩
    have hal : ∀ c ∈ l', Function.update u.cacheEntries.element a (key, value) c
        = u.cacheEntries.element c := by
      intro c hcl
      refine Function.update_of_ne ?_ _ _
      rintro rfl
      exact ha ((h'.list.live c).2 hcl)
    have hh : Function.update u.cacheEntries.element a (key, value) a = (key, value) :=
      Function.update_self _ _ _
    show ((a :: l').map (Function.update u.cacheEntries.element a (key, value)), true) = _
    rw [List.map_cons, hh, List.map_congr_left hal]
    rfl

/-- An addition that drops the entry its argument is in reads what is gone. -/
theorem Holds.add_of_not_spares (h : s.Holds l t)
    (hs : ¬ Call.Spares s (.add k v a alloc : Call ν μ κ β)) : s.add k v a alloc = none := by
  simp only [Call.Spares, not_forall] at hs
  obtain ⟨⟨hmax, key, hk, hf⟩, hle, b, hb, hin⟩ := hs
  obtain ⟨u, t', hu, h', -, -, -⟩ := h.insureSpaceExists hmax
  have hgone : b ∉ u.cacheEntries.live := fun hlive =>
    ((h.mem_live h' hmax b).1 hlive).2 ⟨hle, hb⟩
  rw [State.add, if_neg hmax, hk, Option.bind_some, hf, Option.bind_some, if_neg (not_not.2 rfl), hu,
    Option.bind_some]
  by_cases hkin : k.Inside b
  · rw [Arg.read_gone hkin hgone]
    rfl
  · have hvin : v.Inside b := by
      by_contra hvin
      exact hin ⟨hkin, hvin⟩
    rw [Arg.read_gone hvin hgone]
    exact Option.bind_eq_none_iff.2 fun _ _ => rfl

end Add

omit [DecidableEq μ] in
theorem Holds.findCall (h : s.Holds l t) (k : κ) :
    ∃ s' r l' t', s.find k = some (s', r) ∧ s'.Holds l' t'
      ∧ (s'.entries l', r) = Reference.find k (s.entries l)
      ∧ s'.maxCacheSize = s.maxCacheSize := by
  rw [State.find, Reference.find]
  obtain ⟨hf, hk⟩ | ⟨b, -, a, ha, hf, -, hval, hak⟩ := h.find k
  · rw [hf, find?_entries_none hk]
    exact ⟨_, none, l, t, rfl, ⟨h.list, h.tree, h.stored, h.keys, h.length_le⟩, rfl, rfl⟩
  · obtain ⟨x, hx, hlist, hel⟩ := h.list.moveFront ha
    rw [hf, Option.bind_some, h.find?_entries ha hak]
    dsimp only
    rw [hval, Option.bind_some, hx, h.filter_entries ha hak]
    have hperm := List.perm_cons_erase ha
    refine ⟨_, _, a :: l.erase a, t, rfl, ⟨hlist, h.tree, ?_, ?_, ?_⟩, ?_, rfl⟩
    · obtain ⟨m, hm, hl⟩ := h.stored
      refine ⟨m, hm, fun k' p => (hl k' p).trans (exists_congr fun c => ?_)⟩
      rw [hperm.mem_iff, keyOf, keyOf, hel]
    · show ((a :: l.erase a).map fun c => (x.element c).1).Nodup
      rw [hel]
      exact ((hperm.map _).nodup_iff).1 h.keys
    · rw [← hperm.length_eq]
      exact h.length_le
    · show ((a :: l.erase a).map x.element, _) = _
      rw [hel]
      rfl

theorem Holds.remove (h : s.Holds l t) (k : κ) :
    ∃ s' r l' t', s.remove k = some (s', r) ∧ s'.Holds l' t'
      ∧ (s'.entries l', r) = Reference.remove k (s.entries l)
      ∧ s'.maxCacheSize = s.maxCacheSize := by
  rw [State.remove, Reference.remove]
  obtain ⟨hf, hk⟩ | ⟨b, hb, a, ha, hf, hbk, hval, hak⟩ := h.find k
  · rw [hf, filter_entries_none hk]
    refine ⟨s, false, l, t, rfl, h, ?_, rfl⟩
    have hmem : k ∉ (s.entries l).map Prod.fst := fun hm =>
      (mem_keys_entries.1 hm).elim fun c hc => hk c hc.1 hc.2
    rw [decide_eq_false hmem]
  · rw [hf, Option.bind_some, h.filter_entries ha hak,
      decide_eq_true (mem_keys_entries.2 ⟨a, ha, hak⟩)]
    dsimp only
    obtain ⟨x, xs, ys, hx, -, he⟩ := h.tree.eraseAt hb
    rw [hval, Option.bind_some, hx]
    rw [hbk.trans hak.symm] at he
    set s' : State ν μ κ β :=
      { s with cacheEntries := s.cacheEntries.erase a, cacheEntryMap := x } with hs'
    have hcut : s'.cacheEntries = s.cacheEntries.destroy a (s.cacheEntries.unlink .left a) := rfl
    obtain ⟨t', ht'⟩ :=
      h.drop ha hb (hbk.trans hak.symm) (h.list.links.unlink ha) hcut he rfl
    exact ⟨s', true, l.erase a, t', rfl, ht', rfl, rfl⟩

theorem Holds.clear (h : s.Holds l t) : ∃ s', s.clear = some s' ∧ s'.Holds [] .nil
    ∧ s'.maxCacheSize = s.maxCacheSize := by
  obtain ⟨x, hx, hlist⟩ := h.list.clear
  obtain ⟨y, hy, htree⟩ := h.tree.clear
  refine ⟨{ s with cacheEntries := x, cacheEntryMap := y }, ?_,
    ⟨hlist, htree, ⟨fun _ => none, fun k p => ?_, by simp⟩, List.nodup_nil, Nat.zero_le _⟩, rfl⟩
  · rw [State.clear, hx, Option.bind_some, hy]
    rfl
  · simp [htree.live]

/-- A call returns what the reference cache does, and keeps the two alike. -/
theorem Holds.call (h : s.Holds l t) {c : Call ν μ κ β} (hc : c.Legal s) (hs : c.Spares s) :
    ∃ s' l' t', s.call c = some (s', (c.reference s (s.entries l)).2)
      ∧ s'.Holds l' t' ∧ s'.entries l' = (c.reference s (s.entries l)).1
      ∧ s'.maxCacheSize = s.maxCacheSize := by
  cases c with
  | add k v a alloc =>
    obtain ⟨key, hk⟩ := Option.isSome_iff_exists.1 hc.1
    obtain ⟨value, hv⟩ := Option.isSome_iff_exists.1 hc.2.1
    obtain ⟨s', b, l', t', hs, h', he, hm⟩ := h.add hc hs hk hv
    have href : Call.reference s (s.entries l) (.add k v a alloc : Call ν μ κ β)
        = (s'.entries l', .added b) := by
      rw [Call.reference, hk, hv]
      dsimp only
      rw [← he]
    refine ⟨s', l', t', ?_, h', (congrArg Prod.fst href).symm, hm⟩
    rw [State.call, hs, href]
    rfl
  | find k =>
    obtain ⟨s', b, l', t', hs, h', he, hm⟩ := h.findCall k
    refine ⟨s', l', t', ?_, h', congrArg Prod.fst he, hm⟩
    rw [State.call, hs, Call.reference, ← he]
    rfl
  | remove k =>
    obtain ⟨s', b, l', t', hs, h', he, hm⟩ := h.remove k
    refine ⟨s', l', t', ?_, h', congrArg Prod.fst he, hm⟩
    rw [State.call, hs, Call.reference, ← he]
    rfl
  | clear =>
    obtain ⟨s', hs, h', hm⟩ := h.clear
    refine ⟨s', [], .nil, ?_, h', rfl, hm⟩
    rw [State.call, hs]
    rfl

/-- A call that does not spare its arguments has no defined outcome. -/
theorem Holds.call_eq_none (h : s.Holds l t) {c : Call ν μ κ β} (hs : ¬ c.Spares s) :
    s.call c = none := by
  cases c with
  | add k v a alloc =>
    rw [State.call, h.add_of_not_spares hs]
    rfl
  | find k => exact absurd trivial hs
  | remove k => exact absurd trivial hs
  | clear => exact absurd trivial hs

/-- The list holds the reference's entries, and the tree each key's node of it. -/
structure Correct (s : State ν μ κ β) (entries : List (κ × β)) : Prop where
  list : ∃ l, s.cacheEntries.Holds l ∧ s.entries l = entries
    ∧ ∀ k p, (∃ b ∈ s.cacheEntryMap.live, s.cacheEntryMap.key b = k ∧ s.cacheEntryMap.value b = p)
      ↔ ∃ a ∈ l, p = some a ∧ s.keyOf a = k
  tree : ∃ t, s.cacheEntryMap.Holds t
  keys : (entries.map Prod.fst).Nodup
  length_le : entries.length ≤ s.maxCacheSize

omit [DecidableEq ν] [DecidableEq μ] in
theorem Holds.correct (h : s.Holds l t) : s.Correct (s.entries l) := by
  obtain ⟨m, hm, hl⟩ := h.stored
  refine ⟨⟨l, h.list, rfl, fun k p => ?_⟩, ⟨t, h.tree⟩, ?_, ?_⟩
  · rw [← hm, hl]
  · rw [entries, List.map_map]
    exact h.keys
  · rw [entries, List.length_map]
    exact h.length_le

/-- Neither the list nor the tree has the key. -/
def Untraced (s : State ν μ κ β) (k : κ) : Prop :=
  (∀ a ∈ s.cacheEntries.live, s.keyOf a ≠ k)
    ∧ ∀ b ∈ s.cacheEntryMap.live, s.cacheEntryMap.key b ≠ k

omit [DecidableEq ν] [DecidableEq μ] in
theorem Holds.untraced (h : s.Holds l t) (hk : k ∉ (s.entries l).map Prod.fst) : s.Untraced k := by
  have hl : ∀ a ∈ l, s.keyOf a ≠ k := fun a ha hak => hk (mem_keys_entries.2 ⟨a, ha, hak⟩)
  exact ⟨fun a ha => hl a ((h.list.live a).1 ha), h.absent hl⟩

end State

open State

variable [DecidableEq μ] [LinearOrder κ] {s : State ν μ κ β} {entries : List (κ × β)}

theorem Reference.not_mem_of_add {size : ℕ} {k : κ} {v : β} {ok : Bool}
    (hk : k ∉ entries.map Prod.fst) (h : (add size k v ok entries).2 = false) :
    k ∉ (add size k v ok entries).1.map Prod.fst := by
  have hd : k ∉ entries.dropLast.map Prod.fst := by
    rw [List.map_dropLast]
    exact fun hm => hk (List.dropLast_subset _ hm)
  unfold add at h ⊢
  rw [if_neg hk] at h ⊢
  dsimp only at h ⊢
  split_ifs at h ⊢
  all_goals first | exact hk | exact hd

theorem holds_of_run (h : Run s entries) : ∃ l t, s.Holds l t ∧ s.entries l = entries := by
  induction h with
  | start h => exact ⟨[], .nil, h.holds, rfl⟩
  | call _ hc hsp hs ih =>
    obtain ⟨l, t, hh, rfl⟩ := ih
    obtain ⟨s', l', t', hs', h', he, -⟩ := hh.call hc hsp
    obtain ⟨rfl, -⟩ := Prod.mk.inj (Option.some.inj (hs'.symm.trans hs))
    exact ⟨l', t', h', he⟩

/-- Whatever the calls and whichever tree nodes are refused, the cache is the reference cache, every
further call returns what the reference does unless it drops the entry that an argument of it is in,
and an addition that fails for a key not in the cache leaves it in neither container. -/
theorem reference_of_run (h : Run s entries) : s.Correct entries
    ∧ (∀ c : Call ν μ κ β, c.Legal s → c.Spares s →
      ∃ s', s.call c = some (s', (c.reference s entries).2))
    ∧ (∀ c : Call ν μ κ β, ¬ c.Spares s → s.call c = none)
    ∧ ∀ k key v a alloc s', Call.Legal s (.add k v a alloc : Call ν μ κ β) →
      k.read s.cacheEntries = some key → key ∉ entries.map Prod.fst →
      s.add k v a alloc = some (s', false) → s'.Untraced key := by
  obtain ⟨l, t, hh, rfl⟩ := holds_of_run h
  refine ⟨hh.correct, fun c hc hsp => ?_, fun c hsp => hh.call_eq_none hsp,
    fun k key v a alloc s' hc hkey hk hs => ?_⟩
  · obtain ⟨s', -, -, hs, -⟩ := hh.call hc hsp
    exact ⟨s', hs⟩
  · have hsp : Call.Spares s (.add k v a alloc : Call ν μ κ β) := by
      by_contra hsp
      rw [hh.add_of_not_spares hsp] at hs
      cases hs
    obtain ⟨value, hv⟩ := Option.isSome_iff_exists.1 hc.2.1
    obtain ⟨s₁, b, l', t', hs₁, h', he, -⟩ := hh.add hc hsp hkey hv
    obtain ⟨rfl, rfl⟩ := Prod.mk.inj (Option.some.inj (hs₁.symm.trans hs))
    have he₁ : s₁.entries l' = _ := congrArg Prod.fst he
    have he₂ : false = _ := congrArg Prod.snd he
    refine h'.untraced ?_
    rw [he₁]
    exact Reference.not_mem_of_add hk he₂.symm

def noEntries (size : ℕ) : State ℕ ℕ ℕ ℕ where
  cacheEntries := ⟨⟨fun _ => none, fun _ _ => none⟩, fun _ => (0, 0), 0, ∅⟩
  cacheEntryMap := ⟨⟨fun _ _ => none, fun _ _ => none, fun _ => 0⟩, fun _ => 0, fun _ => none, none,
    0, ∅⟩
  maxCacheSize := size
  cacheHits := 0
  cacheMisses := 0

theorem noEntries_empty (size : ℕ) : (noEntries size).Empty := ⟨fun _ => rfl, rfl, rfl, rfl, rfl, rfl⟩

/-- Three entries are added to a cache of two, the last with the value of the first, after that is
found; a fourth has no node. -/
theorem reference_of_run_evicted : ∃ s s' : State ℕ ℕ ℕ ℕ, s.Correct [(3, 10), (1, 10)]
    ∧ s.add (.outside 4) (.outside 40) 1 none = some (s', false) ∧ s'.Untraced 4 := by
  have h₀ := Run.start (noEntries_empty 2)
  have h₁ := h₀.call (c := .add (.outside 1) (.outside 10) 1 (some 1))
    ⟨rfl, rfl, by rintro - _ ⟨⟩; decide⟩ (fun _ _ _ _ => ⟨id, id⟩) rfl
  have h₂ := h₁.call (c := .add (.outside 2) (.outside 20) 2 (some 2))
    ⟨rfl, rfl, by rintro - _ ⟨⟩; decide⟩ (fun _ _ _ _ => ⟨id, id⟩) rfl
  have h₃ := h₂.call (c := .find 1) trivial trivial rfl
  have h₄ := h₃.call (c := .add (.outside 3) (.inside 1 Prod.snd) 2 (some 2))
    ⟨rfl, rfl, by rintro - _ ⟨⟩; decide⟩
    (by rintro - - _ ⟨⟩; exact ⟨id, (by decide : ¬ (1 : ℕ) = 2)⟩) rfl
  refine ⟨_, _, (reference_of_run h₄).1, rfl, ?_⟩
  exact (reference_of_run h₄).2.2.2 (.outside 4) 4 (.outside 40) 1 none _
    ⟨rfl, rfl, by rintro - _ ⟨⟩; decide⟩ rfl (by decide) rfl

/-- An addition of a key in the cache returns false, and its entry stays.  An addition to a full
cache of the value that was found in it reads the value once it is gone. -/
theorem add_of_present_or_dropped :
    (∃ (s s' : State ℕ ℕ ℕ ℕ) (entries : List (ℕ × ℕ)), Run s entries
      ∧ s.add (.outside 1) (.outside 20) 2 (some 2) = some (s', false) ∧ ¬ s'.Untraced 1)
    ∧ ∃ (s s' : State ℕ ℕ ℕ ℕ) (entries : List (ℕ × ℕ)), Run s entries
      ∧ s.find 1 = some (s', some 10)
      ∧ Call.Legal s' (.add (.outside 2) (.inside 1 Prod.snd) 2 (some 2))
      ∧ s'.add (.outside 2) (.inside 1 Prod.snd) 2 (some 2) = none := by
  have h₁ := (Run.start (noEntries_empty 1)).call
    (c := .add (.outside 1) (.outside 10) 1 (some 1))
    ⟨rfl, rfl, by rintro - _ ⟨⟩; decide⟩ (fun _ _ _ _ => ⟨id, id⟩) rfl
  exact ⟨⟨_, _, _, h₁, rfl, fun h => h.1 1 (by decide) rfl⟩,
    ⟨_, _, _, h₁, rfl, ⟨rfl, rfl, by rintro - _ ⟨⟩; decide⟩, rfl⟩⟩

end MinStd.LruCache
