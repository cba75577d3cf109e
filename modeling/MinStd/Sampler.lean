import Mathlib.Algebra.BigOperators.Group.Finset.Basic
import Mathlib.Data.Fintype.Vector
import Mathlib.Data.List.TakeDrop
import Mathlib.Order.Interval.Finset.Nat

/-!
# Samplers

A sampler reads symbols from the front of a list, and fails when the list is too short.  `hits`
counts the lists of a length that a sampler reads whole for a value: with symbols drawn uniformly
and independently, the chance of the value after that many draws.

`retry` repeats a round until one accepts.  A list it reads whole is either one accepted round, or
a rejected round followed by a list it reads whole, so its counts are sums of products.
-/

namespace MinStd

abbrev Sampler (σ α : Type) := StateT (List σ) Option α

namespace Sampler

variable {σ α β : Type}

def next : Sampler σ σ
  | [] => none
  | x :: xs => some (x, xs)

/-- Rounds until one accepts.  A round that reads nothing would never end, and fails here. -/
def retry (round : Sampler σ (Option α)) : Sampler σ α
  | xs =>
    match round xs with
    | none => none
    | some (some v, rest) => some (v, rest)
    | some (none, rest) => if rest.length < xs.length then retry round rest else none
termination_by xs => xs.length

/-! ### What is read -/

/-- What is left is the end of the list, and plays no part in the value. -/
def Reads (s : Sampler σ α) : Prop :=
  ∀ xs v rest, s xs = some (v, rest) →
    ∃ read, xs = read ++ rest ∧ ∀ other, s (read ++ other) = some (v, other)

/-- At least so many symbols are read. -/
def AtLeast (n : ℕ) (s : Sampler σ α) : Prop :=
  ∀ xs v rest, s xs = some (v, rest) → n + rest.length ≤ xs.length

theorem AtLeast.mono {m n : ℕ} {s : Sampler σ α} (h : AtLeast n s) (hmn : m ≤ n) : AtLeast m s :=
  fun xs v rest hs => (Nat.add_le_add_right hmn _).trans (h xs v rest hs)

theorem Reads.append {s : Sampler σ α} (hs : Reads s) {w : List σ} {v : α}
    (h : s w = some (v, [])) (other : List σ) : s (w ++ other) = some (v, other) := by
  obtain ⟨read, hread, hother⟩ := hs _ _ _ h
  rw [hread, List.append_nil]
  exact hother other

theorem pure_eq_some {a v : α} {xs rest : List σ} :
    (pure a : Sampler σ α) xs = some (v, rest) ↔ a = v ∧ xs = rest := by
  show some (a, xs) = some (v, rest) ↔ _
  rw [Option.some.injEq, Prod.mk.injEq]

theorem reads_pure (a : α) : Reads (pure a : Sampler σ α) := by
  intro xs v rest h
  obtain ⟨rfl, rfl⟩ := pure_eq_some.1 h
  exact ⟨[], rfl, fun _ => rfl⟩

theorem reads_next : Reads (next : Sampler σ σ) := by
  intro xs v rest h
  rcases xs with _ | ⟨x, xs⟩
  · simp [next] at h
  · obtain ⟨rfl, rfl⟩ : x = v ∧ xs = rest := by simpa [next] using h
    exact ⟨[x], rfl, fun _ => rfl⟩

theorem atLeast_next : AtLeast 1 (next : Sampler σ σ) := by
  intro xs v rest h
  rcases xs with _ | ⟨x, xs⟩
  · simp [next] at h
  · obtain ⟨rfl, rfl⟩ : x = v ∧ xs = rest := by simpa [next] using h
    simp [Nat.add_comm]

theorem bind_eq_some {s : Sampler σ α} {f : α → Sampler σ β} {xs : List σ} {v : β}
    {rest : List σ} :
    (s >>= f) xs = some (v, rest) ↔ ∃ a mid, s xs = some (a, mid) ∧ f a mid = some (v, rest) := by
  simp only [bind, StateT.bind, Option.bind_eq_some_iff, Prod.exists]

theorem Reads.bind {s : Sampler σ α} {f : α → Sampler σ β} (hs : Reads s)
    (hf : ∀ a, Reads (f a)) : Reads (s >>= f) := by
  intro xs v rest h
  obtain ⟨a, mid, h1, h2⟩ := bind_eq_some.1 h
  obtain ⟨read1, rfl, hr1⟩ := hs _ _ _ h1
  obtain ⟨read2, rfl, hr2⟩ := hf a _ _ _ h2
  refine ⟨read1 ++ read2, (List.append_assoc ..).symm, fun other => ?_⟩
  exact bind_eq_some.2 ⟨a, read2 ++ other, by rw [List.append_assoc, hr1], hr2 other⟩

theorem AtLeast.bind {m n : ℕ} {s : Sampler σ α} {f : α → Sampler σ β} (hs : AtLeast m s)
    (hf : ∀ a, AtLeast n (f a)) : AtLeast (m + n) (s >>= f) := by
  intro xs v rest h
  obtain ⟨a, mid, h1, h2⟩ := bind_eq_some.1 h
  have := hs _ _ _ h1
  have := hf a _ _ _ h2
  omega

theorem atLeast_pure (a : α) : AtLeast 0 (pure a : Sampler σ α) := by
  intro xs v rest h
  obtain ⟨rfl, rfl⟩ := pure_eq_some.1 h
  omega

theorem retry_eq_some {r : Sampler σ (Option α)} (hr : AtLeast 1 r) {xs : List σ} {v : α}
    {rest : List σ} :
    retry r xs = some (v, rest) ↔
      r xs = some (some v, rest) ∨
        ∃ mid, r xs = some (none, mid) ∧ retry r mid = some (v, rest) := by
  rw [retry]
  rcases h : r xs with _ | ⟨_ | u, mid⟩
  · simp
  · have : mid.length < xs.length := by have := hr _ _ _ h; omega
    simp [this]
  · simp

theorem AtLeast.retry {n : ℕ} {r : Sampler σ (Option α)} (hr : AtLeast (n + 1) r) :
    AtLeast (n + 1) (retry r) := by
  intro xs
  induction hn : xs.length using Nat.strong_induction_on generalizing xs with
  | _ k ih =>
    intro v rest h
    rcases (retry_eq_some (hr.mono (by omega))).1 h with h1 | ⟨mid, h1, h2⟩
    · exact hn ▸ hr _ _ _ h1
    · have := hr _ _ _ h1
      have := ih mid.length (by omega) mid rfl v rest h2
      omega

theorem Reads.retry {r : Sampler σ (Option α)} (hr : Reads r) (h1 : AtLeast 1 r) :
    Reads (retry r) := by
  intro xs
  induction hn : xs.length using Nat.strong_induction_on generalizing xs with
  | _ k ih =>
    intro v rest h
    rcases (retry_eq_some h1).1 h with hv | ⟨mid, hmid, hv⟩
    · obtain ⟨read, rfl, hread⟩ := hr _ _ _ hv
      exact ⟨read, rfl, fun other => (retry_eq_some h1).2 (.inl (hread other))⟩
    · have hlen := h1 _ _ _ hmid
      obtain ⟨read1, rfl, hr1⟩ := hr _ _ _ hmid
      obtain ⟨read2, rfl, hr2⟩ := ih mid.length (by omega) mid rfl v rest hv
      refine ⟨read1 ++ read2, (List.append_assoc ..).symm, fun other => ?_⟩
      exact (retry_eq_some h1).2 (.inr ⟨read2 ++ other, by rw [List.append_assoc, hr1], hr2 other⟩)

/-- Every value accepted by a round is a value of the rounds. -/
theorem retry_mem {r : Sampler σ (Option α)} (hr : AtLeast 1 r) {P : α → Prop}
    (h : ∀ xs v rest, r xs = some (some v, rest) → P v) :
    ∀ xs v rest, retry r xs = some (v, rest) → P v := by
  intro xs
  induction hn : xs.length using Nat.strong_induction_on generalizing xs with
  | _ k ih =>
    intro v rest hs
    rcases (retry_eq_some hr).1 hs with hv | ⟨mid, hmid, hv⟩
    · exact h _ _ _ hv
    · have hlen := hr _ _ _ hmid
      exact ih mid.length (by omega) mid rfl v rest hv

/-! ### Counting -/

section Hits

variable [Fintype σ] [DecidableEq σ] [DecidableEq α]

/-- The lists of a length. -/
def tuples (σ : Type) [Fintype σ] (n : ℕ) : Finset (List σ) :=
  (Finset.univ : Finset (List.Vector σ n)).map ⟨List.Vector.toList, List.Vector.toList_injective⟩

omit [DecidableEq σ] in
@[simp] theorem mem_tuples {n : ℕ} {xs : List σ} : xs ∈ tuples σ n ↔ xs.length = n := by
  rw [tuples, Finset.mem_map]
  exact ⟨fun ⟨w, _, h⟩ => h ▸ w.2, fun h => ⟨⟨xs, h⟩, Finset.mem_univ _, rfl⟩⟩

/-- The lists of a length that are read whole for a value. -/
def words (s : Sampler σ α) (n : ℕ) (v : α) : Finset (List σ) :=
  (tuples σ n).filter fun xs => s xs = some (v, [])

def hits (s : Sampler σ α) (n : ℕ) (v : α) : ℕ := (words s n v).card

@[simp] theorem mem_words {s : Sampler σ α} {n : ℕ} {v : α} {xs : List σ} :
    xs ∈ words s n v ↔ xs.length = n ∧ s xs = some (v, []) := by
  simp [words]

theorem hits_eq_zero {m n : ℕ} {s : Sampler σ α} (h : AtLeast m s) (hn : n < m) (v : α) :
    hits s n v = 0 := by
  refine Finset.card_eq_zero.2 (Finset.eq_empty_of_forall_notMem fun xs hxs => ?_)
  obtain ⟨rfl, hs⟩ := mem_words.1 hxs
  exact absurd (h _ _ _ hs) (by simpa using hn)

/-- One symbol, mapped. -/
theorem hits_next_bind (f : σ → α) (n : ℕ) (v : α) :
    hits (next >>= fun x => pure (f x)) n v =
      if n = 1 then (Finset.univ.filter fun x => f x = v).card else 0 := by
  have hrun (x : σ) (xs : List σ) :
      (next >>= fun x => (pure (f x) : Sampler σ α)) (x :: xs) = some (f x, xs) := rfl
  have hnil : (next >>= fun x => (pure (f x) : Sampler σ α)) [] = none := rfl
  split_ifs with hn
  · refine (congrArg Finset.card (Finset.ext fun xs => ?_)).trans
      (Finset.card_map ⟨fun x => [x], List.singleton_injective⟩)
    rw [mem_words, hn]
    rcases xs with _ | ⟨x, xs⟩
    · simp
    · rw [hrun]
      simp
  · refine Finset.card_eq_zero.2 (Finset.eq_empty_of_forall_notMem fun xs hxs => hn ?_)
    rw [mem_words] at hxs
    rcases xs with _ | ⟨x, xs⟩
    · rw [hnil] at hxs
      exact nomatch hxs.2
    · rw [hrun] at hxs
      obtain ⟨hlen, _, rfl⟩ : xs.length + 1 = n ∧ f x = v ∧ xs = [] := by simpa using hxs
      exact hlen.symm

/-- A value and one more symbol, where one pair of them gives the result. -/
theorem hits_bind_next {s : Sampler σ β} [DecidableEq β] (hs : Reads s) {f : β → σ → α} {v : α}
    {b : β} {y : σ}
    (h : ∀ xs a rest x, s xs = some (a, rest) → (f a x = v ↔ a = b ∧ x = y)) (n : ℕ) :
    hits (s >>= fun a => next >>= fun x => pure (f a x)) (n + 1) v = hits s n b := by
  have hrun (a : β) (mid : List σ) : (next >>= fun x => (pure (f a x) : Sampler σ α)) mid =
      some (v, []) ↔ ∃ x, mid = [x] ∧ f a x = v := by
    rcases mid with _ | ⟨x, mid⟩
    · have : (next >>= fun x => (pure (f a x) : Sampler σ α)) [] = none := rfl
      rw [this]
      simp
    · have : (next >>= fun x => (pure (f a x) : Sampler σ α)) (x :: mid) = some (f a x, mid) := rfl
      rw [this]
      simp [and_comm]
  refine (congrArg Finset.card (Finset.ext fun xs => ?_)).trans
    (Finset.card_map ⟨(· ++ [y]), List.append_left_injective [y]⟩)
  simp only [mem_words, bind_eq_some, hrun, Finset.mem_map, Function.Embedding.coeFn_mk]
  constructor
  · rintro ⟨hlen, a, _, h1, x, rfl, hx⟩
    obtain ⟨rfl, rfl⟩ := (h _ _ _ x h1).1 hx
    obtain ⟨read, rfl, hother⟩ := hs _ _ _ h1
    exact ⟨read, ⟨by simpa using hlen, by simpa using hother []⟩, rfl⟩
  · rintro ⟨w, ⟨hlen, hw⟩, rfl⟩
    exact ⟨by simp [hlen], b, _, hs.append hw _, y, rfl, (h _ _ _ y hw).2 ⟨rfl, rfl⟩⟩

/-- A value mapped, where one value gives the result. -/
theorem hits_map {s : Sampler σ β} [DecidableEq β] {f : β → α} {v : α} {b : β}
    (h : ∀ xs a rest, s xs = some (a, rest) → (f a = v ↔ a = b)) (n : ℕ) :
    hits (s >>= fun a => pure (f a)) n v = hits s n b := by
  have hwords : words (s >>= fun a => pure (f a)) n v = words s n b := by
    ext xs
    have hpure (a : β) (mid : List σ) :
        (pure (f a) : Sampler σ α) mid = some (v, []) ↔ f a = v ∧ mid = [] := pure_eq_some
    rw [mem_words, mem_words, bind_eq_some]
    refine and_congr_right fun _ => ⟨?_, fun hb => ⟨b, [], hb, (hpure b []).2 ⟨?_, rfl⟩⟩⟩
    · rintro ⟨a, mid, h1, h2⟩
      obtain ⟨hv, rfl⟩ := (hpure a mid).1 h2
      rw [h1, (h _ _ _ h1).1 hv]
    · exact (h _ _ _ hb).2 rfl
  rw [hits, hits, hwords]

/-- The lists read whole for a value whose first round, of a length, is rejected. -/
theorem card_rejected {r : Sampler σ (Option α)} (hr : Reads r) {k n : ℕ} (hk : k ≤ n) (v : α) :
    ((tuples σ n).filter fun xs => r xs = some (none, xs.drop k) ∧
      retry r (xs.drop k) = some (v, [])).card = hits r k none * hits (retry r) (n - k) v := by
  rw [hits, hits, ← Finset.card_product]
  refine Finset.card_nbij' (fun xs => (xs.take k, xs.drop k)) (fun p => p.1 ++ p.2) ?_ ?_ ?_ ?_
  · intro xs hxs
    simp only [Finset.coe_filter, mem_tuples, Set.mem_ofPred_eq] at hxs
    obtain ⟨rfl, h1, h2⟩ := hxs
    obtain ⟨read, hread, hother⟩ := hr _ _ _ h1
    have htake : xs.take k = read := by
      have := (List.take_append_drop k xs).trans hread
      exact List.append_cancel_right this
    simp only [Finset.coe_product, Set.mem_prod, Finset.mem_coe, mem_words]
    refine ⟨⟨List.length_take_of_le hk, ?_⟩, List.length_drop, h2⟩
    simpa [htake] using hother []
  · rintro ⟨w, u⟩ hp
    simp only [Finset.coe_product, Set.mem_prod, Finset.mem_coe, mem_words] at hp
    obtain ⟨⟨hw, hrw⟩, hu, hru⟩ := hp
    simp only [Finset.coe_filter, mem_tuples, Set.mem_ofPred_eq, List.length_append, ← hw,
      List.drop_left]
    exact ⟨by omega, hr.append hrw u, hru⟩
  · exact fun xs _ => List.take_append_drop k xs
  · rintro ⟨w, u⟩ hp
    simp only [Finset.coe_product, Set.mem_prod, Finset.mem_coe, mem_words] at hp
    simp [← hp.1.1]

/-- A list the rounds read whole is an accepted round, or a rejected one and what the rounds read
whole after it. -/
theorem hits_retry {r : Sampler σ (Option α)} (hr : Reads r) (h1 : AtLeast 1 r) (n : ℕ) (v : α) :
    hits (retry r) n v = hits r n (some v) +
      ∑ k ∈ Finset.Icc 1 n, hits r k none * hits (retry r) (n - k) v := by
  have hcases : words (retry r) n v = words r n (some v) ∪
      (Finset.Icc 1 n).biUnion fun k => (tuples σ n).filter fun xs =>
        r xs = some (none, xs.drop k) ∧ retry r (xs.drop k) = some (v, []) := by
    ext xs
    rw [mem_words, retry_eq_some h1]
    simp only [mem_words, Finset.mem_union, Finset.mem_biUnion, Finset.mem_Icc,
      Finset.mem_filter, mem_tuples]
    constructor
    · rintro ⟨hn, hv | ⟨mid, hmid, hv⟩⟩
      · exact .inl ⟨hn, hv⟩
      · obtain ⟨read, rfl, hother⟩ := hr _ _ _ hmid
        have hlen := h1 _ _ _ hmid
        simp only [List.length_append] at hlen hn
        refine .inr ⟨read.length, ⟨by omega, by omega⟩, by simpa using hn, ?_⟩
        rw [List.drop_left]
        exact ⟨hmid, hv⟩
    · rintro (⟨hn, hv⟩ | ⟨k, _, hn, hmid, hv⟩)
      · exact ⟨hn, .inl hv⟩
      · exact ⟨hn, .inr ⟨_, hmid, hv⟩⟩
  rw [hits, hcases, Finset.card_union_of_disjoint, Finset.card_biUnion]
  · refine congrArg _ (Finset.sum_congr rfl fun k hk => ?_)
    exact card_rejected hr (Finset.mem_Icc.1 hk).2 v
  · intro k hk k' hk' hne
    refine Finset.disjoint_left.2 fun xs hxs hxs' => hne ?_
    simp only [Finset.mem_filter, mem_tuples, Finset.mem_coe, Finset.mem_Icc] at hxs hxs' hk hk'
    have hdrop := hxs.2.1.symm.trans hxs'.2.1
    simp only [Option.some.injEq, Prod.mk.injEq, true_and] at hdrop
    have := congrArg List.length hdrop
    simp only [List.length_drop] at this
    omega
  · refine Finset.disjoint_left.2 fun xs hxs hxs' => ?_
    simp only [mem_words, Finset.mem_biUnion, Finset.mem_filter] at hxs hxs'
    obtain ⟨k, _, _, hk, _⟩ := hxs'
    simp [hxs.2] at hk

/-- Rounds that accept the values of a set equally often return them equally often. -/
theorem hits_retry_congr {r : Sampler σ (Option α)} (hr : Reads r) (h1 : AtLeast 1 r) {u v : α}
    (h : ∀ n, hits r n (some u) = hits r n (some v)) (n : ℕ) :
    hits (retry r) n u = hits (retry r) n v := by
  induction n using Nat.strong_induction_on with
  | _ n ih =>
    rw [hits_retry hr h1, hits_retry hr h1, h]
    refine congrArg _ (Finset.sum_congr rfl fun k hk => ?_)
    have := Finset.mem_Icc.1 hk
    rw [ih (n - k) (by omega)]

theorem hits_le_hits_retry {r : Sampler σ (Option α)} (hr : Reads r) (h1 : AtLeast 1 r) (n : ℕ)
    (v : α) : hits r n (some v) ≤ hits (retry r) n v := by
  rw [hits_retry hr h1]
  exact Nat.le_add_right _ _

end Hits

end Sampler

end MinStd
