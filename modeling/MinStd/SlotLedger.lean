import Mathlib.Logic.Function.Basic
import Mathlib.Data.List.Nodup
import Mathlib.Data.List.Pairwise
import Mathlib.Order.Nat

/-!
# Slots claimed by many and emptied by one

Segments of slots, each filled in lives.  Whoever has begun a call may claim the next slot of a
segment, and publishes into it later; the slots of a segment are emptied in the order of the claims,
each after it is published, and when all that are claimed have been emptied the segment may be opened
for its next life.  From the empty ledger on and through every event, a claim is emptied at most
once, one that is published and not emptied is in its slot, and one owner's claims of one life are
emptied in the order of the calls (`Balanced`).
-/

namespace MinStd

open Function

variable {κ τ ε : Type*}

/-- A slot claimed: by whom, what for, in which call, and the segment, its life and the position. -/
structure Claim (κ τ ε : Type*) where
  owner : τ
  value : ε
  call : ℕ
  segment : κ
  life : ℕ
  index : ℕ
  deriving DecidableEq

/-- How many slots of a segment are claimed and emptied in its life, the slots published and not
emptied, who has claimed and not published, and who has begun a call and not claimed; and the claims
made, published and emptied so far. -/
@[ext]
structure Ledger (κ τ ε : Type*) where
  used : κ → ℕ
  taken : κ → ℕ
  life : κ → ℕ
  published : κ → ℕ → Option (Claim κ τ ε)
  flight : τ → Option (Claim κ τ ε)
  call : τ → Option ℕ
  calls : ℕ
  claims : List (Claim κ τ ε)
  pushed : List (Claim κ τ ε)
  popped : List (Claim κ τ ε)

namespace Ledger

inductive Event (κ τ ε : Type*)
  | start (t : τ)
  | claim (t : τ) (k : κ) (value : ε)
  | giveUp (t : τ)
  | publish (t : τ)
  | pop (k : κ)
  | reopen (k : κ)

variable [DecidableEq κ] [DecidableEq τ]

/-- The claim `t` makes in call `n`. -/
def next (L : Ledger κ τ ε) (t : τ) (n : ℕ) (k : κ) (value : ε) : Claim κ τ ε :=
  ⟨t, value, n, k, L.life k, L.used k⟩

def step (L : Ledger κ τ ε) : Event κ τ ε → Option (Ledger κ τ ε)
  | .start t =>
    match L.flight t, L.call t with
    | none, none => some { L with call := update L.call t (some L.calls), calls := L.calls + 1 }
    | _, _ => none
  | .claim t k value =>
    (L.call t).map fun n => { L with
      used := update L.used k (L.used k + 1)
      flight := update L.flight t (some (L.next t n k value))
      call := update L.call t none
      claims := L.claims ++ [L.next t n k value] }
  | .giveUp t => (L.call t).map fun _ => { L with call := update L.call t none }
  | .publish t =>
    (L.flight t).map fun c => { L with
      published := update L.published c.segment
        (update (L.published c.segment) c.index (some c))
      flight := update L.flight t none
      pushed := L.pushed ++ [c] }
  | .pop k =>
    (L.published k (L.taken k)).map fun c => { L with
      published := update L.published k (update (L.published k) (L.taken k) none)
      taken := update L.taken k (L.taken k + 1)
      popped := L.popped ++ [c] }
  | .reopen k =>
    if L.taken k = L.used k then
      some { L with
        life := update L.life k (L.life k + 1)
        used := update L.used k 0
        taken := update L.taken k 0 }
    else none

/-- Nothing is claimed. -/
structure Empty (L : Ledger κ τ ε) : Prop where
  used : ∀ k, L.used k = 0
  taken : ∀ k, L.taken k = 0
  published : ∀ k i, L.published k i = none
  flight : ∀ t, L.flight t = none
  call : ∀ t, L.call t = none
  claims : L.claims = []
  pushed : L.pushed = []
  popped : L.popped = []

/-- The order of two claims. -/
structure Before (c c' : Claim κ τ ε) : Prop where
  index : c.segment = c'.segment → c.life = c'.life → c.index < c'.index
  call : c.owner = c'.owner → c.call < c'.call

omit [DecidableEq κ] [DecidableEq τ]

structure Balanced (L : Ledger κ τ ε) : Prop where
  life_le : ∀ c ∈ L.claims, c.life ≤ L.life c.segment
  index_lt : ∀ c ∈ L.claims, c.life = L.life c.segment → c.index < L.used c.segment
  every : ∀ k, ∀ i < L.used k, ∃ c ∈ L.claims, c.segment = k ∧ c.life = L.life k ∧ c.index = i
  taken_le : ∀ k, L.taken k ≤ L.used k
  popped_iff : ∀ c, c ∈ L.popped
    ↔ c ∈ L.claims ∧ (c.life < L.life c.segment ∨ c.index < L.taken c.segment)
  pushed_iff : ∀ c, c ∈ L.pushed ↔ c ∈ L.claims ∧ ∀ t, L.flight t ≠ some c
  published_iff : ∀ k i c, L.published k i = some c
    ↔ c ∈ L.pushed ∧ c ∉ L.popped ∧ c.segment = k ∧ c.index = i
  flight : ∀ t, ∀ c ∈ L.flight t, c ∈ L.claims ∧ c.owner = t ∧ c ∉ L.popped
  free : ∀ t, L.call t ≠ none → L.flight t = none
  order : L.claims.Pairwise Before
  popped_order : L.popped.Pairwise fun c c' =>
    c.segment = c'.segment → c.life = c'.life → c.index < c'.index
  pushed_nodup : L.pushed.Nodup
  calls : ∀ c ∈ L.claims, c.call < L.calls
  call : ∀ t, ∀ n ∈ L.call t, n < L.calls ∧ ∀ c ∈ L.claims, c.owner = t → c.call < n

section Balanced

variable {L L' : Ledger κ τ ε} {c c' : Claim κ τ ε} {t : τ} {k : κ} {n : ℕ}

/-- A slot of a life is claimed once. -/
theorem Balanced.unique (h : Balanced L) (hc : c ∈ L.claims) (hc' : c' ∈ L.claims)
    (hseg : c.segment = c'.segment) (hlife : c.life = c'.life) (hindex : c.index = c'.index) :
    c = c' := by
  by_contra hne
  have hsymm : Std.Symm fun c c' : Claim κ τ ε =>
      c.segment = c'.segment → c.life = c'.life → c.index ≠ c'.index :=
    ⟨fun _ _ h h1 h2 h3 => h h1.symm h2.symm h3.symm⟩
  have hpair : L.claims.Pairwise fun c c' =>
      c.segment = c'.segment → c.life = c'.life → c.index ≠ c'.index :=
    h.order.imp fun hb h1 h2 => (hb.index h1 h2).ne
  exact hpair.forall hc hc' hne hseg hlife hindex

/-- The claims of a life in the order of their slots are in the order of their owner's calls. -/
theorem Balanced.call_lt (h : Balanced L) (hc : c ∈ L.claims) (hc' : c' ∈ L.claims)
    (hseg : c.segment = c'.segment) (hlife : c.life = c'.life) (hindex : c.index < c'.index)
    (howner : c.owner = c'.owner) : c.call < c'.call := by
  have hsymm : Std.Symm fun c c' : Claim κ τ ε => Before c c' ∨ Before c' c :=
    ⟨fun _ _ h => h.symm⟩
  have hpair : L.claims.Pairwise fun c c' => Before c c' ∨ Before c' c := h.order.imp .inl
  have hne : c ≠ c' := by
    rintro rfl
    exact lt_irrefl _ hindex
  rcases hpair.forall hc hc' hne with hb | hb
  · exact hb.call howner
  · exact absurd (hb.index hseg.symm hlife.symm) (not_lt.2 hindex.le)

/-- A claim that is not emptied is of its segment's present life. -/
theorem Balanced.present (h : Balanced L) (hc : c ∈ L.claims) (hnot : c ∉ L.popped) :
    c.life = L.life c.segment ∧ L.taken c.segment ≤ c.index ∧ c.index < L.used c.segment := by
  have hout := mt (fun hor => (h.popped_iff c).2 ⟨hc, hor⟩) hnot
  rw [not_or, not_lt, not_lt] at hout
  have hlife := le_antisymm (h.life_le c hc) hout.1
  exact ⟨hlife, hout.2, h.index_lt c hc hlife⟩

theorem Balanced.popped_nodup (h : Balanced L) : L.popped.Nodup := by
  refine h.popped_order.imp fun {c c'} hlt heq => ?_
  subst heq
  exact lt_irrefl _ (hlt rfl rfl)

theorem Balanced.popped_pushed (h : Balanced L) (hc : c ∈ L.popped) : c ∈ L.pushed :=
  (h.pushed_iff c).2 ⟨((h.popped_iff c).1 hc).1, fun t ht => (h.flight t c ht).2.2 hc⟩

/-- The claim of a claimed slot not yet emptied is in flight or in its slot. -/
theorem Balanced.slot (h : Balanced L) {i : ℕ} (hle : L.taken k ≤ i) (hlt : i < L.used k) :
    ∃ c ∈ L.claims, c.segment = k ∧ c.index = i ∧ c ∉ L.popped
      ∧ (L.flight c.owner = some c ∨ L.published k i = some c) := by
  obtain ⟨c, hc, rfl, hlife, rfl⟩ := h.every k i hlt
  have hnot : c ∉ L.popped := fun hp => by
    rcases ((h.popped_iff c).1 hp).2 with hl | hl <;> omega
  refine ⟨c, hc, rfl, rfl, hnot, ?_⟩
  by_cases hpushed : c ∈ L.pushed
  · exact .inr ((h.published_iff _ _ c).2 ⟨hpushed, hnot, rfl, rfl⟩)
  · have hflight := mt (fun hall => (h.pushed_iff c).2 ⟨hc, hall⟩) hpushed
    push Not at hflight
    obtain ⟨t, ht⟩ := hflight
    refine .inl ?_
    rw [(h.flight t c ht).2.1]
    exact ht

/-- A slot claimed and not published has nothing published. -/
theorem Balanced.published_flight (h : Balanced L) (hf : L.flight t = some c) :
    L.published c.segment c.index = none := by
  obtain ⟨hc, -, hnot⟩ := h.flight t c hf
  have hpresent := h.present hc hnot
  by_contra hsome
  obtain ⟨c', hc'⟩ := Option.ne_none_iff_exists'.1 hsome
  obtain ⟨hpushed, hnot', hseg, hindex⟩ := (h.published_iff _ _ c').1 hc'
  have hclaim' := ((h.pushed_iff c').1 hpushed).1
  have hpresent' := h.present hclaim' hnot'
  have heq : c' = c := by
    refine h.unique hclaim' hc hseg ?_ hindex
    rw [hpresent'.1, hpresent.1, hseg]
  subst heq
  exact ((h.pushed_iff c').1 hpushed).2 t hf

/-- Two claims in flight are of different slots. -/
theorem Balanced.flight_apart (h : Balanced L) {u : τ} (hf : L.flight t = some c)
    (hf' : L.flight u = some c') (hne : t ≠ u) : ¬ (c.segment = c'.segment ∧ c.index = c'.index) := by
  rintro ⟨hseg, hindex⟩
  obtain ⟨hc, howner, hnot⟩ := h.flight t c hf
  obtain ⟨hc', howner', hnot'⟩ := h.flight u c' hf'
  have hlife := (h.present hc hnot).1
  have hlife' := (h.present hc' hnot').1
  have heq : c = c' := by
    refine h.unique hc hc' hseg ?_ hindex
    rw [hlife, hlife', hseg]
  subst heq
  exact hne (howner.symm.trans howner')

theorem balanced_empty (h : Empty L) : Balanced L := by
  refine ⟨?_, ?_, fun k i hi => ?_, fun k => ?_, fun c => ?_, fun c => ?_, fun k i c => ?_,
    fun t c hc => ?_, fun t ht => absurd (h.call t) ht, ?_, ?_, ?_, ?_, fun t n hn => ?_⟩
  · simp [h.claims]
  · simp [h.claims]
  · rw [h.used] at hi
    omega
  · rw [h.taken]
    exact Nat.zero_le _
  · simp [h.claims, h.popped]
  · simp [h.claims, h.pushed]
  · simp [h.published, h.pushed]
  · rw [h.flight] at hc
    cases hc
  · rw [h.claims]
    exact .nil
  · rw [h.popped]
    exact .nil
  · rw [h.pushed]
    exact .nil
  · simp [h.claims]
  · rw [h.call] at hn
    cases hn

variable [DecidableEq κ] [DecidableEq τ]

omit [DecidableEq κ] in
theorem Balanced.start (h : Balanced L) (hflight : L.flight t = none) :
    Balanced { L with call := update L.call t (some L.calls), calls := L.calls + 1 } := by
  refine { h with free := fun u hu => ?_, calls := fun c hc => ?_, call := fun u n hn => ?_ }
  · rcases eq_or_ne u t with rfl | hne
    · exact hflight
    · exact h.free u (by rwa [← update_of_ne hne (some L.calls) L.call])
  · exact Nat.lt_succ_of_lt (h.calls c hc)
  · replace hn : n ∈ update L.call t (some L.calls) u := hn
    rcases eq_or_ne u t with rfl | hne
    · rw [update_self] at hn
      obtain rfl := Option.some.inj hn
      exact ⟨Nat.lt_succ_self _, fun c hc _ => h.calls c hc⟩
    · rw [update_of_ne hne] at hn
      exact ⟨Nat.lt_succ_of_lt (h.call u n hn).1, (h.call u n hn).2⟩

omit [DecidableEq κ] in
theorem Balanced.giveUp (h : Balanced L) : Balanced { L with call := update L.call t none } := by
  have hcall : ∀ u n, n ∈ update L.call t none u → n ∈ L.call u := by
    intro u n hn
    rcases eq_or_ne u t with rfl | hne
    · rw [update_self] at hn
      cases hn
    · rwa [update_of_ne hne] at hn
  refine { h with free := fun u hu => ?_, call := fun u n hn => h.call u n (hcall u n hn) }
  obtain ⟨n, hn⟩ := Option.ne_none_iff_exists'.1 hu
  exact h.free u (Option.ne_none_iff_exists'.2 ⟨n, hcall u n hn⟩)

/-- The next slot of a segment is claimed. -/
theorem Balanced.claim (h : Balanced L) (hcall : L.call t = some n) (value : ε) :
    Balanced { L with
      used := update L.used k (L.used k + 1)
      flight := update L.flight t (some (L.next t n k value))
      call := update L.call t none
      claims := L.claims ++ [L.next t n k value] } := by
  have hfree : L.flight t = none := h.free t (by rw [hcall]; exact Option.some_ne_none n)
  have hnew : L.next t n k value ∉ L.claims := fun hc => lt_irrefl _ (h.index_lt _ hc rfl)
  have hpopped : L.next t n k value ∉ L.popped := fun hc => hnew ((h.popped_iff _).1 hc).1
  have hused : ∀ j, L.used j ≤ update L.used k (L.used k + 1) j := by
    intro j
    rcases eq_or_ne j k with rfl | hj
    · rw [update_self]
      exact Nat.le_succ _
    · rw [update_of_ne hj]
  have hmem : ∀ {c}, c ∈ L.claims ++ [L.next t n k value] ↔ c ∈ L.claims ∨ c = L.next t n k value :=
    fun {c} => by rw [List.mem_append, List.mem_singleton]
  refine { h with
    life_le := fun c hc => ?_, index_lt := fun c hc hl => ?_, every := fun j i hi => ?_,
    taken_le := fun j => (h.taken_le j).trans (hused j), popped_iff := fun c => ?_,
    pushed_iff := fun c => ?_, flight := fun u c hc => ?_, free := fun u hu => ?_,
    order := List.pairwise_append.2 ⟨h.order, List.pairwise_singleton _ _, fun c hc c' hc' => ?_⟩,
    calls := fun c hc => ?_, call := fun u m hm => ?_ }
  · rcases hmem.1 hc with hc | rfl
    · exact h.life_le c hc
    · exact le_rfl
  · rcases hmem.1 hc with hc | rfl
    · exact (h.index_lt c hc hl).trans_le (hused _)
    · show L.used k < update L.used k (L.used k + 1) k
      rw [update_self]
      exact Nat.lt_succ_self _
  · replace hi : i < update L.used k (L.used k + 1) j := hi
    have hold : i < L.used j → ∃ c ∈ L.claims ++ [L.next t n k value],
        c.segment = j ∧ c.life = L.life j ∧ c.index = i := fun hlt => by
      obtain ⟨c, hc, hspec⟩ := h.every j i hlt
      exact ⟨c, hmem.2 (.inl hc), hspec⟩
    rcases eq_or_ne j k with rfl | hj
    · rw [update_self] at hi
      rcases Nat.lt_succ_iff_lt_or_eq.1 hi with hlt | rfl
      · exact hold hlt
      · exact ⟨_, hmem.2 (.inr rfl), rfl, rfl, rfl⟩
    · rw [update_of_ne hj] at hi
      exact hold hi
  · rw [h.popped_iff, hmem]
    refine ⟨fun hc => ⟨.inl hc.1, hc.2⟩, fun ⟨hc, hor⟩ => ⟨hc.resolve_right ?_, hor⟩⟩
    rintro rfl
    have hle := h.taken_le k
    rcases hor with hl | hl
    · exact lt_irrefl _ hl
    · exact absurd hl (not_lt.2 hle)
  · rw [h.pushed_iff, hmem]
    constructor
    · rintro ⟨hc, hall⟩
      refine ⟨.inl hc, fun u hu => ?_⟩
      replace hu : update L.flight t (some (L.next t n k value)) u = some c := hu
      rcases eq_or_ne u t with rfl | hne
      · rw [update_self] at hu
        exact hnew (Option.some.inj hu ▸ hc)
      · rw [update_of_ne hne] at hu
        exact hall u hu
    · rintro ⟨hc, hall⟩
      have hne : c ≠ L.next t n k value := by
        rintro rfl
        exact hall t (update_self t _ L.flight)
      refine ⟨hc.resolve_right hne, fun u hu => hall u ?_⟩
      have hut : u ≠ t := by
        rintro rfl
        rw [hfree] at hu
        cases hu
      exact (update_of_ne hut _ L.flight).trans hu
  · replace hc : update L.flight t (some (L.next t n k value)) u = some c := hc
    rcases eq_or_ne u t with rfl | hne
    · rw [update_self] at hc
      obtain rfl := Option.some.inj hc
      exact ⟨hmem.2 (.inr rfl), rfl, hpopped⟩
    · rw [update_of_ne hne] at hc
      exact ⟨hmem.2 (.inl (h.flight u c hc).1), (h.flight u c hc).2⟩
  · have hne : u ≠ t := by
      rintro rfl
      exact hu (update_self u none L.call)
    show update L.flight t _ u = none
    rw [update_of_ne hne]
    exact h.free u (by rwa [← update_of_ne hne none L.call])
  · rw [List.mem_singleton.1 hc']
    refine ⟨fun hseg hl => ?_, fun howner => (h.call t n hcall).2 c hc howner⟩
    replace hseg : c.segment = k := hseg
    replace hl : c.life = L.life k := hl
    have hlt := h.index_lt c hc (by rw [hl, hseg])
    rwa [hseg] at hlt
  · rcases hmem.1 hc with hc | rfl
    · exact h.calls c hc
    · exact (h.call t n hcall).1
  · replace hm : update L.call t none u = some m := hm
    rcases eq_or_ne u t with rfl | hne
    · rw [update_self] at hm
      cases hm
    · rw [update_of_ne hne] at hm
      refine ⟨(h.call u m hm).1, fun c hc howner => ?_⟩
      rcases hmem.1 hc with hc | rfl
      · exact (h.call u m hm).2 c hc howner
      · exact absurd howner.symm hne

/-- A claim is published. -/
theorem Balanced.publish (h : Balanced L) (hf : L.flight t = some c) :
    Balanced { L with
      published := update L.published c.segment
        (update (L.published c.segment) c.index (some c))
      flight := update L.flight t none
      pushed := L.pushed ++ [c] } := by
  obtain ⟨hclaim, howner, hnot⟩ := h.flight t c hf
  have hpresent := h.present hclaim hnot
  have hpushed : c ∉ L.pushed := fun hp => ((h.pushed_iff c).1 hp).2 t hf
  have hmem : ∀ {c'}, c' ∈ L.pushed ++ [c] ↔ c' ∈ L.pushed ∨ c' = c :=
    fun {c'} => by rw [List.mem_append, List.mem_singleton]
  refine { h with
    pushed_iff := fun c' => ?_, published_iff := fun k i c' => ?_, flight := fun u c' hc' => ?_,
    free := fun u hu => ?_, pushed_nodup := ?_ }
  · rw [hmem, h.pushed_iff]
    constructor
    · rintro (⟨hc', hall⟩ | rfl)
      · refine ⟨hc', fun u hu => ?_⟩
        replace hu : update L.flight t none u = some c' := hu
        rcases eq_or_ne u t with rfl | hne
        · rw [update_self] at hu
          cases hu
        · rw [update_of_ne hne] at hu
          exact hall u hu
      · refine ⟨hclaim, fun u hu => ?_⟩
        replace hu : update L.flight t none u = some c' := hu
        rcases eq_or_ne u t with rfl | hne
        · rw [update_self] at hu
          cases hu
        · rw [update_of_ne hne] at hu
          exact hne ((h.flight u c' hu).2.1.symm.trans howner)
    · rintro ⟨hc', hall⟩
      by_cases heq : c' = c
      · exact .inr heq
      · refine .inl ⟨hc', fun u hu => ?_⟩
        rcases eq_or_ne u t with rfl | hne
        · exact heq (Option.some.inj (hu.symm.trans hf))
        · exact hall u ((update_of_ne hne none L.flight).trans hu)
  · rw [hmem]
    show update L.published c.segment (update (L.published c.segment) c.index (some c)) k i
      = some c' ↔ _
    by_cases hplace : k = c.segment ∧ i = c.index
    · obtain ⟨rfl, rfl⟩ := hplace
      rw [update_self, update_self, Option.some.injEq]
      constructor
      · rintro rfl
        exact ⟨.inr rfl, hnot, rfl, rfl⟩
      · rintro ⟨hc' | rfl, hnot', hseg, hindex⟩
        · have hclaim' := ((h.pushed_iff c').1 hc').1
          have hpresent' := h.present hclaim' hnot'
          refine h.unique hclaim hclaim' hseg.symm ?_ hindex.symm
          rw [hpresent.1, hpresent'.1, hseg]
        · rfl
    · have hold : update L.published c.segment
          (update (L.published c.segment) c.index (some c)) k i = L.published k i := by
        rcases eq_or_ne k c.segment with rfl | hk
        · rw [update_self, update_of_ne fun hi => hplace ⟨rfl, hi⟩]
        · rw [update_of_ne hk]
      rw [hold, h.published_iff]
      refine ⟨fun hc' => ⟨.inl hc'.1, hc'.2⟩, fun ⟨hc', hrest⟩ => ⟨hc'.resolve_right ?_, hrest⟩⟩
      rintro rfl
      exact hplace ⟨hrest.2.1.symm, hrest.2.2.symm⟩
  · replace hc' : update L.flight t none u = some c' := hc'
    rcases eq_or_ne u t with rfl | hne
    · rw [update_self] at hc'
      cases hc'
    · rw [update_of_ne hne] at hc'
      exact h.flight u c' hc'
  · show update L.flight t none u = none
    rcases eq_or_ne u t with rfl | hne
    · rw [update_self]
    · rw [update_of_ne hne]
      exact h.free u hu
  · refine List.nodup_append.2 ⟨h.pushed_nodup, List.nodup_singleton c, fun c₁ h₁ c₂ h₂ => ?_⟩
    rw [List.mem_singleton.1 h₂]
    rintro rfl
    exact hpushed h₁

omit [DecidableEq τ] in
/-- The next slot of a segment is emptied. -/
theorem Balanced.pop (h : Balanced L) (hp : L.published k (L.taken k) = some c) :
    Balanced { L with
      published := update L.published k (update (L.published k) (L.taken k) none)
      taken := update L.taken k (L.taken k + 1)
      popped := L.popped ++ [c] } := by
  obtain ⟨hpushed, hnot, rfl, hindex⟩ := (h.published_iff _ _ c).1 hp
  have hclaim := ((h.pushed_iff c).1 hpushed).1
  have hpresent := h.present hclaim hnot
  have hmem : ∀ {c'}, c' ∈ L.popped ++ [c] ↔ c' ∈ L.popped ∨ c' = c :=
    fun {c'} => by rw [List.mem_append, List.mem_singleton]
  -- the claim of the slot being emptied is `c`
  have hsame : ∀ {c'}, c' ∈ L.claims → c'.life = L.life c'.segment → c'.segment = c.segment →
      c'.index = L.taken c.segment → c' = c := by
    intro c' hc' hlife hseg hi
    refine h.unique hc' hclaim hseg ?_ (hi.trans hindex.symm)
    rw [hlife, hpresent.1, hseg]
  refine { h with
    taken_le := fun j => ?_, popped_iff := fun c' => ?_, published_iff := fun j i c' => ?_,
    flight := fun u c' hc' => ?_,
    popped_order := List.pairwise_append.2 ⟨h.popped_order, List.pairwise_singleton _ _,
      fun c₁ h₁ c₂ h₂ => ?_⟩ }
  · show update L.taken c.segment (L.taken c.segment + 1) j ≤ L.used j
    rcases eq_or_ne j c.segment with rfl | hj
    · rw [update_self]
      omega
    · rw [update_of_ne hj]
      exact h.taken_le j
  · rw [hmem, h.popped_iff]
    show _ ↔ c' ∈ L.claims ∧ (c'.life < L.life c'.segment
      ∨ c'.index < update L.taken c.segment (L.taken c.segment + 1) c'.segment)
    constructor
    · rintro (⟨hc', hl | hi⟩ | rfl)
      · exact ⟨hc', .inl hl⟩
      · refine ⟨hc', .inr ?_⟩
        rcases eq_or_ne c'.segment c.segment with hseg | hseg
        · rw [hseg, update_self]
          rw [hseg] at hi
          exact Nat.lt_succ_of_lt hi
        · rwa [update_of_ne hseg]
      · refine ⟨hclaim, .inr ?_⟩
        rw [update_self]
        omega
    · rintro ⟨hc', hl | hi⟩
      · exact .inl ⟨hc', .inl hl⟩
      · rcases eq_or_ne c'.segment c.segment with hseg | hseg
        · rw [hseg, update_self] at hi
          rcases Nat.lt_succ_iff_lt_or_eq.1 hi with hi | hi
          · exact .inl ⟨hc', .inr (by rwa [hseg])⟩
          · rcases (h.life_le c' hc').lt_or_eq with hl | hl
            · exact .inl ⟨hc', .inl hl⟩
            · exact .inr (hsame hc' hl hseg hi)
        · rw [update_of_ne hseg] at hi
          exact .inl ⟨hc', .inr hi⟩
  · rw [hmem, not_or]
    show update L.published c.segment (update (L.published c.segment) (L.taken c.segment) none) j i
      = some c' ↔ _
    by_cases hplace : j = c.segment ∧ i = L.taken c.segment
    · obtain ⟨rfl, rfl⟩ := hplace
      rw [update_self, update_self]
      refine iff_of_false (Option.some_ne_none c').symm ?_
      rintro ⟨hc', ⟨hnot', hne⟩, hseg, hi⟩
      have hclaim' := ((h.pushed_iff c').1 hc').1
      exact hne (hsame hclaim' (h.present hclaim' hnot').1 hseg hi)
    · have hold : update L.published c.segment
          (update (L.published c.segment) (L.taken c.segment) none) j i = L.published j i := by
        rcases eq_or_ne j c.segment with rfl | hj
        · rw [update_self, update_of_ne fun hi => hplace ⟨rfl, hi⟩]
        · rw [update_of_ne hj]
      rw [hold, h.published_iff]
      refine ⟨fun ⟨hc', hnot', hrest⟩ => ⟨hc', ⟨hnot', ?_⟩, hrest⟩,
        fun ⟨hc', hnot', hrest⟩ => ⟨hc', hnot'.1, hrest⟩⟩
      rintro rfl
      exact hplace ⟨hrest.1.symm, hrest.2.symm.trans hindex⟩
  · refine ⟨(h.flight u c' hc').1, (h.flight u c' hc').2.1, fun hp' => ?_⟩
    rcases hmem.1 hp' with hp' | rfl
    · exact (h.flight u c' hc').2.2 hp'
    · exact ((h.pushed_iff c').1 hpushed).2 u hc'
  · rw [List.mem_singleton.1 h₂]
    intro hseg hlife
    obtain ⟨-, hl | hi⟩ := (h.popped_iff c₁).1 h₁
    · rw [hseg, hlife, hpresent.1] at hl
      exact absurd hl (lt_irrefl _)
    · rw [hseg] at hi
      rwa [hindex]

omit [DecidableEq τ] in
/-- A segment all of whose claimed slots are emptied is opened again. -/
theorem Balanced.reopen (h : Balanced L) (hall : L.taken k = L.used k) :
    Balanced { L with
      life := update L.life k (L.life k + 1)
      used := update L.used k 0
      taken := update L.taken k 0 } := by
  have hlife : ∀ j, L.life j ≤ update L.life k (L.life k + 1) j := by
    intro j
    rcases eq_or_ne j k with rfl | hj
    · rw [update_self]
      exact Nat.le_succ _
    · rw [update_of_ne hj]
  refine { h with
    life_le := fun c hc => (h.life_le c hc).trans (hlife _), index_lt := fun c hc hl => ?_,
    every := fun j i hi => ?_, taken_le := fun j => ?_, popped_iff := fun c => ?_ }
  · replace hl : c.life = update L.life k (L.life k + 1) c.segment := hl
    show c.index < update L.used k 0 c.segment
    have hle := h.life_le c hc
    rcases eq_or_ne c.segment k with hseg | hseg
    · rw [hseg, update_self] at hl
      rw [hseg] at hle
      omega
    · rw [update_of_ne hseg] at hl ⊢
      exact h.index_lt c hc hl
  · replace hi : i < update L.used k 0 j := hi
    show ∃ c ∈ L.claims, c.segment = j ∧ c.life = update L.life k (L.life k + 1) j ∧ c.index = i
    rcases eq_or_ne j k with rfl | hj
    · rw [update_self] at hi
      omega
    · rw [update_of_ne hj] at hi ⊢
      exact h.every j i hi
  · show update L.taken k 0 j ≤ update L.used k 0 j
    rcases eq_or_ne j k with rfl | hj
    · rw [update_self, update_self]
    · rw [update_of_ne hj, update_of_ne hj]
      exact h.taken_le j
  · show c ∈ L.popped ↔ c ∈ L.claims ∧ (c.life < update L.life k (L.life k + 1) c.segment
      ∨ c.index < update L.taken k 0 c.segment)
    rw [h.popped_iff]
    refine and_congr_right fun hc => ?_
    rcases eq_or_ne c.segment k with hseg | hseg
    · have hle := h.life_le c hc
      have hlt := h.index_lt c hc
      rw [hseg] at hle hlt ⊢
      rw [update_self, update_self]
      omega
    · rw [update_of_ne hseg, update_of_ne hseg]

theorem Balanced.step {e : Event κ τ ε} (h : Balanced L) (hs : L.step e = some L') :
    Balanced L' := by
  cases e with
  | start t =>
    unfold Ledger.step at hs
    cases hf : L.flight t with
    | some c => simp [hf] at hs
    | none =>
      cases hc : L.call t with
      | some n => simp [hf, hc] at hs
      | none =>
        simp only [hf, hc, Option.some.injEq] at hs
        subst hs
        exact h.start hf
  | claim t k value =>
    obtain ⟨n, hn, rfl⟩ := Option.map_eq_some_iff.1 hs
    exact h.claim hn value
  | giveUp t =>
    obtain ⟨n, -, rfl⟩ := Option.map_eq_some_iff.1 hs
    exact h.giveUp
  | publish t =>
    obtain ⟨c, hc, rfl⟩ := Option.map_eq_some_iff.1 hs
    exact h.publish hc
  | pop k =>
    obtain ⟨c, hc, rfl⟩ := Option.map_eq_some_iff.1 hs
    exact h.pop hc
  | reopen k =>
    simp only [Ledger.step] at hs
    split_ifs at hs with hall
    obtain rfl := Option.some.inj hs
    exact h.reopen hall

end Balanced

end Ledger

end MinStd
