import MinStd.MemoryStatistics
import Mathlib.Algebra.Order.BigOperators.Group.Finset
import Mathlib.Data.Fintype.BigOperators

/-!
# Counters that only grow

The counters only grow, so a sum over them that is read one by one lies between the sums at its
start and its end.  A block is counted as deallocated only after it has been counted as allocated.
-/

namespace MinStd.MemoryStatistics

open Function

variable {τ : Type*} {s s' : State τ} {t u : τ} {x y : Pc} {kind : Kind} {i j n v : ℕ}

/-! ### Sums of the shards -/

variable {f : ℕ → ShardCounters} {k : Kind}

theorem allocatedBy_top (h : i ≤ n) :
    allocatedBy f k i (n + 1) = allocatedBy f k i n + (f n).allocated k :=
  Finset.sum_Ico_succ_top h _

theorem deallocatedBy_top (h : i ≤ n) :
    deallocatedBy f k i (n + 1) = deallocatedBy f k i n + (f n).deallocated k :=
  Finset.sum_Ico_succ_top h _

theorem allocatedBy_split (h : i ≤ n) (hn : n ≤ j) :
    allocatedBy f k i j = allocatedBy f k i n + allocatedBy f k n j :=
  (Finset.sum_Ico_consecutive _ h hn).symm

theorem deallocatedBy_split (h : i ≤ n) (hn : n ≤ j) :
    deallocatedBy f k i j = deallocatedBy f k i n + deallocatedBy f k n j :=
  (Finset.sum_Ico_consecutive _ h hn).symm

theorem allocatedBy_self : allocatedBy f k i i = 0 := by
  unfold allocatedBy
  rw [Finset.Ico_self, Finset.sum_empty]

theorem deallocatedBy_self : deallocatedBy f k i i = 0 := by
  unfold deallocatedBy
  rw [Finset.Ico_self, Finset.sum_empty]

theorem allocatedBy_le (hn : n < j) : (f n).allocated k ≤ allocatedBy f k 0 j :=
  Finset.single_le_sum (f := fun m => (f m).allocated k) (fun _ _ => Nat.zero_le _)
    (Finset.mem_Ico.2 ⟨Nat.zero_le _, hn⟩)

theorem deallocatedBy_le (hn : n < j) :
    (f n).deallocated k ≤ deallocatedBy f k 0 j :=
  Finset.single_le_sum (f := fun m => (f m).deallocated k) (fun _ _ => Nat.zero_le _)
    (Finset.mem_Ico.2 ⟨Nat.zero_le _, hn⟩)

theorem localShard_lt (cpu : ℕ) : localShard cpu < STATISTICS_SHARDS :=
  Nat.lt_of_le_of_lt Nat.and_le_right (by decide)

/-- No counter has gone down. -/
def Grows (s s' : State τ) : Prop := ∀ n kind,
  (s.shards n).allocated kind ≤ (s'.shards n).allocated kind
    ∧ (s.shards n).deallocated kind ≤ (s'.shards n).deallocated kind

theorem Grows.allocated (h : Grows s s') :
    allocatedBy s.shards kind i j ≤ allocatedBy s'.shards kind i j :=
  Finset.sum_le_sum fun n _ => (h n kind).1

theorem Grows.deallocated (h : Grows s s') :
    deallocatedBy s.shards kind i j ≤ deallocatedBy s'.shards kind i j :=
  Finset.sum_le_sum fun n _ => (h n kind).2

theorem Grows.of_eq (h : s'.shards = s.shards) : Grows s s' := fun n kind => by rw [h]; simp

/-- One counter goes up. -/
theorem sum_count {f g : ℕ → Kind → ℕ} (hn : n < j)
    (hself : f n = update (g n) kind (g n kind + v)) (hother : ∀ m, m ≠ n → f m = g m) :
    (∀ m k, g m k ≤ f m k)
      ∧ ∀ k, ∑ m ∈ Finset.Ico 0 j, f m k
        = ∑ m ∈ Finset.Ico 0 j, g m k + if k = kind then v else 0 := by
  have hcount : ∀ k, f n k = g n k + if k = kind then v else 0 := by
    intro k
    rw [hself]
    by_cases hk : k = kind
    · subst hk
      rw [update_self, if_pos rfl]
    · rw [update_of_ne hk, if_neg hk, Nat.add_zero]
  refine ⟨fun m k => ?_, fun k => ?_⟩
  · by_cases hm : m = n
    · rw [hm, hcount]
      exact Nat.le_add_right _ _
    · rw [hother m hm]
  · have hmem : n ∈ Finset.Ico 0 j := Finset.mem_Ico.2 ⟨Nat.zero_le _, hn⟩
    have herase : ∑ m ∈ (Finset.Ico 0 j).erase n, f m k = ∑ m ∈ (Finset.Ico 0 j).erase n, g m k :=
      Finset.sum_congr rfl fun m hm => by rw [hother m (Finset.ne_of_mem_erase hm)]
    have hnew := Finset.add_sum_erase _ (fun m => f m k) hmem
    have hold := Finset.add_sum_erase _ (fun m => g m k) hmem
    have hone := hcount k
    omega

/-! ### What is counted -/

namespace Pc

/-- What the thread counts as allocated later in its call. -/
def uncounted (kind : Kind) : Pc → ℕ
  | allocated .blocks _ size => kind.of size
  | allocated .bytes _ size => if kind = .bytes then size else 0
  | _ => 0

/-- What is counted as allocated, and no caller has it. -/
def owed (kind : Kind) : Pc → ℕ
  | allocated .bytes _ _ => if kind = .blocks then 1 else 0
  | deallocated .blocks _ size => kind.of size
  | deallocated .bytes _ size => if kind = .bytes then size else 0
  | _ => 0

/-- The call's block is counted, and its deallocations are not summed yet. -/
def Before : Pc → Prop
  | allocated .bytes _ _ => True
  | sumDeallocated .peak _ _ _ => True
  | _ => False

/-- What the sum of a call that counts the peak is no less than. -/
def between? : Pc → Option ℕ
  | sumAllocated .peak _ _ _ _ between _ => some between
  | peakLoad _ between => some between
  | peakCas _ _ between => some between
  | _ => none

/-- The call has not swapped the peak yet, and will see that there were as many. -/
def Covers (current : ℕ) (x : Pc) : Prop := x.Before ∨ ∃ b ∈ x.between?, current ≤ b

theorem Covers.mono {current current' : ℕ} (h : x.Covers current) (hle : current' ≤ current) :
    x.Covers current' :=
  h.imp_right fun hb => hb.imp fun _ hb => hb.imp_right hle.trans

theorem not_covers {current : ℕ} (hx : ¬ x.Before) (hb : x.between? = none) :
    ¬ x.Covers current := by
  rintro (hc | ⟨b, hmem, -⟩)
  · exact hx hc
  · rw [hb] at hmem
    cases hmem

theorem Covers.allocates {current : ℕ} (h : x.Covers current) : x.Allocates := by
  cases x with
  | idle => exact absurd h (not_covers id rfl)
  | allocated kind shard size => trivial
  | deallocated kind shard size => exact absurd h (not_covers id rfl)
  | sumDeallocated reader kind shard sum =>
    cases reader with
    | caller => exact absurd h (not_covers id rfl)
    | peak => exact rfl
  | sumAllocated reader kind shard sum total between held =>
    cases reader with
    | caller => exact absurd h (not_covers id rfl)
    | peak => exact rfl
  | peakLoad current between => trivial
  | peakCas current peak between => trivial

def Ok (s : State τ) : Pc → Prop
  | allocated _ shard _ => shard < STATISTICS_SHARDS
  | deallocated _ shard _ => shard < STATISTICS_SHARDS
  | sumDeallocated reader kind shard sum => shard < STATISTICS_SHARDS
      ∧ (reader = .peak → kind = .blocks) ∧ sum ≤ deallocatedBy s.shards kind 0 shard
  | sumAllocated reader kind shard sum total between held => shard < STATISTICS_SHARDS
      ∧ (reader = .peak → kind = .blocks) ∧ sum ≤ allocatedBy s.shards kind 0 shard
      ∧ total + between ≤ sum + allocatedBy s.shards kind shard STATISTICS_SHARDS ∧ held ≤ between
  | peakLoad current between => between ≤ current
      ∧ current ≤ allocatedBy s.shards .blocks 0 STATISTICS_SHARDS
  | peakCas current peak between => between ≤ current
      ∧ current ≤ allocatedBy s.shards .blocks 0 STATISTICS_SHARDS ∧ peak < current
  | idle => True

theorem Ok.grows (h : x.Ok s) (hg : Grows s s') : x.Ok s' := by
  cases x with
  | idle => trivial
  | allocated kind shard size => exact h
  | deallocated kind shard size => exact h
  | sumDeallocated reader kind shard sum => exact ⟨h.1, h.2.1, h.2.2.trans hg.deallocated⟩
  | sumAllocated reader kind shard sum total between held =>
    exact ⟨h.1, h.2.1, h.2.2.1.trans hg.allocated,
      h.2.2.2.1.trans (Nat.add_le_add_left hg.allocated _), h.2.2.2.2⟩
  | peakLoad current between => exact ⟨h.1, h.2.trans hg.allocated⟩
  | peakCas current peak between => exact ⟨h.1, h.2.1.trans hg.allocated, h.2.2⟩

end Pc

section Threads

variable [Fintype τ]

structure Inv (s : State τ) : Prop where
  balance : ∀ kind, allocatedBy s.shards kind 0 STATISTICS_SHARDS
    = deallocatedBy s.shards kind 0 STATISTICS_SHARDS + (s.live.map kind.of).sum
      + ∑ t, (s.pc t).owed kind
  asked : ∀ kind, allocatedBy s.shards kind 0 STATISTICS_SHARDS + ∑ t, (s.pc t).uncounted kind
    = s.asked kind
  bounded : ∀ kind, s.asked kind < WORD64
  answers : ∀ a ∈ s.answers, (a.held ≤ a.between ∧ a.between ≤ a.value)
    ∧ a.value ≤ allocatedBy s.shards a.kind 0 STATISTICS_SHARDS
  peak : s.peakAllocated ≤ allocatedBy s.shards .blocks 0 STATISTICS_SHARDS
  covered : currentBy s.shards .blocks ≤ s.peakAllocated
    ∨ ∃ t, (s.pc t).Covers (currentBy s.shards .blocks)
  pc : ∀ t, (s.pc t).Ok s

variable [DecidableEq τ]

theorem sum_update (f : Pc → ℕ) (pc : τ → Pc) (t : τ) (x : Pc) :
    ∑ u, f (update pc t x u) + f (pc t) = ∑ u, f (pc u) + f x := by
  rw [← Finset.add_sum_erase _ (fun u => f (update pc t x u)) (Finset.mem_univ t),
    ← Finset.add_sum_erase _ (fun u => f (pc u)) (Finset.mem_univ t), update_self,
    Finset.sum_congr rfl fun u hu => by rw [update_of_ne (Finset.ne_of_mem_erase hu)]]
  omega

omit [Fintype τ] in
theorem ok_update (h : ∀ u, (s.pc u).Ok s) (hg : Grows s s') (hpc : s'.pc = update s.pc t x)
    (hx : x.Ok s') : ∀ u, (s'.pc u).Ok s' := by
  intro u
  rw [hpc]
  by_cases hu : u = t
  · rw [hu, update_self]
    exact hx
  · rw [update_of_ne hu]
    exact (h u).grows hg

omit [Fintype τ] in
theorem covered_update (h : currentBy s.shards .blocks ≤ s.peakAllocated
      ∨ ∃ u, (s.pc u).Covers (currentBy s.shards .blocks)) (hpc : s'.pc = update s.pc t x)
    (hcurrent : currentBy s'.shards .blocks ≤ currentBy s.shards .blocks)
    (hpeak : s.peakAllocated ≤ s'.peakAllocated)
    (hx : (s.pc t).Covers (currentBy s'.shards .blocks) → x.Covers (currentBy s'.shards .blocks)
      ∨ currentBy s'.shards .blocks ≤ s'.peakAllocated) :
    currentBy s'.shards .blocks ≤ s'.peakAllocated
      ∨ ∃ u, (s'.pc u).Covers (currentBy s'.shards .blocks) := by
  rcases h with h | ⟨u, hu⟩
  · exact .inl (hcurrent.trans (h.trans hpeak))
  · rw [hpc]
    by_cases hut : u = t
    · rw [hut] at hu
      rcases hx (hu.mono hcurrent) with hx | hle
      · exact .inr ⟨t, by rwa [update_self]⟩
      · exact .inl hle
    · exact .inr ⟨u, by rw [update_of_ne hut]; exact hu.mono hcurrent⟩

/-! ### Steps -/

/-- A step that counts nothing and changes no block. -/
theorem Inv.goto (h : Inv s) (hx : x.Ok (s.setPc t x))
    (howed : ∀ kind, x.owed kind = (s.pc t).owed kind)
    (huncounted : ∀ kind, x.uncounted kind = (s.pc t).uncounted kind)
    (hcovers : (s.pc t).Covers (currentBy s.shards .blocks) → x.Covers (currentBy s.shards .blocks)
      ∨ currentBy s.shards .blocks ≤ s.peakAllocated) : Inv (s.setPc t x) :=
  { h with
    balance := fun kind => by
      have hsum := sum_update (Pc.owed kind) s.pc t x
      rw [howed kind] at hsum
      rw [show ∑ u, ((s.setPc t x).pc u).owed kind = ∑ u, (s.pc u).owed kind by
        exact Nat.add_right_cancel hsum]
      exact h.balance kind
    asked := fun kind => by
      have hsum := sum_update (Pc.uncounted kind) s.pc t x
      rw [huncounted kind] at hsum
      rw [show ∑ u, ((s.setPc t x).pc u).uncounted kind = ∑ u, (s.pc u).uncounted kind by
        exact Nat.add_right_cancel hsum]
      exact h.asked kind
    covered := covered_update h.covered rfl le_rfl le_rfl hcovers
    pc := ok_update h.pc (.of_eq rfl) rfl hx }

omit [DecidableEq τ] in
theorem Inv.allocated_lt (h : Inv s) (kind : Kind) :
    allocatedBy s.shards kind 0 STATISTICS_SHARDS < WORD64 := by
  have hasked := h.asked kind
  have hlt := h.bounded kind
  omega

omit [DecidableEq τ] in
theorem Inv.deallocated_le (h : Inv s) (kind : Kind) :
    deallocatedBy s.shards kind 0 STATISTICS_SHARDS
      ≤ allocatedBy s.shards kind 0 STATISTICS_SHARDS := by
  have hbalance := h.balance kind
  omega

omit [DecidableEq τ] in
theorem Inv.current_add (h : Inv s) (kind : Kind) :
    currentBy s.shards kind + deallocatedBy s.shards kind 0 STATISTICS_SHARDS
      = allocatedBy s.shards kind 0 STATISTICS_SHARDS :=
  Nat.sub_add_cancel (h.deallocated_le kind)

omit [DecidableEq τ] in
theorem Inv.held_le (h : Inv s) (kind : Kind) : s.held kind ≤ currentBy s.shards kind := by
  have hbalance := h.balance kind
  have hcurrent := h.current_add kind
  unfold State.held
  omega

omit [DecidableEq τ] in
/-- A block is counted. -/
theorem Inv.allocate (h : Inv s) {size : ℕ} (hpc : s.pc t = .allocated kind n size)
    (hv : (s.pc t).uncounted kind = v) (hx : s' = s.setShard n { s.shards n with
      allocated := update (s.shards n).allocated kind (add64 ((s.shards n).allocated kind) v) }) :
    Grows s s' ∧ (∀ k, deallocatedBy s'.shards k 0 STATISTICS_SHARDS
        = deallocatedBy s.shards k 0 STATISTICS_SHARDS)
      ∧ ∀ k, allocatedBy s'.shards k 0 STATISTICS_SHARDS
        = allocatedBy s.shards k 0 STATISTICS_SHARDS + if k = kind then v else 0 := by
  have hn : n < STATISTICS_SHARDS := by
    have hok := h.pc t
    rwa [hpc] at hok
  have hshard := allocatedBy_le (f := s.shards) (k := kind) hn
  have hle : (s.pc t).uncounted kind ≤ ∑ u, (s.pc u).uncounted kind :=
    Finset.single_le_sum (f := fun u => (s.pc u).uncounted kind) (fun u _ => Nat.zero_le _)
      (Finset.mem_univ t)
  have hasked := h.asked kind
  have hlt := h.bounded kind
  rw [add64_eq (by omega)] at hx
  have hother : ∀ m, m ≠ n → s'.shards m = s.shards m := fun m hm => by
    rw [hx]
    exact update_of_ne hm _ _
  have hself : s'.shards n = { s.shards n with
      allocated := update (s.shards n).allocated kind ((s.shards n).allocated kind + v) } := by
    rw [hx]
    exact update_self _ _ _
  have hsame : ∀ m, (s'.shards m).deallocated = (s.shards m).deallocated := fun m => by
    by_cases hm : m = n
    · rw [hm, hself]
    · rw [hother m hm]
  obtain ⟨hgrows, hsum⟩ := sum_count (f := fun m => (s'.shards m).allocated)
    (g := fun m => (s.shards m).allocated) hn (by rw [hself]) fun m hm => by rw [hother m hm]
  exact ⟨fun m k => ⟨hgrows m k, by rw [hsame]⟩,
    fun k => Finset.sum_congr rfl fun m _ => by rw [hsame], hsum⟩

omit [DecidableEq τ] in
/-- A block is counted off. -/
theorem Inv.deallocate (h : Inv s) {size : ℕ} (hpc : s.pc t = .deallocated kind n size)
    (hv : (s.pc t).owed kind = v) (hx : s' = s.setShard n { s.shards n with
      deallocated := update (s.shards n).deallocated kind
        (add64 ((s.shards n).deallocated kind) v) }) :
    Grows s s' ∧ (∀ k, allocatedBy s'.shards k 0 STATISTICS_SHARDS
        = allocatedBy s.shards k 0 STATISTICS_SHARDS)
      ∧ ∀ k, deallocatedBy s'.shards k 0 STATISTICS_SHARDS
        = deallocatedBy s.shards k 0 STATISTICS_SHARDS + if k = kind then v else 0 := by
  have hn : n < STATISTICS_SHARDS := by
    have hok := h.pc t
    rwa [hpc] at hok
  have hshard := deallocatedBy_le (f := s.shards) (k := kind) hn
  have hle : (s.pc t).owed kind ≤ ∑ u, (s.pc u).owed kind :=
    Finset.single_le_sum (f := fun u => (s.pc u).owed kind) (fun u _ => Nat.zero_le _)
      (Finset.mem_univ t)
  have hbalance := h.balance kind
  have hlt := h.allocated_lt kind
  rw [add64_eq (by omega)] at hx
  have hother : ∀ m, m ≠ n → s'.shards m = s.shards m := fun m hm => by
    rw [hx]
    exact update_of_ne hm _ _
  have hself : s'.shards n = { s.shards n with
      deallocated := update (s.shards n).deallocated kind
        ((s.shards n).deallocated kind + v) } := by
    rw [hx]
    exact update_self _ _ _
  have hsame : ∀ m, (s'.shards m).allocated = (s.shards m).allocated := fun m => by
    by_cases hm : m = n
    · rw [hm, hself]
    · rw [hother m hm]
  obtain ⟨hgrows, hsum⟩ := sum_count (f := fun m => (s'.shards m).deallocated)
    (g := fun m => (s.shards m).deallocated) hn (by rw [hself]) fun m hm => by rw [hother m hm]
  exact ⟨fun m k => ⟨by rw [hsame], hgrows m k⟩,
    fun k => Finset.sum_congr rfl fun m _ => by rw [hsame], hsum⟩

end Threads

end MinStd.MemoryStatistics
