import MinStd.CountOf
import MinStd.ArenaRegions
import Mathlib.Data.List.Infix

/-!
# The invariant of the two regions

The blocks lie one on the other up to the frontier, and the frontier word says where the topmost one
starts, so a block is given back only from the top.  A slot of a manager is held by a thread that
takes or gives back a record of its group, or by a record that is in use.
-/

namespace MinStd.ArenaRegions

open Function

variable {τ : Type*} {A : Arena} {s s' : State τ} {t u : τ}

/-! ### The frontier word -/

theorem unpackFrontier_pack {f : ℕ} (p : Option ℕ) (hf : f ≤ NO_PREDECESSOR) :
    unpackFrontier (packFrontier f p) = f := by
  have hlt : f < 2 ^ 32 := by
    unfold NO_PREDECESSOR at hf
    omega
  rw [unpackFrontier, packFrontier, Nat.mod_eq_of_lt hlt, ← Nat.shiftLeft_add_eq_or_of_lt hlt,
    Nat.shiftLeft_eq, Nat.mul_add_mod_self_right, Nat.mod_eq_of_lt hlt]

theorem unpackPredecessor_pack {f : ℕ} {p : Option ℕ} (hp : ∀ b ∈ p, b < NO_PREDECESSOR) :
    unpackPredecessor (packFrontier f p) = p := by
  have hlt : f % 2 ^ 32 < 2 ^ 32 := Nat.mod_lt _ (by omega)
  have hhigh : packFrontier f p >>> 32 = p.getD NO_PREDECESSOR := by
    rw [packFrontier, ← Nat.shiftLeft_add_eq_or_of_lt hlt, Nat.shiftRight_eq_div_pow,
      Nat.shiftLeft_eq, Nat.add_comm, Nat.add_mul_div_right _ _ (by omega),
      Nat.div_eq_of_lt hlt, Nat.zero_add]
  rw [unpackPredecessor, hhigh]
  rcases p with _ | b
  · rfl
  · exact if_neg (hp b rfl).ne

/-! ### Towers -/

def frontierOf : List (ℕ × ℕ) → ℕ
  | [] => 0
  | (p, n) :: _ => p + n

def predOf : List (ℕ × ℕ) → Option ℕ
  | [] => none
  | (p, _) :: _ => some p

def wordOf (l : List (ℕ × ℕ)) : ℕ := packFrontier (frontierOf l) (predOf l)

/-- Blocks that lie one on the other, the topmost first. -/
def Tower : List (ℕ × ℕ) → Prop
  | [] => True
  | (p, n) :: l => p = frontierOf l ∧ 0 < n ∧ Tower l

section Tower

variable {l l' : List (ℕ × ℕ)} {p q n m : ℕ}

theorem Tower.mem_le (h : Tower l) (hm : (p, n) ∈ l) : 0 < n ∧ p + n ≤ frontierOf l := by
  induction l with
  | nil => cases hm
  | cons x l ih =>
    obtain ⟨q, m⟩ := x
    obtain ⟨rfl, hpos, hl⟩ := h
    rcases List.mem_cons.1 hm with hx | hm
    · cases hx
      exact ⟨hpos, le_rfl⟩
    · obtain ⟨h1, h2⟩ := ih hl hm
      exact ⟨h1, h2.trans (Nat.le_add_right _ _)⟩

theorem Tower.suffix (h : Tower l) (hs : l' <:+ l) : Tower l' := by
  induction l with
  | nil =>
    rw [List.suffix_nil.1 hs]
    trivial
  | cons x l ih =>
    obtain ⟨q, m⟩ := x
    rcases List.suffix_cons_iff.1 hs with rfl | hrest
    · exact h
    · exact ih h.2.2 hrest

theorem Tower.frontierOf_le (h : Tower l) (hs : l' <:+ l) : frontierOf l' ≤ frontierOf l := by
  rcases l' with _ | ⟨⟨p, n⟩, l'⟩
  · exact Nat.zero_le _
  · exact (h.mem_le (hs.mem List.mem_cons_self)).2

/-- A block starts in one place of a tower. -/
theorem Tower.unique (h : Tower l) (h1 : (p, n) :: l' <:+ l) {l'' : List (ℕ × ℕ)}
    (h2 : (p, m) :: l'' <:+ l) : n = m ∧ l' = l'' := by
  have hnot : ∀ {a b : List (ℕ × ℕ)} {j k : ℕ}, (p, j) :: a <:+ l → ¬ (p, k) :: b <:+ a := by
    intro a b j k ha hb
    have hta := h.suffix ha
    obtain ⟨hpos, hle⟩ := hta.2.2.mem_le (hb.mem List.mem_cons_self)
    have hp := hta.1
    omega
  rcases List.suffix_or_suffix_of_suffix h1 h2 with hs | hs
  · rcases List.suffix_cons_iff.1 hs with he | hs
    · cases he
      exact ⟨rfl, rfl⟩
    · exact absurd hs (hnot h2)
  · rcases List.suffix_cons_iff.1 hs with he | hs
    · cases he
      exact ⟨rfl, rfl⟩
    · exact absurd hs (hnot h1)

theorem Tower.exists_suffix (hm : (p, n) ∈ l) : ∃ l', (p, n) :: l' <:+ l := by
  obtain ⟨a, b, rfl⟩ := List.append_of_mem hm
  exact ⟨b, a, rfl⟩

/-- A word says which block is topmost. -/
theorem predOf_eq_some (h : predOf l = some p) : ∃ n l', l = (p, n) :: l' := by
  rcases l with _ | ⟨⟨q, n⟩, l⟩
  · cases h
  · cases h
    exact ⟨n, l, rfl⟩

theorem Tower.pred_lt (h : Tower l) (hp : predOf l = some p) : p < frontierOf l := by
  obtain ⟨n, l', rfl⟩ := predOf_eq_some hp
  have hpos := h.2.1
  show p < p + n
  omega

theorem Tower.unpack_frontier (h : frontierOf l ≤ A.metadataStart) :
    unpackFrontier (wordOf l) = frontierOf l :=
  unpackFrontier_pack _ (h.trans A.lt.le)

theorem Tower.unpack_predecessor (h : Tower l) (hl : frontierOf l ≤ A.metadataStart) :
    unpackPredecessor (wordOf l) = predOf l :=
  unpackPredecessor_pack fun _ hb => (h.pred_lt hb).trans_le (hl.trans A.lt.le)

end Tower

/-! ### What a place and a thread have -/

namespace Place

/-- The record holds a slot. -/
def slotted : Place τ → Bool
  | region => false
  | growing _ => false
  | free => false
  | _ => true

/-- The block that the record is for. -/
def names? : Place τ → Option ℕ
  | storing _ block => some block
  | live block => some block
  | pending block => some block
  | batch _ block => some block
  | bin block => some block
  | claimed _ block => some block
  | _ => none

/-- The thread that has the record in a call. -/
def thread? : Place τ → Option τ
  | growing t => some t
  | hand t => some t
  | storing t _ => some t
  | batch t _ => some t
  | claimed t _ => some t
  | rolled t => some t
  | _ => none

end Place

namespace Pc

/-- The manager that the thread holds a slot of. -/
def slot? : Pc → Option ℕ
  | recordPop manager _ => some manager
  | growFrontier count => some (managerFor count)
  | growCas count => some (managerFor count)
  | growRecheck count => some (managerFor count)
  | growUndo count => some (managerFor count)
  | release manager _ => some manager
  | _ => none

/-- The record that the thread has grown and may have to give back. -/
def grows? : Pc → Option ℕ
  | growRecheck count => some count
  | growUndo count => some count
  | _ => none

/-- The manager that the thread trims. -/
def trims? : Pc → Option ℕ
  | trimCheck count => some (managerFor (count - 1))
  | trimShrink count => some (managerFor (count - 1))
  | trimOpen manager => some manager
  | _ => none

/-- The block that the thread has to keep and has not returned yet. -/
def builds? : Pc → Option ℕ
  | blockSize _ tag => some (unpackFrontier tag)
  | blockLink _ tag => some (unpackFrontier tag)
  | _ => none

end Pc

def Slot (pc : τ → Pc) (place : ℕ → Place τ) (m : ℕ) : τ ⊕ ℕ → Prop
  | .inl t => (pc t).slot? = some m
  | .inr i => (place i).slotted = true ∧ managerFor i = m

/-- A manager's word: it is trimmed and nobody holds a slot, or the word counts the slots. -/
def Managed (P : τ ⊕ ℕ → Prop) (word : ℕ) : Prop :=
  word = TRIMMING_MASK ∧ (∀ x, ¬ P x) ∨ CountOf P word ∧ word ≤ ACTIVE_COUNT_MASK

/-- The block of the size that starts at the frontier of `tag` and lies on the blocks of `tag`. -/
def Built (s : State τ) (size tag : ℕ) : Prop :=
  ∃ l, (unpackFrontier tag, size) :: l <:+ s.tiles ∧ tag = wordOf l

/-- The records that a thread has in a batch. -/
def Batch (s : State τ) (t : τ) (l : List ℕ) : Prop :=
  l.Nodup ∧ ∀ i ∈ l, ∃ b, s.place i = .batch t b

/-- The block of record `i` ends at the frontier of `tag`. -/
def Ends (s : State τ) (t : τ) (tag i : ℕ) : Prop :=
  ∃ b, s.place i = .batch t b ∧ b + s.totalSize i = unpackFrontier tag

/-- The word that a rollback found and the frontier word it read. -/
def Roll.Found (s : State τ) (tag i : ℕ) (word : BlockState) : Roll → Prop
  | walk => word.state = .AVAILABLE ∧ word.block.isSome ∧ unpackPredecessor tag = word.block
  | batch _ _ => word.state = .DEALLOCATED_PENDING ∧
      word.block.map (· + s.totalSize i) = some (unpackFrontier tag)

/-- The rest of the batch of a rollback. -/
def Roll.rest : Roll → List ℕ
  | walk => []
  | batch before after => before ++ after

/-- A rollback has claimed the block of record `i`. -/
structure Claims (s : State τ) (t : τ) (roll : Roll) (tag i : ℕ) (word : BlockState) : Prop where
  found : roll.Found s tag i word
  place : ∃ b, s.place i = .claimed t b ∧ word.block = some b
  word : s.blockState i = { word with state := .FRONTIER_RECLAIM_IN_PROGRESS }
  batch : Batch s t roll.rest

def After.Ok (s : State τ) (t : τ) : After → Prop
  | batch rest => Batch s t rest
  | _ => True

/-- What a thread relies on. -/
def Pc.Ok (A : Arena) (s : State τ) (t : τ) : Pc → Prop
  | blockLoad size => 0 < size
  | blockCheck size _ => 0 < size
  | blockCas size tag => 0 < size ∧ unpackFrontier tag + size ≤ A.metadataStart
  | blockRecheck size tag => Built s size tag ∧ s.holder (unpackFrontier tag) = .reserved t
  | blockUndo size tag => Built s size tag ∧ s.holder (unpackFrontier tag) = .reserved t
  | blockUndoCheck size tag => Built s size tag ∧ s.holder (unpackFrontier tag) = .reserved t
  | blockSize size tag => Built s size tag ∧ s.holder (unpackFrontier tag) = .kept t
      ∧ unpackFrontier tag ∉ s.blocks.map Prod.fst
  | blockLink size tag => Built s size tag ∧ s.holder (unpackFrontier tag) = .kept t
      ∧ unpackFrontier tag ∉ s.blocks.map Prod.fst
      ∧ (s.headers (unpackFrontier tag)).sizeIncludingHeader = size
  | reserveCas _ word => word &&& TRIMMING_MASK = 0
      ∧ word &&& ACTIVE_COUNT_MASK ≠ ACTIVE_COUNT_MASK
  | growRecheck count => s.place count = .growing t
  | growUndo count => s.place count = .growing t
  | release _ after => after.Ok s t
  | recycleStore index after => s.place index = .hand t ∧ after.Ok s t
  | recyclePush index after => s.place index = .hand t ∧ after.Ok s t
  | useIndex index block => s.place index = .storing t block
  | useState index block => s.place index = .storing t block
  | useSize index block => s.place index = .storing t block ∧ s.written index = true
      ∧ (s.blockState index).block = some block ∧ (s.blockState index).state = .IN_USE
  | walkIndex tag prev => unpackPredecessor tag = some prev
  | walkCount tag prev _ => unpackPredecessor tag = some prev
  | walkState tag prev _ => unpackPredecessor tag = some prev
  | batchLock batch => Batch s t batch
  | batchLoad batch => Batch s t batch
  | batchScan _ before after => Batch s t (before ++ after)
  | batchState tag before index after => Batch s t (before ++ index :: after) ∧ Ends s t tag index
  | claim .walk tag index word => Roll.walk.Found s tag index word
  | claim (.batch before after) tag index word => Batch s t (before ++ index :: after)
      ∧ Ends s t tag index ∧ s.blockState index = word
  | previous roll tag index word => Claims s t roll tag index word
  | rollCas roll tag index word prev => Claims s t roll tag index word
      ∧ prev = (s.headers (word.block.getD 0)).previousBlock
  | restore roll index word => ∃ tag, Claims s t roll tag index word
  | markLoad index => s.place index = .rolled t
  | markCas index word => s.place index = .rolled t ∧ s.blockState index = word
  | unlock rest => Batch s t rest
  | publish rest => Batch s t rest
  | trimCheck count => s.stateAndActiveCount (managerFor (count - 1)) = TRIMMING_MASK
  | trimShrink count => s.stateAndActiveCount (managerFor (count - 1)) = TRIMMING_MASK
  | trimOpen manager => s.stateAndActiveCount manager = TRIMMING_MASK
  | _ => True

/-- The record's word says of block `b` that it is in a state, and its size is the block's. -/
structure Names (s : State τ) (i b : ℕ) (state : AllocationState) : Prop where
  written : s.written i = true
  block : (s.blockState i).block = some b
  state : (s.blockState i).state = state
  size : (b, s.totalSize i) ∈ s.blocks

/-- The record's word was not stored since it was grown, or it is not that of a free block. -/
def Unavailable (s : State τ) (i : ℕ) : Prop :=
  s.written i = true → (s.blockState i).state ≠ .AVAILABLE

/-- What the word of a record says. -/
def Place.Ok (s : State τ) (i : ℕ) : Place τ → Prop
  | region => s.written i = false
  | growing _ => s.written i = false
  | hand _ => Unavailable s i
  | storing _ b => Unavailable s i ∧ b ∈ s.blocks.map Prod.fst
  | live b => Names s i b .IN_USE
  | pending b => Names s i b .DEALLOCATED_PENDING
  | batch _ b => Names s i b .DEALLOCATED_PENDING
  | bin b => Names s i b .AVAILABLE
  | claimed _ b => Names s i b .FRONTIER_RECLAIM_IN_PROGRESS
  | rolled _ => Unavailable s i
  | reclaimed => Unavailable s i
  | free => Unavailable s i

/-- A block that was checked against the records. -/
def Holder.Checked : Holder τ → Prop
  | none => False
  | reserved _ => False
  | _ => True

structure Inv (A : Arena) (s : State τ) : Prop where
  word : s.nextEmptyMemoryBlock = wordOf s.tiles
  tower : Tower s.tiles
  frontier : frontierOf s.tiles ≤ A.metadataStart
  holder : ∀ p, s.holder p ≠ .none ↔ p ∈ s.tiles.map Prod.fst
  blocks : ∀ b ∈ s.blocks, b ∈ s.tiles ∧ (s.holder b.1).Checked
  nodup : (s.blocks.map Prod.fst).Nodup
  header : ∀ b l, b ∈ s.blocks → b :: l <:+ s.tiles →
    (s.headers b.1).sizeIncludingHeader = b.2 ∧ (s.headers b.1).previousBlock = predOf l
  named : ∀ p i, s.holder p = .named i ↔ (s.place i).names? = some p
  kept : ∀ p t, s.holder p = .kept t → p ∈ s.blocks.map Prod.fst ∨ (s.pc t).builds? = some p
  place : ∀ i, (s.place i).Ok s i
  counted : ∀ i, s.place i ≠ .region ↔ i < s.currentMetadataRecordCount
  growing : ∀ t i, s.place i = .growing t → (s.pc t).grows? = some i
  cross : ∀ p n, (p, n) ∈ s.tiles → (s.holder p).Checked → ∀ i, (s.place i).Returned →
    p + n + i < A.metadataStart
  slots : ∀ m, Managed (Slot s.pc s.place m) (s.stateAndActiveCount m)
  trims : ∀ t u m, (s.pc t).trims? = some m → (s.pc u).trims? = some m → t = u
  pc : ∀ t, (s.pc t).Ok A s t

end MinStd.ArenaRegions
