import MinStd.Proofs.SingleBlockLists

/-!
# The single-block resource where its unlinks start from listed blocks

The links from any block lead through blocks unlinked later and later to a listed one, and along its
list to the end marker.  So a scan ends wherever it stands: what is left of its chain shrinks, and
an unlink with the push that may follow takes it back to the walk.  Without the condition a scan
cuts a listed block's follower from a block no longer listed and clears the flag of a listed block,
which then is pushed again and points to itself.
-/

namespace MinStd.SingleBlockResource

variable {Tid : Type*} [DecidableEq Tid] {B : Buffer}

structure Inv (s : State Tid) : Prop where
  memory : Memory s
  lists : Lists s
  callers : Callers s

omit [DecidableEq Tid] in
theorem inv_start (firstBlock : ℕ) : Inv (State.start firstBlock : State Tid) where
  memory := by
    refine ⟨fun _ => trivial, fun _ _ => .inl rfl, ?_, ?_, ?_, ?_, fun _ => trivial⟩ <;>
      simp [State.start, Pc.carved?]
  lists := by
    refine ⟨fun _ => rfl, ?_, ?_, ?_, ?_, ⟨fun _ => 0, 0, ?_⟩⟩ <;>
      simp [State.start, Pc.owned?, Ordered, Aims, Pc.aims?]
  callers := by
    refine ⟨?_, ?_, ?_⟩ <;> simp [State.start, Pc.held?]

theorem Inv.step {s s' : State Tid} {t : Tid} {a : Act} (h : Inv s)
    (hg : Guarded B s (t, a)) (hs : step B s t a = some s') : Inv s' := by
  have he := step_effect h.memory hg.2 hs
  exact ⟨h.memory.step he, h.lists.step h.memory hg.1 he, h.callers.step h.memory he⟩

theorem inv_of_run {s : State Tid} (h : (machine Tid B).Run (Guarded B) s) : Inv s :=
  Machine.run_induction (by rintro s rfl; exact inv_start _)
    (fun _ _ _ _ hi hg hs => hi.step hg hs) h

section Scan

variable {s s' : State Tid} {t : Tid}

omit [DecidableEq Tid] in
/-- The links from any pointer a thread may hold lead to the end marker: among the blocks off
their lists, to one unlinked later, and from a listed one along its list. -/
theorem Inv.ends (h : Inv s) {bin : ℕ} {p : Ptr} (hp : SeenPtr s bin p) :
    ∃ l, Linked .block s.nextDeallocated p l .endOfListMarker := by
  obtain ⟨τ, now, hτ, ho⟩ := h.lists.ordered
  have listed : ∀ b, Listed s b →
      ∃ l, Linked .block s.nextDeallocated (.block b) l .endOfListMarker := by
    rintro b ⟨k, hb⟩
    obtain ⟨l₁, l₂, -, -, h2⟩ := (h.lists.chain k).tail_of_mem hb
    exact ⟨b :: l₂, rfl, h2⟩
  have later : ∀ n b, now - τ b = n → Seen s bin b →
      ∃ l, Linked .block s.nextDeallocated (.block b) l .endOfListMarker := by
    intro n
    induction n using Nat.strongRecOn with
    | _ n ih =>
      intro b hn hb
      by_cases hl : Listed s b
      · exact listed b hl
      · have hnext := h.memory.seen_next hb
        cases hc : s.nextDeallocated b with
        | null => exact absurd hc hb.next
        | endOfListMarker => exact ⟨[b], rfl, hc⟩
        | block c =>
          obtain ⟨l, hl⟩ : ∃ l, Linked .block s.nextDeallocated (.block c) l .endOfListMarker := by
            rcases ho b c (.inl hc) hl with hcl | hlt
            · exact listed c hcl
            · rw [hc] at hnext
              have := hτ c
              exact ih (now - τ c) (by omega) c rfl hnext
          exact ⟨b :: l, rfl, hc ▸ hl⟩
  cases p with
  | null => exact absurd rfl hp.ne_null
  | endOfListMarker => exact ⟨[], rfl⟩
  | block b => exact later _ b rfl hp

/-- At most `n` more steps in the loop, by what is left of the chain the scan walks. -/
def Going (s : State Tid) (n : ℕ) : Pc → Prop
  | .testEnd _ _ p => left p 1
  | .loadNext _ _ current => left (s.nextDeallocated current) 8
  | .testFree _ _ _ next => left next 7
  | .claim _ _ _ next => left next 6
  | .testInUse _ _ _ next => left next 5
  | .unlink _ _ current next => left next 4 ∧ s.inUse current = true
  | .clearFlag _ _ current next => left next 3 ∧ s.inUse current = true
  | .recheck _ _ current next => left next 2 ∧ s.inUse current = true
  | _ => False
where
  left (p : Ptr) (i : ℕ) : Prop :=
    ∃ l, Linked .block s.nextDeallocated p l .endOfListMarker ∧ 8 * l.length + i ≤ n

theorem step_run : step B s t .run = (scanStep s t (s.pc t)).or
    ((pushFreeStep s t (s.pc t)).or ((tailStep B s t (s.pc t)).or
      (deallocateStep s t (s.pc t)))) := by
  simp [step]

section Going

omit [DecidableEq Tid]

theorem Going.left_mono {n m i j : ℕ} {p : Ptr} (h : Going.left s n p i) (hj : n + j ≤ m + i) :
    Going.left s m p j := by
  obtain ⟨l, hl, hn⟩ := h
  exact ⟨l, hl, by omega⟩

theorem Going.pos {n : ℕ} {p : Pc} (h : Going s n p) : 0 < n := by
  have left {q : Ptr} {i : ℕ} (h : Going.left s n q i) (hi : 0 < i) : 0 < n := by
    obtain ⟨l, -, hn⟩ := h
    omega
  unfold Going at h
  split at h
  · exact left h (by omega)
  · exact left h (by omega)
  · exact left h (by omega)
  · exact left h (by omega)
  · exact left h (by omega)
  · exact left h.1 (by omega)
  · exact left h.1 (by omega)
  · exact left h.1 (by omega)
  · exact h.elim

/-- What is left of a scan does not pass the link it unlinks from. -/
theorem Going.left_unlink {n i bin : ℕ} {previous : Option Block} {current : Block}
    (h : Going.left s n (s.nextDeallocated current) i)
    (hl : s.linkTo bin previous = .block current) :
    Going.left (s.setLinkTo bin previous (s.nextDeallocated current)) n
      (s.nextDeallocated current) i := by
  obtain ⟨l, hl', hn⟩ := h
  refine ⟨l, ?_, hn⟩
  cases previous with
  | none => exact hl'
  | some previous =>
    have hcur : Linked .block s.nextDeallocated (.block current) (current :: l) .endOfListMarker :=
      ⟨rfl, hl'⟩
    have := hcur.notMem_of_next block_injective block_ne_marker hl
    exact hl'.update (fun hm => this (List.mem_cons_of_mem _ hm)) _

end Going

theorem Going.scanStep_isSome {n : ℕ} {p : Pc} (h : Going s n p) : (scanStep s t p).isSome := by
  cases p with
  | testEnd r previous current => cases current <;> rfl
  | loadNext r previous current | testFree r previous current next
  | testInUse r previous current next | clearFlag r previous current next
  | recheck r previous current next => rfl
  | claim r previous current next | unlink r previous current next =>
    simp only [scanStep]
    split_ifs <;> rfl
  | _ => exact h.elim

theorem going_step {n : ℕ} (h : Going s n (s.pc t)) (hs : ScanStep B t s' s)
    (hs' : (s'.pc t).scanning) : ∃ m < n, Going s' m (s'.pc t) := by
  obtain ⟨-, hg, hs⟩ := hs
  refine ⟨n - 1, Nat.sub_lt h.pos Nat.one_pos, ?_⟩
  rw [step_run, Option.or_eq_some_iff] at hs
  rcases hs with hs | ⟨hs, -⟩
  · unfold scanStep at hs
    split at hs <;> rename_i hp <;> try rw [hp] at h
    case h_1 r => exact h.elim
    case h_2 r previous current =>
      cases hs
      rw [update_pc, if_pos rfl] at hs' ⊢
      split_ifs at hs' ⊢
      · simp [Pc.scanning] at hs'
      · obtain ⟨l, hl, hn⟩ := h
        cases l with
        | nil => exact absurd hl (block_ne_marker current)
        | cons c l =>
          obtain ⟨hc, hl⟩ := hl
          cases hc
          rw [List.length_cons] at hn
          exact ⟨l, hl, by omega⟩
    case h_3 r previous current =>
      cases hs
      rw [update_pc, if_pos rfl] at hs'
      simp [Pc.scanning] at hs'
    case h_4 r previous current =>
      cases hs
      rw [update_pc, if_pos rfl]
      exact Going.left_mono h (by omega)
    case h_5 r previous current next =>
      cases hs
      rw [update_pc, if_pos rfl]
      split_ifs
      · exact Going.left_mono h (by omega)
      · exact Going.left_mono h (by omega)
    case h_6 r previous current next =>
      split_ifs at hs with hu <;> cases hs <;> rw [update_pc, if_pos rfl] at hs' ⊢
      · exact Going.left_mono h (by omega)
      · simp [Pc.scanning] at hs'
    case h_7 r previous current next =>
      cases hs
      rw [update_pc, if_pos rfl]
      split_ifs with hu
      · exact ⟨Going.left_mono h (by omega), hu⟩
      · exact Going.left_mono h (by omega)
    case h_8 r previous current next =>
      simp only [UnlinksListed, hp] at hg
      split_ifs at hs with hl <;> cases hs <;> rw [update_pc, if_pos rfl]
      · obtain ⟨-, rfl⟩ := hg hl
        refine ⟨Going.left_mono (Going.left_unlink h.1 hl) (by omega), ?_⟩
        cases previous <;> exact h.2
      · exact Going.left_mono h.1 (by omega)
    case h_9 r previous current next =>
      cases hs
      rw [update_pc, if_pos rfl]
      exact ⟨Going.left_mono h.1 (by omega), h.2⟩
    case h_10 r previous current next =>
      cases hs
      rw [update_pc, if_pos rfl, if_pos h.2]
      exact Going.left_mono h.1 (by omega)
    case h_11 r b => exact h.elim
    case h_12 => cases hs
  · have := h.scanStep_isSome (t := t)
    rw [hs] at this
    cases this

theorem Going.acc {n : ℕ} (h : Going s n (s.pc t)) : Acc (ScanStep B t) s := by
  induction n using Nat.strongRecOn generalizing s with
  | _ n ih =>
    refine ⟨s, fun s' hs => ?_⟩
    by_cases hs' : (s'.pc t).scanning
    · obtain ⟨m, hm, h'⟩ := going_step h hs hs'
      exact ih m hm h'
    · exact ⟨s', fun s'' h'' => absurd h''.1 hs'⟩

/-- The steps before the scan stands at a block with nothing of the last one left to do. -/
def debt (s : State Tid) : Pc → ℕ
  | .unlink _ _ _ _ => 9
  | .clearFlag _ _ _ _ => 8
  | .recheck _ _ _ _ => 7
  | .exchangeFlag _ _ _ => 6
  | .pushLoad _ _ _ => 5
  | .pushStore _ bin head _ => if s.head bin = head then 2 else 4
  | .pushCas _ bin head _ => if s.head bin = head then 1 else 3
  | .loadHead _ => 1
  | _ => 0

omit [DecidableEq Tid] in
theorem going_of_debt (h : Inv s) (hs : (s.pc t).scanning) (hd : debt s (s.pc t) = 0) :
    ∃ n, Going s n (s.pc t) := by
  have left {bin : ℕ} {p : Ptr} (hp : SeenPtr s bin p) (i : ℕ) : ∃ n, Going.left s n p i := by
    obtain ⟨l, hl⟩ := h.ends hp
    exact ⟨_, l, hl, Nat.le_refl _⟩
  have hok := h.memory.pcs t
  revert hs hd hok
  cases s.pc t with
  | testEnd r previous current => exact fun _ _ hok => left hok.2 1
  | loadNext r previous current => exact fun _ _ hok => left (h.memory.seen_next hok.2) 8
  | testFree r previous current next => exact fun _ _ hok => left hok.1.2 7
  | claim r previous current next => exact fun _ _ hok => left hok.1.2 6
  | testInUse r previous current next => exact fun _ _ hok => left hok.1.2 5
  | pushStore b bin head k | pushCas b bin head k =>
    intro _ hd
    simp only [debt] at hd
    split_ifs at hd
  | _ => simp [debt, Pc.scanning]

/-- The steps of an unlink and of the push that may follow lead back to the walk. -/
theorem debt_step (hd : 0 < debt s (s.pc t)) (hs : ScanStep B t s' s) :
    debt s' (s'.pc t) < debt s (s.pc t) := by
  obtain ⟨hsc, -, hs⟩ := hs
  rw [step_run] at hs
  revert hd hsc hs
  have hafter : ∀ (s₁ : State Tid) k, debt s₁ (afterPush k) = 0 := fun s₁ k => by
    cases k <;> rfl
  cases hp : s.pc t with
  | loadHead r =>
    intro _ _ hs
    cases hs
    simp [update_pc, debt]
  | unlink r previous current next =>
    intro _ _ hs
    simp only [scanStep] at hs
    split_ifs at hs <;> cases hs <;> simp [update_pc, debt]
  | clearFlag r previous current next =>
    intro _ _ hs
    cases hs
    simp [update_pc, debt]
  | recheck r previous current next =>
    intro _ _ hs
    cases hs
    rw [update_pc, if_pos rfl]
    split_ifs <;> simp [debt]
  | exchangeFlag b bin k =>
    intro _ _ hs
    cases hs
    rw [update_pc, if_pos rfl]
    split_ifs
    · rw [hafter]
      simp [debt]
    · simp [debt]
  | pushLoad b bin k =>
    intro _ _ hs
    cases hs
    simp [debt, State.setPc]
  | pushStore b bin head k =>
    intro _ _ hs
    cases hs
    rw [update_pc, if_pos rfl]
    change (if s.head bin = head then 1 else 3) < if s.head bin = head then 2 else 4
    split_ifs <;> omega
  | pushCas b bin head k =>
    intro _ _ hs
    simp only [scanStep, pushFreeStep, Option.or] at hs
    split_ifs at hs with hh <;> cases hs <;> rw [update_pc, if_pos rfl]
    · rw [hafter]
      simp [debt, hh]
    · simp [debt, hh, State.setPc]
  | _ => simp [debt, Pc.scanning]

omit [DecidableEq Tid] in
/-- A scan takes no memory from the tail. -/
theorem carvesBelow_of_scanning {a : Act} (h : (s.pc t).scanning) : CarvesBelow B s (t, a) := by
  unfold CarvesBelow
  split
  · rename_i r hp
    rw [hp] at h
    cases h
  · trivial

theorem scan_acc (h : Inv s) (t : Tid) : Acc (ScanStep B t) s := by
  generalize hn : debt s (s.pc t) = n
  induction n using Nat.strongRecOn generalizing s with
  | _ n ih =>
    by_cases hsc : (s.pc t).scanning
    · rcases Nat.eq_zero_or_pos n with h0 | hpos
      · obtain ⟨m, hm⟩ := going_of_debt h hsc (hn.trans h0)
        exact hm.acc
      · refine ⟨s, fun s' hs => ih _ ?_ (h.step ⟨hs.2.1, carvesBelow_of_scanning hsc⟩ hs.2.2) rfl⟩
        exact hn ▸ debt_step (hn ▸ hpos) hs
    · exact ⟨s, fun s' hs => absurd hs.1 hsc⟩

end Scan

/-- In a run whose unlinks all start from a listed block, and whose carved blocks do not wrap, the
lists stay sound. -/
theorem sound_of_unlinksListed {s : State Tid} (h : (machine Tid B).Run (Guarded B) s) :
    Sound B s := by
  have hi := inv_of_run h
  have hlist : ∀ k l, Linked .block s.nextDeallocated (s.head k) l .endOfListMarker →
      l = s.lists k := fun k l hl => hl.unique block_injective block_ne_marker (hi.lists.chain k)
  refine ⟨fun k => ⟨s.lists k, hi.lists.chain k, hi.lists.nodup k, fun b hb =>
    (hi.lists.listed k b hb).1⟩, fun j k l m hjk hl hm b hbl hbm => ?_, scan_acc hi,
    fun b => (hi.callers.callers b).1⟩
  rw [hlist j l hl] at hbl
  rw [hlist k m hm] at hbm
  exact hjk ((hi.lists.listed j b hbl).2.2.symm.trans (hi.lists.listed k b hbm).2.2)

def page : Buffer := ⟨4096, 4096, by decide⟩

def runs (t : Fin 4) (n : ℕ) : List (Fin 4 × Act) := List.replicate n (t, .run)

/-- A call of `allocate` that reads the given totals, and its first `n` steps after that. -/
def allocates (t : Fin 4) (bytes deallocations allocations n : ℕ) : List (Fin 4 × Act) :=
  (t, .allocate bytes 16) :: (t, .readTotals deallocations allocations) :: runs t n

/-- A small block at 4096 and a larger one at 4160, both freed. -/
def twoFreed : List (Fin 4 × Act) :=
  allocates 0 16 0 0 3 ++ allocates 0 500 0 1 3
    ++ (0, .deallocate 4160 500) :: runs 0 9 ++ (0, .deallocate 4096 16) :: runs 0 9

/-- Both blocks are reused, the small one is unlinked, freed and pushed again. -/
def reuseRun : List (Fin 4 × Act) :=
  twoFreed ++ allocates 1 500 2 2 10 ++ allocates 2 16 2 3 6 ++ allocates 3 100 2 4 8
    ++ (2, .deallocate 4096 16) :: runs 2 9

theorem sound_of_unlinksListed_run : ∃ s : State (Fin 4),
    (machine (Fin 4) page).Run (Guarded page) s ∧ s.lists 0 = [4096, 4160]
      ∧ s.callers 4160 = 1 ∧ Sound page s := by
  obtain ⟨s, hs, hl, hc⟩ : ∃ s : State (Fin 4), (machine (Fin 4) page).Run (Guarded page) s
      ∧ s.lists 0 = [4096, 4160] ∧ s.callers 4160 = 1 :=
    Machine.exists_run reuseRun rfl (by decide +kernel)
  exact ⟨s, hs, hl, hc, sound_of_unlinksListed hs⟩

/-- A scan passes the small block and stands at the larger one, in use by then; both blocks are
claimed and the small one is unlinked before the scan unlinks the larger one from it. -/
def staleUnlinkRun : List (Fin 4 × Act) :=
  twoFreed ++ allocates 1 500 2 2 6 ++ allocates 2 500 2 2 10 ++ runs 1 2 ++ allocates 3 16 2 3 6
    ++ allocates 3 500 2 4 8 ++ runs 1 3 ++ (2, .deallocate 4160 500) :: runs 2 8

/-- Without the condition the freed block is pushed while it is still listed, and points to
itself. -/
theorem stale_unlink_loops : ∃ s : State (Fin 4),
    (machine (Fin 4) page).Reachable s ∧ ¬ Sound page s := by
  obtain ⟨s, hs, hhead, hnext⟩ : ∃ s : State (Fin 4), (machine (Fin 4) page).Reachable s
      ∧ s.head 0 = .block 4160 ∧ s.nextDeallocated 4160 = .block 4160 :=
    Machine.exists_run staleUnlinkRun rfl (by decide +kernel)
  refine ⟨s, hs, fun hsound => ?_⟩
  obtain ⟨l, hl, -⟩ := hsound.ends 0
  rw [hhead] at hl
  exact Linked.not_of_self_loop block_injective block_ne_marker hnext hl

/-- An alignment that wraps takes the tail below the buffer, and the next but one block is the first
one again. -/
example : ∃ s : State (Fin 4),
    (machine (Fin 4) ⟨2 ^ 63, 1024, by decide⟩).Reachable s ∧ s.callers (2 ^ 63) = 2 :=
  Machine.exists_run (allocates 0 16 0 0 3
    ++ (0, .allocate 16 (2 ^ 63)) :: (0, .readTotals 0 1) :: runs 0 3
    ++ allocates 0 (2 ^ 63 - 64) 0 2 3 ++ allocates 0 16 0 3 3) rfl (by decide +kernel)

end MinStd.SingleBlockResource
