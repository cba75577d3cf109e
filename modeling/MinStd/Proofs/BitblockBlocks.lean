import MinStd.BitblockResource
import Mathlib.Data.List.Pairwise
import Mathlib.Order.Nat

/-!
# The blocks of the bitblock resource

The blocks there are and the ones being added stay within the cap, and every pointer leads to a block
(`Blocks`).
-/

namespace MinStd.BitblockResource

open Function BitblockSet

variable {τ : Type*} {P : Params}

/-! ### Sizes -/

theorem dvd_elementSize (P : Params) : 16 ∣ P.ELEMENT_SIZE_IN_BYTES :=
  Nat.dvd_of_mod_eq_zero P.size_mod

theorem elementSize_pos (P : Params) : 0 < P.ELEMENT_SIZE_IN_BYTES := by
  have := P.size_ge
  omega

theorem dvd_dataOffset (P : Params) : 16 ∣ P.DATA_OFFSET := by
  unfold Params.DATA_OFFSET
  omega

/-- The elements are inside the block. -/
theorem elements_inside (P : Params) :
    P.DATA_OFFSET + P.ELEMENTS_PER_BLOCK * P.ELEMENT_SIZE_IN_BYTES ≤ P.BLOCK_SIZE := by
  unfold Params.BLOCK_SIZE
  rw [Nat.mul_comm P.ELEMENTS_PER_BLOCK]
  omega

theorem blockSize_pos (P : Params) : 0 < P.BLOCK_SIZE := by
  have := elements_inside P
  have : 0 < P.DATA_OFFSET := by
    unfold Params.DATA_OFFSET
    omega
  omega

theorem numberOfArenas_spec (P : Params) :
    1 ≤ P.numberOfArenas ∧ P.numberOfArenas ≤ P.MAX_NUMBER_OF_BLOCKS := by
  have := P.arenas_ge
  have := P.blocks_ge
  unfold Params.numberOfArenas
  split_ifs
  · omega
  · omega

theorem arenaInUse_lt (R : Request) : R.arenaInUse P < P.numberOfArenas := by
  have := (numberOfArenas_spec P).1
  unfold Request.arenaInUse
  split_ifs with h
  · exact h
  · exact Nat.mod_lt _ (by omega)

/-- The elements of a request hold its bytes and the header. -/
theorem elementsForBytes_spec {bytes : ℕ} (h : P.elementsForBytes bytes ≠ 0) :
    bytes + HEADER_SIZE ≤ P.elementsForBytes bytes * P.ELEMENT_SIZE_IN_BYTES := by
  have hpos := elementSize_pos P
  have hle := P.size_le
  unfold Params.elementsForBytes at h ⊢
  split_ifs at h ⊢ with hz
  · exact absurd rfl h
  · have hbytes : Params.bytesWithHeader bytes = bytes + HEADER_SIZE := by
      unfold Params.bytesWithHeader at hz ⊢
      split_ifs at hz ⊢
      · exact absurd rfl hz
      · rfl
    have hlt : bytes + HEADER_SIZE < SIZES := by
      unfold Params.bytesWithHeader at hz
      unfold SIZES HEADER_SIZE at *
      split_ifs at hz with hbig
      · exact absurd rfl hz
      · omega
    rw [hbytes] at h ⊢
    rcases lt_or_ge (bytes + HEADER_SIZE + P.ELEMENT_SIZE_IN_BYTES - 1) SIZES with hsum | hsum
    · rw [Nat.mod_eq_of_lt hsum]
      have hdiv := Nat.div_add_mod (bytes + HEADER_SIZE + P.ELEMENT_SIZE_IN_BYTES - 1)
        P.ELEMENT_SIZE_IN_BYTES
      have hmod := Nat.mod_lt (bytes + HEADER_SIZE + P.ELEMENT_SIZE_IN_BYTES - 1) hpos
      rw [Nat.mul_comm] at hdiv
      omega
    · -- a sum that wraps leaves less than one element
      have hS : 256 < SIZES := by decide
      refine absurd (Nat.div_eq_of_lt ?_) h
      rw [Nat.mod_eq_sub_mod hsum, Nat.mod_eq_of_lt (by omega)]
      omega

/-! ### The blocks -/

/-- The thread has reserved a block and not yet made it. -/
def Pc.Reserves : Pc τ → Prop
  | .upstream _ => True
  | .releaseReservation _ => True
  | _ => False

/-- A thread about to reserve has found the cap not reached. -/
def Pc.Fine (P : Params) : Pc τ → Prop
  | .reserveSwap current _ => current < P.MAX_NUMBER_OF_BLOCKS
  | _ => True

/-- A place without a reservation. -/
def Pc.Plain (P : Params) (p : Pc τ) : Prop := ¬ p.Reserves ∧ p.Fine P

/-- The blocks a place mentions. -/
def Pc.blocks : Pc τ → List ℕ
  | .loadFree _ block _ => [block]
  | .scan _ block _ => [block]
  | .subFree _ block _ _ => [block]
  | .storeHint _ block _ _ => [block]
  | .finalize _ block _ _ => [block]
  | .storeCoreHint block _ _ => [block]
  | .handOut block _ _ => [block]
  | .firstForPush block _ => [block]
  | .pushSwap block expected _ => block :: expected.toList
  | .releasing c _ => [c.block]
  | .addFree c _ => [c.block]
  | .freeCoreHint c _ => [c.block]
  | .freeArenaHint c => [c.block]
  | _ => []

/-- The pointers lead to blocks that there are. -/
structure Pointers (s : State τ) : Prop where
  next : ∀ b ∈ s.made, ∀ b' ∈ s.nextBlock b, b' ∈ s.made
  first : ∀ k, ∀ b ∈ s.firstBlock k, b ∈ s.made
  hint : ∀ k, ∀ b ∈ s.allocationHint k, b ∈ s.made
  last : ∀ k, ∀ b ∈ s.lastBlock k, b ∈ s.made
  pc : ∀ t, ∀ b ∈ (s.pc t).blocks, b ∈ s.made

/-- The blocks are apart, and with the reservations within the cap. -/
structure Blocks (P : Params) (s : State τ) : Prop where
  aligned : ∀ b ∈ s.made, 64 ∣ b
  apart : s.made.Pairwise fun b b' => b + P.BLOCK_SIZE ≤ b' ∨ b' + P.BLOCK_SIZE ≤ b
  total : s.totalBlocks = s.made.length + s.reserving.length
  cap : s.totalBlocks ≤ P.MAX_NUMBER_OF_BLOCKS
  nodup : s.reserving.Nodup
  reserving : ∀ t, t ∈ s.reserving ↔ (s.pc t).Reserves
  fine : ∀ t, (s.pc t).Fine P
  pointers : Pointers s

section Blocks

variable {s s' : State τ} {t : τ} {p : Pc τ} {b b' : ℕ} {R : Request} {w : Where}

theorem not_made_of_fresh (h : s.Fresh P b) : b ∉ s.made := by
  intro hb
  have := blockSize_pos P
  have := h.2 b hb
  omega

theorem Blocks.block_ne (h : Blocks P s) (hb : b ∈ s.made) (hb' : b' ∈ s.made) (hne : b ≠ b') :
    b + P.BLOCK_SIZE ≤ b' ∨ b' + P.BLOCK_SIZE ≤ b := by
  have : Std.Symm fun b b' => b + P.BLOCK_SIZE ≤ b' ∨ b' + P.BLOCK_SIZE ≤ b := ⟨fun _ _ h => h.symm⟩
  exact h.apart.forall hb hb' hne

theorem blocks_enterOther (offset : ℕ) : (enterOther P R offset : Pc τ).blocks = [] := by
  unfold enterOther
  split_ifs <;> rfl

theorem blocks_enterChain : (enterChain P R : Pc τ).blocks = [] := by
  unfold enterChain
  split_ifs
  · exact blocks_enterOther 1
  · rfl

theorem blocks_miss (next : Option ℕ) : ∀ b ∈ (miss P w next R : Pc τ).blocks, b ∈ next := by
  intro b hb
  unfold miss at hb
  split at hb
  · cases hb
  · rw [blocks_enterChain] at hb
    cases hb
  · simpa [Pc.blocks, eq_comm] using hb
  · cases hb
  · simpa [Pc.blocks, eq_comm] using hb
  · rw [blocks_enterOther] at hb
    cases hb

theorem blocks_enterReserve (current : ℕ) : (enterReserve P current R : Pc τ).blocks = [] := by
  unfold enterReserve
  split_ifs
  · rfl
  · exact blocks_enterOther 1

theorem plain_enterOther (offset : ℕ) : (enterOther P R offset : Pc τ).Plain P := by
  unfold enterOther
  split_ifs <;> exact ⟨id, trivial⟩

theorem plain_enterChain : (enterChain P R : Pc τ).Plain P := by
  unfold enterChain
  split_ifs
  · exact plain_enterOther 1
  · exact ⟨id, trivial⟩

theorem plain_miss (next : Option ℕ) : (miss P w next R : Pc τ).Plain P := by
  unfold miss
  split <;> first | exact plain_enterChain | exact plain_enterOther _ | exact ⟨id, trivial⟩

theorem plain_enterReserve (current : ℕ) : (enterReserve P current R : Pc τ).Plain P := by
  unfold enterReserve
  split_ifs with h
  · exact ⟨id, h⟩
  · exact plain_enterOther 1

theorem Pointers.enterBlock (h : Pointers s) (hb : b ∈ s.made) :
    (∀ b' ∈ (enterBlock P s w b R).blocks, b' ∈ s.made) ∧ (enterBlock P s w b R).Plain P := by
  unfold BitblockResource.enterBlock
  split_ifs
  · exact ⟨fun b' hb' => h.next b hb b' (blocks_miss _ b' hb'), plain_miss _⟩
  · refine ⟨fun b' hb' => ?_, id, trivial⟩
    obtain rfl := List.mem_singleton.1 hb'
    exact hb

theorem mem_update_some {α : Type*} [DecidableEq α] {f : α → Option ℕ} {k j : α}
    (h : b' ∈ update f k (some b) j) : b' = b ∨ b' ∈ f j := by
  rcases eq_or_ne j k with rfl | hj
  · rw [update_self] at h
    exact .inl (Option.some.inj h).symm
  · rw [update_of_ne hj] at h
    exact .inr h

theorem Pointers.storeFirst (h : Pointers s) (hb : b ∈ s.made) (k : ℕ) :
    Pointers { s with firstBlock := update s.firstBlock k (some b) } :=
  ⟨h.next, fun j b' hb' => (mem_update_some hb').elim (· ▸ hb) (h.first j b'), h.hint, h.last, h.pc⟩

theorem Pointers.storeHint (h : Pointers s) (hb : b ∈ s.made) (k : ℕ) :
    Pointers { s with allocationHint := update s.allocationHint k (some b) } :=
  ⟨h.next, h.first, fun j b' hb' => (mem_update_some hb').elim (· ▸ hb) (h.hint j b'), h.last, h.pc⟩

theorem Pointers.storeLast (h : Pointers s) (hb : b ∈ s.made) (k : ℕ) :
    Pointers { s with lastBlock := update s.lastBlock k (some b) } :=
  ⟨h.next, h.first, h.hint, fun j b' hb' => (mem_update_some hb').elim (· ▸ hb) (h.last j b'), h.pc⟩

theorem Pointers.storeNext (h : Pointers s) (k : ℕ) :
    Pointers { s with nextBlock := update s.nextBlock b (s.firstBlock k) } := by
  refine ⟨fun c hc b' hb' => ?_, h.first, h.hint, h.last, h.pc⟩
  replace hb' : b' ∈ update s.nextBlock b (s.firstBlock k) c := hb'
  rcases eq_or_ne c b with rfl | hcb
  · rw [update_self] at hb'
    exact h.first k b' hb'
  · rw [update_of_ne hcb] at hb'
    exact h.next c hc b' hb'

theorem Blocks.withPointers (h : Blocks P s) (hmade : s'.made = s.made)
    (hreserving : s'.reserving = s.reserving) (htotal : s'.totalBlocks = s.totalBlocks)
    (hpc : s'.pc = s.pc) (hptr : Pointers s') : Blocks P s' := by
  refine ⟨?_, ?_, ?_, ?_, ?_, fun t => ?_, ?_, hptr⟩
  · rw [hmade]
    exact h.aligned
  · rw [hmade]
    exact h.apart
  · rw [hmade, hreserving, htotal]
    exact h.total
  · rw [htotal]
    exact h.cap
  · rw [hreserving]
    exact h.nodup
  · rw [hreserving, hpc]
    exact h.reserving t
  · rw [hpc]
    exact h.fine

variable [DecidableEq τ]

theorem Pointers.setPc (h : Pointers s) (hp : ∀ b ∈ p.blocks, b ∈ s.made) :
    Pointers (s.setPc t p) := by
  refine ⟨h.next, h.first, h.hint, h.last, fun u b hb => ?_⟩
  replace hb : b ∈ (update s.pc t p u).blocks := hb
  rcases eq_or_ne u t with rfl | hu
  · rw [update_self] at hb
    exact hp b hb
  · rw [update_of_ne hu] at hb
    exact h.pc u b hb

theorem fine_setPc (h : ∀ u, (s.pc u).Fine P) (hp : p.Fine P) (u : τ) :
    ((s.setPc t p).pc u).Fine P := by
  show (update s.pc t p u).Fine P
  rcases eq_or_ne u t with rfl | hu
  · rwa [update_self]
  · rw [update_of_ne hu]
    exact h u

/-- A step that reserves nothing and makes no block. -/
theorem Blocks.setPc (h : Blocks P s) (hp : ∀ b ∈ p.blocks, b ∈ s.made)
    (hres : p.Reserves ↔ (s.pc t).Reserves) (hfine : p.Fine P) : Blocks P (s.setPc t p) := by
  refine ⟨h.aligned, h.apart, h.total, h.cap, h.nodup, fun u => ?_, fine_setPc h.fine hfine,
    h.pointers.setPc hp⟩
  refine (h.reserving u).trans ?_
  show _ ↔ (update s.pc t p u).Reserves
  rcases eq_or_ne u t with rfl | hu
  · rw [update_self]
    exact hres.symm
  · rw [update_of_ne hu]

theorem Blocks.goOn (h : Blocks P s) (hp : ∀ b ∈ p.blocks, b ∈ s.made) (hplain : p.Plain P)
    (hnot : ¬ (s.pc t).Reserves) : Blocks P (s.setPc t p) :=
  h.setPc hp (iff_of_false hplain.1 hnot) hplain.2

omit [DecidableEq τ] in
theorem Blocks.setSet (h : Blocks P s) (b : ℕ) (z : BitblockSet.State τ) :
    Blocks P (s.setSet b z) :=
  h.withPointers rfl rfl rfl rfl
    ⟨h.pointers.next, h.pointers.first, h.pointers.hint, h.pointers.last, h.pointers.pc⟩

theorem Blocks.stepSearch {spurious : Bool} (h : Blocks P s)
    (hs : stepSearch P s t spurious = some s') : Blocks P s' := by
  have hptr := h.pointers
  have hmine := hptr.pc t
  unfold BitblockResource.stepSearch at hs
  split at hs <;> rename_i hp
  · -- loadCoreHint
    split at hs <;> rename_i hlast <;> obtain rfl := Option.some.inj hs
    · have hb := hptr.last _ _ hlast
      split_ifs
      · exact h.goOn (hptr.enterBlock hb).1 (hptr.enterBlock hb).2 (by rw [hp]; exact id)
      · exact h.goOn (by simp [Pc.blocks]) ⟨id, trivial⟩ (by rw [hp]; exact id)
    · exact h.goOn (by simp [Pc.blocks]) ⟨id, trivial⟩ (by rw [hp]; exact id)
  · -- loadArenaHint
    split at hs <;> rename_i hhint <;> obtain rfl := Option.some.inj hs
    · have hb := hptr.hint _ _ hhint
      exact h.goOn (hptr.enterBlock hb).1 (hptr.enterBlock hb).2 (by rw [hp]; exact id)
    · exact h.goOn (by simp [blocks_enterChain]) plain_enterChain (by rw [hp]; exact id)
  · -- loadFirst
    split at hs <;> rename_i hfirst <;> obtain rfl := Option.some.inj hs
    · exact h.goOn (by simpa [Pc.blocks] using hptr.first _ _ hfirst) ⟨id, trivial⟩
        (by rw [hp]; exact id)
    · exact h.goOn (by simp [Pc.blocks]) ⟨id, trivial⟩ (by rw [hp]; exact id)
  · -- reloadFirst
    split at hs <;> rename_i hfirst
    · obtain rfl := Option.some.inj hs
      exact h.goOn (by simpa [Pc.blocks] using hptr.first _ _ hfirst) ⟨id, trivial⟩
        (by rw [hp]; exact id)
    · cases hs
  · -- loadOther
    split at hs <;> rename_i hfirst <;> obtain rfl := Option.some.inj hs
    · exact h.goOn (by simpa [Pc.blocks] using hptr.first _ _ hfirst) ⟨id, trivial⟩
        (by rw [hp]; exact id)
    · exact h.goOn (by simp [blocks_enterOther]) (plain_enterOther _) (by rw [hp]; exact id)
  · -- loadFree
    rw [hp] at hmine
    have hb := hmine _ List.mem_cons_self
    split_ifs at hs <;> obtain rfl := Option.some.inj hs
    · exact h.goOn (fun b' hb' => hptr.next _ hb b' (blocks_miss _ b' hb')) (plain_miss _)
        (by rw [hp]; exact id)
    · exact (h.setSet _ _).goOn (fun b' hb' => List.mem_singleton.1 hb' ▸ hb) ⟨id, trivial⟩
        (show ¬ (s.pc t).Reserves by rw [hp]; exact id)
  · -- scan
    rw [hp] at hmine
    have hb := hmine _ List.mem_cons_self
    split at hs
    · obtain rfl := Option.some.inj hs
      exact (h.setSet _ _).goOn (fun b' hb' => List.mem_singleton.1 hb' ▸ hb) ⟨id, trivial⟩
        (show ¬ (s.pc t).Reserves by rw [hp]; exact id)
    · obtain rfl := Option.some.inj hs
      exact (h.setSet _ _).goOn (fun b' hb' => hptr.next _ hb b' (blocks_miss _ b' hb'))
        (plain_miss _) (show ¬ (s.pc t).Reserves by rw [hp]; exact id)
    · obtain ⟨z, -, rfl⟩ := Option.map_eq_some_iff.1 hs
      exact h.setSet _ _
  · cases hs

theorem Blocks.keep (h : Blocks P s) (hptr : Pointers s') (hmade : s'.made = s.made)
    (hreserving : s'.reserving = s.reserving) (htotal : s'.totalBlocks = s.totalBlocks)
    (hpc : s'.pc = s.pc) (hp : ∀ b ∈ p.blocks, b ∈ s.made) (hplain : p.Plain P)
    (hnot : ¬ (s.pc t).Reserves) : Blocks P (s'.setPc t p) := by
  refine (h.withPointers hmade hreserving htotal hpc hptr).goOn ?_ hplain ?_
  · rwa [hmade]
  · rwa [hpc]

theorem Blocks.stepFound (h : Blocks P s)
    (hheader : ∀ b i R, s.pc t = .storeCoreHint b i R → (s.headers (P.elementAt b i)).1 = b)
    (hs : stepFound P s t = some s') : Blocks P s' := by
  have hptr := h.pointers
  have hmine := hptr.pc t
  unfold BitblockResource.stepFound at hs
  split at hs <;> rename_i hp
  · -- subFree
    rw [hp] at hmine
    obtain rfl := Option.some.inj hs
    exact h.keep ⟨hptr.next, hptr.first, hptr.hint, hptr.last, hptr.pc⟩ rfl rfl rfl rfl hmine
      ⟨id, trivial⟩ (by rw [hp]; exact id)
  · rw [hp] at hmine
    obtain rfl := Option.some.inj hs
    exact h.keep (hptr.storeLast (hmine _ List.mem_cons_self) _) rfl rfl rfl rfl hmine ⟨id, trivial⟩
      (by rw [hp]; exact id)
  · rw [hp] at hmine
    obtain rfl := Option.some.inj hs
    exact h.keep (hptr.storeHint (hmine _ List.mem_cons_self) _) rfl rfl rfl rfl hmine ⟨id, trivial⟩
      (by rw [hp]; exact id)
  · rw [hp] at hmine
    obtain rfl := Option.some.inj hs
    exact h.keep (hptr.storeHint (hmine _ List.mem_cons_self) _) rfl rfl rfl rfl hmine ⟨id, trivial⟩
      (by rw [hp]; exact id)
  · -- finalize
    rw [hp] at hmine
    obtain rfl := Option.some.inj hs
    refine h.keep ⟨hptr.next, hptr.first, hptr.hint, hptr.last, hptr.pc⟩ rfl rfl rfl rfl ?_ ?_
      (by rw [hp]; exact id)
    · split_ifs <;> exact hmine
    · split_ifs <;> exact ⟨id, trivial⟩
  · -- storeCoreHint
    have hb := hheader _ _ _ hp
    rw [hp] at hmine
    obtain rfl := Option.some.inj hs
    rw [hb]
    exact h.keep (hptr.storeLast (hmine _ List.mem_cons_self) _) rfl rfl rfl rfl hmine ⟨id, trivial⟩
      (by rw [hp]; exact id)
  · -- handOut
    obtain rfl := Option.some.inj hs
    exact h.keep ⟨hptr.next, hptr.first, hptr.hint, hptr.last, hptr.pc⟩ rfl rfl rfl rfl
      (by simp [Pc.blocks]) ⟨id, trivial⟩ (by rw [hp]; exact id)
  · cases hs

theorem Blocks.reserve (h : Blocks P s) (hnot : ¬ (s.pc t).Reserves)
    (hlt : s.totalBlocks < P.MAX_NUMBER_OF_BLOCKS) :
    Blocks P ({ s with
      totalBlocks := s.totalBlocks + 1, reserving := t :: s.reserving }.setPc t (.upstream R)) := by
  have htotal := h.total
  have hptr := h.pointers
  refine ⟨h.aligned, h.apart, ?_, hlt, List.nodup_cons.2 ⟨fun ht => hnot ((h.reserving t).1 ht),
    h.nodup⟩, fun u => ?_, fine_setPc h.fine trivial, Pointers.setPc ⟨hptr.next, hptr.first,
    hptr.hint, hptr.last, hptr.pc⟩ (by simp [Pc.blocks])⟩
  · show s.totalBlocks + 1 = s.made.length + (s.reserving.length + 1)
    omega
  · show u ∈ t :: s.reserving ↔ (update s.pc t (.upstream R) u).Reserves
    rcases eq_or_ne u t with rfl | hu
    · rw [update_self]
      exact iff_of_true List.mem_cons_self trivial
    · rw [update_of_ne hu, List.mem_cons, h.reserving u]
      simp [hu]

/-- A reservation is used for a block, or given up. -/
theorem Blocks.unreserve (h : Blocks P s) (hmine : (s.pc t).Reserves) (hplain : p.Plain P)
    (hmade : s'.made.length + s.totalBlocks = s.made.length + (s'.totalBlocks + 1))
    (haligned : ∀ b ∈ s'.made, 64 ∣ b)
    (hapart : s'.made.Pairwise fun b b' => b + P.BLOCK_SIZE ≤ b' ∨ b' + P.BLOCK_SIZE ≤ b)
    (hres : s'.reserving = s.reserving.erase t) (hpc : s'.pc = s.pc)
    (hle : s'.totalBlocks ≤ s.totalBlocks)
    (hptr : Pointers (s'.setPc t p)) : Blocks P (s'.setPc t p) := by
  have htotal := h.total
  have hcap := h.cap
  have hmem : t ∈ s.reserving := (h.reserving t).2 hmine
  have hlen := List.length_erase_of_mem hmem
  have hpos := List.length_pos_of_mem hmem
  refine ⟨haligned, hapart, ?_, hle.trans hcap, ?_, fun u => ?_, fine_setPc ?_ hplain.2, hptr⟩
  · show s'.totalBlocks = s'.made.length + s'.reserving.length
    rw [hres, hlen]
    omega
  · show s'.reserving.Nodup
    rw [hres]
    exact h.nodup.erase t
  · show u ∈ s'.reserving ↔ (update s'.pc t p u).Reserves
    rw [hres, hpc]
    rcases eq_or_ne u t with rfl | hu
    · rw [update_self]
      exact iff_of_false h.nodup.not_mem_erase hplain.1
    · rw [update_of_ne hu, List.mem_erase_of_ne hu]
      exact h.reserving u
  · rw [hpc]
    exact h.fine

theorem Blocks.stepAdd {spurious : Bool} {space : Option ℕ} (h : Blocks P s)
    (hs : stepAdd P s t spurious space = some s') : Blocks P s' := by
  have hptr := h.pointers
  have hmine := hptr.pc t
  have htotal := h.total
  unfold BitblockResource.stepAdd at hs
  split at hs <;> rename_i hp
  · -- reserveLoad
    obtain rfl := Option.some.inj hs
    exact h.goOn (by simp [blocks_enterReserve]) (plain_enterReserve _) (by rw [hp]; exact id)
  · -- reserveSwap
    have hlt := h.fine t
    rw [hp] at hlt
    split_ifs at hs with hsame <;> obtain rfl := Option.some.inj hs
    · obtain ⟨rfl, -⟩ := hsame
      exact h.reserve (by rw [hp]; exact id) hlt
    · exact h.goOn (by simp [blocks_enterReserve]) (plain_enterReserve _) (by rw [hp]; exact id)
  · -- upstream
    have hres : (s.pc t).Reserves := by
      rw [hp]
      trivial
    split at hs
    · obtain rfl := Option.some.inj hs
      have hempty : Blocks P { s with upstreamEmpty := update s.upstreamEmpty t true } :=
        h.withPointers rfl rfl rfl rfl ⟨hptr.next, hptr.first, hptr.hint, hptr.last, hptr.pc⟩
      exact hempty.setPc (by simp [Pc.blocks]) (iff_of_true trivial hres) trivial
    · rename_i block
      split_ifs at hs with hfresh
      obtain rfl := Option.some.inj hs
      have hold : ∀ b ∈ s.made, b ∈ block :: s.made := fun b hb => List.mem_cons_of_mem _ hb
      refine h.unreserve hres ⟨id, trivial⟩ ?_ (fun b hb => ?_) (List.pairwise_cons.2 ⟨fun b hb => ?_,
        h.apart⟩) rfl rfl le_rfl (Pointers.setPc ⟨fun b hb b' hb' => ?_, fun k b hb =>
        hold b (hptr.first k b hb), fun k b hb => hold b (hptr.hint k b hb), fun k b hb =>
        hold b (hptr.last k b hb), fun u b hb => hold b (hptr.pc u b hb)⟩ ?_)
      · show s.made.length + 1 + s.totalBlocks = s.made.length + (s.totalBlocks + 1)
        omega
      · rcases List.mem_cons.1 hb with rfl | hb
        · exact hfresh.1
        · exact h.aligned b hb
      · exact (hfresh.2 b hb).symm
      · replace hb' : b' ∈ update s.nextBlock block none b := hb'
        rcases eq_or_ne b block with rfl | hne
        · rw [update_self] at hb'
          cases hb'
        · rw [update_of_ne hne] at hb'
          exact hold b' (hptr.next b ((List.mem_cons.1 hb).resolve_left hne) b' hb')
      · intro b hb
        obtain rfl := List.mem_singleton.1 hb
        exact List.mem_cons_self
  · -- releaseReservation
    have hres : (s.pc t).Reserves := by
      rw [hp]
      trivial
    have hpos := List.length_pos_of_mem ((h.reserving t).2 hres)
    obtain rfl := Option.some.inj hs
    refine h.unreserve hres (plain_enterOther 1) ?_ h.aligned h.apart rfl rfl (Nat.sub_le ..)
      (Pointers.setPc ⟨hptr.next, hptr.first, hptr.hint, hptr.last, hptr.pc⟩
        (by simp [blocks_enterOther]))
    show s.made.length + s.totalBlocks = s.made.length + (s.totalBlocks - 1 + 1)
    omega
  · -- firstForPush
    rename_i block R
    rw [hp] at hmine
    obtain rfl := Option.some.inj hs
    refine h.keep (hptr.storeNext _) rfl rfl rfl rfl (fun b hb => ?_) ⟨id, trivial⟩
      (by rw [hp]; exact id)
    rcases List.mem_cons.1 hb with rfl | hb
    · exact hmine _ List.mem_cons_self
    · exact hptr.first _ b (Option.mem_toList.1 hb)
  · -- pushSwap
    rename_i block expected R
    rw [hp] at hmine
    have hblock := hmine _ List.mem_cons_self
    split_ifs at hs <;> obtain rfl := Option.some.inj hs
    · exact h.keep (hptr.storeFirst hblock _) rfl rfl rfl rfl (by simp [Pc.blocks]) ⟨id, trivial⟩
        (by rw [hp]; exact id)
    · refine h.keep (hptr.storeNext _) rfl rfl rfl rfl (fun b hb => ?_) ⟨id, trivial⟩
        (by rw [hp]; exact id)
      rcases List.mem_cons.1 hb with rfl | hb
      · exact hblock
      · exact hptr.first _ b (Option.mem_toList.1 hb)
  · cases hs

theorem Blocks.stepFree {spurious : Bool} (h : Blocks P s)
    (hs : stepFree P s t spurious = some s') : Blocks P s' := by
  have hptr := h.pointers
  have hmine := hptr.pc t
  unfold BitblockResource.stepFree at hs
  split at hs <;> rename_i hp
  · -- releasing
    rw [hp] at hmine
    split at hs
    · obtain rfl := Option.some.inj hs
      exact (h.setSet _ _).goOn hmine ⟨id, trivial⟩ (show ¬ (s.pc t).Reserves by rw [hp]; exact id)
    · obtain ⟨z, -, rfl⟩ := Option.map_eq_some_iff.1 hs
      exact h.setSet _ _
  · rw [hp] at hmine
    obtain rfl := Option.some.inj hs
    exact h.keep ⟨hptr.next, hptr.first, hptr.hint, hptr.last, hptr.pc⟩ rfl rfl rfl rfl hmine
      ⟨id, trivial⟩ (by rw [hp]; exact id)
  · rw [hp] at hmine
    obtain rfl := Option.some.inj hs
    exact h.keep (hptr.storeLast (hmine _ List.mem_cons_self) _) rfl rfl rfl rfl hmine
      ⟨id, trivial⟩ (by rw [hp]; exact id)
  · rw [hp] at hmine
    obtain rfl := Option.some.inj hs
    exact h.keep (hptr.storeHint (hmine _ List.mem_cons_self) _) rfl rfl rfl rfl (by simp [Pc.blocks])
      ⟨id, trivial⟩ (by rw [hp]; exact id)
  · cases hs

end Blocks

end MinStd.BitblockResource
