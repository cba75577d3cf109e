import MinStd.StaticArena
import Mathlib.Data.List.Induction
import Mathlib.Tactic.IntervalCases

/-!
# The static arena is tiled

While an operation runs it has blocks in hand: it takes them from the bump pointer, from a bin or
from a caller, cuts them, and frees what it does not hand out.  Each of these keeps the tiling of
the range below the bump pointer by the callers, the bins and the hand (`Inv`), and every call
starts and ends with an empty hand.
-/

namespace MinStd.StaticArena

open Function

/-! ### Block sizes -/

/-- A class size, or a larger whole number of units. -/
def BlockSize (n : ℕ) : Prop := (∃ k < 7, n = 64 * 2 ^ k) ∨ 4096 < n ∧ 64 ∣ n

theorem class_eq (k : ℕ) : MIN_ALIGNMENT <<< k = 64 * 2 ^ k := Nat.shiftLeft_eq _ _

theorem dvd_alignUp (address : ℕ) : 64 ∣ alignUp address := Nat.dvd_mul_left ..

theorem le_alignUp (address : ℕ) : address ≤ alignUp address := by
  unfold alignUp MIN_ALIGNMENT
  omega

theorem alignUp_of_dvd {address : ℕ} (h : 64 ∣ address) : alignUp address = address := by
  unfold alignUp MIN_ALIGNMENT
  omega

theorem getBin_eq (n : ℕ) : getBin n =
    if n ≤ 64 then 0 else if n ≤ 128 then 1 else if n ≤ 256 then 2 else if n ≤ 512 then 3
    else if n ≤ 1024 then 4 else if n ≤ 2048 then 5 else if n ≤ 4096 then 6 else 7 := by
  unfold getBin
  simp only [NUM_BINS, MIN_ALIGNMENT, List.range, List.range.loop, List.find?]
  split_ifs <;> simp [*]

theorem getBin_class {k : ℕ} (hk : k < 7) : getBin (64 * 2 ^ k) = k := by
  interval_cases k <;> decide

theorem getBin_large {n : ℕ} (hn : 4096 < n) : getBin n = 7 := by
  rw [getBin_eq]
  split_ifs <;> omega

theorem getBin_le (n : ℕ) : getBin n ≤ 7 := by
  rw [getBin_eq]
  split_ifs <;> omega

/-- Up to the largest class, the bin's class is the first that is large enough. -/
theorem le_class {n : ℕ} (hn : n ≤ 4096) : getBin n < 7 ∧ n ≤ 64 * 2 ^ getBin n := by
  rw [getBin_eq]
  split_ifs <;> simp <;> omega

/-- A block in the bin of a size, or in a later class bin, is large enough. -/
theorem le_of_getBin_le {n b : ℕ} (hb : getBin n ≤ b) (hb7 : b < 7) : n ≤ 64 * 2 ^ b := by
  have hn : n ≤ 4096 := by
    by_contra hn
    rw [getBin_large (by omega)] at hb
    omega
  exact (le_class hn).2.trans (Nat.mul_le_mul_left _ (Nat.pow_le_pow_right (by decide) hb))

theorem blockSizeFor_spec (n : ℕ) : BlockSize (blockSizeFor n) ∧ n ≤ blockSizeFor n := by
  unfold blockSizeFor
  generalize hm : (if n < HEADER_SIZE then HEADER_SIZE else n) = m
  have hle : n ≤ m := by
    rw [← hm]
    split_ifs <;> omega
  have hn : n ≤ alignUp m := hle.trans (le_alignUp m)
  simp only
  split_ifs with h
  · exact ⟨.inr ⟨h, dvd_alignUp _⟩, hn⟩
  · have hspec := le_class (not_lt.1 h)
    rw [class_eq]
    exact ⟨.inl ⟨_, hspec.1, rfl⟩, hn.trans hspec.2⟩

namespace BlockSize

variable {n : ℕ}

theorem dvd (h : BlockSize n) : 64 ∣ n := by
  rcases h with ⟨k, -, rfl⟩ | h
  · exact Nat.dvd_mul_right ..
  · exact h.2

theorem pos (h : BlockSize n) : 0 < n := by
  rcases h with ⟨k, -, rfl⟩ | h
  · positivity
  · omega

/-- A block goes to the bin of its size. -/
theorem bin (h : BlockSize n) (hb : getBin n < 7) : n = 64 * 2 ^ getBin n := by
  rcases h with ⟨k, hk, rfl⟩ | h
  · rw [getBin_class hk]
  · rw [getBin_large h.1] at hb
    omega

end BlockSize

theorem large_of_getBin {n : ℕ} (hb : getBin n = 7) : 4096 < n := by
  by_contra hn
  have := (le_class (not_lt.1 hn)).1
  omega

/-! ### Pieces -/

/-- A block of whole units. -/
def Whole (b : Span) : Prop := 64 ∣ b.start ∧ 64 ∣ b.len ∧ 0 < b.len

theorem Whole.meets {b : Span} (h : Whole b) : b.Meets b.start :=
  ⟨le_rfl, Nat.lt_add_of_pos_right h.2.2⟩

theorem classPieces_spec {k p n : ℕ} (hk : k < 7) (hp : 64 ∣ p) (hn : 64 ∣ n)
    (hlt : n < 64 * 2 ^ (k + 1)) :
    (∀ b ∈ classPieces k p n, 64 ∣ b.start ∧ BlockSize b.len)
      ∧ ∀ x, cover (classPieces k p n) x = if (Span.mk p n).Meets x then 1 else 0 := by
  induction k generalizing p n with
  | zero =>
    unfold classPieces MIN_ALIGNMENT
    split_ifs with h
    · obtain rfl : n = 64 := by omega
      refine ⟨fun b hb => ?_, fun x => ?_⟩
      · obtain rfl := List.mem_singleton.1 hb
        exact ⟨hp, .inl ⟨0, by omega, rfl⟩⟩
      · rw [cover_cons, cover_nil, add_zero]
    · obtain rfl : n = 0 := by omega
      refine ⟨by simp, fun x => ?_⟩
      rw [cover_nil, if_neg]
      exact fun hx => absurd hx.1 (by simpa using hx.2)
  | succ k ih =>
    unfold classPieces
    rw [class_eq]
    have hpow : 64 * 2 ^ (k + 1 + 1) = 64 * 2 ^ (k + 1) + 64 * 2 ^ (k + 1) := by
      rw [Nat.pow_succ 2 (k + 1)]
      omega
    have hdvd : 64 ∣ 64 * 2 ^ (k + 1) := Nat.dvd_mul_right ..
    split_ifs with h
    · obtain ⟨hsize, hcover⟩ := ih (by omega) (Nat.dvd_add hp hdvd) (Nat.dvd_sub hn hdvd) (by omega)
      refine ⟨fun b hb => ?_, fun x => ?_⟩
      · rcases List.mem_cons.1 hb with rfl | hb
        · exact ⟨hp, .inl ⟨k + 1, hk, rfl⟩⟩
        · exact hsize b hb
      · rw [cover_cons, hcover, ← meets_split, Nat.add_sub_cancel' h]
    · exact ih (by omega) hp hn (by omega)

/-- The pieces of a remainder are blocks and make it up. -/
theorem freePieces_spec {p n : ℕ} (hp : 64 ∣ p) (hn : 64 ∣ n) :
    (∀ b ∈ freePieces p n, 64 ∣ b.start ∧ BlockSize b.len)
      ∧ ∀ x, cover (freePieces p n) x = if (Span.mk p n).Meets x then 1 else 0 := by
  unfold freePieces LARGEST_CLASS NUM_BINS
  split_ifs with h
  · refine ⟨fun b hb => ?_, fun x => ?_⟩
    · obtain rfl := List.mem_singleton.1 hb
      exact ⟨hp, .inr ⟨h, hn⟩⟩
    · rw [cover_cons, cover_nil, add_zero]
  · exact classPieces_spec (by omega) hp hn (by omega)

/-! ### The invariant -/

/-- Whole blocks tile the range below the bump pointer; the blocks of a bin are of its class, or
large ones. -/
structure Inv (B : Buffer) (s : State) (hand : List Span) : Prop where
  tiles : Tiles (s.holdings hand) B.arenaStart s.currentPtr
  whole : ∀ w, ∀ b ∈ s.holdings hand w, Whole b
  start : B.arenaStart ≤ s.currentPtr
  bump : 64 ∣ s.currentPtr
  last : s.currentPtr ≤ B.arenaEnd
  fits : ∀ a ∈ s.live, a.2 ≤ B.capacity
  classes : ∀ b < 7, ∀ p ∈ s.bins b, s.headers p = 64 * 2 ^ b
  large : ∀ p ∈ s.bins 7, 4096 < s.headers p
  beyond : ∀ b, 7 < b → s.bins b = []

variable {B : Buffer} {s s' : State} {hand hand' : List Span} {p n : ℕ} {b : Span}

theorem inv_start (h : Start B s) : Inv B s [] := by
  obtain ⟨hc, hb, hl⟩ := h
  have hempty : ∀ w, s.holdings [] w = [] := by
    intro w
    unfold State.holdings reserved
    cases w <;> simp [hb, hl]
  refine ⟨fun x => ⟨none, ?_, fun w => ⟨by simp, fun _ => by rw [hempty, cover_nil]⟩⟩, ?_, hc.ge,
    ?_, ?_, by simp [hl], by simp [hb], by simp [hb], by simp [hb]⟩
  · rw [hc]
    simp
  · intro w b hw
    rw [hempty] at hw
    cases hw
  · rw [hc]
    exact dvd_alignUp _
  · rw [hc]
    exact Nat.le_add_right ..

/-- A block in hand is in no bin. -/
theorem Inv.notMem_bin (h : Inv B s hand) (hb : b ∈ hand) (i : ℕ) : b.start ∉ s.bins i := by
  intro hp
  have hw := h.whole (.operation ()) b hb
  have hf : freed s.headers b.start ∈ s.holdings hand (.bin i) := List.mem_map_of_mem hp
  have hne := (h.tiles.eq_of_meets (v := .operation ()) hb hf hw.meets (h.whole _ _ hf).meets).1
  cases hne

/-- The hand is put in another order, or cut. -/
theorem Inv.rehand (h : Inv B s hand) (hcover : ∀ x, cover hand' x = cover hand x)
    (hwhole : ∀ b ∈ hand', Whole b) : Inv B s hand' := by
  refine ⟨h.tiles.congr fun w x => ?_, fun w b hw => ?_, h.start, h.bump, h.last, h.fits, h.classes,
    h.large, h.beyond⟩
  · cases w with
    | operation => exact hcover x
    | _ => rfl
  · cases w with
    | operation => exact hwhole b hw
    | callers => exact h.whole .callers b hw
    | bin i => exact h.whole (.bin i) b hw

/-- A block in hand is freed. -/
theorem Inv.pushFree (h : Inv B s (b :: hand)) (hsize : BlockSize b.len) :
    Inv B (s.pushFree b) hand := by
  have hnot := h.notMem_bin (b := b) List.mem_cons_self
  have hold : ∀ i, ∀ p ∈ s.bins i, update s.headers b.start b.len p = s.headers p := by
    intro i p hp
    refine update_of_ne ?_ _ _
    rintro rfl
    exact hnot i hp
  have hmap : ∀ i, (s.bins i).map (freed (update s.headers b.start b.len))
      = (s.bins i).map (freed s.headers) := by
    intro i
    refine List.map_congr_left fun p hp => ?_
    unfold freed
    rw [hold i p hp]
  have hbin : ∀ i, i ≠ getBin b.len → (s.pushFree b).bins i = s.bins i :=
    fun i hi => update_of_ne hi _ _
  have hself : (s.pushFree b).bins (getBin b.len) = b.start :: s.bins (getBin b.len) :=
    update_self ..
  have hnew : (s.pushFree b).holdings hand (.bin (getBin b.len))
      = b :: s.holdings (b :: hand) (.bin (getBin b.len)) := by
    unfold State.holdings
    simp only
    rw [hself, List.map_cons]
    refine congrArg₂ _ ?_ (hmap _)
    show Span.mk b.start (update s.headers b.start b.len b.start) = b
    rw [update_self]
  have hsame : ∀ w, w ≠ .operation () → w ≠ .bin (getBin b.len) →
      (s.pushFree b).holdings hand w = s.holdings (b :: hand) w := by
    intro w hop hw
    cases w with
    | callers => rfl
    | bin i =>
      have hi := hbin i fun heq => hw (by rw [heq])
      unfold State.holdings
      simp only
      rw [hi]
      exact hmap i
    | operation t => exact absurd rfl hop
  have hmem : ∀ i, ∀ p ∈ (s.pushFree b).bins i, p ∈ s.bins i ∨ p = b.start ∧ i = getBin b.len := by
    intro i p hp
    rcases eq_or_ne i (getBin b.len) with rfl | hi
    · rw [hself] at hp
      rcases List.mem_cons.1 hp with rfl | hp
      · exact .inr ⟨rfl, rfl⟩
      · exact .inl hp
    · rw [hbin i hi] at hp
      exact .inl hp
  refine ⟨h.tiles.move (v := .operation ()) (w := .bin (getBin b.len)) (by simp) hsame fun x => ?_,
    fun w b' hw => ?_, h.start, h.bump, h.last, h.fits, fun i hi p hp => ?_, fun p hp => ?_,
    fun i hi => ?_⟩
  · rw [hnew, cover_cons]
    show cover hand x + _ = cover (b :: hand) x + _
    rw [cover_cons]
    omega
  · rcases eq_or_ne w (.operation ()) with rfl | hop
    · exact h.whole (.operation ()) b' (List.mem_cons_of_mem _ hw)
    · rcases eq_or_ne w (.bin (getBin b.len)) with rfl | hwb
      · rw [hnew] at hw
        rcases List.mem_cons.1 hw with rfl | hw
        · exact h.whole (.operation ()) b' List.mem_cons_self
        · exact h.whole _ b' hw
      · rw [hsame w hop hwb] at hw
        exact h.whole w b' hw
  · show update s.headers b.start b.len p = _
    rcases hmem i p hp with hp | ⟨rfl, rfl⟩
    · rw [hold i p hp]
      exact h.classes i hi p hp
    · rw [update_self]
      exact hsize.bin hi
  · show 4096 < update s.headers b.start b.len p
    rcases hmem 7 p hp with hp | ⟨rfl, hi⟩
    · rw [hold 7 p hp]
      exact h.large p hp
    · rw [update_self]
      exact large_of_getBin hi.symm
  · rw [hbin i (by have := getBin_le b.len; omega)]
    exact h.beyond i hi

theorem Inv.pushAll {l : List Span} (h : Inv B s (l ++ hand)) (hl : ∀ b ∈ l, BlockSize b.len) :
    Inv B (l.foldl State.pushFree s) hand := by
  induction l generalizing s with
  | nil => exact h
  | cons b l ih =>
    exact ih (h.pushFree (hl b List.mem_cons_self)) fun b' hb' => hl b' (List.mem_cons_of_mem _ hb')

/-- A block in hand is cut to the size asked for and the rest freed. -/
theorem Inv.split (h : Inv B s [⟨p, n⟩]) {m : ℕ} (hm : BlockSize m) (hle : m ≤ n) :
    Inv B (s.split p n m) [⟨p, m⟩] := by
  obtain ⟨hp, hn, -⟩ := h.whole (.operation ()) ⟨p, n⟩ List.mem_cons_self
  unfold State.split
  split_ifs with hlt
  · obtain ⟨hsize, hcover⟩ := freePieces_spec (Nat.dvd_add hp hm.dvd) (Nat.dvd_sub hn hm.dvd)
    refine Inv.pushAll (h.rehand (fun x => ?_) fun b hb => ?_) fun b hb => (hsize b hb).2
    · rw [cover_append, hcover, cover_cons, cover_cons, cover_nil, add_zero, add_zero, add_comm,
        ← meets_split, Nat.add_sub_cancel' hle]
    · rcases List.mem_append.1 hb with hb | hb
      · exact ⟨(hsize b hb).1, (hsize b hb).2.dvd, (hsize b hb).2.pos⟩
      · obtain rfl := List.mem_singleton.1 hb
        exact ⟨hp, hm.dvd, hm.pos⟩
  · obtain rfl : m = n := by omega
    exact h

/-- Blocks of a bin pass to the hand, and the bin's others are put in another order. -/
theorem Inv.take (h : Inv B s hand) {i : ℕ} {l r : List ℕ}
    (hperm : (s.bins i).Perm (l ++ r)) :
    Inv B (s.setBin i r) (l.map (freed s.headers) ++ hand) := by
  have hself : (s.setBin i r).bins i = r := update_self ..
  have hbin : ∀ j, j ≠ i → (s.setBin i r).bins j = s.bins j := fun j hj => update_of_ne hj _ _
  have hmem : ∀ j, ∀ p ∈ (s.setBin i r).bins j, p ∈ s.bins j := by
    intro j p hp
    rcases eq_or_ne j i with rfl | hj
    · rw [hself] at hp
      exact hperm.mem_iff.2 (List.mem_append_right _ hp)
    · rwa [hbin j hj] at hp
  have hnew : (s.setBin i r).holdings (l.map (freed s.headers) ++ hand) (.bin i)
      = r.map (freed s.headers) := by
    unfold State.holdings
    simp only
    rw [hself]
    rfl
  have hsame : ∀ w, w ≠ .operation () → w ≠ .bin i →
      (s.setBin i r).holdings (l.map (freed s.headers) ++ hand) w = s.holdings hand w := by
    intro w hop hw
    cases w with
    | callers => rfl
    | bin j =>
      have hj := hbin j fun heq => hw (by rw [heq])
      unfold State.holdings
      simp only
      rw [hj]
      rfl
    | operation t => exact absurd rfl hop
  have hold : s.holdings hand (.bin i) = (s.bins i).map (freed s.headers) := rfl
  refine ⟨h.tiles.move (v := .operation ()) (w := .bin i) (by simp) hsame fun x => ?_,
    fun w b' hw => ?_, h.start, h.bump, h.last, h.fits, fun j hj p hp => h.classes j hj p (hmem j p hp),
    fun p hp => h.large p (hmem 7 p hp), fun j hj => ?_⟩
  · rw [hnew, hold, cover_perm (hperm.map _), List.map_append, cover_append]
    show cover (_ ++ hand) x + _ = cover hand x + _
    rw [cover_append]
    omega
  · rcases eq_or_ne w (.operation ()) with rfl | hop
    · rcases List.mem_append.1 hw with hw | hw
      · obtain ⟨p, hp, rfl⟩ := List.mem_map.1 hw
        exact h.whole (.bin i) _ (List.mem_map_of_mem (hperm.mem_iff.2 (List.mem_append_left _ hp)))
      · exact h.whole (.operation ()) b' hw
    · rcases eq_or_ne w (.bin i) with rfl | hwb
      · rw [hnew] at hw
        obtain ⟨p, hp, rfl⟩ := List.mem_map.1 hw
        exact h.whole (.bin i) _ (List.mem_map_of_mem (hmem i p (by rwa [hself])))
      · rw [hsame w hop hwb] at hw
        exact h.whole w b' hw
  · refine List.eq_nil_iff_forall_not_mem.2 fun p hp => ?_
    have := hmem j p hp
    rw [h.beyond j hj] at this
    cases this

/-- The hand's only block goes to a caller. -/
theorem Inv.handOut (h : Inv B s [⟨p, blockSizeFor n⟩]) (hn : n ≤ B.capacity) :
    Inv B { s with live := (p, n) :: s.live } [] := by
  refine ⟨h.tiles.move (v := .operation ()) (w := .callers) (by simp) (fun w hop hw => ?_)
    fun x => ?_, fun w b hw => ?_, h.start, h.bump, h.last, fun a ha => ?_, h.classes, h.large,
    h.beyond⟩
  · cases w with
    | callers => exact absurd rfl hw
    | bin i => rfl
    | operation t => exact absurd rfl hop
  · show cover [] x + cover (⟨p, blockSizeFor n⟩ :: reserved s.live) x
      = cover [⟨p, blockSizeFor n⟩] x + cover (reserved s.live) x
    rw [cover_cons, cover_cons, cover_nil]
    omega
  · cases w with
    | callers =>
      rcases List.mem_cons.1 hw with rfl | hw
      · exact h.whole (.operation ()) _ List.mem_cons_self
      · exact h.whole .callers b hw
    | bin i => exact h.whole (.bin i) b hw
    | operation t => cases hw
  · rcases List.mem_cons.1 ha with rfl | ha
    · exact hn
    · exact h.fits a ha

/-- A caller's block comes to the hand. -/
theorem Inv.giveBack (h : Inv B s []) (ha : (p, n) ∈ s.live) :
    Inv B { s with live := s.live.erase (p, n) } [⟨p, blockSizeFor n⟩] := by
  have hperm : (reserved s.live).Perm (⟨p, blockSizeFor n⟩ :: reserved (s.live.erase (p, n))) :=
    (List.perm_cons_erase ha).map _
  refine ⟨h.tiles.move (v := .operation ()) (w := .callers) (by simp) (fun w hop hw => ?_)
    fun x => ?_, fun w b hw => ?_, h.start, h.bump, h.last,
    fun a ha => h.fits a (List.mem_of_mem_erase ha), h.classes, h.large, h.beyond⟩
  · cases w with
    | callers => exact absurd rfl hw
    | bin i => rfl
    | operation t => exact absurd rfl hop
  · show cover [⟨p, blockSizeFor n⟩] x + cover (reserved (s.live.erase (p, n))) x
      = cover [] x + cover (reserved s.live) x
    rw [cover_perm hperm, cover_cons, cover_cons, cover_nil]
    omega
  · cases w with
    | callers => exact h.whole .callers b (hperm.mem_iff.2 (List.mem_cons_of_mem _ hw))
    | bin i => exact h.whole (.bin i) b hw
    | operation t =>
      obtain rfl := List.mem_singleton.1 hw
      exact h.whole .callers _ (hperm.mem_iff.2 List.mem_cons_self)

/-- A caller's store changes no header of a free block. -/
theorem Inv.write (h : Inv B s []) (ha : (p, n) ∈ s.live) {offset : ℕ}
    (ho : offset < blockSizeFor n) (v : ℕ) :
    Inv B { s with headers := update s.headers (p + offset) v } [] := by
  have hold : ∀ i, ∀ q ∈ s.bins i, update s.headers (p + offset) v q = s.headers q := by
    intro i q hq
    refine update_of_ne ?_ _ _
    rintro rfl
    have hlive : (⟨p, blockSizeFor n⟩ : Span) ∈ s.holdings [] .callers := List.mem_map_of_mem ha
    have hfree : freed s.headers (p + offset) ∈ s.holdings [] (.bin i) := List.mem_map_of_mem hq
    have hne := (h.tiles.eq_of_meets hlive hfree ⟨Nat.le_add_right .., Nat.add_lt_add_left ho p⟩
      (h.whole _ _ hfree).meets).1
    cases hne
  have hsame : ∀ w, ({ s with headers := update s.headers (p + offset) v } : State).holdings [] w
      = s.holdings [] w := by
    intro w
    cases w with
    | bin i =>
      refine List.map_congr_left fun q hq => ?_
      unfold freed
      exact congrArg _ (hold i q hq)
    | _ => rfl
  refine ⟨h.tiles.congr fun w x => by rw [hsame], fun w b hw => ?_, h.start, h.bump, h.last, h.fits,
    fun i hi q hq => ?_, fun q hq => ?_, h.beyond⟩
  · rw [hsame] at hw
    exact h.whole w b hw
  · exact (hold i q hq).trans (h.classes i hi q hq)
  · exact (h.large q hq).trans_eq (hold 7 q hq).symm

/-- A new block from the bump pointer. -/
theorem Inv.bumped (h : Inv B s []) (hn : BlockSize n) (hroom : HasRoom B s.currentPtr n) :
    Inv B { s with currentPtr := alignUp s.currentPtr + n } [⟨alignUp s.currentPtr, n⟩] := by
  obtain ⟨-, hroom⟩ := hroom
  rw [alignUp_of_dvd h.bump] at hroom ⊢
  have hlast := h.last
  refine ⟨h.tiles.extend (v := .operation ()) n h.start (fun w hop => ?_) fun x => ?_,
    fun w b hw => ?_, h.start.trans (Nat.le_add_right ..), Nat.dvd_add h.bump hn.dvd, ?_, h.fits,
    h.classes, h.large, h.beyond⟩
  · cases w with
    | operation t => exact absurd rfl hop
    | _ => rfl
  · exact cover_cons
  · cases w with
    | callers => exact h.whole .callers b hw
    | bin i => exact h.whole (.bin i) b hw
    | operation t =>
      obtain rfl := List.mem_singleton.1 hw
      exact ⟨h.bump, hn.dvd, hn.pos⟩
  · show s.currentPtr + n ≤ _
    omega

/-! ### The calls -/

theorem popClass_some {bins : List ℕ} {bin block : ℕ}
    (h : popClass s bins = some (bin, block, s')) :
    bin ∈ bins ∧ ∃ rest, s.bins bin = block :: rest ∧ s' = s.setBin bin rest := by
  induction bins with
  | nil => cases h
  | cons i bins ih =>
    unfold popClass at h
    split at h
    · rename_i q rest hq
      obtain ⟨rfl, rfl, rfl⟩ : i = bin ∧ q = block ∧ s.setBin i rest = s' := by simpa using h
      exact ⟨List.mem_cons_self, rest, hq, rfl⟩
    · obtain ⟨hmem, h⟩ := ih h
      exact ⟨List.mem_cons_of_mem _ hmem, h⟩

theorem popClass_none {bins : List ℕ} : popClass s bins = none ↔ ∀ b ∈ bins, s.bins b = [] := by
  induction bins with
  | nil => simp [popClass]
  | cons i bins ih =>
    unfold popClass
    split
    · rename_i q rest hq
      simp [hq]
    · rename_i hnil
      rw [ih]
      simp [hnil]

/-- The search finds a block of the list that is large enough, if there is one. -/
theorem bestFit_spec {f : ℕ → ℕ} {m : ℕ} {l : List ℕ} :
    (∀ p ∈ bestFit f m l, p ∈ l ∧ m ≤ f p)
      ∧ (bestFit f m l = none ↔ ∀ p ∈ l, f p < m) := by
  induction l using List.reverseRecOn with
  | nil => simp [bestFit]
  | append_singleton l q ih =>
    obtain ⟨hsome, hnone⟩ := ih
    unfold bestFit at *
    rw [List.foldl_append]
    generalize List.foldl _ none l = best at *
    simp only [List.foldl_cons, List.foldl_nil]
    split_ifs with h
    · refine ⟨fun p hp => ?_, ?_⟩
      · obtain rfl := Option.some.inj hp
        exact ⟨by simp, h.1⟩
      · simpa using .inr h.1
    · refine ⟨fun p hp => ?_, ?_⟩
      · obtain ⟨hmem, hle⟩ := hsome p hp
        exact ⟨List.mem_append_left _ hmem, hle⟩
      · rw [hnone]
        refine ⟨fun hall p hp => ?_, fun hall p hp => hall p (List.mem_append_left _ hp)⟩
        rcases List.mem_append.1 hp with hp | hp
        · exact hall p hp
        · obtain rfl := List.mem_singleton.1 hp
          by_contra hle
          rw [hnone.2 hall] at h
          exact h ⟨not_lt.1 hle, rfl⟩

theorem mem_classBins {b : ℕ} :
    b ∈ List.range' (getBin n) (NUM_BINS - 1 - getBin n) ↔ getBin n ≤ b ∧ b < 7 := by
  have := getBin_le n
  unfold NUM_BINS
  rw [List.mem_range'_1]
  omega

/-- The parts of the state that only a call's return changes. -/
theorem foldl_pushFree_live (l : List Span) : (l.foldl State.pushFree s).live = s.live := by
  induction l generalizing s with
  | nil => rfl
  | cons b l ih => exact ih

theorem split_live {block size m : ℕ} : (s.split block size m).live = s.live := by
  unfold State.split
  split_ifs
  · exact foldl_pushFree_live _
  · rfl

/-- The search of the last bin hands out the size asked for, or keeps everything. -/
theorem allocateLarge_spec (h : Inv B s []) {m : ℕ} (hm : BlockSize m) :
    match allocateLarge s m with
    | (some p, s') => Inv B s' [⟨p, m⟩] ∧ s'.live = s.live
    | (none, s') => Inv B s' [] ∧ s'.live = s.live := by
  unfold allocateLarge
  have hspec := bestFit_spec (f := s.headers) (m := m) (l := s.bins 7)
  simp only [NUM_BINS] at *
  cases hbest : bestFit s.headers m (s.bins 7) with
  | none =>
    exact ⟨h.take (l := []) (List.reverse_perm _).symm, rfl⟩
  | some p =>
    obtain ⟨hp, hle⟩ := hspec.1 p hbest
    have hperm : (s.bins 7).Perm ([p] ++ ((s.bins 7).erase p).reverse) :=
      (List.perm_cons_erase hp).trans ((List.reverse_perm _).symm.cons _)
    exact ⟨(h.take hperm).split hm hle, split_live⟩

/-- A call hands out the size asked for, or keeps everything. -/
theorem allocate_spec (h : Inv B s []) (bytes alignment : ℕ) :
    match allocate B s bytes alignment with
    | (some p, s') => Inv B s' [⟨p, blockSizeFor bytes⟩] ∧ s'.live = s.live ∧ bytes ≤ B.capacity
    | (none, s') => Inv B s' [] ∧ s'.live = s.live := by
  have hsize := (blockSizeFor_spec bytes).1
  unfold allocate
  split_ifs with halign hcap hroom
  · exact ⟨h, rfl⟩
  · exact ⟨h, rfl⟩
  · exact ⟨h.bumped hsize hroom, rfl, not_lt.1 hcap⟩
  · simp only
    cases hpop : popClass s _ with
    | none =>
      have hspec := allocateLarge_spec h hsize
      simp only
      cases hlarge : allocateLarge s (blockSizeFor bytes) with
      | mk q s₁ =>
        rw [hlarge] at hspec
        cases q with
        | none => exact hspec
        | some p => exact ⟨hspec.1, hspec.2, not_lt.1 hcap⟩
    | some r =>
      obtain ⟨bin, block, s₁⟩ := r
      obtain ⟨hbin, rest, hrest, rfl⟩ := popClass_some hpop
      obtain ⟨hbin, hbin7⟩ := mem_classBins.1 hbin
      have htake := h.take (i := bin) (l := [block]) (r := rest) (by rw [hrest]; rfl)
      have hlen : s.headers block = MIN_ALIGNMENT <<< bin := by
        rw [class_eq]
        exact h.classes bin hbin7 block (by rw [hrest]; exact List.mem_cons_self)
      rw [List.map_singleton, List.append_nil] at htake
      unfold freed at htake
      rw [hlen] at htake
      refine ⟨htake.split hsize ?_, split_live, not_lt.1 hcap⟩
      rw [class_eq]
      exact le_of_getBin_le hbin hbin7

theorem Inv.step (h : Inv B s []) {a : Action} (hs : step B s a = some s') : Inv B s' [] := by
  cases a with
  | allocate bytes alignment =>
    have hspec := allocate_spec h bytes alignment
    simp only [StaticArena.step] at hs
    cases hres : allocate B s bytes alignment with
    | mk q s₁ =>
      simp only [hres] at hs hspec
      cases q with
      | none =>
        obtain rfl := Option.some.inj hs
        exact hspec.1
      | some p =>
        obtain rfl := Option.some.inj hs
        exact hspec.1.handOut hspec.2.2
  | deallocate p bytes =>
    cases p with
    | none =>
      obtain rfl := Option.some.inj hs
      exact h
    | some p =>
      simp only [StaticArena.step] at hs
      split_ifs at hs with ha
      obtain rfl := Option.some.inj hs
      exact (h.giveBack ha).pushFree (blockSizeFor_spec bytes).1
  | write p bytes offset value =>
    simp only [StaticArena.step] at hs
    split_ifs at hs with ha
    obtain rfl := Option.some.inj hs
    exact h.write ha.1 ha.2 value

theorem inv_of_reachable (h : (machine B).Reachable s) : Inv B s [] :=
  Machine.reachable_induction (I := fun s => Inv B s []) (fun _ => inv_start)
    (fun _ _ _ _ ih hs => ih.step hs) h

/-- A request is refused when neither the bump pointer has room nor a bin has a block for it. -/
theorem allocate_eq_none (h : Inv B s []) {bytes alignment : ℕ} (halign : alignment ≤ MIN_ALIGNMENT)
    (hcap : bytes ≤ B.capacity) : (allocate B s bytes alignment).1 = none ↔
      ¬ HasRoom B s.currentPtr (blockSizeFor bytes)
        ∧ ∀ bin, getBin (blockSizeFor bytes) ≤ bin →
          ∀ p ∈ s.bins bin, s.headers p < blockSizeFor bytes := by
  unfold allocate
  rw [if_neg (not_lt.2 halign), if_neg (not_lt.2 hcap)]
  split_ifs with hroom
  · simp [hroom]
  · have hlarge : (allocateLarge s (blockSizeFor bytes)).1 = none
        ↔ ∀ p ∈ s.bins 7, s.headers p < blockSizeFor bytes := by
      rw [← bestFit_spec.2]
      unfold allocateLarge
      simp only [NUM_BINS]
      cases bestFit s.headers (blockSizeFor bytes) (s.bins 7) <;> simp
    simp only
    cases hpop : popClass s _ with
    | some r =>
      obtain ⟨bin, block, s₁⟩ := r
      obtain ⟨hbin, rest, hrest, -⟩ := popClass_some hpop
      obtain ⟨hbin, hbin7⟩ := mem_classBins.1 hbin
      have hmem : block ∈ s.bins bin := by
        rw [hrest]
        exact List.mem_cons_self
      refine iff_of_false (by simp) fun hall => ?_
      have hlt := hall.2 bin hbin block hmem
      rw [h.classes bin hbin7 block hmem] at hlt
      exact absurd (le_of_getBin_le hbin hbin7) (not_le.2 hlt)
    | none =>
      have hempty := popClass_none.1 hpop
      refine hlarge.trans ⟨fun hall => ⟨hroom, fun bin hbin p hp => ?_⟩, fun hall p hp => ?_⟩
      · rcases lt_trichotomy bin 7 with hlt | rfl | hgt
        · rw [hempty bin (mem_classBins.2 ⟨hbin, hlt⟩)] at hp
          cases hp
        · exact hall p hp
        · rw [h.beyond bin hgt] at hp
          cases hp
      · exact hall.2 7 (getBin_le _) p hp

/-- A size just freed can be had again. -/
theorem allocate_deallocate (h : Inv B s []) {alignment : ℕ} (halign : alignment ≤ MIN_ALIGNMENT)
    (ha : (p, n) ∈ s.live) : (allocate B { deallocate s (some p) n with
      live := s.live.erase (p, n) } n alignment).1.isSome := by
  have hsize := (blockSizeFor_spec n).1
  have hinv : Inv B { deallocate s (some p) n with live := s.live.erase (p, n) } [] :=
    (h.giveBack ha).pushFree hsize
  rw [Option.isSome_iff_ne_none, Ne, allocate_eq_none hinv halign (h.fits _ ha)]
  intro hall
  have hmem : p ∈ (deallocate s (some p) n).bins (getBin (blockSizeFor n)) := by
    show p ∈ update s.bins _ _ _
    rw [update_self]
    exact List.mem_cons_self
  have hlt := hall.2 _ le_rfl p hmem
  have hlen : (deallocate s (some p) n).headers p = blockSizeFor n := update_self ..
  exact absurd hlen hlt.ne

/-- What holds of the arena between calls. -/
structure Correct (B : Buffer) (s : State) : Prop where
  tiled : Tiles (s.holdings []) B.arenaStart s.currentPtr
  aligned : ∀ a ∈ s.live, MIN_ALIGNMENT ∣ a.1 ∧ a.2 ≤ blockSizeFor a.2
  classes : ∀ b < NUM_BINS - 1, ∀ p ∈ s.bins b, s.headers p = MIN_ALIGNMENT * 2 ^ b
  large : ∀ p ∈ s.bins (NUM_BINS - 1), MIN_ALIGNMENT ∣ s.headers p ∧ LARGEST_CLASS < s.headers p
  beyond : ∀ b, NUM_BINS ≤ b → s.bins b = []
  refused : ∀ bytes alignment, alignment ≤ MIN_ALIGNMENT → bytes ≤ B.capacity →
    ((allocate B s bytes alignment).1 = none ↔ ¬ HasRoom B s.currentPtr (blockSizeFor bytes)
      ∧ ∀ bin, getBin (blockSizeFor bytes) ≤ bin →
        ∀ p ∈ s.bins bin, s.headers p < blockSizeFor bytes)
  again : ∀ a ∈ s.live, ∀ alignment ≤ MIN_ALIGNMENT, ∀ s', step B s (.deallocate (some a.1) a.2)
    = some s' → (allocate B s' a.2 alignment).1.isSome

/-- After any sequence of calls and stores into live blocks, the live blocks and the blocks of the
bins tile the range below the bump pointer; a request is refused exactly when nothing fits it. -/
theorem tiled_of_reachable (h : (machine B).Reachable s) : Correct B s := by
  have hinv := inv_of_reachable h
  refine ⟨hinv.tiles, fun a ha => ⟨?_, (blockSizeFor_spec a.2).2⟩, hinv.classes,
    fun p hp => ⟨?_, hinv.large p hp⟩, hinv.beyond,
    fun bytes alignment halign hcap => allocate_eq_none hinv halign hcap,
    fun a ha alignment halign s' hs => ?_⟩
  · exact (hinv.whole .callers ⟨a.1, blockSizeFor a.2⟩ (List.mem_map_of_mem ha)).1
  · exact (hinv.whole (.bin 7) (freed s.headers p) (List.mem_map_of_mem hp)).2.1
  · simp only [step] at hs
    rw [if_pos ha] at hs
    obtain rfl := Option.some.inj hs
    exact allocate_deallocate hinv halign ha

/-- A full arena of nine units: a freed block of four is cut for a request of one, and the rest goes
to two bins. -/
theorem tiled_of_reachable_cut : ∃ (B : Buffer) (s : State), (machine B).Reachable s
    ∧ s.live = [(192, 10), (576, 64), (448, 128), (64, 100)] ∧ s.bins 0 = [384] ∧ s.bins 1 = [256]
    ∧ Correct B s := by
  have hrun : ∃ s, (machine ⟨3, 700⟩).Reachable s
      ∧ s.live = [(192, 10), (576, 64), (448, 128), (64, 100)] ∧ s.bins 0 = [384]
      ∧ s.bins 1 = [256] :=
    Machine.exists_run (s := ⟨64, fun _ => [], fun _ => 0, []⟩)
      [.allocate 100 8, .allocate 250 8, .allocate 128 64, .allocate 64 8, .allocate 64 8,
        .write 192 250 64 7, .deallocate (some 192) 250, .allocate 10 8]
      ⟨by decide, rfl, rfl⟩ (by decide)
  obtain ⟨s, hs, hlive, h0, h1⟩ := hrun
  exact ⟨_, s, hs, hlive, h0, h1, tiled_of_reachable hs⟩

end MinStd.StaticArena
