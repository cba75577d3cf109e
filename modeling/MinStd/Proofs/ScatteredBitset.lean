import MinStd.ScatteredBitset

/-!
# The scattered bitset is a set

The words of the set have different places in the array, so an access sets or clears the one bit of
its index and no other: the calls are those of a set, each at its access.  A size whose words cannot
be counted in 64 bits gets an array without a word.
-/

namespace MinStd.ScatteredBitset

open Function

variable {τ : Type*} {L : Layout} {i j k w : ℕ}

/-! ### The layout -/

/-- The size does not wrap when it is rounded up. -/
def Layout.Countable (L : Layout) : Prop := L.SIZE_IN_BITS ≤ WORD64 - 64

theorem scaling_le : L.CACHE_LINE_SCALING ≤ 8 :=
  Nat.le_of_dvd (by decide) (Nat.dvd_of_mod_eq_zero L.divides)

/-- The number of cache lines that the words fill one after the other. -/
def filledLines (L : Layout) : ℕ := (L.SIZE_IN_BITS + 511) / 512

/-- The number of cache lines of the array. -/
def lines (L : Layout) : ℕ := filledLines L * L.CACHE_LINE_SCALING

theorem lines_pos : 0 < lines L := by
  have hsize := L.size
  refine Nat.mul_pos ?_ L.scaling
  unfold filledLines
  omega

theorem storage_eq (h : L.Countable) : L.NUM_STORAGE_WORDS = lines L * 8 := by
  have hwords : sub64 (add64 (sub64 (add64 L.SIZE_IN_BITS 64) 1 / 64) WORDS_PER_CACHE_LINE) 1
      / WORDS_PER_CACHE_LINE = filledLines L := by
    unfold Layout.Countable at h
    unfold sub64 add64 WORDS_PER_CACHE_LINE filledLines
    unfold WORD64 at *
    omega
  have hcount : filledLines L ≤ 2 ^ 55 := by
    have hlt := L.lt
    unfold filledLines
    unfold WORD64 at hlt
    omega
  have hle := Nat.mul_le_mul hcount (scaling_le (L := L))
  have hproduct : filledLines L * (8 * L.CACHE_LINE_SCALING) = lines L * 8 := by
    rw [lines, Nat.mul_left_comm, Nat.mul_comm]
  rw [Layout.NUM_STORAGE_WORDS, hwords, Layout.STORAGE_WORDS_PER_BLOCK, WORDS_PER_CACHE_LINE,
    mul64_eq, hproduct]
  rw [hproduct, lines]
  unfold WORD64
  omega

theorem storage_zero (h : ¬ L.Countable) : L.NUM_STORAGE_WORDS = 0 := by
  have hlt := L.lt
  have hwords : sub64 (add64 (sub64 (add64 L.SIZE_IN_BITS 64) 1 / 64) WORDS_PER_CACHE_LINE) 1
      / WORDS_PER_CACHE_LINE = 0 := by
    unfold Layout.Countable at h
    unfold sub64 add64 WORDS_PER_CACHE_LINE
    unfold WORD64 at *
    omega
  rw [Layout.NUM_STORAGE_WORDS, hwords, mul64, Nat.zero_mul, Nat.zero_mod]

/-- The lines have room for the words of every index. -/
theorem word_lt (hi : i < L.SIZE_IN_BITS) : i / 64 / lines L < 8 := by
  have hle : filledLines L ≤ lines L := Nat.le_mul_of_pos_right _ L.scaling
  have hword : i / 64 < 8 * filledLines L := by
    unfold filledLines
    omega
  exact Nat.div_lt_of_lt_mul (by omega)

/-- Where the word of an index is: consecutive words are in different lines. -/
theorem wordIndex_eq (h : L.Countable) (hi : i < L.SIZE_IN_BITS) :
    L.wordIndex i = some (i / 64 % lines L * 8 + i / 64 / lines L) := by
  have hword := word_lt hi
  have hline := Nat.mod_lt (i / 64) (lines_pos (L := L))
  have hlines : L.NUM_STORAGE_WORDS / WORDS_PER_CACHE_LINE = lines L := by
    rw [storage_eq h, WORDS_PER_CACHE_LINE, Nat.mul_div_cancel _ (by omega)]
  have hstorage : lines L * 8 < WORD64 := by
    rw [← storage_eq h]
    exact Nat.mod_lt _ (by unfold WORD64; omega)
  have hmul : mul64 (i / 64 % lines L) 8 = i / 64 % lines L * 8 := mul64_eq (by omega)
  rw [Layout.wordIndex, Layout.physicalWordIndexFromLogical, hlines]
  dsimp only
  rw [if_neg lines_pos.ne', WORDS_PER_CACHE_LINE, hmul, add64_eq (by omega)]

/-- Every index has a place in the array. -/
theorem exists_wordIndex (h : L.Countable) (hi : i < L.SIZE_IN_BITS) :
    ∃ w < L.NUM_STORAGE_WORDS, L.wordIndex i = some w := by
  have hword := word_lt hi
  have hline := Nat.mod_lt (i / 64) (lines_pos (L := L))
  refine ⟨_, ?_, wordIndex_eq h hi⟩
  rw [storage_eq h]
  omega

theorem place_inj {a b c d : ℕ} (hb : b < 8) (hd : d < 8) (h : a * 8 + b = c * 8 + d) :
    a = c ∧ b = d := by
  omega

/-- No two indices have the same place. -/
theorem wordIndex_inj (h : L.Countable) (hi : i < L.SIZE_IN_BITS) (hj : j < L.SIZE_IN_BITS)
    (hword : L.wordIndex i = L.wordIndex j) (hbit : wordBitIndex i = wordBitIndex j) : i = j := by
  rw [wordIndex_eq h hi, wordIndex_eq h hj, Option.some.injEq] at hword
  obtain ⟨hline, hplace⟩ := place_inj (word_lt hi) (word_lt hj) hword
  have hlogical : i / 64 = j / 64 := by
    rw [← Nat.div_add_mod (i / 64) (lines L), ← Nat.div_add_mod (j / 64) (lines L), hline, hplace]
  unfold wordBitIndex at hbit
  omega

/-! ### The set -/

theorem wordBitIndex_lt (i : ℕ) : wordBitIndex i < 64 := by
  unfold wordBitIndex
  omega

/-- What an access stores in the words. -/
def State.store (s : State τ) (w : ℕ) (op : Op) : State τ :=
  { s with words := update s.words w (op.store (s.words w)) }

/-- The bit of an index, when there is a place for it. -/
theorem mem_indices {s : State τ} (hi : i < L.SIZE_IN_BITS) (hw : L.wordIndex i = some w) :
    i ∈ s.indices L ↔ (s.words w).getLsbD (wordBitIndex i) = true := by
  show (i < L.SIZE_IN_BITS ∧ ∃ w, L.wordIndex i = some w ∧ _) ↔ _
  rw [hw]
  simp [hi]

theorem getLsbD_mask (i k : ℕ) : (mask i).getLsbD k = decide (k = wordBitIndex i) := by
  rw [mask, ← BitVec.twoPow_eq, BitVec.getLsbD_twoPow]
  simp [wordBitIndex_lt, eq_comm]

/-- The bit that a call leaves. -/
def Op.sets : Op → Bool
  | acquire _ => true
  | release _ => false

theorem getLsbD_store (op : Op) (old : BitVec 64) (hk : k < 64) :
    (op.store old).getLsbD k =
      if k = wordBitIndex op.bitIndex then op.sets else old.getLsbD k := by
  rcases op with i | i
  · rw [Op.store, BitVec.getLsbD_or, getLsbD_mask]
    by_cases hki : k = wordBitIndex i <;> simp [hki, Op.bitIndex, Op.sets]
  · rw [Op.store, BitVec.getLsbD_and, BitVec.getLsbD_not, getLsbD_mask]
    by_cases hki : k = wordBitIndex i <;> simp [hki, hk, Op.bitIndex, Op.sets]

/-- An access changes the bit of its index and no other. -/
theorem mem_indices_store {s : State τ} {op : Op} (h : L.Countable)
    (hop : op.bitIndex < L.SIZE_IN_BITS) (hw : L.wordIndex op.bitIndex = some w)
    (hj : j < L.SIZE_IN_BITS) :
    j ∈ (s.store w op).indices L ↔ if j = op.bitIndex then op.sets = true else j ∈ s.indices L := by
  obtain ⟨w', -, hw'⟩ := exists_wordIndex h hj
  rw [mem_indices hj hw', mem_indices hj hw']
  show (update s.words w (op.store (s.words w)) w').getLsbD _ = true ↔ _
  by_cases hword : w' = w
  · rw [hword, update_self, getLsbD_store op _ (wordBitIndex_lt j)]
    have hiff : wordBitIndex j = wordBitIndex op.bitIndex ↔ j = op.bitIndex :=
      ⟨wordIndex_inj h hj hop (by rw [hw, hw', hword]), fun heq => heq ▸ rfl⟩
    by_cases hjop : j = op.bitIndex
    · rw [if_pos (hiff.2 hjop), if_pos hjop]
    · rw [if_neg (mt hiff.1 hjop), if_neg hjop]
  · have hne : j ≠ op.bitIndex := by
      rintro rfl
      exact hword (Option.some.inj (hw'.symm.trans hw))
    rw [update_of_ne hword, if_neg hne]

theorem lt_of_mem {s : State τ} (hj : j ∈ s.indices L) : j < L.SIZE_IN_BITS := hj.1

/-- The set that an access leaves, member by member below the size. -/
theorem indices_store_eq {s : State τ} {op : Op} {S : Set ℕ} (h : L.Countable)
    (hop : op.bitIndex < L.SIZE_IN_BITS) (hw : L.wordIndex op.bitIndex = some w)
    (hlt : ∀ j ∈ S, j < L.SIZE_IN_BITS)
    (hS : ∀ j, (if j = op.bitIndex then op.sets = true else j ∈ s.indices L) ↔ j ∈ S) :
    (s.store w op).indices L = S := by
  ext j
  by_cases hj : j < L.SIZE_IN_BITS
  · exact (mem_indices_store h hop hw hj).trans (hS j)
  · exact iff_of_false (mt lt_of_mem hj) (mt (hlt j) hj)

/-- What a call returns is what the set says. -/
theorem takes_store {s : State τ} {op : Op} (h : L.Countable)
    (hop : op.bitIndex < L.SIZE_IN_BITS) (hw : L.wordIndex op.bitIndex = some w) :
    Takes L op (s.indices L) (op.result (s.words w)) ((s.store w op).indices L) := by
  have hbit : s.words w &&& mask op.bitIndex ≠ 0#64 ↔ op.bitIndex ∈ s.indices L :=
    (and_bit_ne_zero _ (wordBitIndex_lt _)).trans (mem_indices hop hw).symm
  have hlt : ∀ j ∈ s.indices L, j < L.SIZE_IN_BITS := fun _ => lt_of_mem
  rcases op with i | i
  · change s.words w &&& mask i ≠ 0#64 ↔ i ∈ s.indices L at hbit
    by_cases hi : i ∈ s.indices L
    · have hset : (s.store w (.acquire i)).indices L = s.indices L := by
        refine indices_store_eq h hop hw hlt fun j => ?_
        by_cases hj : j = i <;> simp [Op.bitIndex, Op.sets, hj, hi]
      rw [Op.result, if_pos (hbit.2 hi), hset]
      exact .present hop hi
    · have hset : (s.store w (.acquire i)).indices L = insert i (s.indices L) := by
        refine indices_store_eq h hop hw ?_ fun j => ?_
        · rintro j (rfl | hj)
          · exact hop
          · exact hlt j hj
        · by_cases hj : j = i <;> simp [Op.bitIndex, Op.sets, hj]
      rw [Op.result, if_neg (mt hbit.1 hi), hset]
      exact .acquired hop hi
  · change s.words w &&& mask i ≠ 0#64 ↔ i ∈ s.indices L at hbit
    by_cases hi : i ∈ s.indices L
    · have hset : (s.store w (.release i)).indices L = s.indices L \ {i} := by
        refine indices_store_eq h hop hw (fun j hj => hlt j hj.1) fun j => ?_
        by_cases hj : j = i <;> simp [Op.bitIndex, Op.sets, hj]
      rw [Op.result, if_neg (hbit.2 hi), hset]
      exact .released hop hi
    · have hset : (s.store w (.release i)).indices L = s.indices L := by
        refine indices_store_eq h hop hw hlt fun j => ?_
        by_cases hj : j = i <;> simp [Op.bitIndex, Op.sets, hj, hi]
      rw [Op.result, if_pos (not_not.1 (mt hbit.1 hi)), hset]
      exact .absent hop hi

/-! ### Runs -/

variable [DecidableEq τ]

/-- How far a call is. -/
def Pc.stage : Pc → Stage Op Result
  | idle => .idle
  | access op => .called op
  | ret result => .taken result

/-- The stages of the callers. -/
def State.stages (s : State τ) : τ → Stage Op Result := fun t => (s.pc t).stage

/-- What holds in every state of a run. -/
structure Inv (L : Layout) (s : State τ) : Prop where
  atomic : (indexSet L).Atomic s.history s.stages (s.indices L)
  inRange : ∀ t op, s.pc t = .access op → op.bitIndex < L.SIZE_IN_BITS

theorem inv_start {s : State τ} (hs : Start s) : Inv L s := by
  have hempty : s.indices L = ∅ := by
    ext i
    simp [State.indices, hs.words]
  have hstages : s.stages = fun _ => .idle := by
    unfold State.stages
    rw [hs.pc]
    rfl
  refine ⟨?_, fun t op ht => ?_⟩
  · rw [hs.history, hstages, hempty]
    exact .start
  · simp [hs.pc] at ht

/-- A step that moves one caller. -/
theorem Inv.move {s s' : State τ} {t : τ} {p : Pc} (hi : Inv L s) (hpc : s'.pc = update s.pc t p)
    (hp : ∀ op, p = .access op → op.bitIndex < L.SIZE_IN_BITS)
    (ha : (indexSet L).Atomic s'.history (update s.stages t p.stage) (s'.indices L)) :
    Inv L s' := by
  have hstages : s'.stages = update s.stages t p.stage := by
    unfold State.stages
    rw [hpc]
    exact funext fun u => apply_update (fun _ => Pc.stage) s.pc t p u
  refine ⟨by rwa [hstages], fun u op hu => ?_⟩
  rw [hpc] at hu
  by_cases hut : u = t
  · rw [hut, update_self] at hu
    exact hp op hu
  · rw [update_of_ne hut] at hu
    exact hi.inRange u op hu

/-- The state after the access of a call. -/
def State.accessed (s : State τ) (t : τ) (op : Op) (w : ℕ) : State τ :=
  { s.store w op with pc := update s.pc t (.ret (op.result (s.words w))) }

theorem access_eq {s : State τ} {t : τ} {op : Op} (hw : L.wordIndex op.bitIndex = some w)
    (hlt : w < L.NUM_STORAGE_WORDS) : access L s t op = some (s.accessed t op w) := by
  rw [access, hw, Option.bind_some, if_pos hlt]
  rfl

theorem access_cases {s s' : State τ} {t : τ} {op : Op} (hs : access L s t op = some s') :
    ∃ w, L.wordIndex op.bitIndex = some w ∧ s' = s.accessed t op w := by
  obtain ⟨w, hw, hs⟩ := Option.bind_eq_some_iff.1 hs
  split_ifs at hs with hlt
  exact ⟨w, hw, (Option.some.inj hs).symm⟩

theorem Inv.call {s s' : State τ} {t : τ} {op : Op} (hi : Inv L s)
    (hs : step L s (.call t op) = some s') : Inv L s' := by
  simp only [step] at hs
  split_ifs at hs with hidle hrange <;> obtain rfl := Option.some.inj hs
  · have hstage : s.stages t = .idle := congrArg Pc.stage hidle
    exact hi.move rfl (by simp) (hi.atomic.call_take hstage (.outOfRange hrange))
  · have hstage : s.stages t = .idle := congrArg Pc.stage hidle
    refine hi.move rfl (fun op' hop => ?_) (hi.atomic.call op hstage)
    rw [← Pc.access.inj hop]
    omega

theorem Inv.accessed {s : State τ} {t : τ} {op : Op} (h : L.Countable) (hi : Inv L s)
    (ht : s.pc t = .access op) (hw : L.wordIndex op.bitIndex = some w) :
    Inv L (s.accessed t op w) := by
  have hstage : s.stages t = .called op := congrArg Pc.stage ht
  exact hi.move rfl (by simp)
    (hi.atomic.take hstage (takes_store h (hi.inRange t op ht) hw))

theorem Inv.run {s s' : State τ} {t : τ} (h : L.Countable) (hi : Inv L s)
    (hs : step L s (.run t) = some s') : Inv L s' := by
  rcases ht : s.pc t with _ | op | result
  · simp [step, ht] at hs
  · simp only [step, ht] at hs
    obtain ⟨w, hw, rfl⟩ := access_cases hs
    exact hi.accessed h ht hw
  · simp only [step, ht] at hs
    obtain rfl := Option.some.inj hs
    have hstage : s.stages t = .taken result := congrArg Pc.stage ht
    exact hi.move rfl (by simp) (hi.atomic.ret hstage)

theorem Inv.step {s s' : State τ} {a : Action τ} (h : L.Countable) (hi : Inv L s)
    (hs : step L s a = some s') : Inv L s' := by
  rcases a with ⟨t, op⟩ | t
  · exact hi.call hs
  · exact hi.run h hs

theorem inv_reachable {s : State τ} (h : L.Countable) (hs : (machine L).Reachable s) : Inv L s :=
  Machine.reachable_induction (fun _ => inv_start) (fun _ _ _ _ ih hs => ih.step h hs) hs

theorem exists_step {s : State τ} {t : τ} (h : L.Countable) (hi : Inv L s)
    (ht : s.pc t ≠ .idle) : ∃ s', step L s (.run t) = some s' := by
  rcases hpc : s.pc t with _ | op | result
  · exact absurd hpc ht
  · obtain ⟨w, hlt, hw⟩ := exists_wordIndex h (hi.inRange t op hpc)
    refine ⟨s.accessed t op w, ?_⟩
    simp only [step, hpc]
    exact access_eq hw hlt
  · simp [step, hpc]

/-! ### The sizes that are sets -/

/-- The places of the indices are different and inside of the array, the calls of any number of
threads are those of the set of indices, each at its access, and every call can go on. -/
structure Correct (τ : Type*) [DecidableEq τ] (L : Layout) : Prop where
  inside : ∀ i < L.SIZE_IN_BITS, ∃ w < L.NUM_STORAGE_WORDS, L.wordIndex i = some w
  injective : ∀ i < L.SIZE_IN_BITS, ∀ j < L.SIZE_IN_BITS, L.wordIndex i = L.wordIndex j →
    wordBitIndex i = wordBitIndex j → i = j
  linearizable : ∀ s : State τ, (machine L).Reachable s →
    (indexSet L).Atomic s.history s.stages (s.indices L)
  effect : ∀ (s s' : State τ) (t : τ) (op : Op), (machine L).Reachable s → s.pc t = .access op →
    step L s (.run t) = some s' →
    ∃ result, s'.pc t = .ret result ∧ Takes L op (s.indices L) result (s'.indices L)
  goesOn : ∀ (s : State τ) (t : τ), (machine L).Reachable s → s.pc t ≠ .idle →
    ∃ s', step L s (.run t) = some s'

theorem correct (h : L.Countable) : Correct τ L where
  inside _ := exists_wordIndex h
  injective _ hi _ hj := wordIndex_inj h hi hj
  linearizable _ hs := (inv_reachable h hs).atomic
  effect s s' t op hs ht hstep := by
    simp only [step, ht] at hstep
    obtain ⟨w, hw, rfl⟩ := access_cases hstep
    exact ⟨_, update_self .., takes_store h ((inv_reachable h hs).inRange t op ht) hw⟩
  goesOn _ _ hs := exists_step h (inv_reachable h hs)

/-- An array without a word has no lines either, and the remainder divides by their number. -/
theorem wordIndex_eq_none (h : ¬ L.Countable) (i : ℕ) : L.wordIndex i = none := by
  rw [Layout.wordIndex, Layout.physicalWordIndexFromLogical, storage_zero h, Nat.zero_div]
  rfl

/-- The bitset is a set exactly when its size can be rounded up to words in 64 bits. -/
theorem correct_iff (τ : Type*) [DecidableEq τ] (L : Layout) :
    Correct τ L ↔ L.SIZE_IN_BITS ≤ WORD64 - 64 := by
  refine ⟨fun hc => ?_, correct⟩
  by_contra h
  have hsize := L.size
  obtain ⟨w, -, hw⟩ := hc.inside 0 (by omega)
  rw [wordIndex_eq_none h] at hw
  cases hw

theorem step_acquire {s : State τ} {t : τ} (hidle : s.pc t = .idle) (hi : i < L.SIZE_IN_BITS) :
    step L s (.call t (.acquire i)) = some { s with
      pc := update s.pc t (.access (.acquire i))
      history := s.history ++ [.call t (.acquire i)] } := by
  have hrange : ¬ L.SIZE_IN_BITS ≤ (Op.acquire i).bitIndex := by
    rw [Op.bitIndex]
    omega
  rw [step, if_pos hidle, if_neg hrange]

/-- The largest size. -/
def widest : Layout where
  SIZE_IN_BITS := 2 ^ 64 - 1
  CACHE_LINE_SCALING := 1
  lt := by decide
  size := by decide
  scaling := le_rfl
  power := rfl
  divides := rfl

/-- The first index of the largest set has no place, and a call that acquires it has no next
step. -/
theorem not_correct_widest :
    ¬ Correct ℕ widest ∧ widest.wordIndex 0 = none ∧
      ∃ s : State ℕ, (machine widest).Reachable s ∧ s.pc 0 = .access (.acquire 0) ∧
        step widest s (.run 0) = none := by
  have hnone : widest.wordIndex 0 = none :=
    wordIndex_eq_none (by simp [Layout.Countable, widest, WORD64]) 0
  refine ⟨fun hc => ?_, hnone, ?_⟩
  · obtain ⟨w, -, hw⟩ := hc.inside 0 (by simp [widest])
    rw [hnone] at hw
    cases hw
  · let s₀ : State ℕ := ⟨fun _ => 0#64, fun _ => .idle, []⟩
    have hinit : (machine widest).Reachable s₀ := .init ⟨rfl, rfl, rfl⟩
    have hcall := step_acquire (L := widest) (s := s₀) (t := 0) (i := 0) rfl (by simp [widest])
    refine ⟨_, hinit.step (a := .call 0 (.acquire 0)) hcall, by simp only [update_self], ?_⟩
    simp only [step, update_self]
    rw [access, Op.bitIndex, hnone]
    rfl

end MinStd.ScatteredBitset
