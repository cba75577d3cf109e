import MinStd.UniformInt
import Mathlib.Data.Int.CardIntervalMod

/-!
# `uniform_int_distribution` is exactly uniform

The outputs of an engine are the numbers up to `engineRange`.  A turn over one output accepts those
from the threshold on, a whole number of times `range + 1`, so each remainder as often.  A turn over
combined outputs accepts every number up to `range` from one part and one output, and what wraps is
below its high part.  So a turn accepts each value equally often, given that the parts are drawn
equally often, and the induction is on the range.
-/

namespace MinStd.UniformInt

open CharConv (IntType Width toSigned)
open Sampler (Reads AtLeast hits)

/-! ### The outputs of an engine -/

section Outputs

variable {G : Engine}

def outputValue (g : G.Output) : ℕ := sub64 (cast64 g) (cast64 G.min)

theorem outputValue_eq (g : G.Output) : (outputValue g : ℤ) = g - G.min := by
  have := G.max_lt
  obtain ⟨g, hmin, hmax⟩ := g
  unfold outputValue sub64 cast64 WORD64 at *
  dsimp only
  omega

theorem outputValue_le (g : G.Output) : outputValue g ≤ engineRange G := by
  have h := outputValue_eq g
  have hr := engineRange_eq G
  have := g.2.2
  omega

theorem exists_output {x : ℕ} (h : x ≤ engineRange G) : ∃ g : G.Output, outputValue g = x := by
  have hr := engineRange_eq G
  refine ⟨⟨G.min + x, by omega, by omega⟩, ?_⟩
  have := outputValue_eq (⟨G.min + x, by omega, by omega⟩ : G.Output)
  dsimp only at this
  omega

theorem outputValue_injective : Function.Injective (outputValue (G := G)) := by
  intro g g' h
  have := outputValue_eq g
  have := outputValue_eq g'
  exact Subtype.ext (by omega)

theorem card_outputs (p : ℕ → Prop) [DecidablePred p] :
    (Finset.univ.filter fun g : G.Output => p (outputValue g)).card =
      ((Finset.range (engineRange G + 1)).filter p).card := by
  refine Finset.card_nbij outputValue ?_ outputValue_injective.injOn ?_
  · intro g hg
    have := outputValue_le g
    simp only [Finset.coe_filter, Finset.mem_univ, true_and, Set.mem_ofPred_eq] at hg
    simp only [Finset.coe_filter, Finset.mem_range, Set.mem_ofPred_eq]
    exact ⟨by omega, hg⟩
  · intro x hx
    simp only [Finset.coe_filter, Finset.mem_range, Set.mem_ofPred_eq] at hx
    obtain ⟨g, rfl⟩ := exists_output (G := G) (x := x) (by omega)
    exact ⟨g, by simpa using hx.2, rfl⟩

end Outputs

/-! ### One turn -/

section Turn

variable {G : Engine} {range : ℕ}

/-- The first value a turn over one output accepts. -/
def threshold (G : Engine) (range : ℕ) : ℕ := (engineRange G - range) % (range + 1)

theorem narrowed_eq (h : range < engineRange G) (x : ℕ) :
    narrowed G range x = if x < threshold G range then none else some (x % (range + 1)) := by
  have := engineRange_lt G
  unfold narrowed threshold
  rw [add64_eq (by omega), sub64_eq h.le (by omega)]

/-- Each remainder is accepted equally often. -/
theorem card_narrowed (h : range < engineRange G) {v : ℕ} (hv : v ≤ range) :
    ((Finset.range (engineRange G + 1)).filter fun x => narrowed G range x = some v).card =
      (engineRange G - range) / (range + 1) + 1 := by
  have hdiv := Nat.div_add_mod (engineRange G - range) (range + 1)
  have hthr : (engineRange G - range) % (range + 1) = threshold G range := rfl
  have hmod : v % (range + 1) = v := Nat.mod_eq_of_lt (by omega)
  have hfilter : (Finset.range (engineRange G + 1)).filter (fun x => narrowed G range x = some v) =
      (Finset.Ico (threshold G range) (engineRange G + 1)).filter (· ≡ v [MOD range + 1]) := by
    ext x
    simp only [Finset.mem_filter, Finset.mem_range, Finset.mem_Ico, narrowed_eq h, Nat.ModEq, hmod]
    split_ifs with hx
    · simp [hx]
    · simp only [Option.some.injEq]
      omega
  have hm : ((range + 1 : ℕ) : ℚ) ≠ 0 := by positivity
  have hlen : ((engineRange G + 1 : ℕ) : ℚ) =
      threshold G range + (range + 1 : ℕ) * ((engineRange G - range) / (range + 1) + 1 : ℕ) := by
    norm_cast
    rw [Nat.mul_add]
    omega
  have hquot : (((engineRange G + 1 : ℕ) : ℚ) - v) / (range + 1 : ℕ) =
      (threshold G range - v) / (range + 1 : ℕ) +
        ((engineRange G - range) / (range + 1) + 1 : ℕ) := by
    rw [hlen]
    field_simp
    ring
  have hcard := Nat.Ico_filter_modEq_card (threshold G range) (engineRange G + 1)
    (r := range + 1) (by omega) v
  rw [hquot, Int.ceil_add_natCast, add_sub_cancel_left, max_eq_left (by positivity)] at hcard
  rw [hfilter]
  exact_mod_cast hcard

/-- A turn over combined outputs rejects just what is above the range: where the sum wraps, it is
below its high part. -/
theorem combined_eq (h : engineRange G < range) (hrange : range < WORD64) {part x : ℕ}
    (hpart : part ≤ range / engineValues G) (hx : x ≤ engineRange G) :
    combined G range part x =
      if engineValues G * part + x ≤ range then some (engineValues G * part + x) else none := by
  have hmul : engineValues G * part ≤ range :=
    (Nat.mul_le_mul_left _ hpart).trans (Nat.mul_div_le _ _)
  unfold combined
  rw [mul64_eq (by omega)]
  dsimp only
  generalize engineValues G * part = high at *
  unfold add64
  rcases lt_or_ge (high + x) WORD64 with hlt | hge
  · rw [Nat.mod_eq_of_lt hlt]
    split_ifs <;> first | rfl | omega
  · have hwrap : (high + x) % WORD64 = high + x - WORD64 := by
      rw [Nat.mod_eq_sub_mod hge, Nat.mod_eq_of_lt (by omega)]
    rw [hwrap, if_pos (by omega), if_neg (by omega)]

end Turn

/-! ### The draw -/

section Draw

variable {G : Engine} {range : ℕ}

theorem raw_eq : raw G = Sampler.next >>= fun g => pure (outputValue g) := rfl

theorem reads_raw : Reads (raw G) := Sampler.reads_next.bind fun _ => Sampler.reads_pure _

theorem atLeast_raw : AtLeast 1 (raw G) := Sampler.atLeast_next.bind fun _ => Sampler.atLeast_pure _

theorem hits_raw (n : ℕ) {v : ℕ} (hv : v ≤ engineRange G) :
    hits (raw G) n v = if n = 1 then 1 else 0 := by
  rw [raw_eq, Sampler.hits_next_bind, card_outputs fun x => x = v]
  simp [Finset.filter_eq', Nat.lt_succ_of_le hv]

/-- The cases of `draw`: an engine as wide as the range or wider, and one to combine outputs of. -/
@[elab_as_elim]
theorem range_induction (G : Engine) {P : ℕ → Prop} (equal : P (engineRange G))
    (narrow : ∀ range < engineRange G, P range)
    (wide : ∀ range, engineRange G < range → range < WORD64 → P (range / engineValues G) →
      P range) (range : ℕ) (h : range < WORD64) : P range := by
  induction range using Nat.strong_induction_on with
  | _ range ih =>
    rcases lt_trichotomy range (engineRange G) with hlt | rfl | hgt
    · exact narrow range hlt
    · exact equal
    · have hdiv := div_engineValues_lt G hgt (by omega)
      exact wide range hgt h (ih _ hdiv (by omega))

theorem draw_engineRange : draw G (engineRange G) = raw G := by
  rw [draw, if_pos rfl]

theorem draw_eq_retry (h : range < WORD64) (hne : range ≠ engineRange G) :
    draw G range = Sampler.retry (turn G range) := by
  rw [draw, if_neg hne, turn]
  split_ifs with hlt hfull
  · rfl
  · omega
  · rfl

theorem turn_narrow (h : range < engineRange G) :
    turn G range = Sampler.next >>= fun g => pure (narrowed G range (outputValue g)) := by
  rw [turn, if_pos h, raw_eq]
  simp only [bind_assoc, pure_bind]

theorem turn_wide (h : engineRange G < range) :
    turn G range = draw G (range / engineValues G) >>= fun part =>
      Sampler.next >>= fun g => pure (combined G range part (outputValue g)) := by
  rw [turn, if_neg h.not_gt, raw_eq]
  simp only [bind_assoc, pure_bind]

theorem roundLength_le (h : range ≤ engineRange G) : roundLength G range = 1 := by
  rw [roundLength, dif_pos (.inl h)]

theorem roundLength_wide (h : engineRange G < range) (hrange : range < WORD64) :
    roundLength G range = roundLength G (range / engineValues G) + 1 := by
  rw [roundLength, dif_neg (by omega)]

theorem turn_narrow_reads (h : range < engineRange G) :
    Reads (turn G range) ∧ AtLeast 1 (turn G range) := by
  rw [turn_narrow h]
  exact ⟨Sampler.reads_next.bind fun _ => Sampler.reads_pure _,
    Sampler.atLeast_next.bind fun _ => Sampler.atLeast_pure _⟩

theorem turn_wide_reads {n : ℕ} (h : engineRange G < range)
    (hdraw : Reads (draw G (range / engineValues G)) ∧
      AtLeast n (draw G (range / engineValues G))) :
    Reads (turn G range) ∧ AtLeast (n + 1) (turn G range) := by
  rw [turn_wide h]
  exact ⟨hdraw.1.bind fun _ => Sampler.reads_next.bind fun _ => Sampler.reads_pure _,
    hdraw.2.bind fun _ => Sampler.atLeast_next.bind fun _ => Sampler.atLeast_pure _⟩

/-- What `draw` gives is read from the front of the outputs, one output at least for each level. -/
theorem draw_reads (h : range < WORD64) :
    Reads (draw G range) ∧ AtLeast (roundLength G range) (draw G range) := by
  have hretry {r : Sampler G.Output (Option ℕ)} {n : ℕ} (h : Reads r ∧ AtLeast (n + 1) r) :
      Reads r.retry ∧ AtLeast (n + 1) r.retry := ⟨h.1.retry (h.2.mono (by omega)), h.2.retry⟩
  refine range_induction G ?_ ?_ ?_ range h
  · rw [draw_engineRange, roundLength_le le_rfl]
    exact ⟨reads_raw, atLeast_raw⟩
  · intro range hlt
    have := engineRange_lt G
    rw [draw_eq_retry (by omega) hlt.ne, roundLength_le hlt.le]
    exact hretry (turn_narrow_reads hlt)
  · intro range hlt hrange ih
    rw [draw_eq_retry hrange hlt.ne', roundLength_wide hlt hrange]
    exact hretry (turn_wide_reads hlt ih)

theorem div_lt_word (h : range < WORD64) : range / engineValues G < WORD64 :=
  (Nat.div_le_self ..).trans_lt h

theorem turn_reads (h : range < WORD64) (hne : range ≠ engineRange G) :
    Reads (turn G range) ∧ AtLeast 1 (turn G range) := by
  rcases hne.lt_or_gt with hlt | hgt
  · exact turn_narrow_reads hlt
  · obtain ⟨hreads, hlen⟩ := turn_wide_reads hgt (draw_reads (div_lt_word h))
    exact ⟨hreads, hlen.mono (by omega)⟩

theorem turn_le (hne : range ≠ engineRange G) {xs : List G.Output} {v : ℕ} {rest : List G.Output}
    (h : turn G range xs = some (some v, rest)) : v ≤ range := by
  rcases hne.lt_or_gt with hlt | hgt
  · rw [turn_narrow hlt, Sampler.bind_eq_some] at h
    obtain ⟨g, mid, _, h⟩ := h
    have hv : narrowed G range (outputValue g) = some v := by
      have := Option.some.inj h
      exact (Prod.mk.inj this).1
    rw [narrowed_eq hlt] at hv
    split_ifs at hv
    have := Nat.mod_lt (outputValue g) (show 0 < range + 1 by omega)
    have := Option.some.inj hv
    omega
  · rw [turn_wide hgt, Sampler.bind_eq_some] at h
    obtain ⟨part, mid, _, h⟩ := h
    obtain ⟨g, mid, _, h⟩ := Sampler.bind_eq_some.1 h
    have hv : combined G range part (outputValue g) = some v := by
      have := Option.some.inj h
      exact (Prod.mk.inj this).1
    unfold combined at hv
    dsimp only at hv
    split_ifs at hv with hacc
    have := Option.some.inj hv
    omega

theorem draw_le (h : range < WORD64) :
    ∀ xs v rest, draw G range xs = some (v, rest) → v ≤ range := by
  by_cases hne : range = engineRange G
  · intro xs v rest hv
    rw [hne, draw_engineRange, raw_eq, Sampler.bind_eq_some] at hv
    obtain ⟨g, mid, _, hv⟩ := hv
    have := (Prod.mk.inj (Option.some.inj hv)).1
    have := outputValue_le g
    omega
  · rw [draw_eq_retry h hne]
    exact Sampler.retry_mem (turn_reads h hne).2 fun _ _ _ => turn_le hne

/-! ### Equal counts -/

theorem hits_turn_narrow (h : range < engineRange G) (n : ℕ) {v : ℕ} (hv : v ≤ range) :
    hits (turn G range) n (some v) =
      if n = 1 then (engineRange G - range) / (range + 1) + 1 else 0 := by
  rw [turn_narrow h, Sampler.hits_next_bind, card_outputs fun x => narrowed G range x = some v,
    card_narrowed h hv]

theorem hits_turn_wide (h : engineRange G < range) (hrange : range < WORD64) (n : ℕ) {v : ℕ}
    (hv : v ≤ range) :
    hits (turn G range) (n + 1) (some v) =
      hits (draw G (range / engineValues G)) n (v / engineValues G) := by
  have hvalues := engineValues_eq G (by omega)
  obtain ⟨g, hg⟩ := exists_output (G := G) (x := v % engineValues G)
    (by have := Nat.mod_lt v (show 0 < engineValues G by omega); omega)
  rw [turn_wide h]
  refine Sampler.hits_bind_next (y := g) (draw_reads (div_lt_word hrange)).1 ?_ n
  intro xs part rest x hpart
  have hx := outputValue_le x
  have hdiv := Nat.div_add_mod v (engineValues G)
  rw [combined_eq h hrange (draw_le (div_lt_word hrange) _ _ _ hpart) hx,
    ← outputValue_injective.eq_iff, hg]
  have hlt : outputValue x < engineValues G := by omega
  constructor
  · intro hv
    split_ifs at hv with hle
    rw [← Option.some.inj hv, Nat.mul_add_div (by omega), Nat.mul_add_mod, Nat.div_eq_of_lt hlt,
      Nat.mod_eq_of_lt hlt]
    exact ⟨rfl, rfl⟩
  · rintro ⟨rfl, hmod⟩
    rw [hmod, hdiv, if_pos hv]

/-- `draw` gives every value up to the range equally often. -/
theorem hits_draw (h : range < WORD64) :
    ∀ n u v, u ≤ range → v ≤ range → hits (draw G range) n u = hits (draw G range) n v := by
  refine range_induction G ?_ ?_ ?_ range h
  · intro n u v hu hv
    rw [draw_engineRange, hits_raw n hu, hits_raw n hv]
  · intro range hlt n u v hu hv
    have := engineRange_lt G
    have hr := turn_narrow_reads hlt
    rw [draw_eq_retry (by omega) hlt.ne]
    refine Sampler.hits_retry_congr hr.1 hr.2 (fun n => ?_) n
    rw [hits_turn_narrow hlt n hu, hits_turn_narrow hlt n hv]
  · intro range hlt hrange ih n u v hu hv
    have hr := turn_reads hrange hlt.ne'
    rw [draw_eq_retry hrange hlt.ne']
    refine Sampler.hits_retry_congr hr.1 hr.2 (fun n => ?_) n
    rcases n with _ | n
    · rw [Sampler.hits_eq_zero hr.2 (by omega), Sampler.hits_eq_zero hr.2 (by omega)]
    · rw [hits_turn_wide hlt hrange n hu, hits_turn_wide hlt hrange n hv]
      exact ih n _ _ (Nat.div_le_div_right hu) (Nat.div_le_div_right hv)

/-- A turn accepts every value up to the range equally often. -/
theorem hits_turn (h : range < WORD64) (hne : range ≠ engineRange G) (n : ℕ) {u v : ℕ}
    (hu : u ≤ range) (hv : v ≤ range) :
    hits (turn G range) n (some u) = hits (turn G range) n (some v) := by
  rcases hne.lt_or_gt with hlt | hgt
  · rw [hits_turn_narrow hlt n hu, hits_turn_narrow hlt n hv]
  · have hr := turn_reads h hne
    rcases n with _ | n
    · rw [Sampler.hits_eq_zero hr.2 (by omega), Sampler.hits_eq_zero hr.2 (by omega)]
    · rw [hits_turn_wide hgt h n hu, hits_turn_wide hgt h n hv]
      exact hits_draw (div_lt_word h) n _ _ (Nat.div_le_div_right hu) (Nat.div_le_div_right hv)

/-- With one turn of each loop, `draw` gives every value up to the range. -/
theorem hits_draw_pos (h : range < WORD64) :
    ∀ v ≤ range, 0 < hits (draw G range) (roundLength G range) v := by
  refine range_induction G ?_ ?_ ?_ range h
  · intro v hv
    rw [draw_engineRange, roundLength_le le_rfl, hits_raw _ hv, if_pos rfl]
    omega
  · intro range hlt v hv
    have := engineRange_lt G
    have hr := turn_narrow_reads hlt
    rw [draw_eq_retry (by omega) hlt.ne, roundLength_le hlt.le]
    refine lt_of_lt_of_le ?_ (Sampler.hits_le_hits_retry hr.1 hr.2 _ v)
    rw [hits_turn_narrow hlt _ hv, if_pos rfl]
    exact Nat.succ_pos _
  · intro range hlt hrange ih v hv
    have hr := turn_reads hrange hlt.ne'
    rw [draw_eq_retry hrange hlt.ne', roundLength_wide hlt hrange]
    refine lt_of_lt_of_le ?_ (Sampler.hits_le_hits_retry hr.1 hr.2 _ v)
    rw [hits_turn_wide hlt hrange _ hv]
    exact ih _ (Nat.div_le_div_right hv)

/-- Each level takes a bit off the range at least. -/
theorem roundLength_le_log (h : range < WORD64) :
    ∀ k, range < 2 ^ k → 0 < k → roundLength G range ≤ k := by
  refine range_induction G ?_ ?_ ?_ range h
  · intro k _ hk
    rw [roundLength_le le_rfl]
    exact hk
  · intro range hlt k _ hk
    rw [roundLength_le hlt.le]
    exact hk
  · intro range hlt hrange ih k hk _
    have hpos := engineRange_pos G
    have hvalues := engineValues_eq G (by omega)
    have hdiv : range / engineValues G ≤ range / 2 := Nat.div_le_div_left (by omega) (by omega)
    rcases k with _ | _ | k
    · omega
    · omega
    · rw [pow_succ] at hk
      have := ih (k + 1) (by omega) (by omega)
      rw [roundLength_wide hlt hrange]
      omega

end Draw

/-! ### The result -/

section Generate

variable {G : Engine} {T : IntType} {a b : ℤ}

/-- The length of the interval, as the distribution computes it. -/
theorem range_eq (ha : T.min ≤ a) (hab : a ≤ b) (hb : b ≤ T.max) :
    (((toUnsigned T b + 2 ^ T.width.bits - toUnsigned T a) % 2 ^ T.width.bits : ℕ) : ℤ) =
      b - a := by
  obtain ⟨w, signed⟩ := T
  cases w <;> cases signed <;>
    simp only [toUnsigned, IntType.min, IntType.max, Width.bits] at * <;> norm_num at * <;> omega

theorem result_eq (ha : T.min ≤ a) {v : ℕ} (hb : a + v ≤ T.max) :
    ofUnsigned T ((v % 2 ^ T.width.bits + toUnsigned T a) % 2 ^ T.width.bits) = a + v := by
  obtain ⟨w, signed⟩ := T
  cases w <;> cases signed <;>
    simp only [ofUnsigned, toUnsigned, toSigned, IntType.min, IntType.max, Width.bits, Int.bmod]
      at * <;> norm_num at * <;> omega

theorem interval_lt (ha : T.min ≤ a) (hb : b ≤ T.max) : b - a < WORD64 := by
  obtain ⟨w, signed⟩ := T
  unfold WORD64
  cases w <;> cases signed <;>
    simp only [IntType.min, IntType.max, Width.bits] at * <;> norm_num at * <;> omega

theorem generate_same (G : Engine) (T : IntType) (a : ℤ) : generate G T a a = pure a := by
  unfold generate
  simp

theorem generate_eq (ha : T.min ≤ a) (hab : a < b) (hb : b ≤ T.max) :
    generate G T a b = draw G (b - a).toNat >>= fun value =>
      pure (ofUnsigned T ((value % 2 ^ T.width.bits + toUnsigned T a) % 2 ^ T.width.bits)) := by
  have hrange := range_eq ha hab.le hb
  have hlen : (toUnsigned T b + 2 ^ T.width.bits - toUnsigned T a) % 2 ^ T.width.bits =
      (b - a).toNat := by omega
  unfold generate
  rw [hlen, if_neg (by omega)]

theorem range_lt (ha : T.min ≤ a) (hb : b ≤ T.max) : (b - a).toNat < WORD64 := by
  have := interval_lt ha hb
  have : 0 < WORD64 := by unfold WORD64; decide
  omega

theorem hits_generate (ha : T.min ≤ a) (hab : a < b) (hb : b ≤ T.max) (n : ℕ) {v : ℤ}
    (hav : a ≤ v) :
    hits (generate G T a b) n v = hits (draw G (b - a).toNat) n (v - a).toNat := by
  rw [generate_eq ha hab hb]
  refine Sampler.hits_map (fun xs u rest hu => ?_) n
  have hle := draw_le (range_lt ha hb) _ _ _ hu
  rw [result_eq ha (by omega)]
  omega

/-- Every result is in the interval. -/
theorem generate_mem (ha : T.min ≤ a) (hab : a ≤ b) (hb : b ≤ T.max) {xs : List G.Output} {v : ℤ}
    {rest : List G.Output} (h : generate G T a b xs = some (v, rest)) : a ≤ v ∧ v ≤ b := by
  rcases hab.eq_or_lt with rfl | hlt
  · rw [generate_same] at h
    have := (Prod.mk.inj (Option.some.inj h)).1
    omega
  · rw [generate_eq ha hlt hb, Sampler.bind_eq_some] at h
    obtain ⟨u, mid, hu, h⟩ := h
    have hle := draw_le (range_lt ha hb) _ _ _ hu
    have hv := (Prod.mk.inj (Option.some.inj h)).1
    rw [result_eq ha (by omega)] at hv
    omega

theorem generate_atLeast (ha : T.min ≤ a) (hab : a ≤ b) (hb : b ≤ T.max) :
    AtLeast (callLength G a b) (generate G T a b) := by
  unfold callLength
  rcases hab.eq_or_lt with rfl | hlt
  · rw [if_pos rfl, generate_same]
    exact Sampler.atLeast_pure a
  · rw [if_neg hlt.ne, generate_eq ha hlt hb]
    exact (draw_reads (range_lt ha hb)).2.bind fun _ => Sampler.atLeast_pure _

/-- Every value of the interval has the same count of lists of outputs a call reads whole for it,
and some where each loop turns once. -/
theorem exists_hits_generate (ha : T.min ≤ a) (hab : a ≤ b) (hb : b ≤ T.max) (n : ℕ) :
    ∃ count, (n = callLength G a b → 0 < count) ∧
      ∀ v, a ≤ v → v ≤ b → hits (generate G T a b) n v = count := by
  refine ⟨hits (generate G T a b) n a, ?_, fun v hav hvb => ?_⟩
  · rintro rfl
    unfold callLength
    rcases hab.eq_or_lt with rfl | hlt
    · rw [if_pos rfl, generate_same]
      exact Finset.card_pos.2 ⟨[], Sampler.mem_words.2 ⟨rfl, Sampler.pure_eq_some.2 ⟨rfl, rfl⟩⟩⟩
    · rw [if_neg hlt.ne, hits_generate ha hlt hb _ le_rfl]
      exact hits_draw_pos (range_lt ha hb) _ (by omega)
  · rcases hab.eq_or_lt with rfl | hlt
    · rw [le_antisymm hvb hav]
    · rw [hits_generate ha hlt hb n hav, hits_generate ha hlt hb n le_rfl]
      exact hits_draw (range_lt ha hb) n _ _ (by omega) (by omega)

/-- The distribution is exactly uniform: a result lies in the interval, the recursion is at most 64
levels deep, and of the lists of outputs of any length each value of the interval has the same count
that a call reads whole for it, whether counted by calls, by calls whose loops turn once, or by
turns of the outermost loop.  A turn over combined outputs accepts just what does not wrap and is
not above the range. -/
theorem generate_uniform (G : Engine) (T : IntType) {a b : ℤ} (ha : T.min ≤ a) (hab : a ≤ b)
    (hb : b ≤ T.max) :
    (∀ xs v rest, generate G T a b xs = some (v, rest) → a ≤ v ∧ v ≤ b) ∧
    callLength G a b ≤ 64 ∧ AtLeast (callLength G a b) (generate G T a b) ∧
    (∀ n, ∃ count, (n = callLength G a b → 0 < count) ∧
      ∀ v, a ≤ v → v ≤ b → hits (generate G T a b) n v = count) ∧
    ((b - a).toNat ≠ engineRange G →
      draw G (b - a).toNat = Sampler.retry (turn G (b - a).toNat) ∧
      ∀ n, ∃ count, ∀ v ≤ (b - a).toNat, hits (turn G (b - a).toNat) n (some v) = count) ∧
    ∀ range < WORD64, engineRange G < range → ∀ part ≤ range / engineValues G,
      ∀ x ≤ engineRange G, combined G range part x =
        if engineValues G * part + x ≤ range then some (engineValues G * part + x) else none := by
  have hlt := range_lt ha hb
  refine ⟨fun _ _ _ => generate_mem ha hab hb, ?_, generate_atLeast ha hab hb,
    exists_hits_generate ha hab hb, fun hne => ⟨draw_eq_retry hlt hne, fun n => ?_⟩,
    fun _ hrange hgt _ hpart _ => combined_eq hgt hrange hpart⟩
  · unfold callLength
    split_ifs
    · omega
    · exact roundLength_le_log hlt 64 (by unfold WORD64 at hlt; exact hlt) (by omega)
  · exact ⟨_, fun v hv => hits_turn hlt hne n hv (Nat.zero_le _)⟩

/-- A die. -/
def die : Engine := ⟨1, 6, by omega, by unfold WORD64; omega⟩

/-- A signed type's whole interval from the outputs of a die. -/
theorem generate_uniform_die : callLength die (-128) 127 ≤ 64 ∧
    ∀ n, ∃ count, (n = callLength die (-128) 127 → 0 < count) ∧
      ∀ v, -128 ≤ v → v ≤ 127 → hits (generate die ⟨.bits8, true⟩ (-128) 127) n v = count := by
  have h := generate_uniform die ⟨.bits8, true⟩ (a := -128) (b := 127) (by decide) (by decide)
    (by decide)
  exact ⟨h.2.1, h.2.2.2.1⟩

end Generate

end MinStd.UniformInt
