import Mathlib.Algebra.Order.Group.Nat
import Mathlib.Data.List.Basic
import Mathlib.Data.Nat.Bitwise

/-!
# Head words for the nodes of one arena

A node is its number in the arena.  A head word keeps the number plus one, or zero for null, in as
many low bits as the arena needs, and a counter in the others.
-/

namespace MinStd

/-- The codec of an arena of `units` nodes. -/
structure ArenaTaggedPtr where
  units : ℕ

namespace ArenaTaggedPtr

variable (C : ArenaTaggedPtr)

def maxIndex : ℕ := C.units + 1

/-- The first number of bits, up to 64, that holds the value. -/
def bitsFor (value : ℕ) : ℕ := ((List.range' 1 63).find? fun bits => value >>> bits = 0).getD 64

def indexBits : ℕ := bitsFor C.maxIndex

def counterBits : ℕ := 64 - C.indexBits

def indexMask : ℕ := 1 <<< C.indexBits - 1

def counterMask : ℕ := (2 ^ 64 - 1) >>> C.indexBits

def indexOf : Option ℕ → ℕ
  | none => 0
  | some node => node + 1

def pack (ptr : Option ℕ) (counter : ℕ) : ℕ :=
  (counter &&& C.counterMask) <<< C.indexBits ||| indexOf ptr

def unpackPtr (value : ℕ) : Option ℕ :=
  if value &&& C.indexMask = 0 then none else some ((value &&& C.indexMask) - 1)

def unpackCounter (value : ℕ) : ℕ := (value >>> C.indexBits) &&& C.counterMask

/-- The number of values of the counter. -/
def counters : ℕ := 2 ^ C.counterBits

theorem counters_pos : 0 < C.counters := Nat.two_pow_pos _

theorem lt_bitsFor {value : ℕ} (h : value < 2 ^ 64) :
    bitsFor value ≤ 64 ∧ value < 2 ^ bitsFor value := by
  unfold bitsFor
  cases hf : (List.range' 1 63).find? fun bits => value >>> bits = 0 with
  | none => exact ⟨le_rfl, h⟩
  | some bits =>
    have hmem := List.mem_of_find?_eq_some hf
    have hz := List.find?_some hf
    rw [List.mem_range'_1] at hmem
    refine ⟨by rw [Option.getD_some]; omega, ?_⟩
    rw [decide_eq_true_eq, Nat.shiftRight_eq_div_pow] at hz
    exact (Nat.div_eq_zero_iff_lt (Nat.two_pow_pos _)).1 hz

variable {C}

/-- The arena is small enough for the codec, and the node is one of its nodes or null. -/
structure Fits (C : ArenaTaggedPtr) (ptr : Option ℕ) : Prop where
  small : C.units + 1 < 2 ^ 64
  node : ∀ i ∈ ptr, i < C.units

theorem Fits.none {p : Option ℕ} (h : C.Fits p) : C.Fits none := ⟨h.small, by simp⟩

section Packed

variable {ptr : Option ℕ} {counter : ℕ}

theorem Fits.indexBits_le (h : C.Fits ptr) : C.indexBits ≤ 64 := (lt_bitsFor h.small).1

theorem Fits.indexOf_lt (h : C.Fits ptr) : indexOf ptr < 2 ^ C.indexBits := by
  have hlt := (lt_bitsFor h.small).2
  cases ptr with
  | none => exact Nat.two_pow_pos _
  | some i =>
    have := h.node i rfl
    show i + 1 < 2 ^ bitsFor (C.units + 1)
    omega

theorem Fits.and_counterMask (h : C.Fits ptr) (n : ℕ) : n &&& C.counterMask = n % C.counters := by
  have hpow : (2 : ℕ) ^ 64 = 2 ^ C.indexBits * C.counters := by
    unfold counters counterBits
    rw [← Nat.pow_add, Nat.add_sub_cancel' h.indexBits_le]
  have hmask : C.counterMask = C.counters - 1 := by
    unfold counterMask
    have hpos := Nat.mul_pos (Nat.two_pow_pos C.indexBits) C.counters_pos
    rw [Nat.shiftRight_eq_div_pow, hpow, Nat.mul_sub_div 0 _ _ hpos, Nat.zero_div]
  rw [hmask]
  exact Nat.and_two_pow_sub_one_eq_mod _ _

theorem Fits.pack_eq (h : C.Fits ptr) :
    C.pack ptr counter = (counter % C.counters) * 2 ^ C.indexBits + indexOf ptr := by
  unfold pack
  rw [h.and_counterMask, ← Nat.shiftLeft_add_eq_or_of_lt h.indexOf_lt, Nat.shiftLeft_eq]

theorem unpackPtr_pack (h : C.Fits ptr) : C.unpackPtr (C.pack ptr counter) = ptr := by
  have hidx : C.pack ptr counter &&& C.indexMask = indexOf ptr := by
    unfold indexMask
    rw [Nat.one_shiftLeft, Nat.and_two_pow_sub_one_eq_mod, h.pack_eq, Nat.mul_add_mod_self_right,
      Nat.mod_eq_of_lt h.indexOf_lt]
  unfold unpackPtr
  rw [hidx]
  cases ptr with
  | none => rfl
  | some i => rfl

theorem unpackCounter_pack (h : C.Fits ptr) :
    C.unpackCounter (C.pack ptr counter) = counter % C.counters := by
  unfold unpackCounter
  rw [h.and_counterMask, h.pack_eq, Nat.shiftRight_eq_div_pow, Nat.add_comm,
    Nat.add_mul_div_right _ _ (Nat.two_pow_pos _), Nat.div_eq_of_lt h.indexOf_lt, Nat.zero_add,
    Nat.mod_mod]

end Packed

end ArenaTaggedPtr

end MinStd
