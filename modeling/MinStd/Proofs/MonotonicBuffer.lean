import MinStd.MonotonicBuffer
import Mathlib.Data.Nat.Bitwise

/-!
# What the monotonic buffer resource hands out

Everything handed out since the last `release` lies in the initial buffer or in a block upstream has
not got back, and apart from the current buffer; so a request cut from the current buffer, or from a
block that nobody uses, is apart from everything else.  The chain of headers is the list of blocks
upstream has given out.
-/

namespace MinStd.MonotonicBuffer

variable {R : Resource} {s s' : State} {ptr alignment bytes size block : ℕ}

/-! ### Alignment -/

theorem exists_pow (h : ¬ Refused alignment) (hlt : alignment < WORD64) :
    ∃ k, k < 64 ∧ alignment = 2 ^ k := by
  have hpow := Nat.ne_zero_and_sub_one_eq_zero_iff_isPowerOfTwo (n := alignment)
  obtain ⟨k, rfl⟩ := hpow.1 (by simpa [Refused, not_or] using h)
  exact ⟨k, (Nat.pow_lt_pow_iff_right (by omega)).1 hlt, rfl⟩

theorem alignUp_eq (h : ¬ Refused alignment) (hlt : alignment < WORD64) :
    alignUp ptr alignment = add64 ptr (alignment - 1) / alignment * alignment := by
  obtain ⟨k, hk, rfl⟩ := exists_pow h hlt
  have hpos := Nat.two_pow_pos k
  have hmask : WORD64 - 1 - (2 ^ k - 1) = WORD64 - 2 ^ k := by omega
  rw [alignUp, hmask, and_not_mask (add64_lt _ _) hk.le]

/-- The padding, where aligning does not wrap. -/
theorem padding_spec (h : ¬ Refused alignment) (hptr : 0 < ptr) (hlt : ptr + alignment ≤ WORD64) :
    padding ptr alignment < alignment ∧ (ptr + padding ptr alignment) % alignment = 0 ∧
      alignUp ptr alignment = ptr + padding ptr alignment := by
  have hpos : 0 < alignment := Nat.pos_of_ne_zero fun hzero => h (.inl hzero)
  have hdvd : alignment ∣ alignUp ptr alignment := by
    rw [alignUp_eq h (by omega)]
    exact Nat.dvd_mul_left ..
  have hle : alignUp ptr alignment ≤ ptr + (alignment - 1) := by
    rw [alignUp_eq h (by omega), add64_eq (by omega)]
    exact Nat.div_mul_le_self ..
  have hge : ptr + (alignment - 1) < alignUp ptr alignment + alignment := by
    rw [alignUp_eq h (by omega), add64_eq (by omega)]
    exact Nat.lt_div_mul_add hpos
  have hsub : padding ptr alignment = alignUp ptr alignment - ptr :=
    sub64_eq (by omega) (by omega)
  have hsum : ptr + padding ptr alignment = alignUp ptr alignment := by omega
  exact ⟨by omega, hsum ▸ Nat.mod_eq_zero_of_dvd hdvd, hsum.symm⟩

/-- Where it does, the padding reaches the end of the address space. -/
theorem padding_wrap (h : ¬ Refused alignment) (hlt : alignment < WORD64) (hptr : ptr < WORD64)
    (hwrap : WORD64 < ptr + alignment) : padding ptr alignment = WORD64 - ptr := by
  have hsmall : add64 ptr (alignment - 1) < alignment := by
    unfold add64
    rw [Nat.mod_eq_sub_mod (by omega), Nat.mod_eq_of_lt (by omega)]
    omega
  have hzero : alignUp ptr alignment = 0 := by
    rw [alignUp_eq h hlt, Nat.div_eq_of_lt hsmall, Nat.zero_mul]
  rw [padding, hzero, sub64, Nat.zero_add]
  exact Nat.mod_eq_of_lt (by omega)

/-- Padding that fits does not wrap. -/
theorem padding_fits (h : ¬ Refused alignment) (hlt : alignment < WORD64) (hptr : 0 < ptr)
    (hfits : ptr + padding ptr alignment < WORD64) :
    (ptr + padding ptr alignment) % alignment = 0 := by
  by_cases hwrap : ptr + alignment ≤ WORD64
  · exact (padding_spec h hptr hwrap).2.1
  · have hpadding := padding_wrap h hlt (by omega) (not_le.1 hwrap)
    rw [hpadding] at hfits
    omega

/-! ### The size of the next block -/

/-- The loop doubles up to the first size that is large enough, and does not wrap. -/
theorem doubled_spec {required : ℕ} (hrequired : required ≤ 2 ^ 63) :
    ∀ (fuel size : ℕ), 0 < size → size < WORD64 → required ≤ size * 2 ^ fuel →
      ∃ k, doubled (fuel + 1) size required = some (size * 2 ^ k) ∧ required ≤ size * 2 ^ k ∧
        size * 2 ^ k < WORD64
  | 0, size, _, hlt, henough => by
    refine ⟨0, ?_, by simpa using henough, by simpa using hlt⟩
    rw [doubled, if_neg (by omega), pow_zero, mul_one]
  | fuel + 1, size, hpos, hlt, henough => by
    by_cases hless : size < required
    · have hdouble : size * 2 < WORD64 := by
        unfold WORD64
        omega
      obtain ⟨k, hk, hle, hltk⟩ := doubled_spec hrequired fuel (size * 2) (by omega) hdouble
        (by rwa [mul_assoc, ← pow_succ'])
      rw [mul_assoc, ← pow_succ'] at hk hle hltk
      refine ⟨k + 1, ?_, hle, hltk⟩
      rw [doubled, if_pos hless, mul64_eq hdouble, hk]
    · refine ⟨0, ?_, by omega, by simpa using hlt⟩
      rw [doubled, if_neg hless, pow_zero, mul_one]

theorem startSize_pos (s : State) : 0 < startSize s := by
  unfold startSize HEADER_SIZE
  split_ifs <;> omega

/-- The loop ends, with a size that holds the header, the padding and the request. -/
theorem nextSize_spec (hstart : s.nextBufferSize < WORD64) (hbytes : bytes ≤ SIZE_MAX / 4)
    (halignment : alignment ≤ SIZE_MAX / 4) (h : ¬ Refused alignment) :
    ∃ k, nextSize s bytes alignment = some (startSize s * 2 ^ k) ∧
      HEADER_SIZE + alignment + bytes ≤ startSize s * 2 ^ k ∧ startSize s * 2 ^ k < WORD64 := by
  have hpow : alignment ≤ 2 ^ 61 := by
    obtain ⟨k, -, rfl⟩ := exists_pow h (by unfold SIZE_MAX WORD64 at *; omega)
    have hlt : 2 ^ k < 2 ^ 62 := by
      unfold SIZE_MAX WORD64 at halignment
      omega
    have := (Nat.pow_lt_pow_iff_right (show 1 < 2 by omega)).1 hlt
    exact Nat.pow_le_pow_right (by omega) (by omega)
  have hrequired : add64 (add64 bytes HEADER_SIZE) alignment = HEADER_SIZE + alignment + bytes := by
    unfold SIZE_MAX WORD64 at hbytes
    have hsmall : bytes + HEADER_SIZE + alignment < WORD64 := by
      unfold HEADER_SIZE WORD64
      omega
    rw [add64_eq (a := bytes) (by omega), add64_eq hsmall]
    omega
  have hle : HEADER_SIZE + alignment + bytes ≤ 2 ^ 63 := by
    unfold HEADER_SIZE
    unfold SIZE_MAX WORD64 at hbytes
    omega
  have hpos := startSize_pos s
  have hlt : startSize s < WORD64 := by
    unfold startSize HEADER_SIZE
    split_ifs
    · exact hstart
    · unfold WORD64; omega
  unfold nextSize
  rw [hrequired]
  refine doubled_spec hle 64 _ hpos hlt (hle.trans ?_)
  calc 2 ^ 63 ≤ 1 * 2 ^ 64 := by omega
    _ ≤ startSize s * 2 ^ 64 := Nat.mul_le_mul_right _ hpos

/-! ### Spans -/

theorem Apart.symm {b b' : Span} (h : Apart b b') : Apart b' b := fun x hx hx' => h x hx' hx

theorem Inside.meets {b b' : Span} (h : Inside b b') {x : ℕ} (hx : b.Meets x) : b'.Meets x :=
  ⟨h.1.trans hx.1, hx.2.trans_le h.2⟩

theorem Inside.trans {b b' b'' : Span} (h : Inside b b') (h' : Inside b' b'') : Inside b b'' :=
  ⟨h'.1.trans h.1, h.2.trans h'.2⟩

theorem Apart.mono {b b' c c' : Span} (h : Apart b b') (hc : Inside c b) (hc' : Inside c' b') :
    Apart c c' := fun x hx hx' => h x (hc.meets hx) (hc'.meets hx')

/-- Spans end to end. -/
theorem apart_of_le {b b' : Span} (h : b.start + b.len ≤ b'.start) : Apart b b' := by
  rintro x ⟨-, hx⟩ ⟨hx', -⟩
  omega

/-! ### What a call can do -/

/-- What is handed out of the current buffer. -/
structure FromCurrent (s : State) (bytes alignment ptr : ℕ) : Prop where
  current : s.currentBuffer = some ptr
  fits : padding ptr alignment + bytes ≤ s.currentBufferSize

/-- The request goes upstream. -/
structure FromBlock (R : Resource) (s : State) (bytes alignment size : ℕ) : Prop where
  upstream : R.upstream = true
  bytes_le : bytes ≤ SIZE_MAX / 4
  alignment_le : alignment ≤ SIZE_MAX / 4
  size_eq : nextSize s bytes alignment = some size

/-- The state after a request is cut from the current buffer at `ptr`. -/
def cut (s : State) (bytes alignment ptr : ℕ) : State :=
  { s with
    currentBuffer := some (ptr + (padding ptr alignment + bytes))
    currentBufferSize := s.currentBufferSize - (padding ptr alignment + bytes)
    live := ⟨ptr + padding ptr alignment, bytes, alignment⟩ :: s.live }

theorem fromCurrent_cases (s : State) (bytes alignment : ℕ) :
    (∃ ptr, FromCurrent s bytes alignment ptr ∧ fromCurrent s bytes alignment =
      some (ptr + padding ptr alignment, cut s bytes alignment ptr)) ∨
    fromCurrent s bytes alignment = none := by
  unfold fromCurrent
  rcases hptr : s.currentBuffer with _ | ptr
  · exact .inr rfl
  · by_cases h : padding ptr alignment ≤ s.currentBufferSize ∧
        bytes ≤ s.currentBufferSize - padding ptr alignment
    · exact .inl ⟨ptr, ⟨hptr, by omega⟩, if_pos h⟩
    · exact .inr (if_neg h)

/-- A call fails and changes nothing, or cuts the request from the current buffer or a new block. -/
theorem allocate_cases {answer p : Option ℕ}
    (h : allocate R s bytes alignment answer = some (p, s')) :
    (p = none ∧ s' = s) ∨ ¬ Refused alignment ∧ 0 < bytes ∧
      ((∃ ptr, FromCurrent s bytes alignment ptr ∧ p = some (ptr + padding ptr alignment) ∧
          s' = cut s bytes alignment ptr) ∨
        ∃ size block, FromBlock R s bytes alignment size ∧ answer = some block ∧
          p = some (fromBlock s bytes alignment size block).1 ∧
          s' = (fromBlock s bytes alignment size block).2) := by
  by_cases hbytes : bytes = 0
  · rw [allocate, if_pos hbytes] at h
    cases h
    exact .inl ⟨rfl, rfl⟩
  by_cases hrefused : Refused alignment
  · rw [allocate, if_neg hbytes, if_pos hrefused] at h
    cases h
    exact .inl ⟨rfl, rfl⟩
  rw [allocate, if_neg hbytes, if_neg hrefused] at h
  rcases fromCurrent_cases s bytes alignment with ⟨ptr, hcurrent, heq⟩ | heq
  · rw [heq] at h
    cases h
    exact .inr ⟨hrefused, Nat.pos_of_ne_zero hbytes, .inl ⟨ptr, hcurrent, rfl, rfl⟩⟩
  · rw [heq] at h
    simp only at h
    split_ifs at h with hupstream hlarge
    · cases h
      exact .inl ⟨rfl, rfl⟩
    · cases h
      exact .inl ⟨rfl, rfl⟩
    · obtain ⟨size, hsize, heq'⟩ := Option.map_eq_some_iff.1 h
      rcases answer with _ | block
      · cases heq'
        exact .inl ⟨rfl, rfl⟩
      · cases heq'
        refine .inr ⟨hrefused, Nat.pos_of_ne_zero hbytes, .inr ⟨size, block, ?_, rfl, rfl, rfl⟩⟩
        exact ⟨by simpa using hupstream, by omega, by omega, hsize⟩

/-! ### The invariant -/

/-- The headers chain the blocks that are held, and everything handed out lies in the initial buffer
or in one of them, apart from the current buffer. -/
structure Inv (R : Resource) (s : State) : Prop where
  chain : Linked some (fun a => (s.header a).next) s.allocatedBlocksHead
    (s.held.map Block.address) none
  headers : ∀ b ∈ s.held, b = ⟨b.address, (s.header b.address).size, HEADER_ALIGNMENT⟩
  sizes : ∀ b ∈ s.held, HEADER_SIZE ≤ b.size
  upstream : R.upstream = false → s.held = []
  next : s.nextBufferSize < WORD64
  current : ∀ ptr, s.currentBuffer = some ptr → 0 < ptr ∧ ptr + s.currentBufferSize < WORD64 ∧
    ∃ r ∈ regions R s, Inside ⟨ptr, s.currentBufferSize⟩ r
  free : ∀ ptr, s.currentBuffer = some ptr →
    ∀ a ∈ s.live, Apart a.span ⟨ptr, s.currentBufferSize⟩
  live : s.live.Pairwise fun a b => Apart a.span b.span
  aligned : ∀ a ∈ s.live, a.address % a.alignment = 0
  inside : ∀ a ∈ s.live, ∃ r ∈ regions R s, Inside a.span r

/-- The current buffer of a new resource, and after `release`. -/
theorem initial_current (s : State) (hcurrent : s.currentBuffer = R.initialBuffer)
    (hsize : s.currentBufferSize = R.initialBufferSize) (ptr : ℕ)
    (hptr : s.currentBuffer = some ptr) : 0 < ptr ∧ ptr + s.currentBufferSize < WORD64 ∧
      ∃ r ∈ regions R s, Inside ⟨ptr, s.currentBufferSize⟩ r := by
  have hinitial : R.initialBuffer = some ptr := hcurrent ▸ hptr
  rw [hsize]
  refine ⟨?_, ?_, R.initialSpan, List.mem_cons_self, ?_⟩
  · unfold Resource.initialBuffer at hinitial
    rcases hR : R.arguments with _ | ⟨size, lt⟩ | B <;> rw [hR] at hinitial <;> cases hinitial
    exact B.nonnull
  · unfold Resource.initialBuffer at hinitial
    unfold Resource.initialBufferSize
    rcases hR : R.arguments with _ | ⟨size, lt⟩ | B <;> rw [hR] at hinitial <;> cases hinitial
    exact B.fits
  · unfold Resource.initialSpan
    rw [hinitial]
    exact ⟨le_rfl, le_rfl⟩

theorem firstBufferSize_lt (R : Resource) : R.firstBufferSize < WORD64 := by
  have hdefault : 1024 < WORD64 := by
    unfold WORD64
    omega
  unfold Resource.firstBufferSize
  rcases R.arguments with _ | ⟨size, lt⟩ | B
  · exact hdefault
  · simp only
    split_ifs <;> assumption
  · have := B.fits
    simp only
    split_ifs <;> omega

theorem inv_start (h : Start R s) : Inv R s where
  chain := by
    rw [h.held, h.allocatedBlocksHead]
    rfl
  headers := by simp [h.held]
  sizes := by simp [h.held]
  upstream _ := h.held
  next := h.nextBufferSize ▸ firstBufferSize_lt R
  current := initial_current s h.currentBuffer h.currentBufferSize
  free := by simp [h.live]
  live := by simp [h.live]
  aligned := by simp [h.live]
  inside := by simp [h.live]

namespace Inv

theorem cut (h : Inv R s) (hrefused : ¬ Refused alignment) (halignment : alignment < WORD64)
    (hcurrent : FromCurrent s bytes alignment ptr) : Inv R (cut s bytes alignment ptr) := by
  obtain ⟨hptr, hfits⟩ := hcurrent
  obtain ⟨hpos, hend, r, hr, hin⟩ := h.current ptr hptr
  have hnew : Inside ⟨ptr + padding ptr alignment, bytes⟩ ⟨ptr, s.currentBufferSize⟩ :=
    ⟨Nat.le_add_right .., by simp only; omega⟩
  have hrest : Inside ⟨ptr + (padding ptr alignment + bytes),
      s.currentBufferSize - (padding ptr alignment + bytes)⟩ ⟨ptr, s.currentBufferSize⟩ :=
    ⟨Nat.le_add_right .., by simp only; omega⟩
  refine ⟨h.chain, h.headers, h.sizes, h.upstream, h.next, ?_, ?_, ?_, ?_, ?_⟩
  · rintro _ ⟨⟩
    exact ⟨by omega, by simp only [MonotonicBuffer.cut]; omega, r, hr, hrest.trans hin⟩
  · rintro _ ⟨⟩ a ha
    rcases List.mem_cons.1 ha with rfl | ha
    · exact apart_of_le (by simp only [Allocation.span]; omega)
    · exact (h.free ptr hptr a ha).mono ⟨le_rfl, le_rfl⟩ hrest
  · refine List.pairwise_cons.2 ⟨fun a ha => ?_, h.live⟩
    exact ((h.free ptr hptr a ha).mono ⟨le_rfl, le_rfl⟩ hnew).symm
  · rintro a ha
    rcases List.mem_cons.1 ha with rfl | ha
    · exact padding_fits hrefused halignment hpos (by omega)
    · exact h.aligned a ha
  · rintro a ha
    rcases List.mem_cons.1 ha with rfl | ha
    · exact ⟨r, hr, hnew.trans hin⟩
    · exact h.inside a ha

/-- Fresh memory is apart from everything handed out. -/
theorem apart_fresh (h : Inv R s) (hfresh : Fresh R s size block) {a : Allocation}
    (ha : a ∈ s.live) : Apart a.span ⟨block, size⟩ := by
  obtain ⟨r, hr, hin⟩ := h.inside a ha
  rcases List.mem_cons.1 hr with rfl | hr
  · exact hfresh.initial.symm.mono hin ⟨le_rfl, le_rfl⟩
  · obtain ⟨b, hb, rfl⟩ := List.mem_map.1 hr
    have husable : Inside b.usable b.span := by
      have := h.sizes b hb
      exact ⟨Nat.le_add_right .., by simp only [Block.usable, Block.span]; omega⟩
    exact (hfresh.held b hb).symm.mono (hin.trans husable) ⟨le_rfl, le_rfl⟩

/-- The header of fresh memory is no header of the chain. -/
theorem header_notMem (hfresh : Fresh R s size block) (hsize : 0 < size) (h : Inv R s) :
    ∀ b ∈ s.held, b.address ≠ block := by
  rintro b hb rfl
  have := h.sizes b hb
  unfold HEADER_SIZE at this
  refine hfresh.held b hb b.address ⟨le_rfl, ?_⟩ ⟨le_rfl, ?_⟩
  · simp only
    omega
  · simp only [Block.span]
    omega

theorem fromBlock (h : Inv R s) (hrefused : ¬ Refused alignment)
    (hblock : FromBlock R s bytes alignment size) (hfresh : Fresh R s size block) :
    Inv R (fromBlock s bytes alignment size block).2 := by
  obtain ⟨k, hsize, henough, hlt⟩ :=
    nextSize_spec h.next hblock.bytes_le hblock.alignment_le hrefused
  obtain rfl := Option.some.inj (hblock.size_eq.symm.trans hsize)
  have hend := hfresh.fits
  have hnonnull := hfresh.nonnull
  set size := startSize s * 2 ^ k
  obtain ⟨hless, haligned, halign⟩ := padding_spec hrefused
    (show 0 < block + HEADER_SIZE by omega) (by omega)
  have hother := header_notMem hfresh (by unfold HEADER_SIZE at henough; omega) h
  set P := padding (block + HEADER_SIZE) alignment with hP
  have hrest : sub64 (sub64 (sub64 size HEADER_SIZE) P) bytes =
      size - (HEADER_SIZE + P + bytes) := by
    rw [sub64_eq (a := size) (by omega) (by omega), sub64_eq (b := P) (by omega) (by omega),
      sub64_eq (by omega) (by omega)]
    omega
  have husable : Inside ⟨block + HEADER_SIZE, size - HEADER_SIZE⟩ ⟨block, size⟩ :=
    ⟨Nat.le_add_right .., by simp only; omega⟩
  have hnew : Inside ⟨block + HEADER_SIZE + P, bytes⟩ ⟨block + HEADER_SIZE, size - HEADER_SIZE⟩ :=
    ⟨Nat.le_add_right .., by simp only; omega⟩
  have hcurrent : Inside ⟨block + HEADER_SIZE + P + bytes, size - (HEADER_SIZE + P + bytes)⟩
      ⟨block + HEADER_SIZE, size - HEADER_SIZE⟩ := ⟨by simp only; omega, by simp only; omega⟩
  have hlive : (MonotonicBuffer.fromBlock s bytes alignment size block).2.live =
      ⟨block + HEADER_SIZE + P, bytes, alignment⟩ :: s.live := by
    rw [← halign]
    rfl
  have hcurrentSize : (MonotonicBuffer.fromBlock s bytes alignment size block).2.currentBufferSize =
      size - (HEADER_SIZE + P + bytes) := by
    rw [← hrest]
    rfl
  have hregions {r : Span} (hr : r ∈ regions R s) :
      r ∈ regions R (MonotonicBuffer.fromBlock s bytes alignment size block).2 := by
    rcases List.mem_cons.1 hr with rfl | hr
    · exact List.mem_cons_self
    · exact List.mem_cons_of_mem _ (List.mem_cons_of_mem _ hr)
  have hregion : ⟨block + HEADER_SIZE, size - HEADER_SIZE⟩ ∈
      regions R (MonotonicBuffer.fromBlock s bytes alignment size block).2 :=
    List.mem_cons_of_mem _ List.mem_cons_self
  refine ⟨?_, ?_, ?_, ?_, ?_, ?_, ?_, ?_, ?_, ?_⟩
  · refine Linked.push (h.chain.congr fun a ha => ?_) ?_
    · obtain ⟨b, hb, rfl⟩ := List.mem_map.1 ha
      simp only [MonotonicBuffer.fromBlock, Function.update_of_ne (hother b hb)]
    · simp only [MonotonicBuffer.fromBlock, Function.update_self]
  · rintro b hb
    rcases List.mem_cons.1 hb with rfl | hb
    · simp only [MonotonicBuffer.fromBlock, Function.update_self]
    · simp only [MonotonicBuffer.fromBlock, Function.update_of_ne (hother b hb)]
      exact h.headers b hb
  · rintro b hb
    rcases List.mem_cons.1 hb with rfl | hb
    · simp only
      omega
    · exact h.sizes b hb
  · intro hnone
    exact absurd (hblock.upstream.symm.trans hnone) (by simp)
  · simp only [MonotonicBuffer.fromBlock]
    split_ifs
    · exact Nat.mod_lt _ (by omega)
    · exact hlt
  · rintro _ ⟨⟩
    rw [hcurrentSize]
    exact ⟨by omega, by omega, _, hregion, hcurrent⟩
  · rintro _ ⟨⟩ a ha
    rw [hcurrentSize]
    rw [hlive] at ha
    rcases List.mem_cons.1 ha with rfl | ha
    · exact apart_of_le le_rfl
    · exact (h.apart_fresh hfresh ha).mono ⟨le_rfl, le_rfl⟩ (hcurrent.trans husable)
  · rw [hlive]
    refine List.pairwise_cons.2 ⟨fun a ha => ?_, h.live⟩
    exact ((h.apart_fresh hfresh ha).mono ⟨le_rfl, le_rfl⟩ (hnew.trans husable)).symm
  · rw [hlive]
    rintro a ha
    rcases List.mem_cons.1 ha with rfl | ha
    · exact haligned
    · exact h.aligned a ha
  · rw [hlive]
    rintro a ha
    rcases List.mem_cons.1 ha with rfl | ha
    · exact ⟨_, hregion, hnew⟩
    · obtain ⟨r, hr, hin⟩ := h.inside a ha
      exact ⟨r, hregions hr, hin⟩

end Inv

/-! ### `release` -/

/-- The loop gives back the blocks that are held. -/
theorem releaseLoop_eq (hupstream : R.upstream = true) :
    ∀ (held : List Block) {head : Option ℕ},
      Linked some (fun a => (s.header a).next) head (held.map Block.address) none →
      (∀ b ∈ held, b = ⟨b.address, (s.header b.address).size, HEADER_ALIGNMENT⟩) →
      releaseLoop R s.header held.length head = some held
  | [], _, hchain, _ => by
    obtain rfl := Linked.nil_iff.1 hchain
    rfl
  | b :: held, _, hchain, hheaders => by
    obtain ⟨rfl, htail⟩ := Linked.cons_iff.1 hchain
    have hrest := releaseLoop_eq hupstream held htail fun b hb =>
      hheaders b (List.mem_cons_of_mem _ hb)
    rw [List.length_cons, releaseLoop, hrest, Option.map_some, if_pos hupstream,
      ← hheaders b List.mem_cons_self]

theorem diff_self : ∀ held : List Block, held.diff held = []
  | [] => rfl
  | b :: held => by rw [List.diff_cons, List.erase_cons_head, diff_self held]

/-- What `release` gives back, and the state after it. -/
theorem Inv.release (h : Inv R s) : ∃ s', MonotonicBuffer.release R s = some (s.held, s') ∧
    s'.held = [] ∧ s'.live = [] ∧ s'.currentBuffer = R.initialBuffer ∧
    s'.currentBufferSize = R.initialBufferSize ∧ s'.allocatedBlocksHead = none ∧
    s'.nextBufferSize = s.nextBufferSize := by
  have hloop : releaseLoop R s.header s.held.length s.allocatedBlocksHead = some s.held := by
    rcases hupstream : R.upstream with _ | _
    · have hheld := h.upstream hupstream
      have hchain := h.chain
      rw [hheld] at hchain ⊢
      obtain hnone := Linked.nil_iff.1 hchain
      rw [hnone]
      rfl
    · exact releaseLoop_eq hupstream s.held h.chain h.headers
  refine ⟨{ s with
    allocatedBlocksHead := none
    currentBuffer := R.initialBuffer
    currentBufferSize := R.initialBufferSize
    live := []
    held := s.held.diff s.held }, ?_, diff_self s.held, rfl, rfl, rfl, rfl, rfl⟩
  rw [MonotonicBuffer.release, hloop, Option.map_some]

/-- After `release` the resource is as new. -/
theorem Inv.of_released (h : Inv R s) {calls : List Block}
    (hs : MonotonicBuffer.release R s = some (calls, s')) : Inv R s' := by
  obtain ⟨s₁, hs₁, hheld, hlive, hcurrent, hsize, hhead, hnext⟩ := h.release
  obtain ⟨-, rfl⟩ := Prod.mk.inj (Option.some.inj (hs₁.symm.trans hs))
  refine ⟨?_, by simp [hheld], by simp [hheld], fun _ => hheld, hnext ▸ h.next,
    initial_current s₁ hcurrent hsize, by simp [hlive], by simp [hlive], by simp [hlive],
    by simp [hlive]⟩
  rw [hheld, hhead]
  rfl

/-! ### Runs -/

theorem Inv.step (h : Inv R s) {a : Action} (hcontract : Contract R s a)
    (hs : MonotonicBuffer.step R s a = some s') : Inv R s' := by
  rcases a with ⟨bytes, alignment, answer⟩ | ⟨p, bytes, alignment⟩ | _
  · simp only [MonotonicBuffer.step] at hs
    split_ifs at hs with hlt
    obtain ⟨⟨p, s₁⟩, hallocate, rfl⟩ := Option.map_eq_some_iff.1 hs
    rcases allocate_cases hallocate with ⟨-, rfl⟩ |
      ⟨hrefused, -, ⟨ptr, hcurrent, -, rfl⟩ | ⟨size, block, hblock, hanswer, -, rfl⟩⟩
    · exact h
    · exact h.cut hrefused hlt.2 hcurrent
    · exact h.fromBlock hrefused hblock (hcontract size block hblock.size_eq hanswer)
  · cases hs
    exact h
  · obtain ⟨⟨calls, s₁⟩, hrelease, rfl⟩ := Option.map_eq_some_iff.1 hs
    exact h.of_released hrelease

theorem inv_of_run (h : (machine R).Run (Contract R) s) : Inv R s :=
  Machine.run_induction (fun _ => inv_start) (fun _ _ _ _ ih hg hs => ih.step hg hs) h

theorem Inv.allocate_returns (h : Inv R s) (bytes alignment : ℕ) (answer : Option ℕ) :
    ∃ r, MonotonicBuffer.allocate R s bytes alignment answer = some r := by
  unfold MonotonicBuffer.allocate
  by_cases hbytes : bytes = 0
  · exact ⟨_, if_pos hbytes⟩
  by_cases hrefused : Refused alignment
  · exact ⟨_, by rw [if_neg hbytes, if_pos hrefused]⟩
  rw [if_neg hbytes, if_neg hrefused]
  rcases fromCurrent_cases s bytes alignment with ⟨ptr, -, heq⟩ | heq
  · exact ⟨_, by rw [heq]⟩
  · rw [heq]
    simp only
    split_ifs with hupstream hlarge
    · exact ⟨_, rfl⟩
    · exact ⟨_, rfl⟩
    · obtain ⟨hlarge', hlarge''⟩ := not_or.1 hlarge
      obtain ⟨k, hsize, -, -⟩ :=
        nextSize_spec h.next (not_lt.1 hlarge') (not_lt.1 hlarge'') hrefused
      exact ⟨_, by rw [hsize, Option.map_some]⟩

/-- A call of `do_allocate` returns: with nothing, and then nothing has changed, or with memory that
is recorded. -/
theorem Inv.allocate (h : Inv R s) (bytes alignment : ℕ) (answer : Option ℕ) :
    ∃ p s', MonotonicBuffer.allocate R s bytes alignment answer = some (p, s') ∧
      (p = none → s' = s) ∧ ∀ a, p = some a → s'.live = ⟨a, bytes, alignment⟩ :: s.live := by
  obtain ⟨⟨p, s'⟩, hallocate⟩ := h.allocate_returns bytes alignment answer
  refine ⟨p, s', hallocate, ?_⟩
  rcases allocate_cases hallocate with ⟨rfl, rfl⟩ |
    ⟨-, -, ⟨ptr, -, rfl, rfl⟩ | ⟨size, block, -, -, rfl, rfl⟩⟩
  · exact ⟨fun _ => rfl, by simp⟩
  · refine ⟨by simp, ?_⟩
    rintro _ ⟨⟩
    rfl
  · refine ⟨by simp, ?_⟩
    rintro _ ⟨⟩
    rfl

/-- What holds in every state of a run: of what was handed out, of the next call of `do_allocate`
and of `release`. -/
structure Sound (R : Resource) (s : State) : Prop where
  apart : s.live.Pairwise fun a b => Apart a.span b.span
  aligned : ∀ a ∈ s.live, a.address % a.alignment = 0
  inside : ∀ a ∈ s.live, ∃ r ∈ regions R s, Inside a.span r
  allocate : ∀ bytes alignment answer, ∃ p s',
    MonotonicBuffer.allocate R s bytes alignment answer = some (p, s') ∧ (p = none → s' = s) ∧
      ∀ a, p = some a → s'.live = ⟨a, bytes, alignment⟩ :: s.live
  nextSize : ∀ bytes alignment, bytes ≤ SIZE_MAX / 4 → alignment ≤ SIZE_MAX / 4 →
    ¬ Refused alignment → ∃ k, nextSize s bytes alignment = some (startSize s * 2 ^ k) ∧
      HEADER_SIZE + alignment + bytes ≤ startSize s * 2 ^ k ∧ startSize s * 2 ^ k < WORD64
  release : ∃ s', MonotonicBuffer.release R s = some (s.held, s') ∧ s'.held = [] ∧ s'.live = [] ∧
    s'.currentBuffer = R.initialBuffer ∧ s'.currentBufferSize = R.initialBufferSize

theorem monotonic_sound (h : (machine R).Run (Contract R) s) : Sound R s := by
  have hinv := inv_of_run h
  obtain ⟨s', hrelease, hheld, hlive, hcurrent, hsize, -, -⟩ := hinv.release
  exact ⟨hinv.live, hinv.aligned, hinv.inside, hinv.allocate,
    fun _ _ hbytes halignment hrefused => nextSize_spec hinv.next hbytes halignment hrefused,
    s', hrelease, hheld, hlive, hcurrent, hsize⟩

/-- A buffer of 64 bytes over an upstream resource. -/
def small : Resource := ⟨.buffer ⟨4096, 64, by omega, by unfold WORD64; omega⟩, true⟩

def smallStart : State := ⟨some 4096, 64, 64, none, fun _ => ⟨0, none⟩, [], []⟩

/-- Two requests, the second of a block of 256 bytes. -/
theorem monotonic_sound_two : ∃ s : State, s.live.length = 2 ∧ s.held = [⟨8192, 256, 8⟩] ∧
    Sound small s := by
  have hstart : (machine small).Run (Contract small) smallStart :=
    .init ⟨rfl, rfl, rfl, rfl, rfl, rfl⟩
  have hcut : (machine small).step smallStart (.allocate 32 16 none) =
    some (cut smallStart 32 16 4096) := rfl
  have hblock : (machine small).step (cut smallStart 32 16 4096) (.allocate 100 64 (some 8192)) =
    some (fromBlock (cut smallStart 32 16 4096) 100 64 256 8192).2 := rfl
  have hsize : nextSize (cut smallStart 32 16 4096) 100 64 = some 256 := rfl
  have hfresh : Fresh small (cut smallStart 32 16 4096) 256 8192 :=
    ⟨by omega, rfl, by unfold WORD64; omega, (apart_of_le (by decide)).symm,
      by simp [cut, smallStart]⟩
  refine ⟨(fromBlock (cut smallStart 32 16 4096) 100 64 256 8192).2, rfl, rfl,
    monotonic_sound ((hstart.step ?_ hcut).step ?_ hblock)⟩
  · rintro size block - ⟨⟩
  · rintro size block hsize' ⟨⟩
    obtain rfl := Option.some.inj (hsize.symm.trans hsize')
    exact hfresh

end MinStd.MonotonicBuffer
