import MinStd.SingleBlockResource

/-!
# What a step of the single-block resource can do

`Effect` lists the changes one step can make.  Through all of them a block stays in the size class
it was carved for, a link once set stays set, and what a thread holds points to blocks of the class
whose list it works on.
-/

namespace MinStd.SingleBlockResource

variable {Tid : Type*} {B : Buffer}

/-- The list a block belongs to. -/
def home (s : State Tid) (b : Block) : ℕ := deallocationBin (s.requestedSize b)

/-- A block of the list's size class that has been on the list. -/
structure Seen (s : State Tid) (bin : ℕ) (b : Block) : Prop where
  created : s.created b
  home : home s b = bin
  next : s.nextDeallocated b ≠ .null

def SeenPtr (s : State Tid) (bin : ℕ) : Ptr → Prop
  | .null => False
  | .endOfListMarker => True
  | .block b => Seen s bin b

def ScanOk (s : State Tid) (r : Request) (previous : Option Block) (next : Ptr) : Prop :=
  (∀ b ∈ previous, Seen s r.bin b) ∧ SeenPtr s r.bin next

def ContOk (s : State Tid) (bin : ℕ) : Cont → Prop
  | .scan r previous next => r.bin = bin ∧ ScanOk s r previous next
  | .deallocated => True

/-- What a thread's registers point to. -/
def PcOk (s : State Tid) : Pc → Prop
  | .testEnd r previous current => ScanOk s r previous current
  | .loadNext r previous current => ScanOk s r previous (.block current)
  | .testFree r previous current next | .claim r previous current next
  | .testInUse r previous current next | .unlink r previous current next
  | .clearFlag r previous current next | .recheck r previous current next =>
    ScanOk s r previous next ∧ Seen s r.bin current
  | .setRequested r b => s.created b ∧ home s b = r.bin
  | .moveTail _ nextBlock header following => nextBlock ≤ header ∧ header < following
  | .testTail b _ | .testLive b _ | .testRequested b _ => s.created b
  | .release b bytes => s.created b ∧ home s b = deallocationBin bytes
  | .exchangeFlag b bin k | .pushLoad b bin k => (s.created b ∧ home s b = bin) ∧ ContOk s bin k
  | .pushStore b bin head k => (s.created b ∧ home s b = bin) ∧ SeenPtr s bin head ∧ ContOk s bin k
  | .pushCas b bin _ k => Seen s bin b ∧ ContOk s bin k
  | _ => True

/-- A later state: blocks stay where they belong, and links once set stay set. -/
structure Extends (s s' : State Tid) : Prop where
  created : ∀ b, s.created b → s'.created b
  home : ∀ b, s.created b → home s' b = home s b
  next : ∀ b, s.created b → s.nextDeallocated b ≠ .null → s'.nextDeallocated b ≠ .null

section Extends

variable {s s' : State Tid} {bin : ℕ}

theorem Seen.extend {b : Block} (h : Seen s bin b) (hx : Extends s s') : Seen s' bin b :=
  ⟨hx.created b h.created, (hx.home b h.created).trans h.home, hx.next b h.created h.next⟩

theorem SeenPtr.extend {p : Ptr} (h : SeenPtr s bin p) (hx : Extends s s') : SeenPtr s' bin p := by
  cases p with
  | null => exact h
  | endOfListMarker => trivial
  | block b => exact Seen.extend h hx

theorem SeenPtr.ne_null {p : Ptr} (h : SeenPtr s bin p) : p ≠ .null := by
  rintro rfl
  exact h

theorem ScanOk.extend {r : Request} {previous : Option Block} {next : Ptr}
    (h : ScanOk s r previous next) (hx : Extends s s') : ScanOk s' r previous next :=
  ⟨fun b hb => (h.1 b hb).extend hx, h.2.extend hx⟩

theorem ContOk.extend {k : Cont} (h : ContOk s bin k) (hx : Extends s s') : ContOk s' bin k := by
  cases k with
  | scan r previous next => exact ⟨h.1, h.2.extend hx⟩
  | deallocated => trivial

theorem PcOk.extend {p : Pc} (h : PcOk s p) (hx : Extends s s') : PcOk s' p := by
  have hat {b : Block} {n : ℕ} (hb : s.created b ∧ SingleBlockResource.home s b = n) :
      s'.created b ∧ SingleBlockResource.home s' b = n :=
    ⟨hx.created b hb.1, (hx.home b hb.1).trans hb.2⟩
  cases p with
  | testEnd r previous current => exact ScanOk.extend h hx
  | loadNext r previous current => exact ScanOk.extend h hx
  | testFree r previous current next | claim r previous current next
  | testInUse r previous current next | unlink r previous current next
  | clearFlag r previous current next | recheck r previous current next =>
    exact ⟨h.1.extend hx, h.2.extend hx⟩
  | setRequested r b => exact hat h
  | moveTail r nextBlock header following => exact h
  | testTail b bytes | testLive b bytes | testRequested b bytes => exact hx.created b h
  | release b bytes => exact hat h
  | exchangeFlag b bin k | pushLoad b bin k => exact ⟨hat h.1, h.2.extend hx⟩
  | pushStore b bin head k => exact ⟨hat h.1, h.2.1.extend hx, h.2.2.extend hx⟩
  | pushCas b bin head k => exact ⟨h.1.extend hx, h.2.extend hx⟩
  | idle | gate r | loadHead r | loadTail r | initHeader r header following
  | countDeallocation => trivial

theorem PcOk.owned_created {p : Pc} {b : Block} (h : PcOk s p) (hb : p.owned? = some b) :
    s.created b := by
  unfold Pc.owned? at hb
  split at hb <;> cases hb
  · exact h.2.created
  · exact h.1.1
  · exact h.1.1
  · exact h.1.created

theorem PcOk.held_created {p : Pc} {b : Block} (h : PcOk s p) (hb : p.held? = some b) :
    s.created b := by
  unfold Pc.held? at hb
  split at hb <;> cases hb
  · exact h.1
  · exact h
  · exact h
  · exact h
  · exact h.1

theorem pcOk_afterPush {k : Cont} (h : ContOk s bin k) : PcOk s (afterPush k) := by
  cases k with
  | scan r previous next => exact h.2
  | deallocated => trivial

end Extends

/-- Created blocks lie below the unused tail, and pointers into a list are to its blocks. -/
structure Memory (s : State Tid) : Prop where
  heads : ∀ k, SeenPtr s k (s.head k)
  links : ∀ b, s.created b →
    s.nextDeallocated b = .null ∨ SeenPtr s (home s b) (s.nextDeallocated b)
  created_lt : ∀ b : ℕ, s.created b → b < s.nextEmptyBlock
  callers : ∀ b, 0 < s.callers b → s.created b
  carved : ∀ t (h : ℕ), (s.pc t).carved? = some h → s.created h = false ∧ h < s.nextEmptyBlock
  carved_unique : ∀ t u h, (s.pc t).carved? = some h → (s.pc u).carved? = some h → t = u
  pcs : ∀ t, PcOk s (s.pc t)

section Tail

variable (ptr : ℕ) {a nextBlock header following : ℕ} {r : Request}

theorem le_roundUp (ha : 0 < a) : ptr ≤ roundUp ptr a := by
  have := Nat.mod_lt ptr ha
  unfold roundUp
  split_ifs <;> omega

theorem roundUp_mod (ha : 0 < a) : roundUp ptr a % a = 0 := by
  have hlt := Nat.mod_lt ptr ha
  unfold roundUp
  split_ifs with h
  · exact h
  · have hdiv := Nat.div_add_mod' ptr a
    rw [show ptr + a - ptr % a = (ptr / a + 1) * a by rw [Nat.add_mul, Nat.one_mul]; omega]
    exact Nat.mul_mod_left _ _

theorem roundUp_lt (ha : 0 < a) : roundUp ptr a < ptr + a := by
  unfold roundUp
  split_ifs <;> omega

/-- Rounding that stays below 2^64 does not wrap. -/
theorem alignPointer_eq {ptr : ℕ} (ha : 0 < a) (h : roundUp ptr a < WORD64) :
    alignPointer ptr a = roundUp ptr a := by
  have hlt := Nat.mod_lt ptr ha
  have hle := Nat.mod_le ptr a
  unfold alignPointer roundUp at *
  split_ifs at h ⊢
  · rfl
  · generalize ptr % a = m at *
    unfold sub64 add64 WORD64 at *
    omega

/-- A block carved off the tail lies between the ones before and the end. -/
structure Carved (B : Buffer) (nextBlock : ℕ) (r : Request) (header following : ℕ) : Prop where
  above : nextBlock ≤ header
  aligned : (header + BLOCK_HEADER_SIZE) % r.alignment = 0
  large : header + BLOCK_HEADER_SIZE + r.bytes ≤ following
  below : following < B.endOfBlock

theorem carve_spec (hwrap : roundUp (nextBlock + BLOCK_HEADER_SIZE) r.alignment < WORD64) :
    match carve B nextBlock r with
    | none => B.endOfBlock
        < roundUp (nextBlock + BLOCK_HEADER_SIZE) r.alignment + r.bytes + DEFAULT_ALIGNMENT
    | some (header, following) => ¬ B.endOfBlock
        < roundUp (nextBlock + BLOCK_HEADER_SIZE) r.alignment + r.bytes + DEFAULT_ALIGNMENT
      ∧ Carved B nextBlock r header following := by
  have hpos := r.alignment_pos
  have hle := le_roundUp (nextBlock + BLOCK_HEADER_SIZE) hpos
  have hmod := roundUp_mod (nextBlock + BLOCK_HEADER_SIZE) hpos
  have hend : B.endOfBlock < WORD64 := B.fits
  unfold carve
  simp only
  rw [add64_eq (by omega), alignPointer_eq hpos hwrap]
  generalize roundUp (nextBlock + BLOCK_HEADER_SIZE) r.alignment = returned at *
  have hle' := le_roundUp (returned + r.bytes) (show 0 < DEFAULT_ALIGNMENT by decide)
  have hlt' := roundUp_lt (returned + r.bytes) (show 0 < DEFAULT_ALIGNMENT by decide)
  by_cases hfull : B.endOfBlock ≤ returned ∨ B.endOfBlock - returned < DEFAULT_ALIGNMENT
      ∨ B.endOfBlock - returned - DEFAULT_ALIGNMENT < r.bytes
  · rw [if_pos hfull]
    simp only
    omega
  · have hroom : returned + r.bytes + DEFAULT_ALIGNMENT ≤ B.endOfBlock := by omega
    rw [if_neg hfull, add64_eq (by omega), alignPointer_eq (by decide) (by omega),
      if_neg (by omega), sub64_eq (by omega) (by omega)]
    refine ⟨by omega, by omega, ?_, by omega, by omega⟩
    rw [Nat.sub_add_cancel (by omega)]
    exact hmod

theorem carve_lt (hwrap : roundUp (nextBlock + BLOCK_HEADER_SIZE) r.alignment < WORD64)
    (h : carve B nextBlock r = some (header, following)) :
    nextBlock ≤ header ∧ header < following := by
  have hc := carve_spec (B := B) hwrap
  rw [h] at hc
  obtain ⟨-, habove, -, hlarge, -⟩ := hc
  unfold BLOCK_HEADER_SIZE at hlarge
  omega

end Tail

section Fields

variable (s : State Tid) (bin : ℕ) (previous : Option Block) (p : Ptr)

@[simp] theorem setLinkTo_onFreeList : (s.setLinkTo bin previous p).onFreeList = s.onFreeList := by
  cases previous <;> rfl

@[simp] theorem setLinkTo_created : (s.setLinkTo bin previous p).created = s.created := by
  cases previous <;> rfl

@[simp] theorem setLinkTo_requestedSize :
    (s.setLinkTo bin previous p).requestedSize = s.requestedSize := by
  cases previous <;> rfl

@[simp] theorem setLinkTo_lists : (s.setLinkTo bin previous p).lists = s.lists := by
  cases previous <;> rfl

@[simp] theorem setLinkTo_pc : (s.setLinkTo bin previous p).pc = s.pc := by
  cases previous <;> rfl

theorem setLinkTo_next {b : Block} (h : b ∉ previous) :
    (s.setLinkTo bin previous p).nextDeallocated b = s.nextDeallocated b := by
  cases previous with
  | none => rfl
  | some previous =>
    have hb : b ≠ previous := fun e => h (by simp [e])
    simp [State.setLinkTo, State.setNext, hb]

end Fields

/-- A thread's new place, where only its registers change. -/
structure Moves (s : State Tid) (p p' : Pc) : Prop where
  ok : PcOk s p'
  owned : p'.owned? = none ∨ p'.owned? = p.owned?
  held : p'.held? = none ∨ p'.held? = p.held?
  carved : p'.carved? = none
  reload : ∀ b bin head k, p' = .pushStore b bin head k → head = s.head bin
  store : ∀ b bin head k, p' ≠ .pushCas b bin head k

section Moves

variable {s : State Tid} {bin : ℕ}

theorem afterPush_moves {bin : ℕ} {k : Cont} {p : Pc} (h : ContOk s bin k) :
    Moves s p (afterPush k) := by
  refine ⟨pcOk_afterPush h, ?_, ?_, ?_, ?_, ?_⟩ <;> cases k <;> simp [afterPush, Pc.owned?,
    Pc.held?, Pc.carved?]

theorem setFlag_self {b : Block} (h : s.onFreeList b = true) : s.setFlag b true = s := by
  simp only [State.setFlag, ← h, Function.update_eq_self]

theorem Memory.seen_next (h : Memory s) {b : Block} (hb : Seen s bin b) :
    SeenPtr s bin (s.nextDeallocated b) := by
  rcases h.links b hb.created with hn | hn
  · exact absurd hn hb.next
  · rwa [hb.home] at hn

theorem setLinkTo_extends (s : State Tid) (bin : ℕ) (previous : Option Block) {next : Ptr}
    (hn : next ≠ .null) : Extends s (s.setLinkTo bin previous next) := by
  cases previous with
  | none => exact ⟨fun _ h => h, fun _ _ => rfl, fun _ _ h => h⟩
  | some previous =>
    refine ⟨fun _ h => h, fun _ _ => rfl, fun b _ h => ?_⟩
    by_cases hb : b = previous
    · subst hb
      simpa [State.setLinkTo, State.setNext] using hn
    · simpa [State.setLinkTo, State.setNext, hb] using h

end Moves

variable [DecidableEq Tid]

/-- What one step of thread `t` can do. -/
inductive Effect (s : State Tid) (t : Tid) : State Tid → Prop
  | move {p : Pc} : Moves s (s.pc t) p → Effect s t (s.setPc t p)
  | claim {r previous current next} : s.pc t = .claim r previous current next →
    s.inUse current = false →
    Effect s t ((s.setInUse current true).setPc t (.setRequested r current))
  | setRequested {r b} : s.pc t = .setRequested r b →
    Effect s t ((({ s with
        requestedSize := Function.update s.requestedSize b r.bytes
        totalAllocations := s.totalAllocations + 1 } : State Tid).setCallers b
      (s.callers b + 1)).setPc t .idle)
  | unlink {r previous current next} : s.pc t = .unlink r previous current next →
    s.linkTo r.bin previous = .block current →
    Effect s t (((s.setLinkTo r.bin previous next).setList r.bin
      ((s.lists r.bin).erase current)).setPc t (.clearFlag r previous current next))
  | clearFlag {r previous current next} : s.pc t = .clearFlag r previous current next →
    Effect s t ((s.setFlag current false).setPc t (.recheck r previous current next))
  | takeFlag {b bin k} : s.pc t = .exchangeFlag b bin k → s.onFreeList b = false →
    Effect s t ((s.setFlag b true).setPc t (.pushLoad b bin k))
  | pushStore {b bin head k} : s.pc t = .pushStore b bin head k →
    Effect s t ((s.setNext b head).setPc t (.pushCas b bin head k))
  | pushCas {b bin head k} : s.pc t = .pushCas b bin head k → s.head bin = head →
    Effect s t (((s.setHead bin (.block b)).setList bin (b :: s.lists bin)).setPc t (afterPush k))
  | moveTail {r nextBlock header following} : s.pc t = .moveTail r nextBlock header following →
    s.nextEmptyBlock = nextBlock →
    Effect s t (({ s with nextEmptyBlock := following }).setPc t (.initHeader r header following))
  | initHeader {r header following} : s.pc t = .initHeader r header following →
    Effect s t (((({ s with totalAllocations := s.totalAllocations + 1 } : State Tid).initBlock r
      header following).setCallers header (s.callers header + 1)).setPc t .idle)
  | release {b bytes} : s.pc t = .release b bytes → s.inUse b →
    Effect s t ((s.setInUse b false).setPc t
      (.exchangeFlag b (deallocationBin bytes) .deallocated))
  | countDeallocation : s.pc t = .countDeallocation →
    Effect s t (({ s with totalDeallocations := s.totalDeallocations + 1 }).setPc t .idle)
  | deallocate {b bytes} : s.pc t = .idle → 0 < s.callers b →
    Effect s t ((s.setCallers b (s.callers b - 1)).setPc t (.testTail b bytes))

section Effect

variable {s s' : State Tid} {t : Tid}

theorem scanStep_effect (hm : Memory s) (hs : scanStep s t (s.pc t) = some s') :
    Effect s t s' := by
  have hok := hm.pcs t
  unfold scanStep at hs
  split at hs <;> rename_i hp <;> try rw [hp] at hok
  case h_1 r =>
    cases hs
    exact .move ⟨⟨by simp, hm.heads _⟩, .inl rfl, .inl rfl, rfl, by simp, by simp⟩
  case h_2 r previous current =>
    cases hs
    split_ifs with hn
    · exact absurd hn hok.2.next
    · exact .move ⟨hok, .inl rfl, .inl rfl, rfl, by simp, by simp⟩
  case h_3 r previous current =>
    cases hs
    exact .move ⟨trivial, .inl rfl, .inl rfl, rfl, by simp, by simp⟩
  case h_4 r previous current =>
    cases hs
    exact .move ⟨⟨⟨hok.1, hm.seen_next hok.2⟩, hok.2⟩, .inl rfl, .inl rfl, rfl, by simp, by simp⟩
  case h_5 r previous current next =>
    cases hs
    split_ifs
    · exact .move ⟨hok, .inl rfl, .inl rfl, rfl, by simp, by simp⟩
    · exact .move ⟨hok, .inl rfl, .inl rfl, rfl, by simp, by simp⟩
  case h_6 r previous current next =>
    split_ifs at hs with hu <;> cases hs
    · exact .move ⟨hok.1, .inl rfl, .inl rfl, rfl, by simp, by simp⟩
    · exact .claim hp (by simpa using hu)
  case h_7 r previous current next =>
    cases hs
    split_ifs
    · exact .move ⟨hok, .inl rfl, .inl rfl, rfl, by simp, by simp⟩
    · exact .move ⟨⟨by simpa using hok.2, hok.1.2⟩, .inl rfl, .inl rfl, rfl, by simp, by simp⟩
  case h_8 r previous current next =>
    split_ifs at hs with hl <;> cases hs
    · exact .unlink hp hl
    · exact .move ⟨⟨by simpa using hok.2, hok.1.2⟩, .inl rfl, .inl rfl, rfl, by simp, by simp⟩
  case h_9 r previous current next =>
    cases hs
    exact .clearFlag hp
  case h_10 r previous current next =>
    cases hs
    split_ifs
    · exact .move ⟨hok.1, .inl rfl, .inl rfl, rfl, by simp, by simp⟩
    · exact .move ⟨⟨⟨hok.2.created, hok.2.home⟩, rfl, hok.1⟩, .inl rfl, .inl rfl, rfl, by simp,
        by simp⟩
  case h_11 r b =>
    cases hs
    exact .setRequested hp
  case h_12 => cases hs

theorem pushFreeStep_effect (hm : Memory s) (hs : pushFreeStep s t (s.pc t) = some s') :
    Effect s t s' := by
  have hok := hm.pcs t
  unfold pushFreeStep at hs
  split at hs <;> rename_i hp <;> try rw [hp] at hok
  case h_1 b bin k =>
    cases hs
    split_ifs with hf
    · rw [setFlag_self hf]
      exact .move (afterPush_moves hok.2)
    · exact .takeFlag hp (by simpa using hf)
  case h_2 b bin k =>
    cases hs
    refine .move ⟨⟨hok.1, hm.heads bin, hok.2⟩, .inr (by rw [hp]; rfl), .inl rfl, rfl, ?_, by simp⟩
    rintro b' bin' head' k' h
    cases h
    rfl
  case h_3 b bin head k =>
    cases hs
    exact .pushStore hp
  case h_4 b bin head k =>
    split_ifs at hs with hh <;> cases hs
    · exact .pushCas hp hh
    · refine .move ⟨⟨⟨hok.1.created, hok.1.home⟩, hm.heads bin, hok.2⟩, .inr (by rw [hp]; rfl),
        .inl rfl, rfl, ?_, by simp⟩
      rintro b' bin' head' k' h
      cases h
      rfl
  case h_5 => cases hs

theorem tailStep_effect (hg : CarvesBelow B s (t, .run))
    (hs : tailStep B s t (s.pc t) = some s') : Effect s t s' := by
  unfold tailStep at hs
  split at hs <;> rename_i hp
  case h_1 r =>
    simp only [CarvesBelow, hp] at hg
    split at hs <;> rename_i hc <;> cases hs
    · exact .move ⟨trivial, .inl rfl, .inl rfl, rfl, by simp, by simp⟩
    · exact .move ⟨carve_lt hg.2 hc, .inl rfl, .inl rfl, rfl, by simp, by simp⟩
  case h_2 r nextBlock header following =>
    split_ifs at hs with hn <;> cases hs
    · exact .moveTail hp hn
    · exact .move ⟨trivial, .inl rfl, .inl rfl, rfl, by simp, by simp⟩
  case h_3 r header following =>
    cases hs
    exact .initHeader hp
  case h_4 => cases hs

theorem deallocateStep_effect (hm : Memory s) (hs : deallocateStep s t (s.pc t) = some s') :
    Effect s t s' := by
  have hok := hm.pcs t
  unfold deallocateStep at hs
  have hidle : Moves s (s.pc t) .idle :=
    ⟨trivial, .inl rfl, .inl rfl, rfl, by simp, by simp⟩
  split at hs <;> rename_i hp <;> try rw [hp] at hok
  case h_1 b bytes =>
    cases hs
    split_ifs
    · exact .move hidle
    · exact .move ⟨hok, .inl rfl, .inr (by rw [hp]; rfl), rfl, by simp, by simp⟩
  case h_2 b bytes =>
    cases hs
    split_ifs
    · exact .move ⟨hok, .inl rfl, .inr (by rw [hp]; rfl), rfl, by simp, by simp⟩
    · exact .move hidle
  case h_3 b bytes =>
    cases hs
    split_ifs with hr
    · exact .move ⟨⟨hok, congrArg _ hr⟩, .inl rfl, .inr (by rw [hp]; rfl), rfl, by simp, by simp⟩
    · exact .move hidle
  case h_4 b bytes =>
    split_ifs at hs with hu <;> cases hs
    · exact .release hp hu
    · exact .move hidle
  case h_5 =>
    cases hs
    exact .countDeallocation hp
  case h_6 => cases hs

theorem step_effect (hm : Memory s) {a : Act} (hg : CarvesBelow B s (t, a))
    (hs : step B s t a = some s') : Effect s t s' := by
  unfold step at hs
  split at hs
  case h_1 bytes alignment hp =>
    split_ifs at hs
    cases hs
    split_ifs <;> exact .move ⟨trivial, .inl rfl, .inl rfl, rfl, by simp, by simp⟩
  case h_2 deallocations allocations r hp =>
    split_ifs at hs <;> cases hs <;>
      exact .move ⟨trivial, .inl rfl, .inl rfl, rfl, by simp, by simp⟩
  case h_3 b bytes hp =>
    split_ifs at hs with hc
    cases hs
    exact .deallocate hp hc
  case h_4 p =>
    simp only [Option.or_eq_some_iff] at hs
    rcases hs with hs | ⟨-, hs | ⟨-, hs | ⟨-, hs⟩⟩⟩
    · exact scanStep_effect hm hs
    · exact pushFreeStep_effect hm hs
    · exact tailStep_effect hg hs
    · exact deallocateStep_effect hm hs
  case h_5 => cases hs

end Effect

section Memory

variable {s s' : State Tid} {t : Tid}

theorem update_pc (s : State Tid) (t u : Tid) (p : Pc) :
    (s.setPc t p).pc u = if u = t then p else s.pc u := by
  simp [State.setPc, Function.update_apply]

/-- A step that creates nothing: its new pointers are to blocks seen before. -/
theorem Memory.frame (h : Memory s) {p : Pc} (hx : Extends s s')
    (hpc : ∀ u, s'.pc u = if u = t then p else s.pc u) (hok : PcOk s' p)
    (hcarved : p.carved? = none)
    (hheads : ∀ k, s'.head k = s.head k ∨ SeenPtr s' k (s'.head k))
    (hlinks : ∀ b, s'.created b → s'.nextDeallocated b = s.nextDeallocated b ∨
      SeenPtr s' (home s' b) (s'.nextDeallocated b))
    (hcreated : s'.created = s.created) (hempty : s'.nextEmptyBlock = s.nextEmptyBlock)
    (hcallers : ∀ b, 0 < s'.callers b → s'.created b) : Memory s' where
  heads k := (hheads k).elim (fun e => e ▸ (h.heads k).extend hx) id
  links b hb := by
    rcases hlinks b hb with e | e
    · rw [hcreated] at hb
      rw [e, hx.home b hb]
      exact (h.links b hb).imp_right (·.extend hx)
    · exact .inr e
  created_lt b hb := by
    rw [hcreated] at hb
    exact hempty ▸ h.created_lt b hb
  callers := hcallers
  carved u b hu := by
    rw [hpc] at hu
    split_ifs at hu
    · rw [hcarved] at hu
      cases hu
    · rw [hcreated, hempty]
      exact h.carved u b hu
  carved_unique u v b hu hv := by
    rw [hpc] at hu hv
    split_ifs at hu hv
    · rw [hcarved] at hu; cases hu
    · rw [hcarved] at hu; cases hu
    · rw [hcarved] at hv; cases hv
    · exact h.carved_unique u v b hu hv
  pcs u := by
    rw [hpc]
    split_ifs
    · exact hok
    · exact (h.pcs u).extend hx

/-- A step that leaves blocks where they belong, and links. -/
theorem Memory.quiet (h : Memory s) {p : Pc} (hcreated : s'.created = s.created)
    (hrequested : s'.requestedSize = s.requestedSize)
    (hnext : s'.nextDeallocated = s.nextDeallocated) (hhead : s'.head = s.head)
    (hempty : s'.nextEmptyBlock = s.nextEmptyBlock)
    (hpc : ∀ u, s'.pc u = if u = t then p else s.pc u) (hok : PcOk s p)
    (hcarved : p.carved? = none) (hcallers : ∀ b, 0 < s'.callers b → 0 < s.callers b) :
    Memory s' := by
  have hx : Extends s s' := ⟨by simp [hcreated], by simp [home, hrequested], by simp [hnext]⟩
  exact h.frame hx hpc (hok.extend hx) hcarved (by simp [hhead]) (by simp [hnext]) hcreated hempty
    fun b hb => hx.created b (h.callers b (hcallers b hb))

theorem Memory.step (h : Memory s) (he : Effect s t s') : Memory s' := by
  have hpcs := h.pcs t
  cases he with
  | move hm =>
    exact h.quiet rfl rfl rfl rfl rfl (update_pc s t · _) hm.ok hm.carved fun b hb => hb
  | @claim r previous current next hp hu =>
    rw [hp] at hpcs
    exact h.quiet rfl rfl rfl rfl rfl (update_pc _ t · _) ⟨hpcs.2.created, hpcs.2.home⟩ rfl
      fun b hb => hb
  | @setRequested r b hp =>
    rw [hp] at hpcs
    have hhome : ∀ c, home { s with
        requestedSize := Function.update s.requestedSize b r.bytes } c = home s c := fun c => by
      by_cases hc : c = b
      · subst hc
        simpa [home, Request.bin] using hpcs.2.symm
      · simp [home, hc]
    refine h.frame ⟨fun _ h => h, fun c _ => hhome c, fun _ _ h => h⟩ (update_pc _ t · _) trivial
      rfl (fun _ => .inl rfl) (fun _ _ => .inl rfl) rfl rfl fun c hc => ?_
    by_cases hcb : c = b
    · exact hcb ▸ hpcs.1
    · exact h.callers c (by simpa [State.setPc, State.setCallers, hcb] using hc)
  | @unlink r previous current next hp hl =>
    rw [hp] at hpcs
    have hx : Extends s (((s.setLinkTo r.bin previous next).setList r.bin
        ((s.lists r.bin).erase current)).setPc t (.clearFlag r previous current next)) :=
      have hx := setLinkTo_extends s r.bin previous hpcs.1.2.ne_null
      ⟨hx.created, hx.home, hx.next⟩
    refine h.frame (t := t) (p := .clearFlag r previous current next) hx (fun u => ?_)
      ⟨hpcs.1.extend hx, hpcs.2.extend hx⟩ rfl (fun k => ?_) (fun b _ => ?_) ?_ ?_ fun b hb => ?_
      <;> rcases previous with _ | previous
    · exact update_pc _ t u _
    · exact update_pc _ t u _
    · by_cases hk : k = r.bin
      · subst hk
        refine .inr ?_
        simpa [State.setPc, State.setList, State.setLinkTo, State.setHead]
          using hpcs.1.2.extend hx
      · simp [State.setPc, State.setList, State.setLinkTo, State.setHead, hk]
    · exact .inl rfl
    · exact .inl rfl
    · by_cases hb : b = previous
      · subst hb
        refine .inr ?_
        have hs := (hpcs.1.1 b rfl).extend hx
        rw [hs.home]
        simpa [State.setPc, State.setList, State.setLinkTo, State.setNext]
          using hpcs.1.2.extend hx
      · simp [State.setPc, State.setList, State.setLinkTo, State.setNext, hb]
    all_goals first | rfl | exact h.callers b hb
  | @clearFlag r previous current next hp =>
    rw [hp] at hpcs
    exact h.quiet rfl rfl rfl rfl rfl (update_pc _ t · _) hpcs rfl fun b hb => hb
  | @takeFlag b bin k hp hf =>
    rw [hp] at hpcs
    exact h.quiet rfl rfl rfl rfl rfl (update_pc _ t · _) hpcs rfl fun b hb => hb
  | @pushStore b bin head k hp =>
    rw [hp] at hpcs
    have hx : Extends s ((s.setNext b head).setPc t (.pushCas b bin head k)) :=
      have hx := setLinkTo_extends s bin (some b) hpcs.2.1.ne_null
      ⟨hx.created, hx.home, hx.next⟩
    refine h.frame hx (update_pc _ t · _)
      ⟨⟨hpcs.1.1, hpcs.1.2, by simpa [State.setNext, State.setPc] using hpcs.2.1.ne_null⟩,
        hpcs.2.2.extend hx⟩ rfl (fun _ => .inl rfl) (fun c _ => ?_) rfl rfl h.callers
    by_cases hc : c = b
    · subst hc
      refine .inr ?_
      rw [hx.home c hpcs.1.1, hpcs.1.2]
      simpa [State.setPc, State.setNext] using hpcs.2.1.extend hx
    · simp [State.setPc, State.setNext, hc]
  | @pushCas b bin head k hp hh =>
    rw [hp] at hpcs
    have hx : Extends s (((s.setHead bin (.block b)).setList bin (b :: s.lists bin)).setPc t
        (afterPush k)) := ⟨fun _ h => h, fun _ _ => rfl, fun _ _ h => h⟩
    refine h.frame hx (update_pc _ t · _) ((pcOk_afterPush hpcs.2).extend hx) (by cases k <;> rfl)
      (fun j => ?_) (fun _ _ => .inl rfl) rfl rfl h.callers
    by_cases hj : j = bin
    · subst hj
      refine .inr ?_
      simpa [State.setPc, State.setList, State.setHead] using
        SeenPtr.extend (p := .block b) hpcs.1 hx
    · simp [State.setPc, State.setList, State.setHead, hj]
  | @moveTail r nextBlock header following hp hn =>
    rw [hp] at hpcs
    have hx : Extends s (({ s with nextEmptyBlock := following }).setPc t
        (.initHeader r header following)) := ⟨fun _ h => h, fun _ _ => rfl, fun _ _ h => h⟩
    obtain ⟨hle, hlt⟩ : nextBlock ≤ header ∧ header < following := hpcs
    have hnew : ∀ u, (s.pc u).carved? ≠ some header := fun u hu => by
      have := (h.carved u header hu).2
      omega
    refine ⟨fun k => (h.heads k).extend hx, fun b hb => (h.links b hb).imp_right (·.extend hx),
      fun b hb => ?_, h.callers, fun u b hu => ?_, fun u v b hu hv => ?_, fun u => ?_⟩
    · have := h.created_lt b hb
      change b < following
      omega
    · rw [update_pc] at hu
      split_ifs at hu
      · cases hu
        refine ⟨Bool.eq_false_iff.2 fun hc => ?_, hlt⟩
        have := h.created_lt header hc
        omega
      · have := h.carved u b hu
        refine ⟨this.1, ?_⟩
        change b < following
        omega
    · rw [update_pc] at hu hv
      split_ifs at hu hv with h1 h2 h2
      · rw [h1, h2]
      · cases hu
        exact absurd hv (hnew v)
      · cases hv
        exact absurd hu (hnew u)
      · exact h.carved_unique u v b hu hv
    · rw [update_pc]
      split_ifs
      · trivial
      · exact (h.pcs u).extend hx
  | @initHeader r header following hp =>
    obtain ⟨hc, hlt⟩ := h.carved t header (by rw [hp]; rfl)
    have hne : ∀ b, s.created b → b ≠ header := by
      rintro b hb rfl
      rw [hc] at hb
      cases hb
    have hx : Extends s (((({ s with totalAllocations := s.totalAllocations + 1 } :
        State Tid).initBlock r header following).setCallers header
        (s.callers header + 1)).setPc t .idle) := by
      refine ⟨fun b hb => ?_, fun b hb => ?_, fun b hb hn => ?_⟩
      · simpa [State.setPc, State.setCallers, State.initBlock, hne b hb] using hb
      · simp [home, State.setPc, State.setCallers, State.initBlock, hne b hb]
      · simpa [State.setPc, State.setCallers, State.initBlock, hne b hb] using hn
    have hother : ∀ u, u ≠ t → (s.pc u).carved? ≠ some header := fun u hu hc =>
      hu (h.carved_unique u t header hc (by rw [hp]; rfl))
    refine ⟨fun k => (h.heads k).extend hx, fun b hb => ?_, fun b hb => ?_, fun b hb => ?_,
      fun u b hu => ?_, fun u v b hu hv => ?_, fun u => ?_⟩
    · by_cases hbh : b = header
      · subst hbh
        exact .inl (by simp [State.setPc, State.setCallers, State.initBlock])
      · have hb' : s.created b := by
          simpa [State.setPc, State.setCallers, State.initBlock, hbh] using hb
        rw [hx.home b hb']
        simpa [State.setPc, State.setCallers, State.initBlock, hbh] using
          (h.links b hb').imp_right (·.extend hx)
    · by_cases hbh : b = header
      · exact hbh ▸ hlt
      · exact h.created_lt b
          (by simpa [State.setPc, State.setCallers, State.initBlock, hbh] using hb)
    · by_cases hbh : b = header
      · simp [State.setPc, State.setCallers, State.initBlock, hbh]
      · exact hx.created b (h.callers b
          (by simpa [State.setPc, State.setCallers, State.initBlock, hbh] using hb))
    · rw [update_pc] at hu
      split_ifs at hu with hut
      · cases hu
      · have hbh : b ≠ header := fun e => hother u hut (e ▸ hu)
        simpa [State.setPc, State.setCallers, State.initBlock, hbh] using h.carved u b hu
    · rw [update_pc] at hu hv
      split_ifs at hu hv
      · cases hu
      · cases hu
      · cases hv
      · exact h.carved_unique u v b hu hv
    · rw [update_pc]
      split_ifs
      · trivial
      · exact (h.pcs u).extend hx
  | @release b bytes hp hu =>
    rw [hp] at hpcs
    exact h.quiet rfl rfl rfl rfl rfl (update_pc _ t · _) ⟨hpcs, trivial⟩ rfl fun b hb => hb
  | countDeallocation hp =>
    exact h.quiet rfl rfl rfl rfl rfl (update_pc _ t · _) trivial rfl fun b hb => hb
  | @deallocate b bytes hp hc =>
    refine h.quiet rfl rfl rfl rfl rfl (update_pc _ t · _) (h.callers b hc) rfl fun c hb => ?_
    by_cases hcb : c = b
    · exact hcb ▸ hc
    · simpa [State.setPc, State.setCallers, hcb] using hb

end Memory

end MinStd.SingleBlockResource
