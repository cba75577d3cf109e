import MinStd.Transition
import Mathlib.Algebra.Group.Nat.Defs

/-!
# The bitblock set

A set of bits in 64-bit words, the first bit of a word at its high end.  A range of up to 16 bits is
acquired where it is asked for, over two words if need be, or wherever a scan over chunks of two
words finds it free inside one word; a release gives a range back.  Each action is one access to a
word or to the search hint.
-/

namespace MinStd.BitblockSet

open Function

variable {τ : Type*} [DecidableEq τ]

inductive Result
  | success
  | invalidNumBits
  | startIndexOutOfRange
  | rangeExceedsSize
  | failedBitAlreadyAcquired
  | failedBitAlreadyAcquiredFirstWord
  | failedBitAlreadyAcquiredLastWord
  | failedBitAlreadyReleased
  | failedBitAlreadyReleasedFirstWord
  | failedBitAlreadyReleasedLastWord
  deriving DecidableEq

/-- A size the class accepts. -/
structure Size where
  SIZE_IN_BITS : ℕ
  le : 128 ≤ SIZE_IN_BITS

def BITS_PER_WORD : ℕ := 64

def WORDS_PER_SCAN_CHUNK : ℕ := 2

variable (Z : Size)

def Size.NUM_WORDS : ℕ := (Z.SIZE_IN_BITS + BITS_PER_WORD - 1) / BITS_PER_WORD

def Size.NUM_SCAN_CHUNKS : ℕ := (Z.NUM_WORDS + WORDS_PER_SCAN_CHUNK - 1) / WORDS_PER_SCAN_CHUNK

def Size.PADDED_NUM_WORDS : ℕ := Z.NUM_SCAN_CHUNKS * WORDS_PER_SCAN_CHUNK

def Size.TAIL_UNUSED_BITS : ℕ := Z.NUM_WORDS * BITS_PER_WORD - Z.SIZE_IN_BITS

/-- The words and the search hint. -/
structure Bits where
  words : ℕ → BitVec 64
  searchHint : ℕ

/-- The constructor. -/
def Bits.new : Bits where
  words i :=
    if Z.NUM_WORDS < Z.PADDED_NUM_WORDS ∧ i = Z.NUM_WORDS then BitVec.allOnes 64
    else if 0 < Z.TAIL_UNUSED_BITS ∧ i = Z.NUM_WORDS - 1 then (1#64 <<< Z.TAIL_UNUSED_BITS) - 1#64
    else 0#64
  searchHint := 0

/-- `num_bits` ones from bit `startBitInWord` on. -/
def createBitMask (startBitInWord numBits : ℕ) : BitVec 64 :=
  (if numBits = 64 then BitVec.allOnes 64 else (1#64 <<< numBits) - 1#64)
    <<< (64 - startBitInWord - numBits)

/-- `__builtin_clzll` of a word that is not zero. -/
def clz (w : BitVec 64) : ℕ := ((List.range 64).find? fun i => w.getMsbD i).getD 64

def validateRequest (startBit numBits : ℕ) : Result :=
  if numBits < 1 ∨ 16 < numBits then .invalidNumBits
  else if Z.SIZE_IN_BITS ≤ startBit then .startIndexOutOfRange
  else if Z.SIZE_IN_BITS < startBit + numBits then .rangeExceedsSize
  else .success

def startWord (startBit : ℕ) : ℕ := startBit / BITS_PER_WORD

def endWord (startBit numBits : ℕ) : ℕ := (startBit + numBits - 1) / BITS_PER_WORD

/-- The mask of a range inside one word. -/
def wordMask (startBit numBits : ℕ) : BitVec 64 :=
  createBitMask (startBit % BITS_PER_WORD) numBits

def bitsInFirstWord (startBit : ℕ) : ℕ := BITS_PER_WORD - startBit % BITS_PER_WORD

/-- The mask of the part of a range in its first word, when it reaches into a second. -/
def firstMask (startBit : ℕ) : BitVec 64 :=
  createBitMask (startBit % BITS_PER_WORD) (bitsInFirstWord startBit)

/-- The mask of the part of a range in its second word. -/
def lastMask (startBit numBits : ℕ) : BitVec 64 :=
  createBitMask 0 (numBits - bitsInFirstWord startBit)

/-- A scan: how many bits it looks for, and the chunk it starts at. -/
structure Scan where
  numBits : ℕ
  startChunk : ℕ
  deriving DecidableEq

/-- The word `w` of the chunk a scan comes to after `i` others. -/
def Scan.wordIdx (S : Scan) (i w : ℕ) : ℕ :=
  (S.startChunk + i) % Z.NUM_SCAN_CHUNKS * WORDS_PER_SCAN_CHUNK + w

/-- Where a thread is in a call. -/
inductive Pc
  | idle
  | acquireOne (startBit : ℕ)
  | acquireLoad (startBit numBits : ℕ)
  | acquireSwap (startBit numBits : ℕ) (expected : BitVec 64)
  | acquireFirst (startBit numBits : ℕ)
  | undoFirst (startBit : ℕ) (newlySet : BitVec 64)
  | acquireLast (startBit numBits : ℕ)
  | undoLast (startBit numBits : ℕ) (newlySet : BitVec 64)
  | giveBackFirst (startBit : ℕ)
  | releaseHint (startBit numBits : ℕ)
  | releaseOne (startBit : ℕ)
  | releaseLoad (startBit numBits : ℕ)
  | releaseSwap (startBit numBits : ℕ) (expected : BitVec 64)
  | releaseFirstLoad (startBit numBits : ℕ)
  | releaseFirstSwap (startBit numBits : ℕ) (expected : BitVec 64)
  | releaseLast (startBit numBits : ℕ)
  | restoreLast (startBit numBits : ℕ) (cleared : BitVec 64)
  | restoreFirst (startBit : ℕ)
  | loadHint (numBits scanOffset : ℕ)
  | chunkIsFull (S : Scan) (i w : ℕ)
  | scanLoad (S : Scan) (i w : ℕ)
  | scanOr (S : Scan) (i w bitPos : ℕ)
  | scanSwap (S : Scan) (i w : ℕ) (word : BitVec 64)
  | advanceHint (hint bitIndex : ℕ)
  | ret (result : Result)
  | found (bitIndex : Option ℕ)
  deriving DecidableEq

/-- The bits and the calls under way.  For the record: each bit's owners. -/
structure State (τ : Type*) where
  bits : Bits
  pc : τ → Pc
  owners : ℕ → List τ

/-- `acquire` past its validation. -/
def acquireFrom (startBit numBits : ℕ) : Pc :=
  if startWord startBit = endWord startBit numBits then
    if numBits = 1 then .acquireOne startBit else .acquireLoad startBit numBits
  else .acquireFirst startBit numBits

/-- `release` past the search hint. -/
def releaseFrom (startBit numBits : ℕ) : Pc :=
  if startWord startBit = endWord startBit numBits then
    if numBits = 1 then .releaseOne startBit else .releaseLoad startBit numBits
  else .releaseFirstLoad startBit numBits

def acquire (startBit numBits : ℕ) : Pc :=
  if validateRequest Z startBit numBits = .success then acquireFrom startBit numBits
  else .ret (validateRequest Z startBit numBits)

def acquireFirstAvailable (scanOffset : ℕ) : Pc := .loadHint 1 scanOffset

def acquireFirstAvailableContiguous (numBits scanOffset : ℕ) : Pc :=
  if numBits = 0 ∨ 16 < numBits then .found none
  else if numBits = 1 then acquireFirstAvailable scanOffset
  else .loadHint numBits 0

/-- The head of the loop over the chunks. -/
def enterChunk (S : Scan) (i : ℕ) : Pc :=
  if i < Z.NUM_SCAN_CHUNKS then .chunkIsFull S i 0 else .found none

/-- The head of the loop over a chunk's words. -/
def enterWord (S : Scan) (i w : ℕ) : Pc :=
  if w < WORDS_PER_SCAN_CHUNK ∧ S.wordIdx Z i w < Z.NUM_WORDS then .scanLoad S i w
  else enterChunk Z S (i + 1)

/-- The ends of the runs of `numBits` ones in a word. -/
def erode (freeBits : BitVec 64) (numBits : ℕ) : BitVec 64 :=
  (List.range (numBits - 1)).foldl (fun candidates k => candidates &&& (freeBits >>> (k + 1)))
    freeBits

/-- The loop over a word, `word` having been read: the next try, or the next word. -/
def tryWord (S : Scan) (i w : ℕ) (word : BitVec 64) : Pc :=
  if word = BitVec.allOnes 64 then enterWord Z S i (w + 1)
  else if S.numBits = 1 then
    if Z.SIZE_IN_BITS ≤ S.wordIdx Z i w * BITS_PER_WORD + clz (~~~word) then enterWord Z S i (w + 1)
    else .scanOr S i w (clz (~~~word))
  else if erode (~~~word) S.numBits = 0#64 then enterWord Z S i (w + 1)
  else if Z.SIZE_IN_BITS < S.wordIdx Z i w * BITS_PER_WORD
      + (clz (erode (~~~word) S.numBits) - (S.numBits - 1)) + S.numBits then
    enterWord Z S i (w + 1)
  else .scanSwap S i w word

/-- The bit a scan that has read `word` tries to take a run from. -/
def Scan.bitIndex (S : Scan) (i w : ℕ) (word : BitVec 64) : ℕ :=
  S.wordIdx Z i w * BITS_PER_WORD + (clz (erode (~~~word) S.numBits) - (S.numBits - 1))

/-- The loop of `acquire_single_word`, `expected` having been read. -/
def acquireLoop (startBit numBits : ℕ) (expected : BitVec 64) : Pc :=
  if expected &&& wordMask startBit numBits ≠ 0#64 then .ret .failedBitAlreadyAcquired
  else .acquireSwap startBit numBits expected

/-- The loop of `release_single_word`, `expected` having been read. -/
def releaseLoop (startBit numBits : ℕ) (expected : BitVec 64) : Pc :=
  if expected &&& wordMask startBit numBits ≠ wordMask startBit numBits then
    .ret .failedBitAlreadyReleased
  else .releaseSwap startBit numBits expected

/-- The loop of `release_multi_word` over the first word, `expected` having been read. -/
def releaseFirstLoop (startBit numBits : ℕ) (expected : BitVec 64) : Pc :=
  if expected &&& firstMask startBit ≠ firstMask startBit then
    .ret .failedBitAlreadyReleasedFirstWord
  else .releaseFirstSwap startBit numBits expected

variable {Z}

def State.setPc (s : State τ) (t : τ) (p : Pc) : State τ := { s with pc := update s.pc t p }

def State.setWord (s : State τ) (i : ℕ) (w : BitVec 64) : State τ :=
  { s with bits := { s.bits with words := update s.bits.words i w } }

def State.fetchOr (s : State τ) (i : ℕ) (mask : BitVec 64) : State τ :=
  s.setWord i (s.bits.words i ||| mask)

def State.fetchAnd (s : State τ) (i : ℕ) (mask : BitVec 64) : State τ :=
  s.setWord i (s.bits.words i &&& mask)

def State.setHint (s : State τ) (hint : ℕ) : State τ :=
  { s with bits := { s.bits with searchHint := hint } }

/-- The call of `t` gets the range. -/
def State.grant (s : State τ) (t : τ) (startBit numBits : ℕ) : State τ :=
  { s with
    owners := fun b => if startBit ≤ b ∧ b < startBit + numBits then t :: s.owners b else s.owners b }

/-- `owner` gives the range up. -/
def State.revoke (s : State τ) (owner : τ) (startBit numBits : ℕ) : State τ :=
  { s with
    owners := fun b =>
      if startBit ≤ b ∧ b < startBit + numBits then (s.owners b).erase owner else s.owners b }

variable (Z)

/-- The next access of `acquire`. -/
def stepAcquire (s : State τ) (t : τ) (spurious : Bool) : Option (State τ) :=
  match s.pc t with
  | .acquireOne start =>
    if s.bits.words (startWord start) &&& wordMask start 1 ≠ 0#64 then
      some ((s.fetchOr (startWord start) (wordMask start 1)).setPc t
        (.ret .failedBitAlreadyAcquired))
    else
      some (((s.fetchOr (startWord start) (wordMask start 1)).grant t start 1).setPc t
        (.ret .success))
  | .acquireLoad start n => some (s.setPc t (acquireLoop start n (s.bits.words (startWord start))))
  | .acquireSwap start n expected =>
    if s.bits.words (startWord start) = expected ∧ spurious = false then
      some (((s.setWord (startWord start) (expected ||| wordMask start n)).grant t start n).setPc t
        (.ret .success))
    else some (s.setPc t (acquireLoop start n (s.bits.words (startWord start))))
  | .acquireFirst start n =>
    if s.bits.words (startWord start) &&& firstMask start ≠ 0#64 then
      some ((s.fetchOr (startWord start) (firstMask start)).setPc t
        (if firstMask start &&& ~~~s.bits.words (startWord start) ≠ 0#64 then
          .undoFirst start (firstMask start &&& ~~~s.bits.words (startWord start))
        else .ret .failedBitAlreadyAcquiredFirstWord))
    else
      some ((s.fetchOr (startWord start) (firstMask start)).setPc t (.acquireLast start n))
  | .undoFirst start newlySet =>
    some ((s.fetchAnd (startWord start) (~~~newlySet)).setPc t
      (.ret .failedBitAlreadyAcquiredFirstWord))
  | .acquireLast start n =>
    if s.bits.words (endWord start n) &&& lastMask start n ≠ 0#64 then
      some ((s.fetchOr (endWord start n) (lastMask start n)).setPc t
        (if lastMask start n &&& ~~~s.bits.words (endWord start n) ≠ 0#64 then
          .undoLast start n (lastMask start n &&& ~~~s.bits.words (endWord start n))
        else .giveBackFirst start))
    else
      some (((s.fetchOr (endWord start n) (lastMask start n)).grant t start n).setPc t
        (.ret .success))
  | .undoLast start n newlySet =>
    some ((s.fetchAnd (endWord start n) (~~~newlySet)).setPc t (.giveBackFirst start))
  | .giveBackFirst start =>
    some ((s.fetchAnd (startWord start) (~~~firstMask start)).setPc t
      (.ret .failedBitAlreadyAcquiredLastWord))
  | _ => none

/-- The next access of `release`. -/
def stepRelease (s : State τ) (t : τ) (spurious : Bool) : Option (State τ) :=
  match s.pc t with
  | .releaseHint start n => some ((s.setHint start).setPc t (releaseFrom start n))
  | .releaseOne start =>
    some ((s.fetchAnd (startWord start) (~~~wordMask start 1)).setPc t
      (if s.bits.words (startWord start) &&& wordMask start 1 = wordMask start 1 then .ret .success
      else .ret .failedBitAlreadyReleased))
  | .releaseLoad start n => some (s.setPc t (releaseLoop start n (s.bits.words (startWord start))))
  | .releaseSwap start n expected =>
    if s.bits.words (startWord start) = expected ∧ spurious = false then
      some ((s.setWord (startWord start) (expected &&& ~~~wordMask start n)).setPc t
        (.ret .success))
    else some (s.setPc t (releaseLoop start n (s.bits.words (startWord start))))
  | .releaseFirstLoad start n =>
    some (s.setPc t (releaseFirstLoop start n (s.bits.words (startWord start))))
  | .releaseFirstSwap start n expected =>
    if s.bits.words (startWord start) = expected ∧ spurious = false then
      some ((s.setWord (startWord start) (expected &&& ~~~firstMask start)).setPc t
        (.releaseLast start n))
    else some (s.setPc t (releaseFirstLoop start n (s.bits.words (startWord start))))
  | .releaseLast start n =>
    some ((s.fetchAnd (endWord start n) (~~~lastMask start n)).setPc t
      (if s.bits.words (endWord start n) &&& lastMask start n ≠ lastMask start n then
        .restoreLast start n (s.bits.words (endWord start n) &&& lastMask start n)
      else .ret .success))
  | .restoreLast start n cleared =>
    some ((s.fetchOr (endWord start n) cleared).setPc t (.restoreFirst start))
  | .restoreFirst start =>
    some ((s.fetchOr (startWord start) (firstMask start)).setPc t
      (.ret .failedBitAlreadyReleasedLastWord))
  | _ => none

/-- The next access of `acquire_first_available` or `acquire_first_available_contiguous`. -/
def stepScan (s : State τ) (t : τ) (spurious : Bool) : Option (State τ) :=
  match s.pc t with
  | .loadHint n scanOffset =>
    some (s.setPc t (enterChunk Z
      ⟨n, (s.bits.searchHint / BITS_PER_WORD / WORDS_PER_SCAN_CHUNK + scanOffset) % 2 ^ 64
        % Z.NUM_SCAN_CHUNKS⟩ 0))
  | .chunkIsFull S i w =>
    if s.bits.words (S.wordIdx Z i w) ≠ BitVec.allOnes 64 then some (s.setPc t (enterWord Z S i 0))
    else if w + 1 < WORDS_PER_SCAN_CHUNK then some (s.setPc t (.chunkIsFull S i (w + 1)))
    else some (s.setPc t (enterChunk Z S (i + 1)))
  | .scanLoad S i w => some (s.setPc t (tryWord Z S i w (s.bits.words (S.wordIdx Z i w))))
  | .scanOr S i w bitPos =>
    if s.bits.words (S.wordIdx Z i w) &&& (1#64 <<< (63 - bitPos)) = 0#64 then
      some (((s.fetchOr (S.wordIdx Z i w) (1#64 <<< (63 - bitPos))).grant t
        (S.wordIdx Z i w * BITS_PER_WORD + bitPos) 1).setPc t
        (.advanceHint (S.wordIdx Z i w * BITS_PER_WORD + bitPos + 1)
          (S.wordIdx Z i w * BITS_PER_WORD + bitPos)))
    else
      some ((s.fetchOr (S.wordIdx Z i w) (1#64 <<< (63 - bitPos))).setPc t (.scanLoad S i w))
  | .scanSwap S i w word =>
    if s.bits.words (S.wordIdx Z i w) = word ∧ spurious = false then
      some (((s.setWord (S.wordIdx Z i w)
        (word ||| wordMask (S.bitIndex Z i w word) S.numBits)).grant t
        (S.bitIndex Z i w word) S.numBits).setPc t
        (.advanceHint (S.bitIndex Z i w word + S.numBits) (S.bitIndex Z i w word)))
    else some (s.setPc t (tryWord Z S i w (s.bits.words (S.wordIdx Z i w))))
  | .advanceHint hint bitIndex => some ((s.setHint hint).setPc t (.found (some bitIndex)))
  | _ => none

/-- The next access of a call, or its return. -/
def stepRun (s : State τ) (t : τ) (spurious : Bool) : Option (State τ) :=
  match s.pc t with
  | .idle => none
  | .ret _ => some (s.setPc t .idle)
  | .found _ => some (s.setPc t .idle)
  | _ => ((stepAcquire s t spurious).or (stepRelease s t spurious)).or (stepScan Z s t spurious)

inductive Action (τ : Type*)
  | acquire (t : τ) (startBit numBits : ℕ)
  | acquireFirstAvailable (t : τ) (scanOffset : ℕ)
  | acquireFirstAvailableContiguous (t : τ) (numBits scanOffset : ℕ)
  | release (t owner : τ) (startBit numBits : ℕ)
  | run (t : τ) (spurious : Bool)

/-- `owner` owns every bit of the range. -/
def State.OwnsRange (s : State τ) (owner : τ) (startBit numBits : ℕ) : Prop :=
  ∀ k < numBits, owner ∈ s.owners (startBit + k)

instance (s : State τ) (owner : τ) (startBit numBits : ℕ) :
    Decidable (s.OwnsRange owner startBit numBits) := Nat.decidableBallLT numBits _

/-- A release is called, by any thread, on a range of its owner's. -/
def step (s : State τ) : Action τ → Option (State τ)
  | .acquire t start n => if s.pc t = .idle then some (s.setPc t (acquire Z start n)) else none
  | .acquireFirstAvailable t offset =>
    if s.pc t = .idle then some (s.setPc t (acquireFirstAvailable offset)) else none
  | .acquireFirstAvailableContiguous t n offset =>
    if s.pc t = .idle then some (s.setPc t (acquireFirstAvailableContiguous n offset)) else none
  | .release t owner start n =>
    if s.pc t = .idle ∧ s.OwnsRange owner start n then
      if validateRequest Z start n = .success then
        some ((s.revoke owner start n).setPc t (.releaseHint start n))
      else some (s.setPc t (.ret (validateRequest Z start n)))
    else none
  | .run t spurious => stepRun Z s t spurious

/-- A new set, owned by nobody. -/
structure Start (s : State τ) : Prop where
  bits : s.bits = Bits.new Z
  pc : s.pc = fun _ => .idle
  owners : s.owners = fun _ => []

def machine : Machine (State τ) (Action τ) where
  init := Start Z
  step := step Z

/-- What a thread asked for last. -/
inductive Asked
  | acquire (startBit numBits : ℕ)
  | search (numBits : ℕ)
  | release
  deriving DecidableEq

/-- The range a thread is given where its call returns. -/
def Asked.answer : Asked → Pc → Option (ℕ × ℕ)
  | .acquire start n, .ret .success => some (start, n)
  | .search n, .found (some bitIndex) => some (bitIndex, n)
  | _, _ => none

/-- The set and its callers.  For the record: what each thread asked for, and each bit's holders, by
the answers they got. -/
structure Callers (τ : Type*) where
  set : State τ
  asked : τ → Asked
  holders : ℕ → List τ

namespace Callers

/-- The call of `t` returns with an answer. -/
def take (s : Callers τ) (t : τ) : Option (ℕ × ℕ) → ℕ → List τ
  | some (start, n) => fun b =>
    if start ≤ b ∧ b < start + n then t :: s.holders b else s.holders b
  | none => s.holders

/-- The holders once `holder` has asked for a release. -/
def drop (s : Callers τ) (holder : τ) (startBit numBits : ℕ) (b : ℕ) : List τ :=
  if validateRequest Z startBit numBits = .success ∧ startBit ≤ b ∧ b < startBit + numBits then
    (s.holders b).erase holder
  else s.holders b

/-- `holder` has been given every bit of the range. -/
def HoldsRange (s : Callers τ) (holder : τ) (startBit numBits : ℕ) : Prop :=
  ∀ k < numBits, holder ∈ s.holders (startBit + k)

instance (s : Callers τ) (holder : τ) (startBit numBits : ℕ) :
    Decidable (s.HoldsRange holder startBit numBits) := Nat.decidableBallLT numBits _

/-- A range is released, by any thread, once its holder has been given it. -/
def step (s : Callers τ) (a : Action τ) : Option (Callers τ) :=
  match a with
  | .acquire t start n =>
    (BitblockSet.step Z s.set a).map fun z => ⟨z, update s.asked t (.acquire start n), s.holders⟩
  | .acquireFirstAvailable t _ =>
    (BitblockSet.step Z s.set a).map fun z => ⟨z, update s.asked t (.search 1), s.holders⟩
  | .acquireFirstAvailableContiguous t n _ =>
    (BitblockSet.step Z s.set a).map fun z => ⟨z, update s.asked t (.search n), s.holders⟩
  | .release t holder start n =>
    if s.HoldsRange holder start n then
      (BitblockSet.step Z s.set a).map fun z =>
        ⟨z, update s.asked t .release, s.drop Z holder start n⟩
    else none
  | .run t _ =>
    (BitblockSet.step Z s.set a).map fun z =>
      ⟨z, s.asked, s.take t ((s.asked t).answer (s.set.pc t))⟩

/-- A new set, which nobody has called. -/
structure Start (s : Callers τ) : Prop where
  set : BitblockSet.Start Z s.set
  asked : s.asked = fun _ => .release
  holders : s.holders = fun _ => []

def machine : Machine (Callers τ) (Action τ) where
  init := Start Z
  step := step Z

end Callers

end MinStd.BitblockSet
