import MinStd.ArenaTaggedPtr
import MinStd.BitFields

/-!
# The words of tagged pointers

A pointer is its address.  `tagged_ptr` puts a counter in the place of the top bits of a pointer,
and a rule says how to restore them; `arena_tagged_ptr` keeps the number of a unit of an arena, and
its counter has all the other bits.
-/

namespace MinStd

/-! ### Any address, by a rule for its top bits -/

inductive PointerTopBits
  | zero
  | ones
  | signExtend47
  deriving DecidableEq

/-- A counter type, of so many bits, and a rule that the class accepts. -/
structure TaggedPtr where
  COUNTER_BITS : ℕ
  TOP_BITS : PointerTopBits
  pos : 0 < COUNTER_BITS
  lt : COUNTER_BITS < 64
  signExtend : TOP_BITS = .signExtend47 → 48 ≤ 64 - COUNTER_BITS

namespace TaggedPtr

variable (T : TaggedPtr)

def POINTER_BITS : ℕ := 64 - T.COUNTER_BITS

def COUNTER_MASK : BitVec 64 := lowMask T.COUNTER_BITS

def POINTER_MASK : BitVec 64 :=
  if T.POINTER_BITS = 64 then ~~~0#64 else lowMask T.POINTER_BITS

def pack (ptr : BitVec 64) (counter : BitVec T.COUNTER_BITS) : BitVec 64 :=
  counter.setWidth 64 <<< T.POINTER_BITS ||| (ptr &&& T.POINTER_MASK)

def restoreTopBits (raw : BitVec 64) : BitVec 64 :=
  if raw = 0#64 then 0#64
  else
    match T.TOP_BITS with
    | .ones => raw ||| ~~~T.POINTER_MASK
    | .signExtend47 => if raw &&& (1#64 <<< 47) ≠ 0#64 then raw ||| ~~~T.POINTER_MASK else raw
    | .zero => raw

def unpackPtr (value : BitVec 64) : BitVec 64 := T.restoreTopBits (value &&& T.POINTER_MASK)

def unpackCounter (value : BitVec 64) : BitVec T.COUNTER_BITS :=
  ((value >>> T.POINTER_BITS) &&& T.COUNTER_MASK).setWidth T.COUNTER_BITS

def withPtr (value ptr : BitVec 64) : BitVec 64 :=
  (value &&& ~~~T.POINTER_MASK) ||| (ptr &&& T.POINTER_MASK)

def incrementCounter (value : BitVec 64) : BitVec 64 :=
  T.pack (T.unpackPtr value) (T.unpackCounter value + 1)

/-- Null, and the addresses whose top bits are as the rule says.  The rule that restores ones takes
an address without other ones for null. -/
def Representable (ptr : BitVec 64) : Prop :=
  ptr = 0#64 ∨
    match T.TOP_BITS with
    | .zero => ∀ i, T.POINTER_BITS ≤ i → i < 64 → ptr.getLsbD i = false
    | .ones => ptr &&& T.POINTER_MASK ≠ 0#64 ∧
        ∀ i, T.POINTER_BITS ≤ i → i < 64 → ptr.getLsbD i = true
    | .signExtend47 => ∀ i, T.POINTER_BITS ≤ i → i < 64 → ptr.getLsbD i = ptr.getLsbD 47

end TaggedPtr

/-! ### The nodes of an arena -/

/-- A unit that the class accepts; the constructor divides by it. -/
structure UnitSize where
  UNIT_BYTES : BitVec 64
  power : UNIT_BYTES &&& (UNIT_BYTES - 1#64) = 0#64
  ne_zero : UNIT_BYTES ≠ 0#64

/-- The members of `arena_tagged_ptr`. -/
structure ArenaCodec where
  base : BitVec 64
  maxIndex : BitVec 64
  indexBits : ℕ
  indexMask : BitVec 64
  counterMask : BitVec 64

namespace ArenaCodec

def MIN_COUNTER_BITS : ℕ := 16

section

variable (U : UnitSize)

/-- The constructor. -/
def new (arenaStart arenaSize : BitVec 64) : ArenaCodec :=
  let base := arenaStart &&& ~~~(U.UNIT_BYTES - 1#64)
  let maxIndex := (arenaStart + arenaSize - base) / U.UNIT_BYTES + 1#64
  let indexBits := ArenaTaggedPtr.bitsFor maxIndex.toNat
  { base, maxIndex, indexBits
    indexMask := lowMask indexBits
    counterMask := if indexBits = 0 then ~~~0#64 else ~~~0#64 >>> indexBits }

variable (A : ArenaCodec)

def counterBits : ℕ := 64 - A.indexBits

/-- What the constructor asserts. -/
def Admitted : Prop := MIN_COUNTER_BITS ≤ A.counterBits

def indexOf (ptr : BitVec 64) : BitVec 64 :=
  if ptr = 0#64 then 0#64 else (ptr - A.base) / U.UNIT_BYTES + 1#64

/-- What `index_of` asserts of a pointer. -/
def Accepts (ptr : BitVec 64) : Prop :=
  A.base ≤ ptr ∧ (ptr - A.base) &&& (U.UNIT_BYTES - 1#64) = 0#64 ∧
    (ptr - A.base) / U.UNIT_BYTES + 1#64 ≤ A.maxIndex

def pack (ptr counter : BitVec 64) : BitVec 64 :=
  (counter &&& A.counterMask) <<< A.indexBits ||| A.indexOf U ptr

def unpackPtr (value : BitVec 64) : BitVec 64 :=
  let index := value &&& A.indexMask
  if index = 0#64 then 0#64 else A.base + (index - 1#64) * U.UNIT_BYTES

def unpackCounter (value : BitVec 64) : BitVec 64 := (value >>> A.indexBits) &&& A.counterMask

/-- An arena, which from the unit that its start is in is smaller than the address space. -/
def IsArena (arenaStart arenaSize : BitVec 64) : Prop :=
  arenaStart.toNat % U.UNIT_BYTES.toNat + arenaSize.toNat < 2 ^ 64 - 1

/-- Null, or a multiple of the unit inside the arena. -/
def IsNode (arenaStart arenaSize ptr : BitVec 64) : Prop :=
  ptr = 0#64 ∨ arenaStart.toNat ≤ ptr.toNat ∧ ptr.toNat < arenaStart.toNat + arenaSize.toNat ∧
    ptr.toNat % U.UNIT_BYTES.toNat = 0

end

end ArenaCodec

end MinStd
