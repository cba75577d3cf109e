import MinStd.LinearEngine

/-!
# `xoroshiro128_plus_plus`

The engine's 128-bit state is two words, and drawing a value moves it one step on.  `fork` hands
out the engine as it stands and jumps ahead.
-/

namespace MinStd.Xoroshiro

def rotl (x : BitVec 64) (shift : ℕ) : BitVec 64 :=
  let rotation := shift % 64
  if rotation = 0 then x else x <<< rotation ||| x >>> (64 - rotation)

@[ext]
structure SeedType where
  low : BitVec 64
  high : BitVec 64
  deriving DecidableEq

def nextValueInternal (state : SeedType) : BitVec 64 × SeedType :=
  let s0 := state.low
  let result := rotl (s0 + state.high) 17 + s0
  let s1 := state.high ^^^ s0
  (result, ⟨rotl s0 49 ^^^ s1 ^^^ s1 <<< 21, rotl s1 28⟩)

/-- The engine after one value is drawn. -/
def next (state : SeedType) : SeedType := (nextValueInternal state).2

/-- The value drawn after `i` others. -/
def output (state : SeedType) (i : ℕ) : BitVec 64 := (nextValueInternal (next^[i] state)).1

def JUMP : List (BitVec 64) := [0x2bd7a6a6e99c2ddc, 0x0992ccaf6a6fca05]

/-- A turn of the inner loop of `fork`, on the sum so far and the state stepped so far. -/
def jumpBit (word : BitVec 64) (a : SeedType × SeedType) (b : ℕ) : SeedType × SeedType :=
  (if word &&& 1#64 <<< b ≠ 0 then ⟨a.1.low ^^^ a.2.low, a.1.high ^^^ a.2.high⟩ else a.1, next a.2)

def jumpWord (a : SeedType × SeedType) (word : BitVec 64) : SeedType × SeedType :=
  (List.range 64).foldl (jumpBit word) a

/-- The child, and the state this engine is left in. -/
def fork (state : SeedType) : SeedType × SeedType := (state, (JUMP.foldl jumpWord (⟨0, 0⟩, state)).1)

end MinStd.Xoroshiro
