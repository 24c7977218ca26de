import HopSampler.Random.Mix

/-!
# The generator

A four-word shift-register generator on 32-bit words, and how its state is filled from a 64-bit
seed. The state is a plain value: each draw returns the word drawn and the state to go on with.

The register never leaves the all-zero state, so filling avoids it.
-/

namespace HopSampler.Random

/-- The four words of the shift register, oldest first. -/
structure Generator where
  x : UInt32
  y : UInt32
  z : UInt32
  w : UInt32
  deriving DecidableEq

namespace Generator

/-! ### Filling the register -/

/-- One step of the 64-bit congruential sequence that fills the register. -/
def stepSeed (seed : UInt64) : UInt64 :=
  seed * 6364136223846793005 + 11634580027462260723

/-- `word` rotated right by `by` places, `by` below 32. -/
def rotateRight (word places : UInt32) : UInt32 :=
  (word >>> places) ||| (word <<< ((32 - places) % 32))

/-- The word read off one state of the congruential sequence: its upper half is folded down and
rotated by its top five bits. -/
def seedWord (seed : UInt64) : UInt32 :=
  rotateRight (((seed >>> 18) ^^^ seed) >>> 27).toUInt32 (seed >>> 59).toUInt32

/-- The word that stands in for every word of an all-zero register. -/
def fallbackWord : UInt32 := 0x0BAD5EED

/-- The generator filled from `seed`. -/
def ofSeed (seed : UInt64) : Generator :=
  let s₁ := stepSeed seed
  let s₂ := stepSeed s₁
  let s₃ := stepSeed s₂
  let s₄ := stepSeed s₃
  let filled : Generator := ⟨seedWord s₁, seedWord s₂, seedWord s₃, seedWord s₄⟩
  if filled = ⟨0, 0, 0, 0⟩ then ⟨fallbackWord, fallbackWord, fallbackWord, fallbackWord⟩
  else filled

/-! ### Drawing words -/

/-- Shift the register by one word; the new word is the one drawn. -/
def next32 (g : Generator) : UInt32 × Generator :=
  let t := g.x ^^^ (g.x <<< 11)
  let w := g.w ^^^ (g.w >>> 19) ^^^ t ^^^ (t >>> 8)
  (w, ⟨g.y, g.z, g.w, w⟩)

/-- Two draws make a 64-bit word, the low half first. -/
def next64 (g : Generator) : UInt64 × Generator :=
  let (low, g) := g.next32
  let (high, g) := g.next32
  (high.toUInt64 <<< 32 ||| low.toUInt64, g)

end Generator

/-- The stream named by `parts` under `seed`. -/
def stream (seed : UInt64) (parts : List UInt64) : Generator :=
  Generator.ofSeed (deriveSeed seed parts)

end HopSampler.Random
