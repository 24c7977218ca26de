/-!
# Seed mixing

Every random stream of the library starts from a 64-bit seed, and every seed is derived from a root
seed and a list of words naming what the stream is for: a hop, an edge type and a node, or an epoch
and a batch. `deriveSeed` folds the words in one at a time through `mix`, a finaliser on 64-bit
words.

**No draw order is shared.** Because a stream is named by its words alone, two streams never depend
on which of them was used first, so work can be done in any order, or not at all, without changing
what another stream yields.
-/

namespace HopSampler.Random

/-! ### The finaliser -/

/-- Step a word by the golden-ratio increment, then scatter it by two multiply rounds and a last
shift. Each step is invertible on 64-bit words. -/
def mix (word : UInt64) : UInt64 :=
  let z := word + 0x9E3779B97F4A7C15
  let z := (z ^^^ (z >>> 30)) * 0xBF58476D1CE4E5B9
  let z := (z ^^^ (z >>> 27)) * 0x94D049BB133111EB
  z ^^^ (z >>> 31)

/-! ### Seeds by name -/

/-- The seed of the stream named by `parts` under the root `seed`. -/
def deriveSeed (seed : UInt64) (parts : List UInt64) : UInt64 :=
  parts.foldl (fun acc part ↦ mix (acc ^^^ part)) (mix seed)

@[simp] theorem deriveSeed_nil (seed : UInt64) : deriveSeed seed [] = mix seed := rfl

end HopSampler.Random
