import HopSampler.Random.Range

/-!
# Shuffling

A sequence is put in random order by swaps from its end: place `i` is swapped with a place drawn
from those up to `i`. Only swaps are made, so nothing is lost or repeated.
-/

namespace HopSampler.Random

/-- Swap each of the last `i` places but the first with one drawn at or before it. -/
def shuffleFrom (items : Array α) : Nat → Generator → Array α × Generator
  | 0, g => (items, g)
  | 1, g => (items, g)
  | i + 2, g =>
    let (j, g) := below (.forBound (i + 2)) (i + 2) g
    shuffleFrom (items.swapIfInBounds (i + 1) j) (i + 1) g

/-- The items in random order. -/
def shuffle (items : List α) (g : Generator) : List α × Generator :=
  let (shuffled, g) := shuffleFrom items.toArray items.length g
  (shuffled.toList, g)

end HopSampler.Random
