import HopSampler.Random.Subset
import HopSampler.Topology

/-!
# Choosing neighbours

Which arcs of a node are followed under a budget. With replacement, as many draws as the budget
says, each any of the arcs. Without, all arcs in order where the budget covers them, else that many
distinct ones, in order.
-/

namespace HopSampler

/-- The arcs at the given positions. -/
def arcsAt (arcs : Array Arc) (positions : List Nat) : List Arc :=
  positions.filterMap (arcs[·]?)

/-- `count` positions below `size`, each drawn anew. -/
def drawPositions (size : Nat) : Nat → Random.Generator → List Nat
  | 0, _ => []
  | count + 1, g =>
    let (position, g) := Random.below .full size g
    position :: drawPositions size count g

/-- The arcs that are followed. -/
def chooseArcs (arcs : Array Arc) (budget : Nat) (replace : Bool) (g : Random.Generator) :
    List Arc :=
  if arcs.size = 0 then []
  else if replace then arcsAt arcs (drawPositions arcs.size budget g)
  else if h : arcs.size ≤ budget then arcs.toList
  else arcsAt arcs (Random.subset arcs.size budget (Nat.le_of_not_le h) g).1

end HopSampler
