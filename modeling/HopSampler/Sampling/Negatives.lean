import HopSampler.Random.Range
import HopSampler.Topology

/-!
# Negatives

A negative for a pair keeps its source and takes a destination that is drawn at random. A candidate
that is a true neighbour of the source is drawn again, a bounded number of times. When all
candidates were true neighbours the last one that at least differs from the positive is taken, or
the positive itself where there is none, and the negative counts as exhausted.
-/

namespace HopSampler

/-- A destination drawn as a negative. -/
structure Negative where
  id : Id
  /-- Every candidate was a true neighbour. -/
  exhausted : Bool
  deriving DecidableEq

/-- How many negatives were drawn and how many of them were exhausted. -/
structure Tally where
  drawn : Nat
  exhausted : Nat
  deriving DecidableEq

namespace Tally

/-- Nothing drawn. -/
def zero : Tally := ⟨0, 0⟩

/-- Both together. -/
def add (a b : Tally) : Tally := ⟨a.drawn + b.drawn, a.exhausted + b.exhausted⟩

/-- The count of a list of negatives. -/
def ofNegatives (negatives : List Negative) : Tally :=
  ⟨negatives.length, negatives.countP (·.exhausted)⟩

end Tally

/-- The counters that a sampler shares between requests. They are words and go round. -/
structure Counters where
  drawn : UInt64
  exhausted : UInt64
  deriving DecidableEq

namespace Counters

/-- Nothing counted. -/
def zero : Counters := ⟨0, 0⟩

/-- Count the negatives of a tally. -/
def add (c : Counters) (t : Tally) : Counters :=
  ⟨c.drawn + t.drawn.toUInt64, c.exhausted + t.exhausted.toUInt64⟩

end Counters

/-- Draws destinations of one edge type. -/
structure NegativeSampler where
  topology : Topology
  /-- The number of destinations, at least one. -/
  targets : UInt64
  /-- Candidates per negative, at least one. -/
  attempts : Nat

namespace NegativeSampler

/-- A sampler over the first `targets` destinations; there is one at least. -/
def make (topology : Topology) (targets attempts : UInt64) : Except Error NegativeSampler :=
  if targets = 0 then .error (.input .noDestinations)
  else .ok ⟨topology, targets, max attempts.toNat 1⟩

/-- One candidate. -/
def candidate (s : NegativeSampler) (g : Random.Generator) : Id × Random.Generator :=
  let (n, g) := Random.below .full s.targets.toNat g
  (n.toUInt64, g)

/-- Draw up to the given number of candidates. `fallback` is the last one so far that differs from
the positive, and `last` the last one. -/
def drawFrom (s : NegativeSampler) (source positive : Id) (fallback : Option Id) (last : Id) :
    Nat → Random.Generator → Negative × Random.Generator
  | 0, g => (⟨fallback.getD last, true⟩, g)
  | attempts + 1, g =>
    let (c, g) := s.candidate g
    if s.topology.hasEdge source c then
      drawFrom s source positive (if c = positive then fallback else some c) c attempts g
    else (⟨c, false⟩, g)

/-- One negative for a pair. -/
def draw (s : NegativeSampler) (source positive : Id) (g : Random.Generator) :
    Negative × Random.Generator :=
  s.drawFrom source positive none positive s.attempts g

/-- Several negatives for a pair. -/
def drawMany (s : NegativeSampler) (source positive : Id) :
    Nat → Random.Generator → List Negative × Random.Generator
  | 0, g => ([], g)
  | amount + 1, g =>
    let (negative, g) := s.draw source positive g
    let (more, g) := drawMany s source positive amount g
    (negative :: more, g)

/-- The same number of negatives for each pair, pair by pair. -/
def drawForPairs (s : NegativeSampler) (amount : Nat) :
    List (Id × Id) → Random.Generator → List Negative × Random.Generator
  | [], g => ([], g)
  | (source, positive) :: pairs, g =>
    let (negatives, g) := s.drawMany source positive amount g
    let (more, g) := drawForPairs s amount pairs g
    (negatives ++ more, g)

end NegativeSampler

end HopSampler
