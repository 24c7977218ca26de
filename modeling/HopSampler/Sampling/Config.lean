import HopSampler.Checked

/-!
# Sampler configurations

How many neighbours are taken per node at each hop, what the output looks like, and how negatives
are drawn. Budgets are one list for all edge types or one list per edge type; an edge type that is
not listed has no budget and is not followed.
-/

namespace HopSampler

/-! ### Budgets -/

/-- Neighbours to take per node, hop by hop. -/
inductive Budgets where
  | uniform (hops : List UInt64)
  | perEdgeType (lists : List (EdgeType × List UInt64))
  deriving DecidableEq

namespace Budgets

/-- The number of hops: the length of the list, or of the first one. -/
def numHops : Budgets → Nat
  | .uniform hops => hops.length
  | .perEdgeType [] => 0
  | .perEdgeType ((_, hops) :: _) => hops.length

/-- The list for an edge type; the first one where it is listed twice. -/
def hopsOf (b : Budgets) (e : EdgeType) : List UInt64 :=
  match b with
  | .uniform hops => hops
  | .perEdgeType lists => ((lists.find? (·.1 = e)).map (·.2)).getD []

/-- Neighbours to take per node of an edge type at a hop. -/
def budget (b : Budgets) (e : EdgeType) (hop : Nat) : Nat :=
  ((b.hopsOf e)[hop]?.getD 0).toNat

/-- The edge types that are listed. -/
def edgeTypes : Budgets → List EdgeType
  | .uniform _ => []
  | .perEdgeType lists => lists.map (·.1)

/-- There is a hop, and all lists are equally long. -/
def validate (b : Budgets) : Except Error Unit :=
  if b.numHops = 0 then .error (.config .noHops)
  else
    match b with
    | .uniform _ => .ok ()
    | .perEdgeType lists =>
      match lists.find? (·.2.length ≠ b.numHops) with
      | some (e, hops) => .error (.config (.hopCount e hops.length b.numHops))
      | none => .ok ()

end Budgets

/-! ### Negatives -/

/-- What negatives are for. -/
inductive NegativeMode where
  /-- One negative per positive pair, told apart by labels. -/
  | binary
  /-- Several negatives per positive pair, listed beside it. -/
  | triplet
  deriving DecidableEq

/-- Negatives to draw for a request. -/
structure NegativeSampling where
  mode : NegativeMode
  amount : UInt64 := 1
  deriving DecidableEq

namespace NegativeSampling

/-- Negatives per positive pair. -/
def perPositive (n : NegativeSampling) : UInt64 :=
  match n.mode with
  | .binary => 1
  | .triplet => n.amount

/-- Triplets have a negative. -/
def validate (n : NegativeSampling) : Except Error Unit :=
  if n.mode = .triplet ∧ n.amount = 0 then .error (.config .noTripletAmount) else .ok ()

end NegativeSampling

/-! ### The configuration -/

/-- Which way sampled edges are listed. -/
inductive EdgeLayout where
  /-- From the node that was expanded to its neighbour, under the edge type followed. -/
  | traversal
  /-- From the neighbour back, under the reverse edge type. -/
  | messagePassing
  deriving DecidableEq

/-- The configuration of a sampler. -/
structure SamplerConfig where
  budgets : Budgets := .uniform [10, 5]
  withEdge : Bool := false
  withNegatives : Bool := false
  replace : Bool := false
  layout : EdgeLayout := .traversal
  seed : UInt64 := 42
  maxNegativeAttempts : Option UInt64 := none
  /-- The frontier size from which expansion may be spread over workers. -/
  parallelThreshold : UInt64 := 1024
  deriving DecidableEq

namespace SamplerConfig

/-- The configuration can be used. -/
def validate (c : SamplerConfig) : Except Error Unit := do
  c.budgets.validate
  if c.maxNegativeAttempts = some 0 then .error (.config .noAttempts) else .ok ()

/-- How many candidates are drawn for a negative before one is taken as it is. -/
def negativeAttempts (c : SamplerConfig) (n : NegativeSampling) : Except Error UInt64 :=
  match c.maxNegativeAttempts with
  | some attempts => .ok attempts
  | none => checked (5 * max n.perPositive.toNat 1)

end SamplerConfig

/-- The configuration of a loader. -/
structure LoaderConfig where
  batchSize : UInt64 := 512
  shuffle : Bool := false
  dropLast : Bool := false
  prefetch : UInt64 := 2
  featureTimeout : Option Milliseconds := none
  device : UInt64 := 0
  seed : UInt64 := 0
  deriving DecidableEq

namespace LoaderConfig

/-- The configuration can be used. -/
def validate (c : LoaderConfig) : Except Error Unit :=
  if c.batchSize = 0 then .error (.config .emptyBatches) else .ok ()

end LoaderConfig

end HopSampler
