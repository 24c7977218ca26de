import HopSampler.SortedMap

/-!
# Sampling outputs

A sampled subgraph: the IDs of its nodes per node type, its edges per edge type as pairs of
positions among those nodes, and how many of each were added at every hop. The positions of the
seeds ride along as `Metadata`.
-/

-- Sums start from the numeral, also where zero comes with more structure.
attribute [local instance (high)] Zero.ofOfNat0

namespace HopSampler

/-- The edges listed under one edge type. -/
structure EdgeIndex where
  /-- Positions among the nodes of the source type. -/
  row : List Nat
  /-- Positions among the nodes of the destination type. -/
  col : List Nat
  /-- Edge IDs, where they are asked for. -/
  edge : Option (List Id)
  /-- The edge type that was followed; edge IDs are its. -/
  origin : EdgeType
  deriving DecidableEq

namespace EdgeIndex

/-- The number of edges. -/
def size (i : EdgeIndex) : Nat := i.row.length

/-- The edges as pairs of positions. -/
def pairs (i : EdgeIndex) : List (Nat × Nat) := i.row.zip i.col

end EdgeIndex

/-- Where the seeds of a request are among the sampled nodes. -/
inductive Metadata where
  /-- Seed nodes come first. -/
  | node
  /-- Pairs, the positive ones before the negative ones, with a label each. -/
  | link (type : EdgeType) (row col : List Nat) (labels : Option (List Float32))
  /-- Pairs with `perPositive` negatives each. -/
  | triplet (type : EdgeType) (sources positives : List Nat) (perPositive : Nat)
      (negatives : List (List Nat)) (labels : Option (List Float32))

/-- A sampled subgraph. -/
structure SamplingOutput where
  nodes : SortedMap NodeType (List Id)
  edges : SortedMap EdgeType EdgeIndex
  /-- Nodes added per type: the seeds, then those of each hop. -/
  nodeCounts : SortedMap NodeType (List Nat)
  /-- Edges added per listed edge type at each hop. -/
  edgeCounts : SortedMap EdgeType (List Nat)
  metadata : Metadata

namespace SamplingOutput

/-- The sampled nodes of a type. -/
def nodesOf (o : SamplingOutput) (t : NodeType) : List Id := o.nodes.getD t []

/-- The number of sampled nodes. -/
def totalNodes (o : SamplingOutput) : Nat := (o.nodes.values.map (·.length)).sum

/-- The number of sampled edges. -/
def totalEdges (o : SamplingOutput) : Nat := (o.edges.values.map (·.size)).sum

/-- The edges listed under an edge type as pairs of IDs. -/
def idPairs (o : SamplingOutput) (e : EdgeType) : List (Id × Id) :=
  match o.edges.get? e with
  | none => []
  | some index =>
    let sources := (o.nodesOf e.source).toArray
    let targets := (o.nodesOf e.target).toArray
    index.pairs.filterMap fun (r, c) ↦
      match sources[r]?, targets[c]? with
      | some a, some b => some (a, b)
      | _, _ => none

end SamplingOutput

end HopSampler
