import HopSampler.Feature.Store
import HopSampler.Sampling.Output

/-!
# Batches

A batch is a sampled subgraph with the features and labels of its nodes and edges, row by row beside
the IDs. An assembler looks them up: node features by node type, edge features by the edge type that
was followed, labels by node ID. Types without a table or without labels are left out.

**All or nothing.** All look-ups of a batch are awaited together under one deadline, and a single
failure fails the batch.
-/

namespace HopSampler

/-- A sampled subgraph with its features and labels. -/
structure Batch where
  sample : SamplingOutput
  /-- Node features: row `i` belongs to node `i` of the type. -/
  nodeFeatures : SortedMap NodeType Matrix
  /-- Edge features: row `k` belongs to edge `k` of the listed edge type. -/
  edgeFeatures : SortedMap EdgeType Matrix
  /-- Node labels, in node order. -/
  labels : SortedMap NodeType (List Int64)

/-- Looks up what belongs to a sampled subgraph. -/
structure Assembler where
  features : Option FeatureStore := none
  labels : SortedMap NodeType (List Int64) := .empty
  device : UInt64 := 0
  deadline : Option Milliseconds := none

namespace Assembler

/-- An assembler that looks nothing up. -/
def plain : Assembler := {}

/-! ### Features -/

/-- The node types of an output that have a table, with their nodes. -/
def nodeRequests (store : FeatureStore) (out : SamplingOutput) : SortedMap NodeType (List Id) :=
  out.nodes.filter fun t _ ↦ store.contains (.node t)

/-- The listed edge types whose edge IDs are there and whose origin has a table. -/
def edgeRequests (store : FeatureStore) (out : SamplingOutput) : SortedMap EdgeType EdgeIndex :=
  out.edges.filter fun _ index ↦ index.edge.isSome && store.contains (.edge index.origin)

/-- The results for all entries of a map, awaited together. -/
def awaitAll [Tag κ] (m : SortedMap κ (Delayed α)) : Delayed (List α) :=
  .all m.size m.values

/-- Put a list of values in the place of the values of a map. -/
def refill [Tag κ] [DecidableEq κ] (m : SortedMap κ ν) (values : List α) : SortedMap κ α :=
  .ofList (m.keys.zip values)

/-- The look-ups of node features, all under way together. -/
def nodeLookups (a : Assembler) (store : FeatureStore) (out : SamplingOutput) :
    SortedMap NodeType (Delayed Matrix) :=
  (nodeRequests store out).mapEntries fun t ids ↦ store.lookup (.node t) ids a.device

/-- The look-ups of edge features, by the edge type under which they are listed. -/
def edgeLookups (a : Assembler) (store : FeatureStore) (out : SamplingOutput) :
    SortedMap EdgeType (Delayed Matrix) :=
  (edgeRequests store out).mapEntries fun _ index ↦
    store.lookup (.edge index.origin) (index.edge.getD []) a.device

/-- Node and edge features of an output. -/
def resolve (a : Assembler) (store : FeatureStore) (out : SamplingOutput) :
    Delayed (SortedMap NodeType Matrix × SortedMap EdgeType Matrix) :=
  let nodes := a.nodeLookups store out
  let edges := a.edgeLookups store out
  let both := (Delayed.both (awaitAll nodes) (awaitAll edges)).map fun (x, attr) ↦
    (refill nodes x, refill edges attr)
  match a.deadline with
  | none => both
  | some deadline => both.within deadline (.timeout .batch deadline)

/-- The features of an output; none where there are no tables. -/
def featuresOf (a : Assembler) (out : SamplingOutput) :
    Except Error (SortedMap NodeType Matrix × SortedMap EdgeType Matrix) :=
  match a.features with
  | none => .ok (.empty, .empty)
  | some store => (a.resolve store out).result

/-! ### Labels -/

/-- The labels of a list of nodes; fails at the first that has none. -/
def labelsOf (t : NodeType) (labels : Array Int64) (ids : List Id) : Except Error (List Int64) :=
  ids.mapM fun id ↦
    match labels[id.toNat]? with
    | some label => .ok label
    | none => .error (.unknownEntity (.labels t) id)

/-- Gather the labels of the nodes of one type, if it has any. -/
def addLabels (a : Assembler) (gathered : SortedMap NodeType (List Int64))
    (entry : NodeType × List Id) : Except Error (SortedMap NodeType (List Int64)) :=
  match a.labels.get? entry.1 with
  | none => .ok gathered
  | some labels => (gathered.insert entry.1 ·) <$> labelsOf entry.1 labels.toArray entry.2

/-- The labels of the nodes of an output, by type. -/
def gatherLabels (a : Assembler) (nodes : SortedMap NodeType (List Id)) :
    Except Error (SortedMap NodeType (List Int64)) :=
  nodes.entries.foldlM a.addLabels .empty

/-! ### The batch -/

/-- The batch of an output. -/
def assemble (a : Assembler) (out : SamplingOutput) : Except Error Batch := do
  let (nodeFeatures, edgeFeatures) ← a.featuresOf out
  let labels ← a.gatherLabels out.nodes
  .ok ⟨out, nodeFeatures, edgeFeatures, labels⟩

end Assembler

end HopSampler
