import HopSampler.Checked
import HopSampler.SortedMap
import HopSampler.Topology

/-!
# Heterogeneous graphs

A graph has a number of nodes for every node type and a topology for every edge type. It is made
from declarations: `Blueprint` collects node counts and topologies in any order, a later one
replacing an earlier one for the same type, and `Blueprint.build` settles the counts.

**Every node has a row.** A count that is not declared is the least that covers the rows and the
destinations seen; where no word holds that, there is no graph. Each topology is then padded to the
count of its source type, so a node without edges and a node out of range are told apart everywhere.
-/

-- Sums start from the numeral, also where zero comes with more structure.
attribute [local instance (high)] Zero.ofOfNat0

namespace HopSampler

/-- Node counts by node type and topologies by edge type. -/
structure Graph where
  nodeCounts : SortedMap NodeType UInt64
  topologies : SortedMap EdgeType Topology

namespace Graph

/-! ### Reading -/

/-- Node types, in order. -/
def nodeTypes (g : Graph) : List NodeType := g.nodeCounts.keys

/-- Edge types, in order. -/
def edgeTypes (g : Graph) : List EdgeType := g.topologies.keys

/-- The edge types that leave a node type, in order, with their topologies. -/
def edgeTypesFrom (g : Graph) (t : NodeType) : List (EdgeType × Topology) :=
  g.topologies.entries.filter (·.1.source = t)

/-- Whether a node type is registered. -/
def hasNodeType (g : Graph) (t : NodeType) : Bool := g.nodeCounts.contains t

/-- The number of nodes of a type. -/
def numNodes (g : Graph) (t : NodeType) : Except Error UInt64 :=
  match g.nodeCounts.get? t with
  | some n => .ok n
  | none => .error (.unknownNodeType t)

/-- The topology of an edge type. -/
def topology (g : Graph) (e : EdgeType) : Except Error Topology :=
  match g.topologies.get? e with
  | some topology => .ok topology
  | none => .error (.unknownEdgeType e)

/-- The number of edges of a type. -/
def numEdges (g : Graph) (e : EdgeType) : Except Error Nat := (·.numEdges) <$> g.topology e

/-- Succeeds where `id` is a node of type `t`. -/
def checkNode (g : Graph) (t : NodeType) (id : Id) : Except Error Unit := do
  let count ← g.numNodes t
  if id < count then .ok () else .error (.unknownNode (.nodes t) id count.toNat)

/-- The arcs of a node under an edge type. -/
def neighbors (g : Graph) (e : EdgeType) (node : Id) : Except Error (Array Arc) := do
  let topology ← g.topology e
  match topology.neighbors? node with
  | some row => .ok row
  | none => .error (.unknownNode (.edges e) node topology.numNodes)

/-- The number of arcs of a node under an edge type. -/
def degree (g : Graph) (e : EdgeType) (node : Id) : Except Error Nat :=
  (·.size) <$> g.neighbors e node

/-- The number of nodes of all types. -/
def totalNodes (g : Graph) : Except Error UInt64 := checked (g.nodeCounts.values.map (·.toNat)).sum

/-- The number of edges of all types. -/
def totalEdges (g : Graph) : Nat := (g.topologies.values.map (·.numEdges)).sum

/-! ### Declarations -/

/-- Declared node counts and topologies. -/
structure Blueprint where
  declared : SortedMap NodeType UInt64
  topologies : SortedMap EdgeType Topology

namespace Blueprint

/-- Nothing declared. -/
def empty : Blueprint := ⟨.empty, .empty⟩

/-- Declare the number of nodes of a type. -/
def declare (b : Blueprint) (t : NodeType) (count : UInt64) : Blueprint :=
  { b with declared := b.declared.insert t count }

/-- Give the topology of an edge type. -/
def attach (b : Blueprint) (e : EdgeType) (topology : Topology) : Blueprint :=
  { b with topologies := b.topologies.insert e topology }

/-- The nodes a topology needs at its destination: one more than the greatest. -/
def targetsSeen (topology : Topology) : Nat :=
  match topology.maxTarget? with
  | none => 0
  | some id => id.toNat + 1

/-- Take the nodes that a topology needs into the counts. -/
def see (counts : SortedMap NodeType UInt64) (a : EdgeType × Topology) :
    Except Error (SortedMap NodeType UInt64) := do
  let rows ← checked a.2.numNodes
  let targets ← checked (targetsSeen a.2)
  .ok ((counts.alter a.1.source 0 (max · rows)).alter a.1.target 0 (max · targets))

/-- The counts that the topologies need. -/
def seen (b : Blueprint) : Except Error (SortedMap NodeType UInt64) :=
  b.topologies.entries.foldlM see .empty

/-- The counts, declared ones first; fails at the first declared one, in type order, that is too
small. -/
def settleCounts (seen : SortedMap NodeType UInt64) :
    List (NodeType × UInt64) → Except Error (SortedMap NodeType UInt64)
  | [] => .ok seen
  | (t, count) :: rest =>
    let needed := seen.getD t 0
    if count < needed then .error (.topology (.tooFewNodes t count needed))
    else settleCounts (seen.insert t count) rest

/-- Settle the counts and pad every topology to the count of its source type. -/
def build (b : Blueprint) : Except Error Graph := do
  let seen ← b.seen
  let counts ← settleCounts seen b.declared.entries
  .ok ⟨counts, b.topologies.mapEntries fun e topology ↦
    topology.padTo (counts.getD e.source 0).toNat⟩

end Blueprint

/-! ### Statistics -/

/-- Counts of a graph, listed by the text of each type. -/
structure Stats where
  nodeTypes : Nat
  edgeTypes : Nat
  totalNodes : UInt64
  totalEdges : Nat
  nodesByType : SortedMap String UInt64
  edgesByType : SortedMap String Nat
  maxDegreeByType : SortedMap String Nat

/-- The counts of a graph. -/
def stats (g : Graph) : Except Error Stats := do
  let totalNodes ← g.totalNodes
  .ok {
    nodeTypes := g.nodeCounts.size
    edgeTypes := g.topologies.size
    totalNodes
    totalEdges := g.totalEdges
    nodesByType := .ofList (g.nodeCounts.entries.map fun (t, n) ↦ (t.text, n))
    edgesByType := .ofList (g.topologies.entries.map fun (e, t) ↦ (e.text, t.numEdges))
    maxDegreeByType := .ofList (g.topologies.entries.map fun (e, t) ↦ (e.text, t.maxDegree)) }

end Graph

end HopSampler
