import HopSampler.Graph
import HopSampler.Sampling.Choice
import HopSampler.Sampling.Config
import HopSampler.Sampling.Output
import HopSampler.Sampling.Roster

/-!
# Expansion

From the seeds of a request the graph is followed hop by hop. The *frontier* of a hop are the nodes
met in the step before it: the seeds at the first hop, then whatever the last hop met for the first
time. At each hop every edge type is followed once from the frontier nodes of its source type, node
types and edge types in their order. The run ends early when a frontier is empty.

**The frontier is kept.** A node met for the first time is put behind the others of its type on the
frontier of the hop to come, and a hop starts by taking the frontier away. That the rosters would do
as well, since what they gained is the frontier, is a theorem about the walk (`Walk.Begins`).

**Listing comes after.** An expansion says which edges were followed under which edge type and at
which hop. How they are listed, under which type and in which direction, is decided on the finished
expansion by `present`, and the walk does not depend on it.
-/

-- Sums start from the numeral, also where zero comes with more structure.
attribute [local instance (high)] Zero.ofOfNat0

namespace HopSampler

/-! ### What was followed -/

/-- An edge that was followed, by the places of its ends. -/
structure Step where
  source : Nat
  target : Nat
  edge : Id
  deriving DecidableEq

/-- The edges of one type followed at one hop. -/
structure Block where
  hop : Nat
  type : EdgeType
  steps : List Step
  deriving DecidableEq

/-- What a walk has come to. -/
structure Expansion where
  rosters : Rosters
  /-- How many nodes of each type were met by the seeds, then by each hop that was taken. -/
  marks : List (SortedMap NodeType Nat)
  /-- The edges followed, in order. -/
  blocks : List Block

/-- A walk under way. -/
structure Walk extends Expansion where
  /-- The nodes met since the last hop began, by type. -/
  frontier : SortedMap NodeType (List Id)

namespace Walk

/-- The walk that has met only the seeds. -/
def ofSeeds (seeds : Rosters) : Walk where
  rosters := seeds
  marks := [seeds.sizes]
  blocks := []
  frontier := (seeds.mapEntries fun _ roster ↦ roster.ids.toList).filter fun _ ids ↦ ids ≠ []

/-! ### Following one edge type -/

/-- Meet a node: its place, and the walk with the node on the frontier if it is new. -/
def claim (w : Walk) (t : NodeType) (id : Id) : Nat × Walk :=
  let roster := w.rosters.roster t
  let (place, claimed) := roster.claim id
  (place, { w with
    rosters := w.rosters.insert t claimed
    frontier :=
      if roster.place? id = none then w.frontier.alter t [] (· ++ [id]) else w.frontier })

/-- Follow the arcs of one node. -/
def followNode (w : Walk) (target : NodeType) (source : Nat) (arcs : List Arc) :
    List Step × Walk :=
  match arcs with
  | [] => ([], w)
  | arc :: rest =>
    let (place, w) := w.claim target arc.target
    let (steps, w) := w.followNode target source rest
    (⟨source, place, arc.edge⟩ :: steps, w)

/-- Follow the arcs of nodes, each from its place. A node without one is passed over. -/
def followNodes (w : Walk) (e : EdgeType) (picks : List (Id × List Arc)) : List Step × Walk :=
  match picks with
  | [] => ([], w)
  | (node, arcs) :: rest =>
    match (w.rosters.roster e.source).place? node with
    | none => w.followNodes e rest
    | some source =>
      let (steps, w) := w.followNode e.target source arcs
      let (more, w) := w.followNodes e rest
      (steps ++ more, w)

/-- Follow an edge type. -/
def follow (w : Walk) (hop : Nat) (e : EdgeType) (picks : List (Id × List Arc)) : Walk :=
  let (steps, w) := w.followNodes e picks
  { w with blocks := w.blocks ++ [⟨hop, e, steps⟩] }

end Walk

namespace Expansion

/-! ### One hop -/

/-- What a walk goes by. -/
structure Rules where
  graph : Graph
  budgets : Budgets
  replace : Bool
  seed : UInt64

namespace Rules

/-- The position of an edge type among all. -/
def ordinal (rules : Rules) (e : EdgeType) : Nat := rules.graph.edgeTypes.idxOf e

/-- The arcs followed from a node. Every hop, edge type and node has a random stream of its own. -/
def pick (rules : Rules) (hop : Nat) (e : EdgeType) (topology : Topology) (node : Id) :
    Except Error (List Arc) :=
  match topology.neighbors? node with
  | none => .error (.unknownNode (.edges e) node topology.numNodes)
  | some arcs =>
    .ok (chooseArcs arcs (rules.budgets.budget e hop) rules.replace
      (Random.stream rules.seed [hop.toUInt64, (rules.ordinal e).toUInt64, node]))

end Rules

end Expansion

namespace Walk

open Expansion (Rules)

/-- Follow one edge type from the given nodes, unless it has no budget. -/
def expandType (rules : Rules) (hop : Nat) (nodes : List Id) (w : Walk)
    (typed : EdgeType × Topology) : Except Error Walk :=
  let (e, topology) := typed
  if rules.budgets.budget e hop = 0 then .ok w
  else (fun picks ↦ w.follow hop e (nodes.zip picks)) <$> nodes.mapM (rules.pick hop e topology)

/-- Follow every edge type that leaves the given nodes of one type. -/
def expandNodes (rules : Rules) (hop : Nat) (w : Walk) (front : NodeType × List Id) :
    Except Error Walk :=
  (rules.graph.edgeTypesFrom front.1).foldlM (expandType rules hop front.2) w

/-- One hop from the frontier, and the mark after it. -/
def expandHop (rules : Rules) (hop : Nat) (w : Walk) : Except Error Walk :=
  (fun w ↦ { w with marks := w.marks ++ [w.rosters.sizes] }) <$>
    w.frontier.entries.foldlM (expandNodes rules hop) { w with frontier := .empty }

/-! ### The walk -/

/-- Go on for `remaining` hops from the given one. -/
def expandFrom (rules : Rules) (hop : Nat) (w : Walk) : Nat → Except Error Walk
  | 0 => .ok w
  | remaining + 1 =>
    if w.frontier.entries = [] then .ok w
    else do
      let w ← expandHop rules hop w
      expandFrom rules (hop + 1) w remaining

end Walk

namespace Expansion

/-- The walk from the seeds. -/
def run (rules : Rules) (seeds : Rosters) : Except Error Expansion :=
  (·.toExpansion) <$> Walk.expandFrom rules 0 (.ofSeeds seeds) rules.budgets.numHops

/-! ### Listing -/

/-- The type under which an edge type that was followed is listed. -/
def listedUnder (layout : EdgeLayout) (e : EdgeType) : EdgeType :=
  match layout with
  | .traversal => e
  | .messagePassing => if e.IsHomogeneous then e else e.reverse

/-- The edges of a block as listed. -/
def listing (layout : EdgeLayout) (withEdge : Bool) (block : Block) : EdgeIndex :=
  let sources := block.steps.map (·.source)
  let targets := block.steps.map (·.target)
  let edge := if withEdge then some (block.steps.map (·.edge)) else none
  match layout with
  | .traversal => ⟨sources, targets, edge, block.type⟩
  | .messagePassing => ⟨targets, sources, edge, block.type⟩

/-- Put more edges behind those listed; the origin stays that of the first. -/
def append (listed more : EdgeIndex) : EdgeIndex where
  row := listed.row ++ more.row
  col := listed.col ++ more.col
  edge := match listed.edge, more.edge with
    | some a, some b => some (a ++ b)
    | _, _ => none
  origin := listed.origin

/-- List a block after those before it. -/
def list (layout : EdgeLayout) (withEdge : Bool) (listed : SortedMap EdgeType EdgeIndex)
    (block : Block) : SortedMap EdgeType EdgeIndex :=
  let key := listedUnder layout block.type
  let more := listing layout withEdge block
  match listed.get? key with
  | none => listed.insert key more
  | some before => listed.insert key (append before more)

/-- All edges, by the type they are listed under. -/
def edges (x : Expansion) (layout : EdgeLayout) (withEdge : Bool) :
    SortedMap EdgeType EdgeIndex :=
  x.blocks.foldl (list layout withEdge) .empty

/-- Nodes of a type met by the seeds and by each of `hops` hops, none at hops that were not
taken. -/
def nodeCountsOf (x : Expansion) (hops : Nat) (t : NodeType) : List Nat :=
  (List.range (hops + 1)).map fun step ↦
    match x.marks[step]? with
    | none => 0
    | some mark =>
      let before := if step = 0 then 0 else ((x.marks[step - 1]?).map (·.getD t 0)).getD 0
      mark.getD t 0 - before

/-- Edges listed under a type at each of `hops` hops. -/
def edgeCountsOf (x : Expansion) (layout : EdgeLayout) (hops : Nat) (key : EdgeType) : List Nat :=
  (List.range hops).map fun hop ↦
    ((x.blocks.filter fun b ↦ b.hop = hop ∧ listedUnder layout b.type = key).map
      (·.steps.length)).sum

/-- The output of a walk. -/
def present (x : Expansion) (layout : EdgeLayout) (withEdge : Bool) (hops : Nat)
    (metadata : Metadata) : SamplingOutput :=
  let edges := x.edges layout withEdge
  { nodes := x.rosters.mapEntries fun _ roster ↦ roster.ids.toList
    edges := edges
    nodeCounts := x.rosters.mapEntries fun t _ ↦ x.nodeCountsOf hops t
    edgeCounts := edges.mapEntries fun key _ ↦ x.edgeCountsOf layout hops key
    metadata := metadata }

end Expansion

end HopSampler
