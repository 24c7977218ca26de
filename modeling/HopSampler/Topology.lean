import HopSampler.CompressedRows

/-!
# Topologies

The edges of one edge type, as one row of arcs per source node. An arc is a destination and the ID
of the edge that leads there. Every row is in order of destination: a row that comes in that order
is kept as it is, and any other is sorted by destination and then by edge ID.

Rows one after the other in three arrays (`CompressedRows`) are another form of the same. A topology
is taken in in that form, be it from such arrays or from a list of edges, and the arrays can be read
off it.
-/

-- Sums start from the numeral, also where zero comes with more structure.
attribute [local instance (high)] Zero.ofOfNat0

namespace HopSampler

/-- The arcs of every source node. -/
structure Topology where
  rows : Array (Array Arc)
  placement : Placement

namespace Topology

/-! ### From compressed arrays -/

/-- Compressed rows, each in an array of its own. -/
def ofCompressed (c : CompressedRows) : Topology :=
  ⟨Array.ofFn fun i : Fin c.numRows ↦ c.row i i.isLt, c.placement⟩

/-- The topology of row offsets, destinations and edge IDs. -/
def ofArrays (offsets : List Nat) (targets edges : List Id) : Except Error Topology :=
  ofCompressed <$> CompressedRows.make offsets.toArray targets.toArray edges.toArray

/-! ### From an edge list -/

/-- The topology of parallel lists of sources and destinations. Edge IDs are positions unless they
are given. -/
def ofEdgeList (sources targets : List Id) (edges? : Option (List Id)) : Except Error Topology :=
  if sources.length ≠ targets.length then
    .error (.topology (.listLengths sources.length targets.length))
  else
    let edges := edges?.getD ((List.range sources.length).map (·.toUInt64))
    if edges.length ≠ sources.length then
      .error (.topology (.edgeIdsForEdges edges.length sources.length))
    else
      ofCompressed <$> CompressedRows.ofEdges (sources.zip (List.zipWith Arc.mk targets edges))

/-! ### Reading -/

/-- The number of source nodes. -/
def numNodes (t : Topology) : Nat := t.rows.size

/-- All arcs, row by row. -/
def arcs (t : Topology) : List Arc := t.rows.toList.flatMap (·.toList)

/-- The number of edges. -/
def numEdges (t : Topology) : Nat := (t.rows.toList.map (·.size)).sum

/-- The arcs of a node; absent where the node has no row. -/
def neighbors? (t : Topology) (node : Id) : Option (Array Arc) := t.rows[node.toNat]?

/-- The number of arcs of a node. -/
def degree? (t : Topology) (node : Id) : Option Nat := (t.neighbors? node).map (·.size)

/-- Whether one of `count` arcs, the first of which is at `start`, leads to `target`. The arcs are
in order of destination, so one comparison with the middle one settles half of them. -/
def searchFrom (row : Array Arc) (target : Id) (start count : Nat) : Bool :=
  if count = 0 then false
  else
    match row[start + count / 2]? with
    | none => false
    | some middle =>
      if middle.target = target then true
      else if target < middle.target then searchFrom row target start (count / 2)
      else searchFrom row target (start + count / 2 + 1) (count - count / 2 - 1)
termination_by count

/-- Whether an edge leads from `source` to `target`. -/
def hasEdge (t : Topology) (source target : Id) : Bool :=
  match t.neighbors? source with
  | none => false
  | some row => searchFrom row target 0 row.size

/-- The greatest destination. -/
def maxTarget? (t : Topology) : Option Id := (t.arcs.map (·.target)).max?

/-- The greatest number of arcs of a node. -/
def maxDegree (t : Topology) : Nat := t.rows.foldl (fun m row ↦ max m row.size) 0

/-- Running totals of a list of sizes, from `start`. -/
def offsetsFrom (start : Nat) : List Nat → List Nat
  | [] => [start]
  | n :: rest => start :: offsetsFrom (start + n) rest

/-- Where each row starts among all arcs, and where the last one ends. -/
def offsets (t : Topology) : List Nat := offsetsFrom 0 (t.rows.toList.map (·.size))

/-! ### Changing -/

/-- The same edges, kept elsewhere. -/
def withPlacement (t : Topology) (placement : Placement) : Topology := { t with placement }

/-- The same edges with empty rows added, so that there are at least `count`. -/
def padTo (t : Topology) (count : Nat) : Topology :=
  { t with rows := t.rows ++ Array.replicate (count - t.rows.size) #[] }

end Topology

end HopSampler
