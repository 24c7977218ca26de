import HopSampler.Feature.Store
import HopSampler.Graph

/-!
# Datasets

What an ingestion step hands over: edge lists, node counts where they are declared, feature tables
and node labels. `Dataset.graph` and `Dataset.features` make the graph and the feature store of it.

An edge list without edge IDs numbers its edges by position, and a table without IDs its rows. Where
two edge lists or two edge tables have the same type, the later one counts.
-/

namespace HopSampler

instance [Tag κ] [BEq κ] [BEq ν] : BEq (SortedMap κ ν) where
  beq m n := m.entries == n.entries

/-- The edges of one type. -/
structure EdgeList where
  type : EdgeType
  sources : List Id
  targets : List Id
  edgeIds : Option (List Id)
  placement : Placement
  deriving BEq

/-- The rows of a feature table and how they are to be kept. -/
structure TableData where
  ids : Option (List Id)
  rows : List Row
  splitRatio : Float
  cold : Placement
  deriving BEq

/-- The feature table of an edge type. -/
structure EdgeTable where
  type : EdgeType
  table : TableData
  deriving BEq

/-- Edges, features and labels of a graph. -/
structure Dataset where
  nodeCounts : SortedMap NodeType UInt64
  edges : List EdgeList
  nodeFeatures : SortedMap NodeType TableData
  edgeFeatures : List EdgeTable
  nodeLabels : SortedMap NodeType (List Int64)
  deriving BEq

namespace TableData

/-- The width of the table: that of its first row. -/
def width (t : TableData) : Nat := (t.rows.head?.map (·.length)).getD 0

/-- The length of the first row that is not as wide as the table. -/
def oddWidth (t : TableData) : Nat :=
  ((t.rows.find? (·.length ≠ t.width)).map (·.length)).getD t.width

/-- Rows of one width have that many values each. -/
theorem length_flatten {rows : List Row} {width : Nat} (h : ∀ row ∈ rows, row.length = width) :
    rows.flatten.length = rows.length * width := by
  rw [List.length_flatten, List.map_congr_left h, List.map_const', List.sum_replicate_nat]

/-- The values of all rows as a matrix; fails at the first row of another width. -/
def matrix (t : TableData) : Except Error Matrix :=
  if h : ∀ row ∈ t.rows, row.length = t.width then
    .ok (.ofValues t.rows.length t.width t.rows.flatten (length_flatten h))
  else .error (.width t.width t.oddWidth)

/-- The map from IDs to rows. -/
def idMap (t : TableData) : Except Error IdMap :=
  match t.ids with
  | none => .ok (.identity t.rows.length)
  | some ids =>
    if ids.length ≠ t.rows.length then .error (.config (.idCount ids.length t.rows.length))
    else IdMap.ofIds ids

/-- The feature table, its hot rows copied to every group. -/
def build (t : TableData) (groups : List DeviceGroup) : Except Error FeatureTable := do
  let data ← t.matrix
  let ids ← t.idMap
  let plan : FeatureTable.Plan := ⟨data, ids, t.splitRatio, groups, t.cold, none⟩
  plan.build

end TableData

namespace Dataset

/-- The topology of an edge list. -/
def topology (edges : EdgeList) : Except Error Topology :=
  (·.withPlacement edges.placement) <$>
    Topology.ofEdgeList edges.sources edges.targets edges.edgeIds

/-- The graph of the dataset. -/
def graph (d : Dataset) : Except Error Graph := do
  let declared := d.nodeCounts.entries.foldl (fun b (t, n) ↦ b.declare t n) Graph.Blueprint.empty
  let blueprint ← d.edges.foldlM
    (fun b edges ↦ (b.attach edges.type ·) <$> topology edges) declared
  blueprint.build

/-- The feature store of the dataset. -/
def features (d : Dataset) (groups : List DeviceGroup) : Except Error FeatureStore := do
  let store ← d.nodeFeatures.entries.foldlM
    (fun s (t, table) ↦ (s.register (.node t) ·) <$> table.build groups) FeatureStore.empty
  d.edgeFeatures.foldlM
    (fun s edges ↦ (s.register (.edge edges.type) ·) <$> edges.table.build groups) store

end Dataset

end HopSampler
