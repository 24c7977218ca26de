import HopSampler.Dataset.Codec
import HopSampler.Loading.Batch

/-!
# Reports

What a command prints: the counts of a graph as a table, a sampled subgraph as an indented JSON
object, the totals of an epoch as lines.

In a subgraph an edge type is a key: its three names joined by double underscores. All objects are
listed by key.
-/

namespace HopSampler.CommandLine

/-! ### Text -/

/-- A text padded on the right with blanks to a width. -/
def padRight (width : Nat) (s : String) : String :=
  s ++ String.ofList (List.replicate (width - s.length) ' ')

/-- A text padded on the left with blanks to a width. -/
def padLeft (width : Nat) (s : String) : String :=
  String.ofList (List.replicate (width - s.length) ' ') ++ s

/-- Lines, each ended. -/
def lines (ls : List String) : String := String.join (ls.map (· ++ "\n"))

/-- The counts of a graph. -/
def statsText (s : Graph.Stats) : String :=
  lines <|
    ["Graph Statistics", "================",
      "Node types:     " ++ toString s.nodeTypes,
      "Edge types:     " ++ toString s.edgeTypes,
      "Nodes:          " ++ toString s.totalNodes.toNat,
      "Edges:          " ++ toString s.totalEdges, "", "Nodes by type:"] ++
    (s.nodesByType.entries.map fun (t, n) ↦ "  " ++ padRight 20 t ++ " " ++ toString n.toNat) ++
    ["", "Edges by type:"] ++
    s.edgesByType.entries.map fun (e, n) ↦
      "  " ++ padRight 30 e ++ " " ++ padLeft 8 (toString n) ++ "  max degree " ++
        toString (s.maxDegreeByType.getD e 0)

/-! ### Subgraphs -/

/-- An edge type as a key. -/
def edgeKey (e : EdgeType) : String :=
  e.source.name ++ "__" ++ e.relation ++ "__" ++ e.target.name

/-- An object listed by key; of repeated keys the last counts. -/
def sorted (fields : List (String × Json)) : Json := .object (SortedMap.ofList fields).entries

/-- A map by node type as an object. -/
def byNode (f : ν → Json) (m : SortedMap NodeType ν) : Json :=
  sorted (m.entries.map fun (t, v) ↦ (t.name, f v))

/-- A map by edge type as an object. -/
def byEdge (f : ν → Json) (m : SortedMap EdgeType ν) : Json :=
  sorted (m.entries.map fun (e, v) ↦ (edgeKey e, f v))

/-- Numbers as a list. -/
def naturals (items : List Nat) : Json := .ofList .ofNat items

/-- Labels as a list of doubles. -/
def labels (l : Option (List Float32)) : Json :=
  .ofOption (.ofList fun x : Float32 ↦ .ofFloat x.toFloat) l

/-- The edges listed under an edge type. -/
def edgesJson (i : EdgeIndex) : Json :=
  sorted ([("origin", .string (edgeKey i.origin)), ("row", naturals i.row),
    ("col", naturals i.col)] ++ (i.edge.toList.map fun ids ↦ ("edge", .ofList .ofWord ids)))

/-- Where the seeds are. -/
def metadataJson : Metadata → Json
  | .node => sorted [("kind", .string "node")]
  | .link e row col l => sorted [("kind", .string "link"), ("input_type", .string (edgeKey e)),
      ("edge_label_index", .array [naturals row, naturals col]), ("edge_label", labels l)]
  | .triplet e sources positives _ negatives l => sorted [("kind", .string "triplet"),
      ("input_type", .string (edgeKey e)), ("src_index", naturals sources),
      ("dst_pos_index", naturals positives), ("dst_neg_index", .ofList naturals negatives),
      ("edge_label", labels l)]

/-- The height and width of a matrix. -/
def shape (m : Matrix) : Json := naturals [m.height, m.width]

/-- The shapes of the features and labels of a batch. -/
def shapes (b : Batch) : Json :=
  sorted [("x", byNode shape b.nodeFeatures), ("edge_attr", byEdge shape b.edgeFeatures),
    ("y", byNode (fun l : List Int64 ↦ .ofNat l.length) b.labels)]

/-- A sampled subgraph, with the shapes of its features where they were resolved. -/
def summary (o : SamplingOutput) (batch : Option Batch) : Json :=
  sorted ([("node", byNode (.ofList .ofWord) o.nodes), ("edges", byEdge edgesJson o.edges),
    ("num_sampled_nodes", byNode naturals o.nodeCounts),
    ("num_sampled_edges", byEdge naturals o.edgeCounts), ("metadata", metadataJson o.metadata)] ++
    batch.toList.map fun b ↦ ("features", shapes b))

/-! ### Reports -/

/-- What a command has to say. -/
inductive Report where
  | written (path : String) (count degree : UInt64)
  | stats (stats : Graph.Stats)
  | subgraph (output : SamplingOutput) (batch : Option Batch)
  /-- An epoch, the time it took being known to whoever ran it. -/
  | epoch (number : UInt64) (batches nodes edges : Nat)

/-- A report as text, with the given text for the time that was taken. -/
def Report.text (elapsed : String) : Report → String
  | .written path count degree =>
    lines ["Wrote ring dataset (" ++ toString count.toNat ++ " nodes per type, degree " ++
      toString degree.toNat ++ ") to " ++ path]
  | .stats s => statsText s
  | .subgraph o batch => lines [(summary o batch).pretty]
  | .epoch number batches nodes edges =>
    lines ["Epoch " ++ toString number.toNat ++ ": " ++ toString batches ++ " batches in " ++
        elapsed, "Sampled nodes:  " ++ toString nodes, "Sampled edges:  " ++ toString edges]

end HopSampler.CommandLine
