import HopSampler.Dataset.Basic
import HopSampler.Json.Decode
import HopSampler.Json.Printer
import HopSampler.Json.Reader

/-!
# Dataset files

How placements, device groups and datasets are written as JSON values and read again. Every
structure is written with all its fields in order, absent ID lists left out; reading accepts more:
missing fields that have a default, fields in any order, structures given as lists.

**Edge tables are flat.** The fields of the table of an edge type stand beside the edge type itself.
Such an entry has to be an object, and all of it is read, so that nothing in it may be unusable or
nested too deeply even where it is skipped.
-/

namespace HopSampler

open Json (required defaulted optional)

/-! ### Tags -/

/-- A node type is its name. -/
def NodeType.toJson (t : NodeType) : Json := .string t.name

/-- An edge type is its three names. -/
def EdgeType.toJson (e : EdgeType) : Json :=
  .array [e.source.toJson, .string e.relation, e.target.toJson]

/-- Read a node type. -/
def NodeType.ofJson? (value : Json) : Option NodeType := value.text?.map .mk

/-- Read an edge type. -/
def EdgeType.ofJson? : Json → Option EdgeType
  | .array [source, relation, target] => do
    some ⟨← NodeType.ofJson? source, ← relation.text?, ← NodeType.ofJson? target⟩
  | _ => none

/-- A map by node type is an object. -/
def SortedMap.toJson (encode : ν → Json) (m : SortedMap NodeType ν) : Json :=
  .object (m.entries.map fun (t, v) ↦ (t.name, encode v))

/-- Read a map by node type; of repeated names the last counts. -/
def SortedMap.ofJson? (decode : Json → Option ν) (value : Json) :
    Option (SortedMap NodeType ν) :=
  (value.entries? decode).map fun entries ↦ .ofList (entries.map fun (name, v) ↦ (⟨name⟩, v))

/-! ### Placements and device groups -/

namespace Placement

/-- A placement is its name, or its name with what belongs to it. -/
def toJson : Placement → Json
  | .zeroCopy => .string "zero_copy"
  | .resident device => .object [("resident", .object [("device", .ofWord device)])]
  | .partitioned count => .object [("partitioned", .object [("num_partitions", .ofWord count)])]

/-- The one number inside a named placement. -/
def body? (field : String) (value : Json) : Option UInt64 :=
  match value.record? [field] with
  | some [number] => required Json.word? number
  | _ => none

/-- Read a placement. -/
def ofJson? : Json → Option Placement
  | .object [("resident", value)] => (body? "device" value).map .resident
  | .object [("partitioned", value)] => (body? "num_partitions" value).map .partitioned
  | value => if value.name? = some "zero_copy" then some .zeroCopy else none

/-- Read a placement whose number, if it has one, is given by name. -/
def ofNamedJson? : Json → Option Placement
  | .object [(_, .array _)] => none
  | value => ofJson? value

/-- Read a placement inside an edge table, where the bare name may also hold an empty object. -/
def ofFlatJson? : Json → Option Placement
  | .object [("zero_copy", .object [])] => some .zeroCopy
  | value => ofJson? value

end Placement

namespace DeviceGroup

/-- A group is its number and its devices. -/
def toJson (g : DeviceGroup) : Json :=
  .object [("group_id", .ofWord g.groupId), ("device_ids", .ofList .ofWord g.deviceIds)]

/-- Read a group. -/
def ofJson? (value : Json) : Option DeviceGroup :=
  match value.record? ["group_id", "device_ids"] with
  | some [groupId, deviceIds] => do
    some ⟨← required Json.word? groupId, ← required (Json.list? Json.word?) deviceIds⟩
  | _ => none

end DeviceGroup

/-! ### Edge lists -/

namespace EdgeList

/-- The fields that are absent when they hold nothing. -/
def optionalField (name : String) (encode : α → Json) : Option α → List (String × Json)
  | none => []
  | some a => [(name, encode a)]

/-- Write an edge list. -/
def toJson (e : EdgeList) : Json :=
  .object ([("edge_type", e.type.toJson), ("rows", .ofList .ofWord e.sources),
      ("cols", .ofList .ofWord e.targets)] ++
    optionalField "edge_ids" (.ofList .ofWord) e.edgeIds ++ [("placement", e.placement.toJson)])

/-- Read an edge list, its placement as the caller reads placements. -/
def ofJsonWith? (placement? : Json → Option Placement) (value : Json) : Option EdgeList :=
  match value.record? ["edge_type", "rows", "cols", "edge_ids", "placement"] with
  | some [type, rows, cols, edgeIds, placement] => do
    some ⟨← required EdgeType.ofJson? type, ← required (Json.list? Json.word?) rows,
      ← required (Json.list? Json.word?) cols, ← optional (Json.list? Json.word?) edgeIds,
      ← defaulted placement? .zeroCopy placement⟩
  | _ => none

end EdgeList

/-! ### Feature tables -/

namespace TableData

/-- The names of the fields of a table. -/
def fieldNames : List String := ["ids", "rows", "split_ratio", "cold"]

/-- The fields of a table. -/
def fields (t : TableData) : List (String × Json) :=
  EdgeList.optionalField "ids" (.ofList .ofWord) t.ids ++
    [("rows", .ofList (.ofList .ofFloat32) t.rows), ("split_ratio", .ofFloat t.splitRatio),
      ("cold", t.cold.toJson)]

/-- Write a table. -/
def toJson (t : TableData) : Json := .object t.fields

/-- Read a table off the values of its fields. -/
def ofFields? (placement? : Json → Option Placement) : List (Option Json) → Option TableData
  | [ids, rows, splitRatio, cold] => do
    some ⟨← optional (Json.list? Json.word?) ids,
      ← required (Json.list? (Json.list? Json.float32?)) rows,
      ← defaulted Json.float? 0.0 splitRatio, ← defaulted placement? .zeroCopy cold⟩
  | _ => none

/-- Read a table, its placement as the caller reads placements. -/
def ofJsonWith? (placement? : Json → Option Placement) (value : Json) : Option TableData :=
  (value.record? fieldNames).bind (ofFields? placement?)

end TableData

namespace EdgeTable

/-- How deep a field of an edge table may be nested: the whole file at most 127 levels, three of
which are around the field. -/
def greatestDepth : Nat := 124

/-- Write the table of an edge type. -/
def toJson (t : EdgeTable) : Json := .object (("edge_type", t.type.toJson) :: t.table.fields)

/-- Whether a field of an edge table can be read. -/
def isReadable (value : Json) : Bool := value.isUsable && value.depth ≤ greatestDepth

/-- Read the table of an edge type. -/
def ofJson? : Json → Option EdgeTable
  | .object fields => do
    let type ← required EdgeType.ofJson? (← Json.field? fields "edge_type")
    if fields.all fun (_, value) ↦ isReadable value then
      let table ← TableData.ofFields? Placement.ofFlatJson?
        (← TableData.fieldNames.mapM (Json.field? fields))
      some ⟨type, table⟩
    else none
  | _ => none

end EdgeTable

/-! ### Datasets -/

namespace Dataset

/-- Write a dataset. -/
def toJson (d : Dataset) : Json :=
  .object [("num_nodes", d.nodeCounts.toJson .ofWord),
    ("edges", .ofList EdgeList.toJson d.edges),
    ("node_features", d.nodeFeatures.toJson TableData.toJson),
    ("edge_features", .ofList EdgeTable.toJson d.edgeFeatures),
    ("node_labels", d.nodeLabels.toJson (.ofList .ofInt64))]

/-- Read a dataset, placements outside edge tables as the caller reads them. -/
def ofJsonWith? (placement? : Json → Option Placement) (value : Json) : Option Dataset :=
  match value.record? ["num_nodes", "edges", "node_features", "edge_features", "node_labels"] with
  | some [nodeCounts, edges, nodeFeatures, edgeFeatures, nodeLabels] => do
    some ⟨← defaulted (SortedMap.ofJson? Json.word?) .empty nodeCounts,
      ← required (Json.list? (EdgeList.ofJsonWith? placement?)) edges,
      ← defaulted (SortedMap.ofJson? (TableData.ofJsonWith? placement?)) .empty nodeFeatures,
      ← defaulted (Json.list? EdgeTable.ofJson?) [] edgeFeatures,
      ← defaulted (SortedMap.ofJson? (Json.list? Json.int64?)) .empty nodeLabels⟩
  | _ => none

/-- Read a dataset. -/
def ofJson? : Json → Option Dataset := ofJsonWith? Placement.ofJson?

/-- The text of a dataset file. -/
def text (d : Dataset) : String := d.toJson.compact

/-- The dataset of a file's text. -/
def ofText (text : String) : Except Error Dataset :=
  match (Json.ofText? text).bind ofJson? with
  | some d => .ok d
  | none => .error .json

end Dataset

end HopSampler
