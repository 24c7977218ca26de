import HopSampler.Decimal.Layout
import HopSampler.Tag
import HopSampler.Text.Duration

/-!
# What can go wrong

Failures are values: one constructor per cause, holding what the cause is about. The words of a
message are chosen in one place, so a caller that has to tell two failures apart never reads text.

The three families (`ConfigFault`, `InputFault`, `TopologyFault`) are the ways in which a
configuration, a request or an edge structure can be malformed in itself. The remaining causes
relate a request to what is registered.
-/

namespace HopSampler

/-! ### What a failure is about -/

/-- The space a node ID was looked up in. -/
inductive Scope where
  | nodes (type : NodeType)
  | edges (type : EdgeType)
  /-- The nodes that a request has met. -/
  | sampled (type : NodeType)
  deriving DecidableEq

/-- What a row was looked up for. -/
inductive Entity where
  /-- A table that is in no store. -/
  | table
  | nodes (type : NodeType)
  | edges (type : EdgeType)
  | labels (type : NodeType)
  | batch
  deriving DecidableEq

/-- The space as shown in messages. -/
def Scope.text : Scope → String
  | .nodes t => t.text
  | .edges e => e.text
  | .sampled t => "sampled " ++ t.text ++ " nodes"

/-- The subject as shown in messages. -/
def Entity.text : Entity → String
  | .table => "feature"
  | .nodes t => "node " ++ t.text
  | .edges e => "edge " ++ e.text
  | .labels t => "labels " ++ t.text
  | .batch => "batch"

/-! ### Malformed configurations, requests and topologies -/

/-- A configuration that cannot be used. -/
inductive ConfigFault where
  | noHops
  | hopCount (type : EdgeType) (listed expected : Nat)
  | noAttempts
  | emptyBatches
  | noTripletAmount
  | negativesDisabled
  | placement (text : String)
  | splitRatio (ratio : Float)
  | rowOutsideTable (row rows : Nat)
  | hotWithoutGroups
  | emptyGroup (id : UInt64)
  | backingRows (held expected : Nat)
  | noPartitionCount
  | noPartitions
  | idCount (ids rows : Nat)

/-- A request that cannot be answered. -/
inductive InputFault where
  | pairLengths (rows cols : Nat)
  | labelCount (labels pairs : Nat)
  | labelsWithBinary
  | noDestinations
  | sharedRow (row : Nat) (second : Id)
  | rowOutsideBacking (row rows : Nat)
  | blockShape (rows cols expected width : Nat)
  | blockTooLarge
  | blockCount (held expected : Nat)
  deriving DecidableEq

/-- Arrays that describe no adjacency. -/
inductive TopologyFault where
  | start
  | descending
  | lastOffset (last columns : Nat)
  | edgeIdsForColumns (ids columns : Nat)
  | listLengths (rows cols : Nat)
  | edgeIdsForEdges (ids edges : Nat)
  | tooFewNodes (type : NodeType) (declared seen : UInt64)
  deriving DecidableEq

/-- Everything that can go wrong. -/
inductive Error where
  | unknownNode (scope : Scope) (id : Id) (count : Nat)
  | unknownEntity (entity : Entity) (id : Id)
  | unknownNodeType (type : NodeType)
  | unknownEdgeType (type : EdgeType)
  | timeout (entity : Entity) (deadline : Milliseconds)
  | config (fault : ConfigFault)
  | input (fault : InputFault)
  | topology (fault : TopologyFault)
  | width (expected actual : Nat)
  | duplicateId (id : Id)
  | noReplica (device : UInt64)
  | worker (message : String)
  /-- A number that no word holds. -/
  | overflow
  /-- A file that cannot be read or written. -/
  | file
  /-- Text that does not decode. -/
  | json

/-! ### Wording -/

/-- A decimal count. -/
private def num (n : Nat) : String := toString n

/-- The fault in words. -/
def ConfigFault.text : ConfigFault → String
  | .noHops => "num_neighbors must list at least one hop"
  | .hopCount e listed expected =>
    "num_neighbors for " ++ e.text ++ " lists " ++ num listed ++ " hops, expected " ++ num expected
  | .noAttempts => "max_negative_attempts must be positive"
  | .emptyBatches => "batch_size must be positive"
  | .noTripletAmount => "triplet negative sampling needs amount > 0"
  | .negativesDisabled => "negative sampling requested but with_neg is disabled"
  | .placement s => "unrecognized placement: " ++ s
  | .splitRatio r => "split_ratio " ++ (Decimal.Reading.ofFloat r).write Decimal.inMessage ++
      " outside [0, 1]"
  | .rowOutsideTable row rows =>
    "id2idx references row " ++ num row ++ " of a " ++ num rows ++ "-row table"
  | .hotWithoutGroups => "hot rows need at least one device group"
  | .emptyGroup id => "device group " ++ num id.toNat ++ " is empty"
  | .backingRows held expected =>
    "cold backing holds " ++ num held ++ " rows, expected " ++ num expected
  | .noPartitionCount => "num_partitions must be positive"
  | .noPartitions => "a partitioned backing needs at least one partition"
  | .idCount ids rows => num ids ++ " ids for " ++ num rows ++ " feature rows"

/-- The fault in words. -/
def InputFault.text : InputFault → String
  | .pairLengths rows cols => num rows ++ " seed rows but " ++ num cols ++ " seed cols"
  | .labelCount labels pairs => num labels ++ " labels for " ++ num pairs ++ " seed pairs"
  | .labelsWithBinary => "binary negative sampling assigns labels itself"
  | .noDestinations => "no destination nodes to draw negatives from"
  | .sharedRow row second =>
    "row " ++ num row ++ " is mapped by more than one id (second: " ++ num second.toNat ++ ")"
  | .rowOutsideBacking row rows =>
    "row " ++ num row ++ " out of range for a backing of " ++ num rows ++ " rows"
  | .blockShape rows cols expected width =>
    "backing returned a " ++ num rows ++ "x" ++ num cols ++ " block for " ++ num expected ++
      " rows of width " ++ num width
  | .blockTooLarge => "ShapeError/Overflow: arithmetic overflow"
  | .blockCount held expected =>
    if held < expected then "ShapeError/OutOfBounds: out of bounds indexing"
    else "ShapeError/IncompatibleShape: incompatible shapes"

/-- The fault in words. -/
def TopologyFault.text : TopologyFault → String
  | .start => "row_ptr must start with 0"
  | .descending => "row_ptr must be non-decreasing"
  | .lastOffset last columns =>
    "row_ptr ends at " ++ num last ++ " but there are " ++ num columns ++ " column indices"
  | .edgeIdsForColumns ids columns =>
    num ids ++ " edge ids for " ++ num columns ++ " column indices"
  | .listLengths rows cols =>
    "edge index rows (" ++ num rows ++ ") and cols (" ++ num cols ++ ") differ in length"
  | .edgeIdsForEdges ids edges => num ids ++ " edge ids for " ++ num edges ++ " edges"
  | .tooFewNodes t declared seen =>
    "node type " ++ t.text ++ " declared with " ++ num declared.toNat ++
      " nodes but topologies reference " ++ num seen.toNat

/-- The failure in words. -/
def Error.message : Error → String
  | .unknownNode scope id count =>
    "Unknown node ID " ++ num id.toNat ++ " for " ++ scope.text ++ " (declared range 0.." ++
      num count ++ ")"
  | .unknownEntity entity id => "Unknown entity " ++ num id.toNat ++ " in " ++ entity.text
  | .unknownNodeType t => "Unknown node type: " ++ t.text
  | .unknownEdgeType e => "Unknown edge type: " ++ e.text
  | .timeout entity deadline =>
    "Feature lookup for " ++ entity.text ++ " timed out after " ++ Text.duration deadline
  | .config fault => "Invalid configuration: " ++ fault.text
  | .input fault => "Invalid input: " ++ fault.text
  | .topology fault => "Invalid topology: " ++ fault.text
  | .width expected actual =>
    "Dimension mismatch: expected " ++ num expected ++ ", got " ++ num actual
  | .duplicateId id => "Duplicate ID in id2idx mapping: " ++ num id.toNat
  | .noReplica device => "No hot replica for device " ++ num device.toNat
  | .worker message => "Sampling worker failed: " ++ message
  | .overflow => "arithmetic overflow"
  | .file => "IO error"
  | .json => "JSON error"

end HopSampler
