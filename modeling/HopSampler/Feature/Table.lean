import HopSampler.Feature.Source
import HopSampler.IdMap

/-!
# Feature tables

A table gives every registered ID a row of features. Its first rows are *hot*: each device group
keeps a copy of them, and a look-up from a device reads the copy of the first group that device is
in. Copies go by group ID, so groups that share an ID share a copy. The other rows are *cold* and
come from one backing.

**Placement does not show.** A look-up splits the rows into hot and cold ones, asks for each kind
only if there are any, awaits both together and puts the rows back in the order of the request. Only
whether it succeeds depends on where rows are kept.
-/

namespace HopSampler

/-- Rows of features by ID. -/
structure FeatureTable where
  entity : Entity
  ids : IdMap
  numRows : Nat
  width : Nat
  hotRows : Nat
  groups : List DeviceGroup
  /-- The copies of the hot rows, by group ID. -/
  replicas : Std.HashMap UInt64 RowSource
  cold : RowSource

namespace FeatureTable

/-! ### Making a table -/

/-- What a table is made from. -/
structure Plan where
  data : Matrix
  ids : IdMap
  splitRatio : Float := 0.0
  groups : List DeviceGroup := []
  coldPlacement : Placement := .zeroCopy
  /-- A backing that already holds the cold rows. -/
  coldSource : Option RowSource := none

namespace Plan

/-- How many of `rows` are hot: the given share of them, rounded down. -/
def hotCount (ratio : Float) (rows : Nat) : Nat :=
  min rows (ratio * rows.toFloat).floor.toUInt64.toNat

/-- How many rows of the plan are hot. -/
def hotRows (p : Plan) : Nat := hotCount p.splitRatio p.data.height

/-- Make the copy of a group, on its first device. It takes the place of a copy under the same
ID. -/
def addCopy (hot : Matrix) (copies : Std.HashMap UInt64 RowSource) (group : DeviceGroup) :
    Except Error (Std.HashMap UInt64 RowSource) :=
  match group.home? with
  | some home => .ok (copies.insert group.groupId (.device home hot))
  | none => .error (.config (.emptyGroup group.groupId))

/-- Copies of the hot rows by group ID. -/
def replicate (hot : Matrix) (groups : List DeviceGroup) :
    Except Error (Std.HashMap UInt64 RowSource) :=
  groups.foldlM (addCopy hot) ∅

/-- The copies that the plan calls for; none where no row is hot. -/
def copies (p : Plan) : Except Error (Std.HashMap UInt64 RowSource) :=
  if 0 < p.hotRows then replicate (p.data.take p.hotRows) p.groups else .ok ∅

/-- The backing of the cold rows: the one given, if it has their shape, else the rows themselves
under the cold placement. -/
def coldBacking (p : Plan) : Except Error RowSource :=
  let expected := p.data.height - p.hotRows
  match p.coldSource with
  | some source =>
    if source.numRows ≠ expected then .error (.config (.backingRows source.numRows expected))
    else if source.width ≠ p.data.width then .error (.width p.data.width source.width)
    else .ok source
  | none =>
    let rest := p.data.drop p.hotRows
    match p.coldPlacement with
    | .zeroCopy => .ok (.zeroCopy rest)
    | .resident device => .ok (.device device rest)
    | .partitioned count => (·.toSource) <$> Partitions.split rest count

/-- The share of hot rows is between none and all. -/
def checkRatio (ratio : Float) : Except Error Unit :=
  if 0.0 ≤ ratio ∧ ratio ≤ 1.0 then .ok () else .error (.config (.splitRatio ratio))

/-- Every registered ID has a row. -/
def checkRows (ids : IdMap) (rows : Nat) : Except Error Unit :=
  match ids.maxRow? with
  | none => .ok ()
  | some row => if row < rows then .ok () else .error (.config (.rowOutsideTable row rows))

/-- Make the table. -/
def build (p : Plan) : Except Error FeatureTable := do
  checkRatio p.splitRatio
  checkRows p.ids p.data.height
  if 0 < p.hotRows ∧ p.groups = [] then .error (.config .hotWithoutGroups)
  else
    let replicas ← p.copies
    let cold ← p.coldBacking
    .ok ⟨.table, p.ids, p.data.height, p.data.width, p.hotRows, p.groups, replicas, cold⟩

end Plan

/-! ### Looking rows up -/

/-- Whether an ID has a row. -/
def contains (t : FeatureTable) (id : Id) : Bool := (t.ids.get? id).isSome

/-- The rows of a list of IDs; fails at the first that is not registered. -/
def rowsOf (t : FeatureTable) (ids : List Id) : Except Error (List Nat) :=
  ids.mapM fun id ↦
    match t.ids.get? id with
    | some row => .ok row
    | none => .error (.unknownEntity t.entity id)

/-- The copy of the hot rows that serves a device. -/
def replicaFor (t : FeatureTable) (device : UInt64) : Except Error RowSource :=
  match (t.groups.find? (·.contains device)).bind (t.replicas[·.groupId]?) with
  | some replica => .ok replica
  | none => .error (.noReplica device)

/-- Positions in the request and rows there, for the hot rows. -/
def hotPart (t : FeatureTable) (rows : List Nat) : List (Nat × Nat) :=
  rows.zipIdx.filterMap fun (row, position) ↦
    if row < t.hotRows then some (position, row) else none

/-- Positions in the request and rows in the cold backing, for the cold rows. -/
def coldPart (t : FeatureTable) (rows : List Nat) : List (Nat × Nat) :=
  rows.zipIdx.filterMap fun (row, position) ↦
    if row < t.hotRows then none else some (position, row - t.hotRows)

/-- Fetch one part of the request, with the positions its rows go to. A part without rows asks
nothing. -/
def fetchPart (t : FeatureTable) (source : RowSource) (part : List (Nat × Nat)) :
    Delayed (List Nat × Matrix) :=
  if part = [] then .now (.ok ([], .empty t.width))
  else source.fetchPlaced t.width part

/-- The source that is asked for the hot rows. Without hot rows no copy is needed. -/
def hotSource (t : FeatureTable) (rows : List Nat) (device : UInt64) : Except Error RowSource :=
  if t.hotPart rows = [] then .ok t.cold else t.replicaFor device

/-- The rows of a list of IDs as seen from a device, in order. -/
def lookup (t : FeatureTable) (ids : List Id) (device : UInt64) : Delayed Matrix :=
  match t.rowsOf ids with
  | .error e => .now (.error e)
  | .ok rows =>
    match t.hotSource rows device with
    | .error e => .now (.error e)
    | .ok replica =>
      let hot := t.fetchPart replica (t.hotPart rows)
      let cold := t.fetchPart t.cold (t.coldPart rows)
      (Delayed.both hot cold).map fun (hot, cold) ↦ .scatter ids.length t.width [hot, cold]

/-- The same under a deadline. -/
def lookupWithin (t : FeatureTable) (ids : List Id) (device : UInt64) (deadline : Milliseconds) :
    Delayed Matrix :=
  (t.lookup ids device).within deadline (.timeout t.entity deadline)

end FeatureTable

end HopSampler
