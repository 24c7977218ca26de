import HopSampler.Feature.Delayed
import HopSampler.Feature.Matrix
import HopSampler.Placement

/-!
# Row sources

A `RowSource` is anything that yields rows by number: the memory of a device, memory shared with the
host, a remote store. It says how many rows it holds and how wide they are; what it answers to a
fetch is not trusted, so whoever asks checks the shape of the block that comes back.

`Partitions` lays several sources end to end and is a source again. A fetch goes to each partition
that holds one of the rows, once, and to no other. How the answers are awaited goes by the number of
partitions there are, not by how many are asked.
-/

-- Sums start from the numeral, also where zero comes with more structure.
attribute [local instance (high)] Zero.ofOfNat0

namespace HopSampler

/-- Rows by number. -/
structure RowSource where
  placement : Placement
  numRows : Nat
  width : Nat
  fetch : List Nat → Delayed Matrix

namespace RowSource

/-! ### Rows in memory -/

/-- The rows of a matrix at the given places; fails at the first that is out of range. -/
def gather (data : Matrix) (places : List Nat) : Except Error Matrix :=
  match places.find? (data.height ≤ ·) with
  | some place => .error (.input (.rowOutsideBacking place data.height))
  | none => .ok (data.gather places)

/-- Rows held under a placement and there at once. -/
def held (placement : Placement) (data : Matrix) : RowSource where
  placement := placement
  numRows := data.height
  width := data.width
  fetch places := .now (gather data places)

/-- Rows in the memory of a device. -/
def device (id : UInt64) (data : Matrix) : RowSource := held (.resident id) data

/-- Rows in memory shared with the host. -/
def zeroCopy (data : Matrix) : RowSource := held .zeroCopy data

/-! ### Asking a source -/

/-- A block of the shape that was asked for; fails on any other. -/
def checkBlock (count width : Nat) (block : Matrix) : Except Error Matrix :=
  if block.height = count ∧ block.width = width then .ok block
  else .error (.input (.blockShape block.height block.width count width))

/-- Fetch rows and check the shape of what comes back. -/
def fetchChecked (source : RowSource) (width : Nat) (places : List Nat) : Delayed Matrix :=
  (source.fetch places).check (checkBlock places.length width)

/-- Fetch rows that are wanted at positions of their own, given in pairs. -/
def fetchPlaced (source : RowSource) (width : Nat) (request : List (Nat × Nat)) :
    Delayed (List Nat × Matrix) :=
  (source.fetchChecked width (request.map (·.2))).map fun block ↦ (request.map (·.1), block)

end RowSource

/-! ### Partitions -/

/-- Sources of one width, end to end. -/
structure Partitions where
  width : Nat
  parts : List RowSource

namespace Partitions

/-- Lay sources end to end; there is at least one and all have the width of the first. -/
def ofParts (parts : List RowSource) : Except Error Partitions :=
  match parts with
  | [] => .error (.config .noPartitions)
  | first :: _ =>
    match parts.find? (·.width ≠ first.width) with
    | some odd => .error (.width first.width odd.width)
    | none => .ok ⟨first.width, parts⟩

/-- Rows per partition when `rows` are split over `count`. -/
def chunkSize (rows count : Nat) : Nat := max ((rows + count - 1) / count) 1

/-- Split rows over `count` partitions from the top, each but the last ones full; the ones that are
left over are empty. -/
def split (data : Matrix) (count : UInt64) : Except Error Partitions :=
  if count = 0 then .error (.config .noPartitionCount)
  else
    let chunk := chunkSize data.height count.toNat
    ofParts ((List.range count.toNat).map fun p ↦
      .zeroCopy (data.slice (p * chunk) (min chunk (data.height - p * chunk))))

/-- The number of partitions. -/
def count (p : Partitions) : Nat := p.parts.length

/-- The number of rows of all partitions. -/
def numRows (p : Partitions) : Nat := (p.parts.map (·.numRows)).sum

/-- The number of the first row of each part, and of the row after the last, counted from
`first`. -/
def offsetsFrom (first : Nat) : List RowSource → List Nat
  | [] => [first]
  | part :: rest => first :: offsetsFrom (first + part.numRows) rest

/-- Where the partitions start, and where the last one ends. -/
def offsets (p : Partitions) : List Nat := offsetsFrom 0 p.parts

/-- The partition that holds a row, and the row's number there. It is the last one that starts at or
before the row: where partitions are empty several start together, and only the last can hold it. -/
def locate (p : Partitions) (row : Nat) : Except Error (Nat × Nat) :=
  if p.numRows ≤ row then .error (.input (.rowOutsideBacking row p.numRows))
  else
    let part := (p.offsets.takeWhile (· ≤ row)).length - 1
    .ok (part, row - p.offsets.getD part 0)

/-- Where each row is; fails at the first that is out of range. -/
def locateAll (p : Partitions) (rows : List Nat) : Except Error (List (Nat × Nat)) :=
  rows.mapM p.locate

/-- What is asked of one partition: positions in the request, and row numbers there. -/
def requestOf (places : List (Nat × Nat)) (part : Nat) : List (Nat × Nat) :=
  places.zipIdx.filterMap fun ((owner, row), position) ↦
    if owner = part then some (position, row) else none

/-- The partitions that hold some of the rows, with what is asked of each. -/
def requests (p : Partitions) (places : List (Nat × Nat)) : List (RowSource × List (Nat × Nat)) :=
  p.parts.zipIdx.filterMap fun (part, index) ↦
    match requestOf places index with
    | [] => none
    | request => some (part, request)

/-- Fetch rows from the partitions that hold them. -/
def fetch (p : Partitions) (rows : List Nat) : Delayed Matrix :=
  match p.locateAll rows with
  | .error e => .now (.error e)
  | .ok places =>
    let fetches := (p.requests places).map fun (part, request) ↦ part.fetchPlaced p.width request
    (Delayed.all p.count fetches).map (.scatter rows.length p.width)

/-- The partitions as one source. -/
def toSource (p : Partitions) : RowSource where
  placement := .partitioned p.count.toUInt64
  numRows := p.numRows
  width := p.width
  fetch := p.fetch

end Partitions

end HopSampler
