import HopSampler.Error
import HopSampler.Text.Pieces
import HopSampler.Text.Word

/-!
# Placements and device groups

Where the rows of a table or the adjacency of an edge type are kept. A placement never changes what
a look-up returns.

Placements have a written form: a word, then a number after a colon where the word calls for one.
Reading is forgiving about the word (case, `_` for `-`) and strict about the rest; writing always
uses the one form that reads back as the same placement.
-/

namespace HopSampler

/-- Where rows are kept. -/
inductive Placement where
  /-- Host memory that devices read in place. -/
  | zeroCopy
  /-- The memory of one device. -/
  | resident (device : UInt64)
  /-- Contiguous ranges of rows over several stores. -/
  | partitioned (count : UInt64)
  deriving DecidableEq

instance : Inhabited Placement := ⟨.zeroCopy⟩

namespace Placement

/-! ### The written form -/

/-- The placement in words. -/
def text : Placement → String
  | .zeroCopy => "zero-copy"
  | .resident device => "resident:" ++ toString device.toNat
  | .partitioned count => "partitioned:" ++ toString count.toNat

/-- The word before the colon, in its standard spelling. -/
def standardWord (word : List Char) : String :=
  String.ofList (word.map fun c ↦ if c = '_' then '-' else c.toLower)

/-- Read a word and what follows the colon. -/
def ofParts? (word : String) (argument : Option (List Char)) : Option Placement :=
  match word, argument with
  | "zero-copy", none => some .zeroCopy
  | "resident", none => some (.resident 0)
  | "resident", some digits => (Text.word? digits).map .resident
  | "partitioned", some digits =>
    (Text.word? digits).bind fun n ↦ if n = 0 then none else some (.partitioned n)
  | _, _ => none

/-- Read a placement. -/
def ofText (s : String) : Except Error Placement :=
  let (word, argument) := Text.cutAt ':' s.toList
  match ofParts? (standardWord word) argument with
  | some placement => .ok placement
  | none => .error (.config (.placement s))

end Placement

/-! ### Device groups -/

/-- Devices that share one copy of every hot row. -/
structure DeviceGroup where
  groupId : UInt64
  deviceIds : List UInt64
  deriving DecidableEq

namespace DeviceGroup

/-- Whether a device is in the group. -/
def contains (g : DeviceGroup) (device : UInt64) : Bool := device ∈ g.deviceIds

/-- The device the shared copy is kept on. -/
def home? (g : DeviceGroup) : Option UInt64 := g.deviceIds.head?

end DeviceGroup

end HopSampler
