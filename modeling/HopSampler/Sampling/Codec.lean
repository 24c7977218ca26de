import HopSampler.Dataset.Codec
import HopSampler.Sampling.Config

/-!
# Configuration files

How configurations are written as JSON values and read again. All fields are written; reading fills
in the defaults of those that are missing.

**Budgets are told by their shape.** A list of numbers, the empty list among them, is one list for
all edge types; a list of pairs of an edge type and numbers is one list each. Nothing else is a
budget.
-/

namespace HopSampler

open Json (required defaulted optional)

namespace Budgets

/-- A pair of an edge type and its budgets. -/
def pairToJson (pair : EdgeType × List UInt64) : Json :=
  .array [pair.1.toJson, .ofList .ofWord pair.2]

/-- Write budgets. -/
def toJson : Budgets → Json
  | .uniform hops => .ofList .ofWord hops
  | .perEdgeType lists => .ofList pairToJson lists

/-- Read a pair of an edge type and its budgets. -/
def pairOfJson? : Json → Option (EdgeType × List UInt64)
  | .array [e, hops] => do some (← EdgeType.ofJson? e, ← hops.list? Json.word?)
  | _ => none

/-- Read budgets. -/
def ofJson? (value : Json) : Option Budgets :=
  ((value.list? Json.word?).map .uniform).or ((value.list? pairOfJson?).map .perEdgeType)

end Budgets

namespace NegativeMode

/-- Write a mode. -/
def toJson : NegativeMode → Json
  | .binary => .string "binary"
  | .triplet => .string "triplet"

/-- Read a mode. -/
def ofJson? (value : Json) : Option NegativeMode :=
  match value.name? with
  | some "binary" => some .binary
  | some "triplet" => some .triplet
  | _ => none

end NegativeMode

namespace NegativeSampling

/-- Write what is to be drawn. -/
def toJson (n : NegativeSampling) : Json :=
  .object [("mode", n.mode.toJson), ("amount", .ofWord n.amount)]

/-- Read what is to be drawn. -/
def ofJson? (value : Json) : Option NegativeSampling :=
  match value.record? ["mode", "amount"] with
  | some [mode, amount] => do
    some ⟨← required NegativeMode.ofJson? mode, ← defaulted Json.word? 1 amount⟩
  | _ => none

end NegativeSampling

namespace EdgeLayout

/-- Write a layout. -/
def toJson : EdgeLayout → Json
  | .traversal => .string "traversal"
  | .messagePassing => .string "message_passing"

/-- Read a layout. -/
def ofJson? (value : Json) : Option EdgeLayout :=
  match value.name? with
  | some "traversal" => some .traversal
  | some "message_passing" => some .messagePassing
  | _ => none

end EdgeLayout

namespace SamplerConfig

/-- The names of the fields. -/
def fieldNames : List String :=
  ["num_neighbors", "with_edge", "with_neg", "replace", "layout", "seed", "max_negative_attempts",
    "parallel_threshold"]

/-- Write a configuration. -/
def toJson (c : SamplerConfig) : Json :=
  .object [("num_neighbors", c.budgets.toJson), ("with_edge", .bool c.withEdge),
    ("with_neg", .bool c.withNegatives), ("replace", .bool c.replace),
    ("layout", c.layout.toJson), ("seed", .ofWord c.seed),
    ("max_negative_attempts", .ofOption .ofWord c.maxNegativeAttempts),
    ("parallel_threshold", .ofWord c.parallelThreshold)]

/-- Read a configuration. -/
def ofJson? (value : Json) : Option SamplerConfig :=
  match value.record? fieldNames with
  | some [budgets, withEdge, withNegatives, replace, layout, seed, attempts, threshold] => do
    some ⟨← required Budgets.ofJson? budgets, ← defaulted Json.bool? false withEdge,
      ← defaulted Json.bool? false withNegatives, ← defaulted Json.bool? false replace,
      ← defaulted EdgeLayout.ofJson? .traversal layout, ← defaulted Json.word? 42 seed,
      ← optional Json.word? attempts, ← defaulted Json.word? 1024 threshold⟩
  | _ => none

/-- The configuration of a file's text, which has to be usable. -/
def ofText (text : String) : Except Error SamplerConfig := do
  match (Json.ofText? text).bind ofJson? with
  | some c => c.validate; .ok c
  | none => .error .json

end SamplerConfig

namespace LoaderConfig

/-- The names of the fields. -/
def fieldNames : List String :=
  ["batch_size", "shuffle", "drop_last", "prefetch", "feature_timeout_ms", "device", "seed"]

/-- Write a configuration. -/
def toJson (c : LoaderConfig) : Json :=
  .object [("batch_size", .ofWord c.batchSize), ("shuffle", .bool c.shuffle),
    ("drop_last", .bool c.dropLast), ("prefetch", .ofWord c.prefetch),
    ("feature_timeout_ms", .ofOption .ofWord c.featureTimeout), ("device", .ofWord c.device),
    ("seed", .ofWord c.seed)]

/-- Read a configuration. -/
def ofJson? (value : Json) : Option LoaderConfig :=
  match value.record? fieldNames with
  | some [batchSize, shuffle, dropLast, prefetch, timeout, device, seed] => do
    some ⟨← defaulted Json.word? 512 batchSize, ← defaulted Json.bool? false shuffle,
      ← defaulted Json.bool? false dropLast, ← defaulted Json.word? 2 prefetch,
      ← optional Json.word? timeout, ← defaulted Json.word? 0 device,
      ← defaulted Json.word? 0 seed⟩
  | _ => none

end LoaderConfig

end HopSampler
