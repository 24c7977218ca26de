import HopSampler.Sampling.Config

/-!
# Sampling requests

A request asks for the neighbourhood of seeds: nodes of one type, or pairs of nodes joined by edges
of one type. A request for pairs may carry a label per pair and may ask for negatives.

`select` cuts a request down to some of its seeds, which is how a loader makes batches.
-/

namespace HopSampler

/-- The elements at the given positions, in that order; positions out of range are passed over. -/
def selectAt (items : List α) (positions : List Nat) : List α :=
  let places := items.toArray
  positions.filterMap (places[·]?)

/-- Seed nodes of one type. -/
structure NodeRequest where
  type : NodeType
  ids : List Id
  deriving DecidableEq

namespace NodeRequest

/-- The number of seeds. -/
def size (r : NodeRequest) : Nat := r.ids.length

/-- The request for some of the seeds. -/
def select (r : NodeRequest) (positions : List Nat) : NodeRequest :=
  { r with ids := selectAt r.ids positions }

end NodeRequest

/-- Seed pairs of one edge type. -/
structure EdgeRequest where
  type : EdgeType
  rows : List Id
  cols : List Id
  labels : Option (List Float32) := none
  negatives : Option NegativeSampling := none

namespace EdgeRequest

/-- The number of seed pairs. -/
def size (r : EdgeRequest) : Nat := r.rows.length

/-- The request for some of the pairs. -/
def select (r : EdgeRequest) (positions : List Nat) : EdgeRequest :=
  { r with
    rows := selectAt r.rows positions
    cols := selectAt r.cols positions
    labels := r.labels.map (selectAt · positions) }

/-- Rows and columns make pairs, and there is a label for each, if there are labels. -/
def checkLengths (r : EdgeRequest) : Except Error Unit :=
  if r.rows.length ≠ r.cols.length then
    .error (.input (.pairLengths r.rows.length r.cols.length))
  else
    match r.labels with
    | none => .ok ()
    | some labels =>
      if labels.length ≠ r.rows.length then
        .error (.input (.labelCount labels.length r.rows.length))
      else .ok ()

/-- The negatives can be drawn, and binary ones do not meet labels. -/
def checkNegatives (r : EdgeRequest) : Except Error Unit :=
  match r.negatives with
  | none => .ok ()
  | some n => do
    n.validate
    if n.mode = .binary ∧ r.labels.isSome then .error (.input .labelsWithBinary) else .ok ()

/-- What can be checked without a graph. -/
def validate (r : EdgeRequest) : Except Error Unit := do
  r.checkLengths
  r.checkNegatives

end EdgeRequest

/-- Either kind of request. -/
inductive Request where
  | node (request : NodeRequest)
  | edge (request : EdgeRequest)

namespace Request

/-- The number of seeds or seed pairs. -/
def size : Request → Nat
  | .node r => r.size
  | .edge r => r.size

/-- The request for some of the seeds. -/
def select (r : Request) (positions : List Nat) : Request :=
  match r with
  | .node r => .node (r.select positions)
  | .edge r => .edge (r.select positions)

end Request

end HopSampler
