import HopSampler.Proofs.Maps
import HopSampler.Sampling.Config
import HopSampler.Sampling.Output
import Mathlib.Algebra.BigOperators.Group.List.Basic
import Mathlib.Algebra.Ring.Nat

/-!
# Segments and slices of an output

An output lists nodes and edges without breaks; where a step ends is said by its counts. A
*segment* is the part of the nodes of a type that one step added, a *slice* the part of the edges of
a key that one hop added, both between prefix sums of the counts.

**Both layouts read the same way.** An edge was followed from one of its ends, the *source*, to the
other, the *target*. Which of row and column is which depends on the layout, and so does the node
type that each indexes. `EdgeIndex.links` and `EdgeLayout.sourceType`, `EdgeLayout.targetType` undo
that, and everything said about edges below is said of links.
-/

namespace HopSampler

/-- The part of a list between the prefix sums of counts at `k` and `k + 1`. -/
def pieceAt {α : Type} (counts : List Nat) (k : Nat) (xs : List α) : List α :=
  (xs.drop (counts.take k).sum).take (counts[k]?.getD 0)

/-- Counting lists by their lengths cuts what they make up into themselves. -/
theorem pieceAt_flatten {α : Type} (lists : List (List α)) (k : Nat) :
    pieceAt (lists.map (·.length)) k lists.flatten = lists[k]?.getD [] := by
  rw [pieceAt, List.drop_sum_flatten, List.getElem?_map]
  by_cases hk : k < lists.length
  · rw [List.drop_eq_getElem_cons hk, List.flatten_cons, List.getElem?_eq_getElem hk,
      Option.map_some, Option.getD_some, Option.getD_some, List.take_left]
  · have hnone : lists[k]? = none := List.getElem?_eq_none (Nat.le_of_not_lt hk)
    rw [hnone]
    rfl

theorem sum_take_succ (counts : List Nat) (n : Nat) :
    (counts.take (n + 1)).sum = (counts.take n).sum + counts[n]?.getD 0 := by
  rw [List.take_add_one, List.sum_append]
  cases counts[n]? <;> simp

/-- The first pieces make up the part of the list that their counts count. -/
theorem flatMap_pieceAt {α : Type} (counts : List Nat) (xs : List α) (n : Nat) :
    (List.range n).flatMap (pieceAt counts · xs) = xs.take (counts.take n).sum := by
  induction n with
  | zero => simp
  | succ n ih =>
    rw [List.range_succ, List.flatMap_append, ih, List.flatMap_singleton, pieceAt, sum_take_succ,
      List.take_add]

example : pieceAt [2, 0, 1] 2 ['a', 'b', 'c'] = ['c'] := by decide

/-! ### Links -/

/-- An edge as it was followed, by the places of its ends, and its ID where IDs are listed. -/
structure Link where
  source : Nat
  target : Nat
  edge : Option Id
  deriving DecidableEq

namespace EdgeLayout

/-- The type whose nodes the sources of the links under a key are. -/
def sourceType (layout : EdgeLayout) (key : EdgeType) : NodeType :=
  match layout with
  | .traversal => key.source
  | .messagePassing => key.target

/-- The type whose nodes the targets of the links under a key are. -/
def targetType (layout : EdgeLayout) (key : EdgeType) : NodeType :=
  match layout with
  | .traversal => key.target
  | .messagePassing => key.source

end EdgeLayout

namespace EdgeIndex

/-- The IDs edge by edge, where they are listed. -/
def ids (i : EdgeIndex) : List (Option Id) :=
  match i.edge with
  | some edge => edge.map some
  | none => List.replicate i.size none

/-- The edges as they were followed. -/
def links (layout : EdgeLayout) (i : EdgeIndex) : List Link :=
  match layout with
  | .traversal => List.zipWith (fun p id ↦ ⟨p.1, p.2, id⟩) (i.row.zip i.col) i.ids
  | .messagePassing => List.zipWith (fun p id ↦ ⟨p.1, p.2, id⟩) (i.col.zip i.row) i.ids

/-- Row, column and IDs are equally long, and there are IDs exactly if they are asked for. -/
structure Even (withEdge : Bool) (i : EdgeIndex) : Prop where
  col : i.col.length = i.row.length
  edge : i.edge.map (·.length) = if withEdge then some i.row.length else none

end EdgeIndex

/-! ### Segments and slices -/

namespace SamplingOutput

/-- How many nodes of a type each step added. -/
def nodeCountsAt (o : SamplingOutput) (t : NodeType) : List Nat := o.nodeCounts.getD t []

/-- How many edges of a key each hop added. -/
def edgeCountsAt (o : SamplingOutput) (key : EdgeType) : List Nat := o.edgeCounts.getD key []

/-- The nodes of a type that a step added. -/
def segment (o : SamplingOutput) (t : NodeType) (step : Nat) : List Id :=
  pieceAt (o.nodeCountsAt t) step (o.nodesOf t)

/-- A place in a segment. -/
def InSegment (o : SamplingOutput) (t : NodeType) (step place : Nat) : Prop :=
  ((o.nodeCountsAt t).take step).sum ≤ place ∧ place < ((o.nodeCountsAt t).take (step + 1)).sum

/-- The links under a key. -/
def linksOf (o : SamplingOutput) (layout : EdgeLayout) (key : EdgeType) : List Link :=
  ((o.edges.get? key).map (·.links layout)).getD []

/-- The links under a key that a hop added. -/
def slice (o : SamplingOutput) (layout : EdgeLayout) (key : EdgeType) (hop : Nat) : List Link :=
  pieceAt (o.edgeCountsAt key) hop (o.linksOf layout key)

end SamplingOutput

end HopSampler
