import HopSampler.Placement

/-!
# Compressed rows

The arcs of all source nodes, one row after the other in two arrays of the same size: destinations,
and the IDs of the edges that lead there. A third array has the places at which the rows begin, and
after them the place at which the last one ends.

Not all arrays describe rows. Those that do come with the fact that they do
(`CompressedRows.WellFormed`), so that no row reaches outside the arrays. They are taken in as they
are; then every row that is not in order of destination is sorted, in place.

Edges that are listed in any order are put into such arrays by counting: the edges of each source
are counted, the counts are added up to the places where the rows begin, and each edge is written at
the next free place of its row.
-/

namespace HopSampler

variable {α : Type}

/-- An edge seen from its source. -/
structure Arc where
  target : Id
  edge : Id
  deriving DecidableEq

instance : Inhabited Arc := ⟨0, 0⟩

namespace Arc

/-- Order by destination, then by edge ID. -/
def le (a b : Arc) : Bool := a.target < b.target ∨ (a.target = b.target ∧ a.edge ≤ b.edge)

end Arc

/-! ### Lists and arrays -/

/-- Whether a list never goes down. -/
def isAscending [LE α] [DecidableLE α] : List α → Bool
  | [] => true
  | [_] => true
  | a :: b :: rest => a ≤ b && isAscending (b :: rest)

theorem isAscending_iff [LE α] [DecidableLE α] [Std.IsPreorder α] {xs : List α} :
    isAscending xs = true ↔ xs.Pairwise (· ≤ ·) := by
  fun_induction isAscending xs with
  | case1 => simp
  | case2 => simp
  | case3 a b rest ih =>
    rw [Bool.and_eq_true, decide_eq_true_iff, ih]
    refine ⟨fun ⟨hab, hrest⟩ ↦ List.pairwise_cons.2 ⟨fun c hc ↦ ?_, hrest⟩, fun h ↦ ?_⟩
    · -- what comes after `b` is not before `b`, hence not before `a`
      rcases List.mem_cons.1 hc with rfl | hc
      · exact hab
      · exact Std.le_trans hab ((List.pairwise_cons.1 hrest).1 c hc)
    · obtain ⟨hhead, hrest⟩ := List.pairwise_cons.1 h
      exact ⟨hhead b List.mem_cons_self, hrest⟩

/-- Part of an array. -/
def slice (xs : Array α) (start stop : Nat) (_ : start ≤ stop ∧ stop ≤ xs.size) : Array α :=
  xs.extract start stop

/-- An array with a list written over part of it, from `start` on. -/
def overwrite (xs : Array α) (start : Nat) :
    (values : List α) → start + values.length ≤ xs.size → Array α
  | [], _ => xs
  | a :: rest, h =>
    have hrest : start + 1 + rest.length ≤ xs.size := by
      rw [List.length_cons] at h
      omega
    have hstart : start < xs.size := by omega
    overwrite (xs.set start a) (start + 1) rest (by rwa [Array.size_set])

theorem size_overwrite {values : List α} {xs : Array α} {start : Nat}
    (h : start + values.length ≤ xs.size) : (overwrite xs start values h).size = xs.size := by
  induction values generalizing xs start with
  | nil => rfl
  | cons a rest ih =>
    rw [overwrite, ih, Array.size_set]

namespace CompressedRows

/-! ### Arrays that describe rows -/

/-- Three arrays describe rows: from the first offset to the last, rows take up all places. -/
structure WellFormed (offsets : Array Nat) (targets edges : Array Id) : Prop where
  first : offsets[0]? = some 0
  ascending : offsets.toList.Pairwise (· ≤ ·)
  last : offsets.back? = some targets.size
  /-- Every destination has an edge ID. -/
  edges : edges.size = targets.size

namespace WellFormed

variable {offsets : Array Nat} {targets edges : Array Id} (h : WellFormed offsets targets edges)
include h

theorem size_pos : 0 < offsets.size := (Array.getElem?_eq_some_iff.1 h.first).1

/-- Offsets later in the list are not less. -/
theorem offsets_le {i j : Nat} (hij : i ≤ j) (hj : j < offsets.size) :
    offsets[i] ≤ offsets[j] := by
  rcases Nat.lt_or_eq_of_le hij with hlt | rfl
  · exact List.pairwise_iff_getElem.1 h.ascending i j (Nat.lt_trans hlt hj) hj hlt
  · exact Nat.le_refl _

theorem getElem?_last : offsets[offsets.size - 1]? = some targets.size := by
  rw [← Array.back?_eq_getElem?, h.last]

/-- No offset is beyond the end of the arrays. -/
theorem offsets_le_size {i : Nat} (hi : i < offsets.size) : offsets[i] ≤ targets.size := by
  obtain ⟨hsize, hlast⟩ := Array.getElem?_eq_some_iff.1 h.getElem?_last
  exact hlast ▸ h.offsets_le (Nat.le_sub_one_of_lt hi) hsize

/-- More rows behind the others, all of them empty. -/
theorem append_replicate (n : Nat) :
    WellFormed (offsets ++ Array.replicate n targets.size) targets edges where
  first := by rw [Array.getElem?_append_left h.size_pos, h.first]
  ascending := by
    rw [Array.toList_append, Array.toList_replicate, List.pairwise_append]
    refine ⟨h.ascending, List.pairwise_replicate.2 (.inr (Nat.le_refl _)), fun a ha b hb ↦ ?_⟩
    obtain ⟨i, hi, rfl⟩ := List.getElem_of_mem ha
    exact (List.mem_replicate.1 hb).2 ▸ h.offsets_le_size hi
  last := by
    rw [Array.back?_append, h.last, Array.back?_replicate]
    split <;> rfl
  edges := h.edges

/-- Other arcs in the same rows. -/
theorem replace {targets' edges' : Array Id} (htargets : targets'.size = targets.size)
    (hedges : edges'.size = edges.size) : WellFormed offsets targets' edges' where
  first := h.first
  ascending := h.ascending
  last := by rw [h.last, htargets]
  edges := by rw [hedges, h.edges, htargets]

end WellFormed

end CompressedRows

/-- Rows of arcs, one after the other. -/
structure CompressedRows where
  offsets : Array Nat
  targets : Array Id
  edges : Array Id
  placement : Placement
  wellFormed : CompressedRows.WellFormed offsets targets edges

namespace CompressedRows

variable (c : CompressedRows)

/-- The number of rows. -/
def numRows : Nat := c.offsets.size - 1

variable {c} {i : Nat}

theorem lt_of_lt_numRows (h : i < c.numRows) : i + 1 < c.offsets.size := Nat.add_lt_of_lt_sub h

variable (c) in
/-- Where a row begins. -/
def start (i : Nat) (h : i < c.numRows) : Nat :=
  have := lt_of_lt_numRows h
  c.offsets[i]

variable (c) in
/-- Where a row ends. -/
def stop (i : Nat) (h : i < c.numRows) : Nat :=
  have := lt_of_lt_numRows h
  c.offsets[i + 1]

/-- **A row is within the arrays.** -/
theorem row_inRange (h : i < c.numRows) :
    c.start i h ≤ c.stop i h ∧ c.stop i h ≤ c.targets.size :=
  ⟨c.wellFormed.offsets_le (Nat.le_succ i) (lt_of_lt_numRows h),
    c.wellFormed.offsets_le_size (lt_of_lt_numRows h)⟩

theorem row_inRange_edges (h : i < c.numRows) :
    c.start i h ≤ c.stop i h ∧ c.stop i h ≤ c.edges.size :=
  c.wellFormed.edges.symm ▸ row_inRange h

variable (c)

/-! ### Reading -/

/-- The arcs of a row. -/
def row (i : Nat) (h : i < c.numRows) : Array Arc :=
  Array.zipWith Arc.mk (slice c.targets (c.start i h) (c.stop i h) (row_inRange h))
    (slice c.edges (c.start i h) (c.stop i h) (row_inRange_edges h))

theorem size_row (h : i < c.numRows) : (c.row i h).size = c.stop i h - c.start i h := by
  have htargets := row_inRange h
  have hedges := row_inRange_edges h
  rw [row, Array.size_zipWith, slice, slice, Array.size_extract, Array.size_extract]
  omega

/-- The arcs of a row; absent where there is no such row. -/
def row? (i : Nat) : Option (Array Arc) :=
  if h : i < c.numRows then some (c.row i h) else none

/-- The arcs of a node; absent where the node has no row. -/
def neighbors? (node : Id) : Option (Array Arc) := c.row? node.toNat

/-! ### Rows in order -/

/-- The same rows but for one, which has other arcs. -/
def setRow (i : Nat) (h : i < c.numRows) (arcs : List Arc)
    (hsize : arcs.length = (c.row i h).size) : CompressedRows :=
  have htargets : c.start i h + (arcs.map (·.target)).length ≤ c.targets.size := by
    have := row_inRange h
    rw [List.length_map, hsize, size_row]
    omega
  have hedges : c.start i h + (arcs.map (·.edge)).length ≤ c.edges.size := by
    rwa [c.wellFormed.edges, List.length_map, ← List.length_map (·.target)]
  { c with
    targets := overwrite c.targets (c.start i h) (arcs.map (·.target)) htargets
    edges := overwrite c.edges (c.start i h) (arcs.map (·.edge)) hedges
    wellFormed := c.wellFormed.replace (size_overwrite _) (size_overwrite _) }

/-- Put a row in order of destination, unless it is. -/
def sortRow (i : Nat) : CompressedRows :=
  if h : i < c.numRows then
    let arcs := (c.row i h).toList
    if isAscending (arcs.map (·.target)) then c
    else c.setRow i h (arcs.mergeSort Arc.le) (List.length_mergeSort arcs)
  else c

/-- Put every row in order, one after the other. -/
def sortRows : CompressedRows := (List.range c.numRows).foldl sortRow c

/-! ### Changing -/

/-- The same rows, kept elsewhere. -/
def withPlacement (placement : Placement) : CompressedRows := { c with placement }

/-- The same rows and empty ones behind them, so that there are at least `count`. -/
def padTo (count : Nat) : CompressedRows :=
  { c with
    offsets := c.offsets ++ Array.replicate (count - c.numRows) c.targets.size
    wellFormed := c.wellFormed.append_replicate (count - c.numRows) }

/-! ### Taking arrays in -/

/-- What is checked of arrays is that they describe rows. -/
theorem WellFormed.of_checks {offsets : Array Nat} {targets edges : Array Id}
    (hfirst : offsets[0]? = some 0) (hascending : isAscending offsets.toList = true)
    (hlast : offsets.back?.getD 0 = targets.size) (hedges : edges.size = targets.size) :
    WellFormed offsets targets edges where
  first := hfirst
  ascending := isAscending_iff.1 hascending
  last := by
    obtain ⟨hsize, -⟩ := Array.getElem?_eq_some_iff.1 hfirst
    rw [Array.back?_eq_getElem?, Array.getElem?_eq_getElem (Nat.sub_one_lt_of_lt hsize)] at hlast ⊢
    exact congrArg some hlast
  edges := hedges

/-- The rows of three arrays, each put in order. -/
def make (offsets : Array Nat) (targets edges : Array Id) : Except Error CompressedRows :=
  if hfirst : offsets[0]? = some 0 then
    if hascending : isAscending offsets.toList then
      if hlast : offsets.back?.getD 0 = targets.size then
        if hedges : edges.size = targets.size then
          have wellFormed := .of_checks hfirst hascending hlast hedges
          .ok (sortRows { offsets, targets, edges, placement := .zeroCopy, wellFormed })
        else .error (.topology (.edgeIdsForColumns edges.size targets.size))
      else .error (.topology (.lastOffset (offsets.back?.getD 0) targets.size))
    else .error (.topology .descending)
  else .error (.topology .start)

/-! ### Placing edges by counting -/

/-- One more than the greatest ID. -/
def countOf (ids : List Id) : Nat :=
  match ids.max? with
  | none => 0
  | some m => m.toNat + 1

/-- How many edges leave each of `count` nodes, each number one place behind that of its node. -/
def countSources (count : Nat) (sources : List Id) : Array Nat :=
  sources.foldl (fun counts source ↦ counts.modify (source.toNat + 1) (· + 1))
    (Array.replicate (count + 1) 0)

/-- Add the number at a place to the one behind it. -/
def addToNext (sums : Array Nat) (i : Nat) : Array Nat :=
  let sum := sums[i]?.getD 0
  sums.modify (i + 1) (· + sum)

/-- Add up numbers from the front, in place. -/
def addUp (counts : Array Nat) : Array Nat :=
  (List.range (counts.size - 1)).foldl addToNext counts

/-- Arrays that are being filled, and the next free place of each row. -/
structure Filling where
  cursors : Array Nat
  targets : Array Id
  edges : Array Id

/-- Write an arc at the next free place of the row of its source. -/
def Filling.put (f : Filling) (edge : Id × Arc) : Filling :=
  let (source, arc) := edge
  let place := f.cursors[source.toNat]?.getD 0
  { cursors := f.cursors.modify source.toNat (· + 1)
    targets := f.targets.setIfInBounds place arc.target
    edges := f.edges.setIfInBounds place arc.edge }

/-- The rows of edges that are listed in any order with their sources. -/
def ofEdges (edges : List (Id × Arc)) : Except Error CompressedRows :=
  let sources := edges.map (·.1)
  let offsets := addUp (countSources (countOf sources) sources)
  let blank := Array.replicate edges.length 0
  let filled := edges.foldl Filling.put ⟨offsets, blank, blank⟩
  make offsets filled.targets filled.edges

end CompressedRows

end HopSampler
