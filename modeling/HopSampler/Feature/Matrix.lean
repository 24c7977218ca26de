/-!
# Matrices of feature rows

Rows of single-precision numbers, all of one width. The width is kept apart from the rows, so that a
matrix without rows still has one, and every row is known to have it.
-/

namespace HopSampler

/-- One row of features. -/
abbrev Row := List Float32

/-- Rows of one width. -/
structure Matrix where
  width : Nat
  rows : Array Row
  length_eq : ∀ row ∈ rows, row.length = width

namespace Matrix

/-- The number of rows. -/
def height (m : Matrix) : Nat := m.rows.size

/-- The matrix without rows. -/
def empty (width : Nat) : Matrix := ⟨width, #[], by simp⟩

instance : Inhabited Matrix := ⟨empty 0⟩

/-- All rows zero. -/
def zeros (height width : Nat) : Matrix :=
  ⟨width, .replicate height (.replicate width 0), by
    intro row h
    rw [(Array.mem_replicate.1 h).2, List.length_replicate]⟩

/-- The matrix of the given rows, where all of them have the given width. -/
def ofRows? (width : Nat) (rows : List Row) : Option Matrix :=
  if h : ∀ row ∈ rows, row.length = width then
    some ⟨width, rows.toArray, fun row hrow ↦ h row (by simpa using hrow)⟩
  else none

/-- Cut values into rows, one after the other. -/
def cutRows (width : Nat) : Nat → List Float32 → List Row
  | 0, _ => []
  | height + 1, values => values.take width :: cutRows width height (values.drop width)

theorem length_of_mem_cutRows {height width : Nat} {values : List Float32}
    (h : values.length = height * width) :
    ∀ row ∈ cutRows width height values, row.length = width := by
  induction height generalizing values with
  | zero => exact fun row hrow ↦ absurd hrow List.not_mem_nil
  | succ height ih =>
    rw [Nat.succ_mul] at h
    refine List.forall_mem_cons.2 ⟨?_, ih ?_⟩
    · rw [List.length_take, h]
      exact Nat.min_eq_left (Nat.le_add_left ..)
    · rw [List.length_drop, h, Nat.add_sub_cancel]

/-- The matrix of as many values as its shape has, row by row. -/
def ofValues (height width : Nat) (values : List Float32) (h : values.length = height * width) :
    Matrix :=
  ⟨width, (cutRows width height values).toArray, fun row hrow ↦
    length_of_mem_cutRows h row (List.mem_toArray.1 hrow)⟩

/-- The rows at the given places, in that order; places out of range are passed over. -/
def gather (m : Matrix) (places : List Nat) : Matrix :=
  ⟨m.width, (places.filterMap (m.rows[·]?)).toArray, by
    intro row h
    obtain ⟨place, -, hrow⟩ := List.mem_filterMap.1 (List.mem_toArray.1 h)
    exact m.length_eq row (Array.mem_of_getElem? hrow)⟩

/-- The first rows. -/
def take (m : Matrix) (count : Nat) : Matrix := m.gather (List.range (min count m.height))

/-- The rows after the first ones. -/
def drop (m : Matrix) (count : Nat) : Matrix :=
  m.gather (List.range' count (m.height - count))

/-- The rows of a range. -/
def slice (m : Matrix) (start count : Nat) : Matrix := m.gather (List.range' start count)

/-- Write the row at place `k` of a block to the `k`-th of the given places. -/
def scatterRows (out : Array Row) (places : List Nat) (block : Matrix) : Array Row :=
  (places.zip block.rows.toList).foldl (fun out (place, row) ↦ out.setIfInBounds place row) out

private theorem scatterRows_length {width : Nat} {out : Array Row} {places : List Nat}
    {block : Matrix} (hblock : block.width = width) (h : ∀ row ∈ out, row.length = width) :
    ∀ row ∈ scatterRows out places block, row.length = width := by
  have hb : ∀ pr ∈ places.zip block.rows.toList, pr.2.length = width := fun pr hpr ↦ by
    rw [← hblock]
    exact block.length_eq _ (Array.mem_toList_iff.1 (List.of_mem_zip hpr).2)
  rw [scatterRows]
  generalize places.zip block.rows.toList = pairs at hb
  induction pairs generalizing out with
  | nil => exact h
  | cons p rest ih =>
    refine ih (fun row hrow ↦ ?_) fun pr hpr ↦ hb pr (List.mem_cons_of_mem _ hpr)
    rcases Array.mem_or_eq_of_mem_setIfInBounds hrow with hrow | rfl
    · exact h row hrow
    · exact hb p List.mem_cons_self

/-- Write the rows of a block to their places. A block of another width is passed over. -/
def write (out : Matrix) (placed : List Nat × Matrix) : Matrix :=
  if h : placed.2.width = out.width then
    ⟨out.width, scatterRows out.rows placed.1 placed.2, scatterRows_length h out.length_eq⟩
  else out

/-- A matrix put together from blocks, each with the places its rows go to. -/
def scatter (height width : Nat) (blocks : List (List Nat × Matrix)) : Matrix :=
  blocks.foldl write (zeros height width)

end Matrix

end HopSampler
