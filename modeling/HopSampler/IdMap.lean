import HopSampler.Error
import Std.Data.HashMap
import Std.Data.HashSet

/-!
# From IDs to table rows

A table keeps its rows under row numbers; an `IdMap` says which row an ID has. It is one-to-one: no
ID is listed twice and no row is shared. Where a list breaks both rules the shared row is reported.

**Two forms.** Where IDs are compact the map is an array with a slot for every ID up to the
greatest; elsewhere it is a hash map. A map is filled pair by pair from an empty one, in the same
way in both forms, and only `emptyFor` knows how the form is chosen.
-/

namespace HopSampler

/-- The first element whose key came up before, in the list or in `seen`. -/
def firstRepeat? [BEq κ] [Hashable κ] (key : α → κ) (seen : Std.HashSet κ) : List α → Option α
  | [] => none
  | a :: rest => if key a ∈ seen then some a else firstRepeat? key (seen.insert (key a)) rest

/-- IDs and their rows. -/
inductive IdMap where
  /-- A slot for every ID up to the greatest, empty where the ID is not listed. -/
  | dense (slots : Array (Option Nat))
  /-- Rows by ID. -/
  | sparse (rowOf : Std.HashMap Id Nat)

namespace IdMap

/-! ### Reading -/

/-- The row of an ID. -/
def get? (m : IdMap) (id : Id) : Option Nat :=
  match m with
  | .dense slots => slots[id.toNat]?.join
  | .sparse rowOf => rowOf[id]?

/-- The rows that are listed, in no order. -/
def rows (m : IdMap) : List Nat :=
  match m with
  | .dense slots => slots.toList.reduceOption
  | .sparse rowOf => rowOf.toList.map (·.2)

theorem mem_rows_of_get? {m : IdMap} {id : Id} {row : Nat} (h : m.get? id = some row) :
    row ∈ m.rows := by
  cases m with
  | dense slots =>
    have hslot : slots[id.toNat]? = some (some row) := Option.join_eq_some_iff.1 h
    exact List.mem_filterMap.2 ⟨some row, Array.mem_toList_iff.2 (Array.mem_of_getElem? hslot), rfl⟩
  | sparse rowOf =>
    exact List.mem_map.2 ⟨(id, row), Std.HashMap.mem_toList_iff_getElem?_eq_some.2 h, rfl⟩

/-- The number of IDs. -/
def size (m : IdMap) : Nat :=
  match m with
  | .dense slots => slots.toList.countP (·.isSome)
  | .sparse rowOf => rowOf.size

/-- The greatest row. -/
def maxRow? (m : IdMap) : Option Nat := m.rows.max?

/-! ### Filling -/

/-- Set the row of an ID. A dense map passes over IDs without a slot. -/
def put (m : IdMap) (id : Id) (row : Nat) : IdMap :=
  match m with
  | .dense slots => .dense (slots.setIfInBounds id.toNat (some row))
  | .sparse rowOf => .sparse (rowOf.insert id row)

/-- Set the rows of many IDs, one after the other. -/
def putAll (m : IdMap) (pairs : List (Id × Nat)) : IdMap :=
  pairs.foldl (fun m pair ↦ m.put pair.1 pair.2) m

/-- Set the row of an ID that has none. -/
def add (m : IdMap) (pair : Id × Nat) : Except Error IdMap :=
  if (m.get? pair.1).isSome then .error (.duplicateId pair.1) else .ok (m.put pair.1 pair.2)

/-- Fill an empty map. That no row is shared is checked before the first ID is put in. -/
def fill (empty : IdMap) (pairs : List (Id × Nat)) : Except Error IdMap :=
  match firstRepeat? (·.2) ∅ pairs with
  | some (id, row) => .error (.input (.sharedRow row id))
  | none => pairs.foldlM add empty

/-! ### Choosing the form -/

/-- The number of slots up to the greatest ID, where a word can hold it. -/
def span? (pairs : List (Id × Nat)) : Option Nat :=
  match (pairs.map (·.1)).max? with
  | none => some 0
  | some id => if id.toNat + 1 < UInt64.size then some (id.toNat + 1) else none

/-- The most slots that a dense map of `count` IDs may have: four for each, as far as words go, and
in a small map 64. -/
def greatestSpan (count : Nat) : Nat := max (min (4 * count) (UInt64.size - 1)) 64

/-- An empty map in the form that suits the pairs. -/
def emptyFor (pairs : List (Id × Nat)) : IdMap :=
  match span? pairs with
  | some span =>
    if span ≤ greatestSpan pairs.length then .dense (.replicate span none) else .sparse ∅
  | none => .sparse ∅

/-- The map that lists each ID with its row. -/
def ofPairs (pairs : List (Id × Nat)) : Except Error IdMap := fill (emptyFor pairs) pairs

/-- The map of pairs that are known to be one-to-one. -/
def ofDistinct (pairs : List (Id × Nat)) : IdMap := putAll (emptyFor pairs) pairs

/-- The map that gives each ID its position. -/
def ofIds (ids : List Id) : Except Error IdMap := ofPairs ids.zipIdx

/-- The map under which the first `n` numbers are their own rows. -/
def identity (n : Nat) : IdMap := .dense ((Array.range n).map some)

end IdMap

end HopSampler
