import HopSampler.Error
import HopSampler.SortedMap
import Std.Data.HashMap

/-!
# Rosters

The nodes of one type that a request has met, in the order in which it met them. The place of a node
in its roster stands for the node everywhere in the output, so places never change: a roster only
grows at its end, and a node that is already in keeps its place.

The look-up from IDs to places is carried along and is exact: it names a place for an ID precisely
when that ID stands there. A roster is therefore the list of its IDs and nothing more.
-/

namespace HopSampler

/-- IDs in the order they were met. -/
structure Roster where
  ids : Array Id
  places : Std.HashMap Id Nat
  places_eq : ∀ (id : Id) (place : Nat), places[id]? = some place ↔ ids[place]? = some id

namespace Roster

/-- Nobody met yet. -/
def empty : Roster := ⟨#[], ∅, by simp⟩

instance : Inhabited Roster := ⟨empty⟩

/-- The number of nodes met. -/
def size (r : Roster) : Nat := r.ids.size

/-- The place of a node, if it was met. -/
def place? (r : Roster) (id : Id) : Option Nat := r.places[id]?

private theorem places_eq_push {ids : Array Id} {places : Std.HashMap Id Nat}
    (h : ∀ (id : Id) (place : Nat), places[id]? = some place ↔ ids[place]? = some id) {new : Id}
    (hnew : places[new]? = none) (id : Id) (place : Nat) :
    (places.insert new ids.size)[id]? = some place ↔ (ids.push new)[place]? = some id := by
  rw [Std.HashMap.getElem?_insert, Array.getElem?_push]
  by_cases hid : new = id
  · subst hid
    have hnone : ∀ p : Nat, ids[p]? ≠ some new := fun p hp ↦ by
      simp [(h new p).2 hp] at hnew
    by_cases hp : place = ids.size
    · simp [hp]
    · simp [hp, hnone place, eq_comm]
  · have hne : (new == id) = false := by simpa using hid
    rw [hne, if_neg Bool.false_ne_true, h]
    by_cases hp : place = ids.size
    · subst hp
      simp [hid]
    · simp [hp]

/-- Meet a node: the place it has or is given. -/
def claim (r : Roster) (id : Id) : Nat × Roster :=
  match h : r.places[id]? with
  | some place => (place, r)
  | none =>
    (r.ids.size, ⟨r.ids.push id, r.places.insert id r.ids.size, places_eq_push r.places_eq h⟩)

/-- Meet a list of nodes. -/
def claimAll (r : Roster) (ids : List Id) : Roster := ids.foldl (fun r id ↦ (r.claim id).2) r

/-- The nodes met since there were `start` of them. -/
def since (r : Roster) (start : Nat) : List Id := r.ids.toList.drop start

end Roster

/-- Rosters by node type. -/
abbrev Rosters := SortedMap NodeType Roster

namespace Rosters

/-- The roster of a type, empty where none of its nodes was met. -/
def roster (r : Rosters) (t : NodeType) : Roster := r.getD t .empty

/-- The number of nodes met, by type. -/
def sizes (r : Rosters) : SortedMap NodeType Nat := r.mapEntries fun _ roster ↦ roster.size

/-- Meet a list of nodes of one type. A type none of whose nodes is met gets no roster. -/
def claimAll (r : Rosters) (t : NodeType) (ids : List Id) : Rosters :=
  if ids = [] then r else r.insert t ((r.roster t).claimAll ids)

/-- The places of a list of nodes; fails at the first one that was not met. -/
def placesOf (r : Rosters) (t : NodeType) (ids : List Id) : Except Error (List Nat) :=
  ids.mapM fun id ↦
    match (r.roster t).place? id with
    | some place => .ok place
    | none => .error (.unknownNode (.sampled t) id 0)

end Rosters

end HopSampler
