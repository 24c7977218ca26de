import HopSampler.Dataset.Basic

/-!
# The ring dataset

Users and items in equal number, each numbered around a ring. A user is linked to the items that
follow its own number, an item to the items from two places on. Every feature row holds its own
number in every column and every label is its own number, so it is easy to see whether features,
labels and IDs stay together.
-/

namespace HopSampler.Dataset

namespace Ring

/-- The type of users. -/
def user : NodeType := ⟨"user"⟩

/-- The type of items. -/
def item : NodeType := ⟨"item"⟩

/-- Links from users to items. -/
def userToItem : EdgeType := ⟨user, "u2i", item⟩

/-- Links from items to items. -/
def itemToItem : EdgeType := ⟨item, "i2i", item⟩

/-- The pairs of a node and the number of one of its links. -/
def slots (count degree : Nat) : List (Nat × Nat) :=
  (List.range count).flatMap fun v ↦ (List.range degree).map fun k ↦ (v, k)

/-- Links from every node to the `degree` nodes that start `offset` places on. -/
def edges (type : EdgeType) (count degree offset : Nat) : EdgeList where
  type := type
  sources := (slots count degree).map fun (v, _) ↦ v.toUInt64
  targets := (slots count degree).map fun (v, k) ↦ ((v + k + offset) % count).toUInt64
  edgeIds := some ((slots count degree).map fun (v, k) ↦ (v * degree + k).toUInt64)
  placement := .zeroCopy

/-- A table whose rows hold their own number. -/
def table (rows width : Nat) : TableData where
  ids := none
  rows := (List.range rows).map fun i ↦ List.replicate width i.toUInt64.toFloat32
  splitRatio := 0.2
  cold := .zeroCopy

/-- Labels that are their own number. -/
def labels (count : Nat) : List Int64 := (List.range count).map Int64.ofNat

end Ring

/-- `count` users and `count` items, each with `degree` links, and features of the given width. -/
def ring (count degree width : Nat) : Dataset where
  nodeCounts := .ofList [(Ring.user, count.toUInt64), (Ring.item, count.toUInt64)]
  edges := [Ring.edges Ring.userToItem count degree 1, Ring.edges Ring.itemToItem count degree 2]
  nodeFeatures := .ofList [(Ring.user, Ring.table count width), (Ring.item, Ring.table count width)]
  edgeFeatures := [⟨Ring.userToItem, Ring.table (count * degree) width⟩,
    ⟨Ring.itemToItem, Ring.table (count * degree) width⟩]
  nodeLabels := .ofList [(Ring.user, Ring.labels count), (Ring.item, Ring.labels count)]

end HopSampler.Dataset
