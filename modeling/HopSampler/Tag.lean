/-!
# Node types, edge types

A heterogeneous graph keeps one space of IDs per *node type* and one per *edge type*. A node type is
a name; an edge type is a source type, a relation and a destination type. Both are called tags here.

**One order for both.** A tag spells a path of names, and tags are ordered by their paths, name by
name and each name by code point. Everything that is listed by type (outputs, requests, files) is
listed in this order, and the position of an edge type in it names that type's random streams.
-/

namespace HopSampler

/-- An ID of a node or of an edge, in the space of its type. -/
abbrev Id := UInt64

/-! ### Tags -/

/-- The name of a node type. -/
structure NodeType where
  name : String
  deriving DecidableEq

/-- The source type, relation and destination type of an edge type. -/
structure EdgeType where
  source : NodeType
  relation : String
  target : NodeType
  deriving DecidableEq

/-- The names a tag spells; they determine it. -/
class Tag (κ : Type) where
  path : κ → List String
  eq_of_path : ∀ {a b : κ}, path a = path b → a = b

instance : Tag NodeType where
  path t := [t.name]
  eq_of_path {a b} h := by cases a; cases b; simpa using h

instance : Tag EdgeType where
  path e := [e.source.name, e.relation, e.target.name]
  eq_of_path {a b} h := by
    obtain ⟨⟨_⟩, _, ⟨_⟩⟩ := a
    obtain ⟨⟨_⟩, _, ⟨_⟩⟩ := b
    simpa using h

/-- Plain names, where types are listed by how they are shown. -/
instance : Tag String where
  path s := [s]
  eq_of_path h := by simpa using h

namespace Tag

variable {κ : Type} [Tag κ]

/-- `a` is listed before `b`. -/
def Before (a b : κ) : Prop := path a < path b

instance : DecidableRel (Before (κ := κ)) := fun a b ↦ inferInstanceAs (Decidable (path a < path b))

theorem Before.trans {a b c : κ} (hab : Before a b) (hbc : Before b c) : Before a c :=
  List.lt_trans hab hbc

theorem Before.irrefl (a : κ) : ¬Before a a := List.lt_irrefl _

theorem Before.ne {a b : κ} (h : Before a b) : a ≠ b := fun e ↦ Before.irrefl b (e ▸ h)

theorem before_of_not_before {a b : κ} (hab : ¬Before a b) (hne : a ≠ b) : Before b a := by
  by_cases h : Before b a
  · exact h
  · exact absurd (eq_of_path (Std.Trichotomous.trichotomous (r := (· < ·)) _ _ hab h)) hne

end Tag

namespace NodeType

/-- A node type is shown as its name. -/
def text (t : NodeType) : String := t.name

end NodeType

namespace EdgeType

/-- An edge type is shown as a triple of names. -/
def text (e : EdgeType) : String :=
  "(" ++ e.source.name ++ ", " ++ e.relation ++ ", " ++ e.target.name ++ ")"

/-- Source and destination share one space of node IDs. -/
def IsHomogeneous (e : EdgeType) : Prop := e.source = e.target

instance (e : EdgeType) : Decidable e.IsHomogeneous :=
  inferInstanceAs (Decidable (e.source = e.target))

/-! ### Reversal -/

/-- The relation seen from the other end: the mark `rev_` is taken off where the name starts with
it, and put in front elsewhere. -/
def reverseRelation (relation : String) : String :=
  match relation.toList with
  | 'r' :: 'e' :: 'v' :: '_' :: base => String.ofList base
  | _ => "rev_" ++ relation

/-- The edge type under which messages travel back. -/
def reverse (e : EdgeType) : EdgeType :=
  ⟨e.target, reverseRelation e.relation, e.source⟩

@[simp] theorem reverse_source (e : EdgeType) : e.reverse.source = e.target := rfl

@[simp] theorem reverse_target (e : EdgeType) : e.reverse.target = e.source := rfl

end EdgeType

end HopSampler
