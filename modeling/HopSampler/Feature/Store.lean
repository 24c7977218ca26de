import HopSampler.Feature.Table
import HopSampler.SortedMap

/-!
# Feature stores

Feature tables by what they describe: at most one per node type and one per edge type. A table takes
the name of what it describes when it is put in, and a later one replaces an earlier one.
-/

namespace HopSampler

/-- What a table in a store describes. -/
inductive Subject where
  | node (type : NodeType)
  | edge (type : EdgeType)
  deriving DecidableEq

namespace Subject

/-- The subject as an entity. -/
def entity : Subject → Entity
  | .node t => .nodes t
  | .edge e => .edges e

/-- The failure to find its table. -/
def missing : Subject → Error
  | .node t => .unknownNodeType t
  | .edge e => .unknownEdgeType e

end Subject

/-- Tables by node type and by edge type. -/
structure FeatureStore where
  nodes : SortedMap NodeType FeatureTable
  edges : SortedMap EdgeType FeatureTable

namespace FeatureStore

/-- A store without tables. -/
def empty : FeatureStore := ⟨.empty, .empty⟩

/-- Put a table in. -/
def register (s : FeatureStore) (subject : Subject) (table : FeatureTable) : FeatureStore :=
  let table := { table with entity := subject.entity }
  match subject with
  | .node t => { s with nodes := s.nodes.insert t table }
  | .edge e => { s with edges := s.edges.insert e table }

/-- The table of a subject, if there is one. -/
def find? (s : FeatureStore) : Subject → Option FeatureTable
  | .node t => s.nodes.get? t
  | .edge e => s.edges.get? e

/-- Whether a subject has a table. -/
def contains (s : FeatureStore) (subject : Subject) : Bool := (s.find? subject).isSome

/-- The table of a subject. -/
def table (s : FeatureStore) (subject : Subject) : Except Error FeatureTable :=
  match s.find? subject with
  | some table => .ok table
  | none => .error subject.missing

/-- The number of tables. -/
def size (s : FeatureStore) : Nat := s.nodes.size + s.edges.size

/-- What has a table: node types, then edge types, each in order. -/
def subjects (s : FeatureStore) : List Subject :=
  s.nodes.keys.map .node ++ s.edges.keys.map .edge

/-- The rows of a list of IDs of a subject, as seen from a device. -/
def lookup (s : FeatureStore) (subject : Subject) (ids : List Id) (device : UInt64) :
    Delayed Matrix :=
  match s.table subject with
  | .ok table => table.lookup ids device
  | .error e => .now (.error e)

/-- The same under a deadline. -/
def lookupWithin (s : FeatureStore) (subject : Subject) (ids : List Id) (device : UInt64)
    (deadline : Milliseconds) : Delayed Matrix :=
  match s.table subject with
  | .ok table => table.lookupWithin ids device deadline
  | .error e => .now (.error e)

end FeatureStore

end HopSampler
