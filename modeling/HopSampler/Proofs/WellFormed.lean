import HopSampler.Graph
import HopSampler.Proofs.Checks
import HopSampler.Proofs.Maps

/-!
# Well-formed graphs

A graph is well-formed when every topology has one row for each node of its source type and every
destination is a node of its destination type. This is all that sampling relies on: a node that is
in range has a row under every edge type that leaves its type (`Fits.exists_row`), and whatever that
row leads to is in range again (`Fits.hasNode_target`).

Being well-formed is decidable, by looking at every arc.
-/

namespace HopSampler

/-! ### Numbers as words -/

/-- A number that a word holds is read off it. -/
theorem toNat_toUInt64 {n : Nat} (h : n < UInt64.size) : n.toUInt64.toNat = n :=
  UInt64.toNat_ofNat_of_lt' h

/-- Numbers that words hold are told apart as words. -/
theorem toUInt64_inj {m n : Nat} (hm : m < UInt64.size) (hn : n < UInt64.size)
    (h : m.toUInt64 = n.toUInt64) : m = n := by
  rw [← toNat_toUInt64 hm, h, toNat_toUInt64 hn]

instance lawfulOrderMax_uint64 : Std.LawfulOrderMax UInt64 := .of_max_le_iff
  (fun a b c ↦ by
    rw [show max a b = if a ≤ b then b else a from rfl]
    split <;> grind)
  (fun a b ↦ by
    rw [show max a b = if a ≤ b then b else a from rfl]
    split <;> simp)

theorem toNat_max (m n : UInt64) : (max m n).toNat = max m.toNat n.toNat := by
  rw [show max m n = if m ≤ n then n else m from rfl]
  split
  · next h => exact (Nat.max_eq_right (UInt64.le_iff_toNat_le.1 h)).symm
  · next h =>
    have hlt := UInt64.lt_iff_toNat_lt.1 (UInt64.not_le.1 h)
    exact (Nat.max_eq_left (Nat.le_of_lt hlt)).symm

namespace Graph

/-- `id` is a node of type `t`. -/
def HasNode (g : Graph) (t : NodeType) (id : Id) : Prop :=
  ∃ count, g.numNodes t = .ok count ∧ id < count

/-- A topology fits a graph under an edge type. -/
structure Fits (g : Graph) (e : EdgeType) (topology : Topology) : Prop where
  /-- There is one row for each node of the source type. -/
  rows : ∃ count, g.numNodes e.source = .ok count ∧ topology.numNodes = count.toNat
  /-- Every destination is a node of the destination type. -/
  targets : ∀ arc ∈ topology.arcs, g.HasNode e.target arc.target

/-- Every topology fits. -/
def WellFormed (g : Graph) : Prop :=
  ∀ {e : EdgeType} {topology : Topology}, g.topology e = .ok topology → g.Fits e topology

/-! ### Reading the registries -/

variable {g : Graph} {e : EdgeType} {topology : Topology} {t : NodeType} {id : Id}

theorem numNodes_eq_ok_iff {count : UInt64} :
    g.numNodes t = .ok count ↔ g.nodeCounts.get? t = some count := by
  rw [numNodes]
  cases g.nodeCounts.get? t <;> simp

theorem topology_eq_ok_iff : g.topology e = .ok topology ↔ (e, topology) ∈ g.topologies.entries := by
  rw [← SortedMap.get?_eq_some_iff, Graph.topology]
  cases g.topologies.get? e <;> simp

/-- The edge types that leave a node type are those of the graph with that source. -/
theorem mem_edgeTypesFrom_iff :
    (e, topology) ∈ g.edgeTypesFrom t ↔ g.topology e = .ok topology ∧ e.source = t := by
  simp [edgeTypesFrom, topology_eq_ok_iff]

theorem mem_arcs_of_neighbors? {row : Array Arc} {arc : Arc}
    (hrow : topology.neighbors? id = some row) (harc : arc ∈ row) : arc ∈ topology.arcs := by
  rw [Topology.neighbors?] at hrow
  exact List.mem_flatMap.2
    ⟨row, Array.mem_toList_iff.2 (Array.mem_of_getElem? hrow), Array.mem_toList_iff.2 harc⟩

theorem neighbors_eq_ok_iff {row : Array Arc} : g.neighbors e id = .ok row ↔
    ∃ topology, g.topology e = .ok topology ∧ topology.neighbors? id = some row := by
  rw [neighbors, bind_eq_ok_iff]
  refine exists_congr fun topology ↦ and_congr_right fun _ ↦ ?_
  cases topology.neighbors? id <;> simp

/-! ### What fitting gives -/

/-- A node in range has a row. -/
theorem Fits.exists_row (h : g.Fits e topology) (hid : g.HasNode e.source id) :
    ∃ row, topology.neighbors? id = some row := by
  obtain ⟨count, hcount, hrows⟩ := h.rows
  obtain ⟨count', hcount', hlt⟩ := hid
  obtain rfl : count' = count := Except.ok.inj (hcount'.symm.trans hcount)
  have hbound : id.toNat < topology.rows.size := by
    rw [show topology.rows.size = count'.toNat from hrows]
    exact UInt64.lt_iff_toNat_lt.1 hlt
  exact ⟨topology.rows[id.toNat], Array.getElem?_eq_getElem hbound⟩

/-- What a row leads to is in range. -/
theorem Fits.hasNode_target (h : g.Fits e topology) {row : Array Arc} {arc : Arc}
    (hrow : topology.neighbors? id = some row) (harc : arc ∈ row) :
    g.HasNode e.target arc.target :=
  h.targets arc (mem_arcs_of_neighbors? hrow harc)

/-! ### Deciding -/

instance (g : Graph) (t : NodeType) (id : Id) : Decidable (g.HasNode t id) :=
  match h : g.nodeCounts.get? t with
  | some count => decidable_of_iff (id < count) (by simp [HasNode, numNodes, h])
  | none => .isFalse (by simp [HasNode, numNodes, h])

private theorem fits_iff :
    g.Fits e topology ↔ (g.nodeCounts.get? e.source).map (·.toNat) = some topology.numNodes ∧
      ∀ arc ∈ topology.arcs, g.HasNode e.target arc.target := by
  constructor
  · intro h
    obtain ⟨count, hcount, hrows⟩ := h.rows
    exact ⟨by rw [numNodes_eq_ok_iff.1 hcount, hrows, Option.map_some], h.targets⟩
  · rintro ⟨hrows, htargets⟩
    obtain ⟨count, hcount, hnum⟩ := Option.map_eq_some_iff.1 hrows
    exact ⟨⟨count, numNodes_eq_ok_iff.2 hcount, hnum.symm⟩, htargets⟩

instance (g : Graph) (e : EdgeType) (topology : Topology) : Decidable (g.Fits e topology) :=
  decidable_of_iff _ fits_iff.symm

instance (g : Graph) : Decidable g.WellFormed :=
  decidable_of_iff (∀ a ∈ g.topologies.entries, g.Fits a.1 a.2)
    ⟨fun h _ _ htop ↦ h _ (topology_eq_ok_iff.1 htop), fun h _ ha ↦ h (topology_eq_ok_iff.2 ha)⟩

end Graph

end HopSampler
