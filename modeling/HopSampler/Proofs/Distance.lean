import HopSampler.Proofs.WellFormed

/-!
# Distances in a graph

How far a node is from seeds: the least number of edges that lead to it, whichever edge types they
are of (`Graph.AtDistance`). Nothing here speaks of a walk.

**Edges are entries.** The arcs of a topology, each with the node whose row it stands in, are listed
once (`Topology.entries`). On a well-formed graph the rows are those of the nodes of the source
type, so the entries of a node are its arcs (`Fits.entries_eq`), and one more edge leads to wherever
an arc does (`reachedIn_succ_iff`).
-/

namespace HopSampler

namespace Topology

/-- The source nodes. -/
def nodes (t : Topology) : List Id := (List.range t.numNodes).map Nat.toUInt64

/-- The arcs of a node; none where it has no row. -/
def arcsOf (t : Topology) (node : Id) : List Arc := ((t.neighbors? node).getD #[]).toList

/-- The edges row by row, each with its source. -/
def entries (t : Topology) : List (Id × Arc) :=
  t.rows.toList.zipIdx.flatMap fun (row, source) ↦ row.toList.map (source.toUInt64, ·)

theorem arcsOf_eq {t : Topology} {node : Id} {row : Array Arc} (h : t.neighbors? node = some row) :
    t.arcsOf node = row.toList := by
  rw [arcsOf, h, Option.getD_some]

theorem mem_arcsOf_iff {t : Topology} {node : Id} {arc : Arc} :
    arc ∈ t.arcsOf node ↔ ∃ row, t.neighbors? node = some row ∧ arc ∈ row := by
  rw [arcsOf]
  cases t.neighbors? node <;> simp

/-- A node with an arc is a source node. -/
theorem mem_nodes_of_mem_arcsOf {t : Topology} {node : Id} {arc : Arc} (h : arc ∈ t.arcsOf node) :
    node ∈ t.nodes := by
  obtain ⟨row, hrow, -⟩ := mem_arcsOf_iff.1 h
  have hlt : node.toNat < t.rows.size := (Array.getElem?_eq_some_iff.1 hrow).1
  exact List.mem_map.2 ⟨node.toNat, List.mem_range.2 hlt, UInt64.ofNat_toNat⟩

private theorem le_foldl_max (rows : List (Array Arc)) (m : Nat) :
    m ≤ rows.foldl (fun m row ↦ max m row.size) m ∧
      ∀ row ∈ rows, row.size ≤ rows.foldl (fun m row ↦ max m row.size) m := by
  induction rows generalizing m with
  | nil => exact ⟨Nat.le_refl m, nofun⟩
  | cons first rows ih =>
    obtain ⟨hstart, hrows⟩ := ih (max m first.size)
    refine ⟨Nat.le_trans (Nat.le_max_left _ _) hstart, List.forall_mem_cons.2 ⟨?_, hrows⟩⟩
    exact Nat.le_trans (Nat.le_max_right _ _) hstart

/-- No node has more arcs than the greatest degree. -/
theorem length_arcsOf_le (t : Topology) (node : Id) : (t.arcsOf node).length ≤ t.maxDegree := by
  rcases hrow : t.neighbors? node with - | row
  · rw [arcsOf, hrow]
    exact Nat.zero_le _
  · rw [arcsOf_eq hrow, Array.length_toList, maxDegree, ← Array.foldl_toList]
    exact (le_foldl_max t.rows.toList 0).2 row
      (Array.mem_toList_iff.2 (Array.mem_of_getElem? hrow))

end Topology

namespace Graph

/-- The edges of an edge type, each with its source. -/
def entries (g : Graph) (e : EdgeType) : List (Id × Arc) :=
  match g.topology e with
  | .ok topology => topology.entries
  | .error _ => []

/-- A node can be reached from seeds along so many edges. -/
def ReachedIn (g : Graph) (seeds : NodeType → List Id) : Nat → NodeType → Id → Prop
  | 0, t, node => node ∈ seeds t
  | n + 1, t, node => ∃ e ∈ g.edgeTypes, e.target = t ∧
      ∃ entry ∈ g.entries e, entry.2.target = node ∧ ReachedIn g seeds n e.source entry.1

instance ReachedIn.decidable (g : Graph) (seeds : NodeType → List Id) :
    ∀ n t node, Decidable (g.ReachedIn seeds n t node)
  | 0, t, node => inferInstanceAs (Decidable (node ∈ seeds t))
  | n + 1, t, node =>
    have := ReachedIn.decidable g seeds n
    inferInstanceAs (Decidable (∃ e ∈ g.edgeTypes, e.target = t ∧
      ∃ entry ∈ g.entries e, entry.2.target = node ∧ g.ReachedIn seeds n e.source entry.1))

/-- A node can be reached from seeds along so many edges and no fewer. -/
def AtDistance (g : Graph) (seeds : NodeType → List Id) (d : Nat) (t : NodeType) (node : Id) : Prop :=
  g.ReachedIn seeds d t node ∧ ∀ k < d, ¬g.ReachedIn seeds k t node

instance (g : Graph) (seeds : NodeType → List Id) (d : Nat) (t : NodeType) (node : Id) :
    Decidable (g.AtDistance seeds d t node) :=
  inferInstanceAs (Decidable (_ ∧ ∀ k < d, ¬g.ReachedIn seeds k t node))

/-- The edges of an edge type whose sources are at a distance below a bound. -/
def entriesWithin (g : Graph) (seeds : NodeType → List Id) (bound : Nat) (e : EdgeType) :
    List (Id × Arc) :=
  (g.entries e).filter fun entry ↦ ∃ d < bound, g.AtDistance seeds d e.source entry.1

variable {g : Graph} {e : EdgeType} {topology : Topology}

theorem entries_eq (htop : g.topology e = .ok topology) : g.entries e = topology.entries := by
  rw [entries, htop]

theorem mem_edgeTypes_of_topology (htop : g.topology e = .ok topology) : e ∈ g.edgeTypes :=
  List.mem_map.2 ⟨_, topology_eq_ok_iff.1 htop, rfl⟩

theorem exists_topology_of_mem_entries {entry : Id × Arc} (h : entry ∈ g.entries e) :
    ∃ topology, g.topology e = .ok topology := by
  rw [entries] at h
  split at h
  · next topology htop => exact ⟨topology, htop⟩
  · exact absurd h List.not_mem_nil

/-! ### Rows of nodes -/

/-- There are no more rows than IDs. -/
theorem Fits.numNodes_lt (h : g.Fits e topology) : topology.numNodes < UInt64.size := by
  obtain ⟨count, -, hrows⟩ := h.rows
  rw [hrows]
  exact count.toNat_lt

/-- **The rows are those of the nodes of the source type.** -/
theorem Fits.mem_nodes_iff (h : g.Fits e topology) {node : Id} :
    node ∈ topology.nodes ↔ g.HasNode e.source node := by
  obtain ⟨count, hcount, hrows⟩ := h.rows
  have hbound := h.numNodes_lt
  rw [Topology.nodes, List.mem_map]
  constructor
  · rintro ⟨i, hi, rfl⟩
    rw [List.mem_range] at hi
    refine ⟨count, hcount, UInt64.lt_iff_toNat_lt.2 ?_⟩
    rw [toNat_toUInt64 (Nat.lt_trans hi hbound), ← hrows]
    exact hi
  · rintro ⟨count', hcount', hlt⟩
    obtain rfl : count' = count := Except.ok.inj (hcount'.symm.trans hcount)
    refine ⟨node.toNat, List.mem_range.2 ?_, UInt64.ofNat_toNat⟩
    rw [hrows]
    exact UInt64.lt_iff_toNat_lt.1 hlt

theorem Fits.nodes_nodup (h : g.Fits e topology) : topology.nodes.Nodup := by
  refine List.Nodup.map_on (fun i hi j hj heq ↦ ?_) List.nodup_range
  have hbound := h.numNodes_lt
  rw [List.mem_range] at hi hj
  exact toUInt64_inj (Nat.lt_trans hi hbound) (Nat.lt_trans hj hbound) heq

/-- **The entries are the arcs, node by node.** -/
theorem Fits.entries_eq (h : g.Fits e topology) :
    topology.entries = topology.nodes.flatMap fun node ↦ (topology.arcsOf node).map (node, ·) := by
  have hrows : topology.rows.toList.zipIdx =
      (List.range topology.numNodes).map fun i ↦ (topology.rows[i]?.getD #[], i) := by
    refine List.ext_getElem? fun i ↦ ?_
    by_cases hi : i < topology.rows.size <;>
      simp [Topology.numNodes, hi]
  rw [Topology.entries, hrows, Topology.nodes, List.flatMap_map, List.flatMap_map]
  refine List.flatMap_congr fun i hi ↦ ?_
  have hi : i.toUInt64.toNat = i :=
    toNat_toUInt64 (Nat.lt_trans (List.mem_range.1 hi) h.numNodes_lt)
  rw [Topology.arcsOf, Topology.neighbors?, hi]

theorem Fits.mem_entries_iff (h : g.Fits e topology) {node : Id} {arc : Arc} :
    (node, arc) ∈ topology.entries ↔ arc ∈ topology.arcsOf node := by
  rw [h.entries_eq]
  simp only [List.mem_flatMap, List.mem_map, Prod.mk.injEq]
  constructor
  · rintro ⟨_, -, _, harc, rfl, rfl⟩
    exact harc
  · intro harc
    exact ⟨node, Topology.mem_nodes_of_mem_arcsOf harc, arc, harc, rfl, rfl⟩

/-- Entries chosen by their sources are those of the sources chosen. -/
private theorem filter_flatMap_pairs {p : Id → Bool} {f : Id → List Arc} (nodes : List Id) :
    (nodes.flatMap fun node ↦ (f node).map (node, ·)).filter (fun entry ↦ p entry.1) =
      (nodes.filter p).flatMap fun node ↦ (f node).map (node, ·) := by
  induction nodes with
  | nil => rfl
  | cons node nodes ih =>
    rw [List.flatMap_cons, List.filter_append, ih, List.filter_cons]
    by_cases hnode : p node = true
    · have hall : ((f node).map (node, ·)).filter (fun entry ↦ p entry.1) =
          (f node).map (node, ·) := by
        rw [List.filter_eq_self, List.forall_mem_map]
        exact fun _ _ ↦ hnode
      rw [hall, if_pos hnode, List.flatMap_cons]
    · have hnone : ((f node).map (node, ·)).filter (fun entry ↦ p entry.1) = [] := by
        rw [List.filter_eq_nil_iff, List.forall_mem_map]
        exact fun _ _ ↦ hnode
      rw [hnone, if_neg hnode, List.nil_append]

/-- The edges below a distance are the arcs of the nodes below it. -/
theorem Fits.entriesWithin_eq (h : g.Fits e topology) (htop : g.topology e = .ok topology)
    (seeds : NodeType → List Id) (bound : Nat) :
    g.entriesWithin seeds bound e =
      (topology.nodes.filter fun node ↦ ∃ d < bound, g.AtDistance seeds d e.source node).flatMap
        fun node ↦ (topology.arcsOf node).map (node, ·) := by
  rw [entriesWithin, Graph.entries_eq htop, h.entries_eq]
  exact filter_flatMap_pairs
    (p := fun node ↦ decide (∃ d < bound, g.AtDistance seeds d e.source node)) _

/-! ### One more edge -/

/-- **One more edge leads to wherever an arc does.** -/
theorem reachedIn_succ_iff (hg : g.WellFormed) {seeds : NodeType → List Id} {n : Nat} {t : NodeType}
    {node : Id} : g.ReachedIn seeds (n + 1) t node ↔
      ∃ e topology source, ∃ arc ∈ topology.arcsOf source, g.topology e = .ok topology ∧
        e.target = t ∧ arc.target = node ∧ g.ReachedIn seeds n e.source source := by
  constructor
  · rintro ⟨e, -, htarget, ⟨source, arc⟩, hentry, hnode, hsource⟩
    obtain ⟨topology, htop⟩ := exists_topology_of_mem_entries hentry
    rw [entries_eq htop, (hg htop).mem_entries_iff] at hentry
    exact ⟨e, topology, source, arc, hentry, htop, htarget, hnode, hsource⟩
  · rintro ⟨e, topology, source, arc, harc, htop, htarget, hnode, hsource⟩
    refine ⟨e, mem_edgeTypes_of_topology htop, htarget, (source, arc), ?_, hnode, hsource⟩
    rwa [entries_eq htop, (hg htop).mem_entries_iff]

end Graph

end HopSampler
