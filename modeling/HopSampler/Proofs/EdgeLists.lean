import HopSampler.Proofs.Choosing
import HopSampler.Proofs.CountingSort

/-!
# Topologies of edge lists

What a topology says of an edge list is said by positions: the arcs of a node are those of the
positions at which it is the source (`Topology.arcsFrom`). Edges are placed in compressed arrays by
counting, and a topology reads those arrays. There every row has the arcs of its node in the order
of the list (`CompressedRows.Places`), and putting a row in order only rearranges it
(`Topology.settle_perm`). So every row has the arcs of its node as often as the list has them, and
all rows together have as many arcs as the list has edges.
-/

namespace HopSampler.Topology

open CompressedRows

/-! ### Reading an edge list -/

/-- The ID of the edge at a position: the given one, or else the position. -/
def edgeAt (edges? : Option (List Id)) (k : Nat) : Option Id :=
  match edges? with
  | some edges => edges[k]?
  | none => some k.toUInt64

/-- The arc at a position, where `node` is the source there. -/
def arcFrom? (sources targets : List Id) (edges? : Option (List Id)) (node : Id) (k : Nat) :
    Option Arc :=
  match sources[k]?, targets[k]?, edgeAt edges? k with
  | some source, some target, some edge => if source = node then some ⟨target, edge⟩ else none
  | _, _, _ => none

/-- The arcs of a node in an edge list, in the order of the list. -/
def arcsFrom (sources targets : List Id) (edges? : Option (List Id)) (node : Id) : List Arc :=
  (List.range sources.length).filterMap (arcFrom? sources targets edges? node)

variable {sources targets : List Id} {edges? : Option (List Id)} {node : Id}

theorem arcFrom?_eq_some_iff {k : Nat} {arc : Arc} :
    arcFrom? sources targets edges? node k = some arc ↔ sources[k]? = some node ∧
      targets[k]? = some arc.target ∧ edgeAt edges? k = some arc.edge := by
  rw [arcFrom?]
  split
  · next source target edge hsource htarget hedge =>
    simp only [hsource, htarget, hedge, Option.some.injEq]
    obtain ⟨t, e⟩ := arc
    by_cases h : source = node <;> simp [h]
  · next hnone =>
    refine ⟨nofun, fun ⟨hsource, htarget, hedge⟩ ↦ (hnone _ _ _ hsource htarget hedge).elim⟩

theorem mem_arcsFrom_iff {arc : Arc} : arc ∈ arcsFrom sources targets edges? node ↔
    ∃ k, sources[k]? = some node ∧ targets[k]? = some arc.target ∧
      edgeAt edges? k = some arc.edge := by
  simp only [arcsFrom, List.mem_filterMap, arcFrom?_eq_some_iff]
  refine exists_congr fun k ↦ ⟨fun h ↦ h.2, fun h ↦ ⟨?_, h⟩⟩
  exact List.mem_range.2 (List.getElem?_eq_some_iff.1 h.1).1

/-! ### The topology of an edge list -/

/-- A topology has just the edges of an edge list. -/
structure Lists (t : Topology) (sources targets : List Id) (edges? : Option (List Id)) : Prop where
  /-- Without edges there are no rows. -/
  numNodes_nil : sources = [] → t.numNodes = 0
  /-- Otherwise the last row is that of the greatest source. -/
  numNodes : ∀ m ∈ sources, (∀ source ∈ sources, source ≤ m) → t.numNodes = m.toNat + 1
  numEdges : t.numEdges = sources.length
  /-- A row is in order of destination and has the arcs of its node, each as often as listed. -/
  neighbors : ∀ node : Id, node.toNat < t.numNodes → ∃ row, t.neighbors? node = some row ∧
    (row.toList.Pairwise fun a b ↦ a.target ≤ b.target) ∧
    row.toList.Perm (arcsFrom sources targets edges? node)
  /-- There are no other rows. -/
  absent : ∀ node, t.neighbors? node = none ↔ t.numNodes ≤ node.toNat
  /-- Membership is that of the list. -/
  hasEdge : ∀ source target : Id, t.hasEdge source target = true ↔
    ∃ k : Nat, sources[k]? = some source ∧ targets[k]? = some target

/-- Sources, destinations and edge IDs are equally many. -/
structure Aligned (sources targets : List Id) (edges? : Option (List Id)) : Prop where
  targets : sources.length = targets.length
  edges : ∀ edges, edges? = some edges → edges.length = sources.length

/-- The IDs of the edges, one for each. -/
def edgeIds (sources : List Id) (edges? : Option (List Id)) : List Id :=
  edges?.getD ((List.range sources.length).map (·.toUInt64))

theorem length_edgeIds_iff : (edgeIds sources edges?).length = sources.length ↔
    ∀ edges, edges? = some edges → edges.length = sources.length := by
  cases edges? with
  | none => simp [edgeIds]
  | some edges => simp [edgeIds]

theorem getElem?_edgeIds {k : Nat} (hk : k < sources.length) :
    (edgeIds sources edges?)[k]? = edgeAt edges? k := by
  cases edges? with
  | none =>
    show ((List.range sources.length).map (·.toUInt64))[k]? = some k.toUInt64
    rw [List.getElem?_map, List.getElem?_range hk, Option.map_some]
  | some edges => rfl

/-- The edges with their sources, in the order of the list. -/
def listed (sources targets : List Id) (edges? : Option (List Id)) : List (Id × Arc) :=
  sources.zip (List.zipWith Arc.mk targets (edgeIds sources edges?))

theorem ofEdgeList_eq_ok_iff {t : Topology} : ofEdgeList sources targets edges? = .ok t ↔
    Aligned sources targets edges? ∧
      ∃ c, ofEdges (listed sources targets edges?) = .ok c ∧ ofCompressed c = t := by
  simp only [ofEdgeList, ite_error_eq_ok_iff, not_not, map_eq_ok_iff]
  constructor
  · rintro ⟨htargets, hedges, ht⟩
    exact ⟨⟨htargets, length_edgeIds_iff.1 hedges⟩, ht⟩
  · rintro ⟨⟨htargets, hedges⟩, ht⟩
    exact ⟨htargets, length_edgeIds_iff.2 hedges, ht⟩

theorem sorted_of_ofEdgeList {t : Topology} (h : ofEdgeList sources targets edges? = .ok t) :
    t.Sorted := by
  obtain ⟨-, c, hc, rfl⟩ := ofEdgeList_eq_ok_iff.1 h
  exact sorted_of_make hc

namespace Aligned

variable (h : Aligned sources targets edges?)
include h

theorem length_listed : (listed sources targets edges?).length = sources.length := by
  rw [listed, List.length_zip, List.length_zipWith, length_edgeIds_iff.2 h.edges, ← h.targets,
    Nat.min_self, Nat.min_self]

/-- The sources of the edges are those of the list. -/
theorem map_fst_listed : (listed sources targets edges?).map (·.1) = sources := by
  refine List.map_fst_zip (Nat.le_of_eq ?_)
  rw [List.length_zipWith, length_edgeIds_iff.2 h.edges, ← h.targets, Nat.min_self]

/-- Every position has an edge. -/
theorem getElem?_listed {k : Nat} (hk : k < sources.length) : ∃ source arc,
    (listed sources targets edges?)[k]? = some (source, arc) ∧ sources[k]? = some source ∧
      targets[k]? = some arc.target ∧ edgeAt edges? k = some arc.edge := by
  have hedge := List.getElem?_eq_getElem ((length_edgeIds_iff.2 h.edges).symm ▸ hk)
  have htarget := List.getElem?_eq_getElem (h.targets ▸ hk)
  have hsource := List.getElem?_eq_getElem hk
  refine ⟨_, ⟨_, _⟩, ?_, hsource, htarget, (getElem?_edgeIds hk).symm.trans hedge⟩
  rw [listed, List.getElem?_zip_eq_some, List.getElem?_zipWith, htarget, hedge]
  exact ⟨hsource, rfl⟩

/-- The edges of a source, as they are listed, are the arcs at its positions. -/
theorem sourceArcs_listed (node : Id) : sourceArcs (listed sources targets edges?) node.toNat =
    arcsFrom sources targets edges? node := by
  rw [sourceArcs, ← filterMap_range_getElem? (listed ..), List.filterMap_filterMap,
    h.length_listed, arcsFrom]
  refine List.filterMap_congr fun k hk ↦ ?_
  obtain ⟨source, arc, hlisted, hsource, htarget, hedge⟩ := h.getElem?_listed (List.mem_range.1 hk)
  simp only [hlisted, Option.bind_some, arcOf?, arcFrom?, hsource, htarget, hedge,
    UInt64.toNat_inj]

/-- Every source has an arc to its destination. -/
theorem exists_mem_arcsFrom_iff {source target : Id} :
    (∃ arc ∈ arcsFrom sources targets edges? source, arc.target = target) ↔
      ∃ k : Nat, sources[k]? = some source ∧ targets[k]? = some target := by
  constructor
  · rintro ⟨arc, harc, rfl⟩
    obtain ⟨k, hsource, htarget, -⟩ := mem_arcsFrom_iff.1 harc
    exact ⟨k, hsource, htarget⟩
  · rintro ⟨k, hsource, htarget⟩
    obtain ⟨-, arc, -, -, htarget', hedge⟩ :=
      h.getElem?_listed (List.getElem?_eq_some_iff.1 hsource).1
    refine ⟨arc, mem_arcsFrom_iff.2 ⟨k, hsource, htarget', hedge⟩, ?_⟩
    exact Option.some.inj (htarget'.symm.trans htarget)

end Aligned

/-- **A topology made from an edge list has just its edges.** -/
theorem lists_of_ofEdgeList {t : Topology} (hok : ofEdgeList sources targets edges? = .ok t) :
    t.Lists sources targets edges? := by
  have hsorted := sorted_of_ofEdgeList hok
  obtain ⟨h, c, hc, rfl⟩ := ofEdgeList_eq_ok_iff.1 hok
  have hreads := reads_ofCompressed c
  have hplaces := places_of_ofEdges hc
  have hcount : (ofCompressed c).numNodes = countOf sources := by
    rw [hreads.numNodes, hplaces.numRows, h.map_fst_listed]
  generalize ofCompressed c = t at hsorted hreads hcount ⊢
  have hrow : ∀ node : Id, node.toNat < t.numNodes →
      t.neighbors? node = some (settle (arcsFrom sources targets edges? node)).toArray := by
    intro node hnode
    rw [hreads.numNodes] at hnode
    rw [hreads.neighbors, CompressedRows.neighbors?, hplaces.row? _ hnode, h.sourceArcs_listed]
    rfl
  exact {
    numNodes_nil := by
      rintro rfl
      exact hcount
    numNodes := fun m hm hle ↦ by rw [hcount, countOf_eq hm hle]
    numEdges := by rw [hreads.numEdges, hplaces.numEdges, h.length_listed]
    neighbors := fun node hnode ↦ ⟨_, hrow node hnode, settle_sorted _, settle_perm _⟩
    absent := fun node ↦ Array.getElem?_eq_none_iff
    hasEdge := fun source target ↦ by
      rw [hasEdge_iff hsorted, ← h.exists_mem_arcsFrom_iff]
      constructor
      · rintro ⟨row, hneighbors, arc, harc, htarget⟩
        have hnode : source.toNat < t.numNodes :=
          (Array.getElem?_eq_some_iff.1 hneighbors).1
        rw [hrow source hnode] at hneighbors
        cases hneighbors
        exact ⟨arc, (settle_perm _).mem_iff.1 (List.mem_toArray.1 harc), htarget⟩
      · rintro ⟨arc, harc, htarget⟩
        obtain ⟨k, hsource, -⟩ := mem_arcsFrom_iff.1 harc
        have hnode : source.toNat < t.numNodes :=
          hcount ▸ lt_countOf (List.mem_of_getElem? hsource)
        exact ⟨_, hrow source hnode, arc,
          List.mem_toArray.2 ((settle_perm _).mem_iff.2 harc), htarget⟩ }

/-- There is a row for every ID up to the greatest source. -/
theorem numNodes_of_ofEdgeList {t : Topology} (hok : ofEdgeList sources targets edges? = .ok t) :
    t.numNodes = countOf sources := by
  obtain ⟨h, c, hc, rfl⟩ := ofEdgeList_eq_ok_iff.1 hok
  rw [(reads_ofCompressed c).numNodes, (places_of_ofEdges hc).numRows, h.map_fst_listed]

/-- **Every edge list with as many destinations and IDs as sources makes a topology of its edges**,
which is read off the arrays that the edges were written to. -/
theorem exists_ofEdgeList_lists (h : Aligned sources targets edges?) :
    ∃ t, ofEdgeList sources targets edges? = .ok t ∧ t.Lists sources targets edges? ∧
      ∃ c, ofEdges (listed sources targets edges?) = .ok c ∧
        c.Places (listed sources targets edges?) ∧ t.Reads c := by
  obtain ⟨c, hc, hplaces⟩ := exists_ofEdges_places (listed sources targets edges?)
  have hok := ofEdgeList_eq_ok_iff.2 ⟨h, c, hc, rfl⟩
  exact ⟨_, hok, lists_of_ofEdgeList hok, c, hc, hplaces, reads_ofCompressed c⟩

/-- Parallel edges out of order, between nodes without edges. -/
theorem exists_ofEdgeList_lists_small :
    Aligned [3, 1, 3, 3] [9, 0, 2, 9] (some [7, 7, 5, 4]) ∧
      ∃ t, ofEdgeList [3, 1, 3, 3] [9, 0, 2, 9] (some [7, 7, 5, 4]) = .ok t ∧
        t.Lists [3, 1, 3, 3] [9, 0, 2, 9] (some [7, 7, 5, 4]) ∧
        ∃ c, ofEdges (listed [3, 1, 3, 3] [9, 0, 2, 9] (some [7, 7, 5, 4])) = .ok c ∧
          c.Places (listed [3, 1, 3, 3] [9, 0, 2, 9] (some [7, 7, 5, 4])) ∧ t.Reads c :=
  have h : Aligned [3, 1, 3, 3] [9, 0, 2, 9] (some [7, 7, 5, 4]) :=
    ⟨rfl, fun _ hedges ↦ Option.some.inj hedges ▸ rfl⟩
  ⟨h, exists_ofEdgeList_lists h⟩

end HopSampler.Topology
