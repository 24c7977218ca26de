import HopSampler.Dataset.Ring
import HopSampler.Proofs.Datasets

/-!
# The graph of the ring

The edge lists of the ring are written slot by slot: a slot is a node and the number of one of its
links. Since a node has its slots next to each other, the arcs that a list gives a node are its own
links in order (`Dataset.Ring.arcs_edges`), also where the ring is shorter than a node's links and
destinations come back. Sorting rearranges a row and no more, so in the graph a node has just these
links, and each of them still has the ID it was listed with (`Dataset.Ring.exists_graph`).

Numbers are words in a graph. They are read off the words as long as the ring is one whose lists can
be held, which is the only condition on its size.
-/

namespace HopSampler

/-- Where only one number contributes, its part is everything. -/
theorem flatMap_range_of_ne {α : Type} {f : Nat → List α} {n i : Nat} (hi : i < n)
    (h : ∀ v < n, v ≠ i → f v = []) : (List.range n).flatMap f = f i := by
  induction n with
  | zero => exact absurd hi (Nat.not_lt_zero i)
  | succ n ih =>
    rw [List.range_succ, List.flatMap_append, List.flatMap_singleton]
    by_cases hlast : n = i
    · have hnone : (List.range n).flatMap f = [] := List.flatMap_eq_nil_iff.2 fun v hv ↦ by
        have hlt := List.mem_range.1 hv
        exact h v (Nat.lt_succ_of_lt hlt) (by omega)
      rw [hnone, List.nil_append, hlast]
    · rw [ih (by omega) fun v hv ↦ h v (Nat.lt_succ_of_lt hv), h n (Nat.lt_succ_self n) hlast,
        List.append_nil]

namespace Topology

/-- The arcs of a node in lists that are read off one list. -/
theorem arcsFrom_map {α : Type} (xs : List α) (source target edge : α → Id) (node : Id) :
    arcsFrom (xs.map source) (xs.map target) (some (xs.map edge)) node =
      xs.filterMap fun x ↦ if source x = node then some ⟨target x, edge x⟩ else none := by
  have haligned : Aligned (xs.map source) (xs.map target) (some (xs.map edge)) :=
    ⟨by simp, fun _ h ↦ by simp [← Option.some.inj h]⟩
  have hlisted : listed (xs.map source) (xs.map target) (some (xs.map edge)) =
      xs.map fun x ↦ (source x, ⟨target x, edge x⟩) := by
    show (xs.map source).zip (List.zipWith Arc.mk (xs.map target) (xs.map edge)) = _
    rw [List.zipWith_map, List.zipWith_self, List.zip_map']
  rw [← haligned.sourceArcs_listed, hlisted, CompressedRows.sourceArcs, List.filterMap_map]
  refine List.filterMap_congr fun x _ ↦ ?_
  simp only [Function.comp_apply, CompressedRows.arcOf?, UInt64.toNat_inj]

/-- Where rows have IDs, every arc is in the row of one. -/
theorem exists_neighbors_of_mem_arcs {t : Topology} (h : t.numNodes ≤ UInt64.size) {arc : Arc}
    (harc : arc ∈ t.arcs) : ∃ node row, t.neighbors? node = some row ∧ arc ∈ row := by
  obtain ⟨row, hrow, harc⟩ := List.mem_flatMap.1 harc
  obtain ⟨i, hi⟩ := Array.mem_iff_getElem?.1 (Array.mem_toList_iff.1 hrow)
  have hlt : i < UInt64.size := Nat.lt_of_lt_of_le (Array.getElem?_eq_some_iff.1 hi).1 h
  refine ⟨i.toUInt64, row, ?_, Array.mem_toList_iff.1 harc⟩
  rw [neighbors?, toNat_toUInt64 hlt, hi]

end Topology

namespace Dataset.Ring

/-- The lists of the ring can be held: no list is longer than the greatest signed word. Where the
edges are more than that, there is no memory for their list and so no ring. -/
def Holdable (count degree : Nat) : Prop := count * degree < Int64.size / 2

/-- The edge types of the ring, with the number of places from a node to its first neighbor. -/
def kinds : List (EdgeType × Nat) := [(userToItem, 1), (itemToItem, 2)]

theorem mem_kinds_iff {e : EdgeType} {offset : Nat} : (e, offset) ∈ kinds ↔
    e = userToItem ∧ offset = 1 ∨ e = itemToItem ∧ offset = 2 := by
  simp [kinds]

/-- Link `k` of node `v`. -/
def arcAt (count degree offset v k : Nat) : Arc :=
  ⟨((v + k + offset) % count).toUInt64, (v * degree + k).toUInt64⟩

variable {count degree : Nat}

/-! ### Numbers -/

/-- Neither nodes nor edges are more than can be held. -/
theorem Holdable.count_lt (h : Holdable count degree) (hdegree : 0 < degree) :
    count < Int64.size / 2 :=
  Nat.lt_of_le_of_lt (Nat.le_mul_of_pos_right count hdegree) h

theorem Holdable.count_lt_size (h : Holdable count degree) (hdegree : 0 < degree) :
    count < UInt64.size :=
  Nat.lt_trans (h.count_lt hdegree) (by decide)

/-- The number of a link is that of an edge. -/
theorem edge_lt {v k : Nat} (hv : v < count) (hk : k < degree) :
    v * degree + k < count * degree :=
  calc
    v * degree + k < v * degree + degree := Nat.add_lt_add_left hk _
    _ = (v + 1) * degree := (Nat.succ_mul v degree).symm
    _ ≤ count * degree := Nat.mul_le_mul_right degree hv

/-- The numbers of a link, read off its words. -/
theorem toNat_arcAt (h : Holdable count degree) (hdegree : 0 < degree) (offset : Nat) {v k : Nat}
    (hv : v < count) (hk : k < degree) :
    (arcAt count degree offset v k).target.toNat = (v + k + offset) % count ∧
      (arcAt count degree offset v k).edge.toNat = v * degree + k := by
  have hcount := h.count_lt hdegree
  have htarget : (v + k + offset) % count < count := Nat.mod_lt _ (Nat.zero_lt_of_lt hv)
  have hedge : v * degree + k < Int64.size / 2 := Nat.lt_trans (edge_lt hv hk) h
  have hsize : Int64.size / 2 < UInt64.size := by decide
  exact ⟨toNat_toUInt64 (by omega), toNat_toUInt64 (by omega)⟩

/-! ### Edge lists -/

theorem mem_slots_iff {v k : Nat} : (v, k) ∈ slots count degree ↔ v < count ∧ k < degree := by
  simp [slots]

/-- **The arcs of a node are its own links, in order.** -/
theorem arcs_edges (hcount : count < UInt64.size) (e : EdgeType) (degree offset : Nat) {node : Id}
    (hnode : node.toNat < count) : (edges e count degree offset).arcs node =
      (List.range degree).map (arcAt count degree offset node.toNat) := by
  have harcs : (edges e count degree offset).arcs node = (slots count degree).filterMap fun slot ↦
      if slot.1.toUInt64 = node then some (arcAt count degree offset slot.1 slot.2) else none :=
    Topology.arcsFrom_map (slots count degree) (fun slot ↦ slot.1.toUInt64)
      (fun slot ↦ ((slot.1 + slot.2 + offset) % count).toUInt64)
      (fun slot ↦ (slot.1 * degree + slot.2).toUInt64) node
  rw [harcs, slots, List.filterMap_flatMap, flatMap_range_of_ne hnode]
  · rw [List.filterMap_map]
    have hown : node.toNat.toUInt64 = node := UInt64.ofNat_toNat
    simp only [Function.comp_def, hown, if_true, List.filterMap_eq_map']
  · -- the slots of other nodes are passed over
    intro v hv hne
    refine List.filterMap_eq_nil_iff.2 fun slot hslot ↦ ?_
    obtain ⟨k, -, rfl⟩ := List.mem_map.1 hslot
    refine if_neg fun heq ↦ hne ?_
    rw [← heq, toNat_toUInt64 (Nat.lt_trans hv hcount)]

/-- Around a ring that is shorter than the links of a node. -/
example : (edges userToItem 2 3 1).arcs 1 = [⟨0, 3⟩, ⟨1, 4⟩, ⟨0, 5⟩] := by decide

theorem aligned_edges (e : EdgeType) (count degree offset : Nat) :
    Topology.Aligned (edges e count degree offset).sources (edges e count degree offset).targets
      (edges e count degree offset).edgeIds :=
  ⟨by simp [edges], fun _ h ↦ by simp [edges, ← Option.some.inj h]⟩

/-- There is a row for every node. -/
theorem countOf_sources (hcount : 0 < count) (hsize : count < UInt64.size) (hdegree : 0 < degree)
    (e : EdgeType) (offset : Nat) :
    CompressedRows.countOf (edges e count degree offset).sources = count := by
  have hlast : (count - 1).toUInt64.toNat = count - 1 := toNat_toUInt64 (by omega)
  rw [CompressedRows.countOf_eq (m := (count - 1).toUInt64), hlast, Nat.sub_add_cancel hcount]
  · exact List.mem_map.2 ⟨(count - 1, 0), mem_slots_iff.2 ⟨by omega, hdegree⟩, rfl⟩
  · intro source hsource
    obtain ⟨⟨v, k⟩, hslot, rfl⟩ := List.mem_map.1 hsource
    obtain ⟨hv, -⟩ := mem_slots_iff.1 hslot
    rw [UInt64.le_iff_toNat_le, toNat_toUInt64 (Nat.lt_trans hv hsize), hlast]
    exact Nat.le_sub_one_of_lt hv

/-- The edge lists make topologies with a row for every node and destinations among the nodes. -/
theorem exists_topology (hcount : 0 < count) (hdegree : 0 < degree) (hheld : Holdable count degree)
    (e : EdgeType) (offset : Nat) : ∃ t, topology (edges e count degree offset) = .ok t ∧
      t.numNodes = count ∧ ∀ arc ∈ t.arcs, arc.target.toNat < count := by
  have hsize := hheld.count_lt_size hdegree
  obtain ⟨t, hok, -⟩ := Topology.exists_ofEdgeList_lists (aligned_edges e count degree offset)
  have hrows := (Topology.numNodes_of_ofEdgeList hok).trans
    (countOf_sources hcount hsize hdegree e offset)
  refine ⟨_, map_eq_ok_iff.2 ⟨_, hok, rfl⟩, hrows, fun arc harc ↦ ?_⟩
  obtain ⟨node, row, hrow, harc⟩ := Topology.exists_neighbors_of_mem_arcs
    (Nat.le_trans (Nat.le_of_eq hrows) (Nat.le_of_lt hsize)) harc
  have hnode : node.toNat < count := hrows ▸ (Array.getElem?_eq_some_iff.1 hrow).1
  have hperm := (Topology.carries_of_ofEdgeList hok).perm node row hrow
  have hmem : arc ∈ (edges e count degree offset).arcs node :=
    hperm.mem_iff.1 (Array.mem_toList_iff.2 harc)
  rw [arcs_edges hsize e degree offset hnode] at hmem
  obtain ⟨k, hk, rfl⟩ := List.mem_map.1 hmem
  rw [(toNat_arcAt hheld hdegree offset hnode (List.mem_range.1 hk)).1]
  exact Nat.mod_lt _ hcount

/-! ### The graph -/

/-- What users and items have in common is found for them and for no other type. -/
theorem get?_both_iff {ν : Type} {v w : ν} {t : NodeType} :
    (SortedMap.ofList [(user, v), (item, v)]).get? t = some w ↔ (t = user ∨ t = item) ∧ w = v := by
  show ((SortedMap.empty.insert user v).insert item v).get? t = some w ↔ _
  rw [SortedMap.get?_insert, SortedMap.get?_insert, SortedMap.get?_empty]
  by_cases hitem : item = t
  · simp [hitem, eq_comm]
  · simp [hitem, Ne.symm hitem, eq_comm]

section Calls

open Graph.Blueprint

/-- The calls that build the graph. -/
def calls (count : Nat) (first second : Topology) : List Call :=
  [.declare item count.toUInt64, .declare user count.toUInt64, .attach userToItem first,
    .attach itemToItem second]

theorem graph_eq (width : Nat) {first second : Topology}
    (hfirst : topology (edges userToItem count degree 1) = .ok first)
    (hsecond : topology (edges itemToItem count degree 2) = .ok second) :
    (ring count degree width).graph = (ofCalls (calls count first second)).build := by
  have hattach : attachAll (ring count degree width).edges
      (ofCalls [.declare item count.toUInt64, .declare user count.toUInt64]) =
        .ok (ofCalls (calls count first second)) :=
    attachAll_cons_eq_ok_iff.2 ⟨first, hfirst, attachAll_cons_eq_ok_iff.2 ⟨second, hsecond, rfl⟩⟩
  show (attachAll (ring count degree width).edges
    (ofCalls [.declare item count.toUInt64, .declare user count.toUInt64]) >>= build) = _
  rw [hattach]
  rfl

variable {first second : Topology}

theorem lastTopology_calls_iff {e : EdgeType} {t : Topology} :
    lastTopology (calls count first second) e = some t ↔
      e = userToItem ∧ t = first ∨ e = itemToItem ∧ t = second := by
  rw [← get?_topologies_ofCalls]
  show ((SortedMap.empty.insert userToItem first).insert itemToItem second).get? e = some t ↔ _
  rw [SortedMap.get?_insert, SortedMap.get?_insert, SortedMap.get?_empty]
  by_cases hsecond : itemToItem = e
  · have hne : e ≠ userToItem := by
      rw [← hsecond]
      decide
    simp [hsecond, hne, eq_comm]
  · simp [hsecond, Ne.symm hsecond, eq_comm]

theorem lastCount_calls_iff {t : NodeType} {n : UInt64} :
    lastCount (calls count first second) t = some n ↔
      (t = user ∨ t = item) ∧ n = count.toUInt64 := by
  rw [← get?_declared_ofCalls]
  exact get?_both_iff

/-- The edge types mention users and items only. -/
theorem mentions_calls {t : NodeType} (h : Mentions (calls count first second) t) :
    t = user ∨ t = item := by
  obtain ⟨e, topology, hlast, hend⟩ := h
  rcases lastTopology_calls_iff.1 hlast with ⟨rfl, -⟩ | ⟨rfl, -⟩
  · exact hend.imp Eq.symm Eq.symm
  · exact .inr (hend.elim Eq.symm Eq.symm)

theorem numNodes_of_established {g : Graph} (h : Established (calls count first second) g)
    {t : NodeType} {n : UInt64} :
    g.numNodes t = .ok n ↔ (t = user ∨ t = item) ∧ n = count.toUInt64 := by
  by_cases ht : t = user ∨ t = item
  · rw [h.declared (lastCount_calls_iff.2 ⟨ht, rfl⟩), Except.ok.injEq, eq_comm]
    exact (and_iff_right ht).symm
  · have hundeclared : lastCount (calls count first second) t = none :=
      Option.eq_none_iff_forall_ne_some.2 fun n hn ↦ ht (lastCount_calls_iff.1 hn).1
    rw [h.unknown hundeclared (mt mentions_calls ht)]
    exact iff_of_false nofun fun h ↦ ht h.1

/-- **The calls build a graph**: the edges of the ring need no more nodes than are declared. -/
theorem exists_build_calls (hsize : count < UInt64.size)
    (hfirst : first.numNodes = count ∧ ∀ arc ∈ first.arcs, arc.target.toNat < count)
    (hsecond : second.numNodes = count ∧ ∀ arc ∈ second.arcs, arc.target.toNat < count) :
    ∃ g, (ofCalls (calls count first second)).build = .ok g ∧
      Established (calls count first second) g := by
  have hneeded : ∀ t, needed (calls count first second) t ≤ count := by
    refine fun t ↦ needed_le_iff.2 fun hlast ↦ ?_
    rcases lastTopology_calls_iff.1 hlast with ⟨-, rfl⟩ | ⟨-, rfl⟩
    · exact ⟨fun _ ↦ Nat.le_of_eq hfirst.1, fun _ ↦ hfirst.2⟩
    · exact ⟨fun _ ↦ Nat.le_of_eq hsecond.1, fun _ ↦ hsecond.2⟩
  have hrep : Representable (calls count first second) :=
    fun t ↦ Nat.lt_of_le_of_lt (hneeded t) hsize
  have hsufficient : Sufficient (calls count first second) := by
    intro t n hn
    obtain ⟨-, rfl⟩ := lastCount_calls_iff.1 hn
    rw [toNat_toUInt64 hsize]
    exact hneeded t
  obtain ⟨g, hbuild⟩ := exists_build hrep hsufficient
  exact ⟨g, hbuild, established_of_build hbuild⟩

end Calls

theorem kept_edges (count degree width : Nat) :
    kept (ring count degree width).edges = (ring count degree width).edges := by
  have hne : itemToItem ≠ userToItem := by decide
  simp [ring, kept, edges, hne]

/-- The edge list of each type is kept. -/
theorem mem_kept_edges {e : EdgeType} {offset : Nat} (h : (e, offset) ∈ kinds) (width : Nat) :
    edges e count degree offset ∈ kept (ring count degree width).edges := by
  rw [kept_edges]
  exact List.mem_map_of_mem (f := fun kind ↦ edges kind.1 count degree kind.2) h

end Dataset.Ring

/-- A graph is a ring: users and items in equal number, every one with its own links. -/
structure Graph.IsRing (g : Graph) (count degree : Nat) : Prop where
  wellFormed : g.WellFormed
  /-- There are users and items, as many of each, and no other nodes. -/
  numNodes : ∀ t n, g.numNodes t = .ok n ↔
    (t = Dataset.Ring.user ∨ t = Dataset.Ring.item) ∧ n = count.toUInt64
  /-- There are the two edge types and no others. -/
  edgeTypes : g.edgeTypes.Perm (Dataset.Ring.kinds.map (·.1))
  /-- The row of a node has its links, each once. -/
  row : ∀ e offset, (e, offset) ∈ Dataset.Ring.kinds → ∀ v : Id, v.toNat < count →
    ∃ row, g.neighbors e v = .ok row ∧
      row.toList.Perm ((List.range degree).map (Dataset.Ring.arcAt count degree offset v.toNat))
  /-- So every node has as many edges of its type as the degree says. -/
  degree : ∀ e offset, (e, offset) ∈ Dataset.Ring.kinds → ∀ v : Id, v.toNat < count →
    g.degree e v = .ok degree

namespace Dataset.Ring

variable {count degree : Nat}

/-- A node has its own links in the graph, as they are listed. -/
theorem exists_row_of_graph (hsize : count < UInt64.size) (hdegree : 0 < degree) {width : Nat}
    {g : Graph} (hgraph : (ring count degree width).graph = .ok g) {e : EdgeType} {offset : Nat}
    (hkind : (e, offset) ∈ kinds) {v : Id} (hv : v.toNat < count) :
    ∃ row, g.neighbors e v = .ok row ∧
      row.toList.Perm ((List.range degree).map (arcAt count degree offset v.toNat)) := by
  obtain ⟨hrows, hperm⟩ := neighbors_of_graph hgraph (mem_kept_edges hkind width)
  have hsource : v ∈ (edges e count degree offset).sources :=
    List.mem_map.2 ⟨(v.toNat, 0), mem_slots_iff.2 ⟨hv, hdegree⟩, UInt64.ofNat_toNat⟩
  obtain ⟨row, hrow⟩ := hrows v hsource
  exact ⟨row, hrow, arcs_edges hsize e degree offset hv ▸ hperm v row hrow⟩

/-- **The ring has a graph, and it is a ring.** -/
theorem exists_graph (hcount : 0 < count) (hdegree : 0 < degree) (hheld : Holdable count degree)
    (width : Nat) : ∃ g, (ring count degree width).graph = .ok g ∧ g.IsRing count degree := by
  have hsize := hheld.count_lt_size hdegree
  obtain ⟨first, hfirst, hfits⟩ := exists_topology hcount hdegree hheld userToItem 1
  obtain ⟨second, hsecond, hfits'⟩ := exists_topology hcount hdegree hheld itemToItem 2
  obtain ⟨g, hbuild, hestablished⟩ := exists_build_calls hsize hfits hfits'
  have hgraph : (ring count degree width).graph = .ok g :=
    (graph_eq width hfirst hsecond).trans hbuild
  have hkeys := keys_perm_of_graph hgraph
  rw [kept_edges] at hkeys
  refine ⟨g, hgraph, hestablished.wellFormed, fun t n ↦ numNodes_of_established hestablished, hkeys,
    fun e offset hkind v hv ↦ exists_row_of_graph hsize hdegree hgraph hkind hv,
    fun e offset hkind v hv ↦ ?_⟩
  obtain ⟨row, hneighbors, hperm⟩ := exists_row_of_graph hsize hdegree hgraph hkind hv
  refine map_eq_ok_iff.2 ⟨row, hneighbors, ?_⟩
  rw [← Array.length_toList, hperm.length_eq, List.length_map, List.length_range]

end Dataset.Ring

end HopSampler
