import HopSampler.Dataset.Basic
import HopSampler.Proofs.Blueprints
import HopSampler.Proofs.EdgeLists

/-!
# Which edges of a dataset are in its graph

A graph has one topology for an edge type, so of the edge lists of a type the last one counts
(`Dataset.get?_of_attachAll`): lists that another one of their type follows are *replaced*, the
others are *kept*. Padding adds rows and no arcs (`Topology.Carries.padTo`), hence the graph has the
edges of the lists that are kept, each as often as it is listed, and no others.

**Whether edges are lost is seen from the lists alone** (`Dataset.losesNothing_iff`): nothing is
lost exactly if all lists that are replaced are empty.
-/

-- Sums start from the numeral, also where zero comes with more structure.
attribute [local instance (high)] Zero.ofOfNat0

namespace HopSampler

/-! ### Topologies that carry an edge list -/

namespace Topology

/-- A topology has the edges of an edge list, and may have more rows. -/
structure Carries (t : Topology) (sources targets : List Id) (edges? : Option (List Id)) : Prop where
  numEdges : t.numEdges = sources.length
  exists_row : ∀ source ∈ sources, ∃ row, t.neighbors? source = some row
  perm : ∀ node row, t.neighbors? node = some row →
    row.toList.Perm (arcsFrom sources targets edges? node)

variable {t : Topology} {sources targets : List Id} {edges? : Option (List Id)}

theorem arcsFrom_eq_nil {node : Id} (h : node ∉ sources) :
    arcsFrom sources targets edges? node = [] := by
  refine List.eq_nil_iff_forall_not_mem.2 fun arc harc ↦ ?_
  obtain ⟨k, hsource, -⟩ := mem_arcsFrom_iff.1 harc
  exact h (List.mem_of_getElem? hsource)

theorem numEdges_padTo (count : Nat) : (t.padTo count).numEdges = t.numEdges := by
  simp [numEdges, padTo]

theorem neighbors?_padTo {node : Id} {row : Array Arc} {count : Nat}
    (h : (t.padTo count).neighbors? node = some row) :
    t.neighbors? node = some row ∨ t.neighbors? node = none ∧ row = #[] := by
  rw [neighbors?, padTo, Array.getElem?_append] at h
  split at h
  · exact .inl h
  · next hge =>
    rw [Array.getElem?_replicate] at h
    split at h
    · exact .inr ⟨Array.getElem?_eq_none (Nat.le_of_not_lt hge), (Option.some.inj h).symm⟩
    · cases h

theorem Carries.withPlacement (h : t.Carries sources targets edges?) (placement : Placement) :
    (t.withPlacement placement).Carries sources targets edges? := ⟨h.1, h.2, h.3⟩

/-- Padding leaves the rows that are there. -/
theorem neighbors?_padTo_of_eq_some {node : Id} {row : Array Arc} (count : Nat)
    (h : t.neighbors? node = some row) : (t.padTo count).neighbors? node = some row := by
  rw [neighbors?, padTo, Array.getElem?_append_left (Array.getElem?_eq_some_iff.1 h).1]
  exact h

/-- Rows that are added are those of nodes without edges. -/
theorem Carries.padTo (h : t.Carries sources targets edges?) (count : Nat) :
    (t.padTo count).Carries sources targets edges? := by
  refine ⟨(numEdges_padTo count).trans h.numEdges, fun source hsource ↦ ?_,
    fun node row hrow ↦ ?_⟩
  · exact (h.exists_row source hsource).imp fun _ ↦ neighbors?_padTo_of_eq_some count
  · obtain hrow | ⟨hnone, rfl⟩ := neighbors?_padTo hrow
    · exact h.perm node row hrow
    · rw [arcsFrom_eq_nil fun hmem ↦ ?_]
      obtain ⟨_, hrow⟩ := h.exists_row node hmem
      exact nomatch hnone.symm.trans hrow

theorem carries_of_ofEdgeList (h : ofEdgeList sources targets edges? = .ok t) :
    t.Carries sources targets edges? := by
  have hlists := lists_of_ofEdgeList h
  refine ⟨hlists.numEdges, fun source hsource ↦ ?_, fun node row hrow ↦ ?_⟩
  · have hlt : source.toNat < t.numNodes :=
      (numNodes_of_ofEdgeList h).symm ▸ CompressedRows.lt_countOf hsource
    obtain ⟨row, hrow, -⟩ := hlists.neighbors source hlt
    exact ⟨row, hrow⟩
  · obtain ⟨row', hrow', -, hperm⟩ :=
      hlists.neighbors node (Array.getElem?_eq_some_iff.1 hrow).1
    rwa [Option.some.inj (hrow.symm.trans hrow')]

end Topology

/-- The arcs that an edge list gives a node. -/
def EdgeList.arcs (entry : EdgeList) (node : Id) : List Arc :=
  Topology.arcsFrom entry.sources entry.targets entry.edgeIds node

namespace Dataset

/-! ### Kept and replaced -/

/-- The edge lists that no other of their type follows. -/
def kept : List EdgeList → List EdgeList
  | [] => []
  | entry :: rest => if ∃ later ∈ rest, later.type = entry.type then kept rest else entry :: kept rest

/-- The edge lists that another one of their type follows. -/
def replaced : List EdgeList → List EdgeList
  | [] => []
  | entry :: rest =>
    if ∃ later ∈ rest, later.type = entry.type then entry :: replaced rest else replaced rest

theorem kept_sublist (entries : List EdgeList) : (kept entries).Sublist entries := by
  induction entries with
  | nil => exact .slnil
  | cons entry rest ih =>
    rw [kept]
    split
    · exact ih.cons entry
    · exact ih.cons_cons entry

/-- A type of the lists is one of those that are kept. -/
theorem exists_mem_kept {entries : List EdgeList} {entry : EdgeList} (h : entry ∈ entries) :
    ∃ last ∈ kept entries, last.type = entry.type := by
  induction entries generalizing entry with
  | nil => cases h
  | cons first rest ih =>
    rw [kept]
    rcases List.mem_cons.1 h with rfl | hrest
    · split
      · next hlater =>
        obtain ⟨later, hmem, htype⟩ := hlater
        obtain ⟨last, hlast, hsame⟩ := ih hmem
        exact ⟨last, hlast, hsame.trans htype⟩
      · exact ⟨entry, List.mem_cons_self, rfl⟩
    · obtain ⟨last, hlast, hsame⟩ := ih hrest
      split
      · exact ⟨last, hlast, hsame⟩
      · exact ⟨last, List.mem_cons_of_mem first hlast, hsame⟩

/-- No type is kept twice. -/
theorem kept_types_nodup (entries : List EdgeList) : ((kept entries).map (·.type)).Nodup := by
  induction entries with
  | nil => exact .nil
  | cons entry rest ih =>
    rw [kept]
    split
    · exact ih
    · next hnone =>
      refine List.nodup_cons.2 ⟨fun hmem ↦ hnone ?_, ih⟩
      obtain ⟨later, hlater, htype⟩ := List.mem_map.1 hmem
      exact ⟨later, (kept_sublist rest).subset hlater, htype⟩

/-- Every list is kept or replaced. -/
theorem perm_kept_append_replaced (entries : List EdgeList) :
    (kept entries ++ replaced entries).Perm entries := by
  induction entries with
  | nil => exact .refl _
  | cons entry rest ih =>
    rw [kept, replaced]
    split
    · exact List.perm_middle.trans (ih.cons entry)
    · exact ih.cons entry

/-! ### What is attached -/

/-- Attach the topologies of edge lists, one after the other. -/
def attachAll (entries : List EdgeList) (b : Graph.Blueprint) : Except Error Graph.Blueprint :=
  entries.foldlM (fun b edges ↦ (b.attach edges.type ·) <$> topology edges) b

theorem attachAll_cons_eq_ok_iff {entry : EdgeList} {rest : List EdgeList}
    {b b' : Graph.Blueprint} : attachAll (entry :: rest) b = .ok b' ↔
      ∃ t, topology entry = .ok t ∧ attachAll rest (b.attach entry.type t) = .ok b' := by
  rw [attachAll, List.foldlM_cons, bind_eq_ok_iff]
  simp only [map_eq_ok_iff]
  constructor
  · rintro ⟨_, ⟨t, ht, rfl⟩, hrest⟩
    exact ⟨t, ht, hrest⟩
  · rintro ⟨t, ht, hrest⟩
    exact ⟨_, ⟨t, ht, rfl⟩, hrest⟩

/-- Under a type that is not listed nothing changes. -/
theorem get?_of_attachAll_of_notMem {entries : List EdgeList} {b b' : Graph.Blueprint}
    (h : attachAll entries b = .ok b') {e : EdgeType} (he : ∀ entry ∈ entries, entry.type ≠ e) :
    b'.topologies.get? e = b.topologies.get? e := by
  induction entries generalizing b with
  | nil => exact Except.ok.inj h ▸ rfl
  | cons entry rest ih =>
    obtain ⟨t, -, hrest⟩ := attachAll_cons_eq_ok_iff.1 h
    obtain ⟨hentry, hothers⟩ := List.forall_mem_cons.1 he
    rw [ih hrest hothers, Graph.Blueprint.attach, SortedMap.get?_insert, if_neg hentry]

/-- **The last list of a type decides.** -/
theorem get?_of_attachAll {entries : List EdgeList} {b b' : Graph.Blueprint}
    (h : attachAll entries b = .ok b') {entry : EdgeList} (hentry : entry ∈ kept entries) :
    ∃ t, topology entry = .ok t ∧ b'.topologies.get? entry.type = some t := by
  induction entries generalizing b with
  | nil => cases hentry
  | cons first rest ih =>
    obtain ⟨t, ht, hrest⟩ := attachAll_cons_eq_ok_iff.1 h
    rw [kept] at hentry
    split at hentry
    · exact ih hrest hentry
    · next hnone =>
      rcases List.mem_cons.1 hentry with rfl | hentry
      · refine ⟨t, ht, ?_⟩
        rw [get?_of_attachAll_of_notMem hrest fun later hlater htype ↦ hnone ⟨later, hlater, htype⟩,
          Graph.Blueprint.attach, SortedMap.get?_insert, if_pos rfl]
      · exact ih hrest hentry

theorem topologies_foldl_declare (counts : List (NodeType × UInt64)) (b : Graph.Blueprint) :
    (counts.foldl (fun b (t, n) ↦ b.declare t n) b).topologies = b.topologies := by
  induction counts generalizing b with
  | nil => rfl
  | cons count counts ih => exact ih _

/-! ### The graph of a dataset -/

variable {d : Dataset} {g : Graph}

/-- The graph has the edges of the lists that are kept. -/
theorem carries_of_graph (h : d.graph = .ok g) {entry : EdgeList} (hentry : entry ∈ kept d.edges) :
    ∃ t, g.topologies.get? entry.type = some t ∧
      t.Carries entry.sources entry.targets entry.edgeIds := by
  obtain ⟨b, hattach, hbuild⟩ := bind_eq_ok_iff.1 h
  obtain ⟨_, ht, hget⟩ := get?_of_attachAll hattach hentry
  obtain ⟨t, hok, rfl⟩ := map_eq_ok_iff.1 ht
  have htop := Graph.Blueprint.get?_topologies_of_build hbuild entry.type
  rw [hget, Option.map_some] at htop
  exact ⟨_, htop, ((Topology.carries_of_ofEdgeList hok).withPlacement entry.placement).padTo _⟩

/-- And it has no other edge types. -/
theorem exists_kept_of_topology (h : d.graph = .ok g) {e : EdgeType} {t : Topology}
    (ht : g.topologies.get? e = some t) : ∃ entry ∈ kept d.edges, entry.type = e := by
  obtain ⟨b, hattach, hbuild⟩ := bind_eq_ok_iff.1 h
  rw [Graph.Blueprint.get?_topologies_of_build hbuild] at ht
  obtain ⟨t', ht', -⟩ := Option.map_eq_some_iff.1 ht
  by_contra hnone
  have habsent : ∀ entry ∈ d.edges, entry.type ≠ e := by
    intro entry hentry htype
    obtain ⟨last, hlast, hsame⟩ := exists_mem_kept hentry
    exact hnone ⟨last, hlast, hsame.trans htype⟩
  rw [get?_of_attachAll_of_notMem hattach habsent, topologies_foldl_declare] at ht'
  cases ht'

/-- The edge types of the graph are those of the lists that are kept. -/
theorem keys_perm_of_graph (h : d.graph = .ok g) :
    g.topologies.keys.Perm ((kept d.edges).map (·.type)) := by
  refine (List.perm_ext_iff_of_nodup g.topologies.keys_nodup (kept_types_nodup d.edges)).2 fun e ↦ ?_
  rw [SortedMap.mem_keys_iff, List.mem_map]
  constructor
  · rintro ⟨t, ht⟩
    exact exists_kept_of_topology h ht
  · rintro ⟨entry, hentry, rfl⟩
    obtain ⟨t, ht, -⟩ := carries_of_graph h hentry
    exact ⟨t, ht⟩

/-- **The graph has as many edges as the lists that are kept.** -/
theorem totalEdges_of_graph (h : d.graph = .ok g) :
    g.totalEdges = ((kept d.edges).map (·.sources.length)).sum := by
  have hvalues := SortedMap.sum_values g.topologies (·.numEdges)
  have hkept : ∀ entry ∈ kept d.edges,
      ((g.topologies.get? entry.type).map (·.numEdges)).getD 0 = entry.sources.length := by
    intro entry hentry
    obtain ⟨t, ht, hcarries⟩ := carries_of_graph h hentry
    rw [ht, Option.map_some, Option.getD_some, hcarries.numEdges]
  rw [Graph.totalEdges, hvalues, ((keys_perm_of_graph h).map _).sum_nat, List.map_map]
  exact congrArg List.sum (List.map_congr_left hkept)

/-- The arcs of a kept list are in the graph, and no others under its type. -/
theorem neighbors_of_graph (h : d.graph = .ok g) {entry : EdgeList}
    (hentry : entry ∈ kept d.edges) :
    (∀ source ∈ entry.sources, ∃ row, g.neighbors entry.type source = .ok row) ∧
      ∀ node row, g.neighbors entry.type node = .ok row → row.toList.Perm (entry.arcs node) := by
  obtain ⟨t, ht, hcarries⟩ := carries_of_graph h hentry
  have htop : g.topology entry.type = .ok t :=
    Graph.topology_eq_ok_iff.2 (SortedMap.get?_eq_some_iff.1 ht)
  constructor
  · intro source hsource
    obtain ⟨row, hrow⟩ := hcarries.exists_row source hsource
    exact ⟨row, Graph.neighbors_eq_ok_iff.2 ⟨t, htop, hrow⟩⟩
  · intro node row hrow
    obtain ⟨t', ht', hrow⟩ := Graph.neighbors_eq_ok_iff.1 hrow
    obtain rfl : t = t' := Except.ok.inj (htop.symm.trans ht')
    exact hcarries.perm node row hrow

/-! ### What is lost -/

/-- The arcs that all edge lists of a type give a node. -/
def arcs (d : Dataset) (e : EdgeType) (node : Id) : List Arc :=
  (d.edges.filter (·.type = e)).flatMap (·.arcs node)

/-- Every listed edge is in the graph, as often as the edge lists of its type have it, and the graph
has as many edges as are listed. -/
structure LosesNothing (d : Dataset) (g : Graph) : Prop where
  listed : ∀ entry ∈ d.edges, ∀ (k : Nat) (source : Id) (arc : Arc),
    entry.sources[k]? = some source → entry.targets[k]? = some arc.target →
    Topology.edgeAt entry.edgeIds k = some arc.edge →
    ∃ row, g.neighbors entry.type source = .ok row ∧ arc ∈ row ∧
      row.toList.count arc = (d.arcs entry.type source).count arc
  totalEdges : g.totalEdges = (d.edges.map (·.sources.length)).sum

/-- If what is replaced is empty, a kept list has all edges of its type. -/
theorem flatMap_arcs_of_replaced {entries : List EdgeList}
    (h : ∀ entry ∈ replaced entries, entry.sources = []) {entry : EdgeList}
    (hentry : entry ∈ kept entries) (node : Id) :
    (entries.filter (·.type = entry.type)).flatMap (·.arcs node) = entry.arcs node := by
  induction entries with
  | nil => cases hentry
  | cons first rest ih =>
    rw [kept] at hentry
    rw [replaced] at h
    split at hentry
    · next hlater =>
      rw [if_pos hlater] at h
      obtain ⟨hfirst, hrest⟩ := List.forall_mem_cons.1 h
      have hnone : first.arcs node = [] :=
        Topology.arcsFrom_eq_nil (hfirst ▸ List.not_mem_nil)
      rw [List.filter_cons]
      split
      · rw [List.flatMap_cons, hnone, List.nil_append, ih hrest hentry]
      · exact ih hrest hentry
    · next hnone =>
      rw [if_neg hnone] at h
      rcases List.mem_cons.1 hentry with rfl | hentry
      · have hothers : rest.filter (·.type = entry.type) = [] :=
          List.filter_eq_nil_iff.2 fun later hlater htype ↦
            hnone ⟨later, hlater, of_decide_eq_true htype⟩
        rw [List.filter_cons_of_pos (by simp), hothers, List.flatMap_singleton]
      · have hother : first.type ≠ entry.type := fun htype ↦
          hnone ⟨entry, (kept_sublist rest).subset hentry, htype.symm⟩
        rw [List.filter_cons_of_neg (by simpa using hother), ih h hentry]

/-- **Nothing is lost exactly if all lists that are replaced are empty.** -/
theorem losesNothing_iff (h : d.graph = .ok g) :
    d.LosesNothing g ↔ ∀ entry ∈ replaced d.edges, entry.sources = [] := by
  have htotal := totalEdges_of_graph h
  have hall := ((perm_kept_append_replaced d.edges).map (·.sources.length)).sum_nat
  rw [List.map_append, List.sum_append] at hall
  constructor
  · rintro ⟨-, hlisted⟩ entry hentry
    have hzero : ((replaced d.edges).map (·.sources.length)).sum = 0 := by omega
    have hlength := List.sum_eq_zero_iff_forall_eq_nat.1 hzero _ (List.mem_map_of_mem hentry)
    exact List.length_eq_zero_iff.1 hlength
  · intro hempty
    refine ⟨fun entry hentry k source arc hsource htarget hedge ↦ ?_, ?_⟩
    · have hmem := List.mem_of_getElem? hsource
      have hkept : entry ∈ kept d.edges := by
        rcases List.mem_append.1 ((perm_kept_append_replaced d.edges).symm.subset hentry) with
          hkept | hreplaced
        · exact hkept
        · exact absurd (hempty entry hreplaced ▸ hmem) List.not_mem_nil
      obtain ⟨hrows, hperm⟩ := neighbors_of_graph h hkept
      obtain ⟨row, hrow⟩ := hrows source hmem
      have harc : arc ∈ entry.arcs source := Topology.mem_arcsFrom_iff.2 ⟨k, hsource, htarget, hedge⟩
      refine ⟨row, hrow, Array.mem_toList_iff.1 ((hperm source row hrow).mem_iff.2 harc), ?_⟩
      rw [(hperm source row hrow).count_eq, arcs, flatMap_arcs_of_replaced hempty hkept]
    · have hzero : ((replaced d.edges).map (·.sources.length)).sum = 0 :=
        List.sum_eq_zero_iff_forall_eq_nat.2 fun n hn ↦ by
          obtain ⟨entry, hentry, rfl⟩ := List.mem_map.1 hn
          rw [hempty entry hentry, List.length_nil]
      omega

/-- The graph of a dataset has the edges of its kept lists. -/
structure KeepsLast (d : Dataset) (g : Graph) : Prop where
  /-- A source of a kept list has a row. -/
  exists_row : ∀ entry ∈ kept d.edges, ∀ source ∈ entry.sources,
    ∃ row, g.neighbors entry.type source = .ok row
  /-- The row of a node has the arcs that the kept list of the type gives it, each as often. -/
  row : ∀ entry ∈ kept d.edges, ∀ node row, g.neighbors entry.type node = .ok row →
    row.toList.Perm (entry.arcs node)
  /-- There are no other edges. -/
  totalEdges : g.totalEdges = ((kept d.edges).map (·.sources.length)).sum
  /-- What is lost are the edges of lists that are replaced. -/
  losesNothing_iff : d.LosesNothing g ↔ ∀ entry ∈ replaced d.edges, entry.sources = []

/-- **The graph of a dataset has the edges of the last list of every type**, and none is lost
exactly if the other lists are empty. -/
theorem keepsLast_of_graph (h : d.graph = .ok g) : d.KeepsLast g where
  exists_row _ hentry := (neighbors_of_graph h hentry).1
  row _ hentry := (neighbors_of_graph h hentry).2
  totalEdges := totalEdges_of_graph h
  losesNothing_iff := losesNothing_iff h

/-- One edge type, listed twice. -/
def twice : Dataset where
  nodeCounts := .empty
  edges := [⟨⟨⟨"a"⟩, "r", ⟨"b"⟩⟩, [0], [0], none, .zeroCopy⟩,
    ⟨⟨⟨"a"⟩, "r", ⟨"b"⟩⟩, [0], [1], none, .zeroCopy⟩]
  nodeFeatures := .empty
  edgeFeatures := []
  nodeLabels := .empty

theorem exists_graph_twice : ∃ g, twice.graph = .ok g := isOk_iff.1 (by decide +kernel)

theorem keepsLast_of_graph_twice : ∃ g, twice.graph = .ok g ∧ twice.KeepsLast g :=
  exists_graph_twice.imp fun _ h ↦ ⟨h, keepsLast_of_graph h⟩

/-- Where an edge type is listed twice, the edges of the first list are lost. -/
theorem exists_edge_lost : ∃ g, twice.graph = .ok g ∧ ¬twice.LosesNothing g := by
  refine exists_graph_twice.imp fun _ hg ↦ ⟨hg, fun h ↦ ?_⟩
  have hempty := (losesNothing_iff hg).1 h
  exact List.cons_ne_nil 0 [] (hempty _ List.mem_cons_self)

end Dataset

end HopSampler
