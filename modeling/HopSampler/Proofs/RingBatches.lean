import HopSampler.Proofs.Batches
import HopSampler.Proofs.FeatureTables
import HopSampler.Proofs.LastStage
import HopSampler.Proofs.Rings
import HopSampler.Proofs.RowTrees

/-!
# Batches of the ring

Every feature row of the ring repeats its own number and every label is its own number, so a batch
shows whether features, labels and IDs stay together. They do, whatever is sampled and wherever hot
and cold rows are kept (`Dataset.ring_selfConsistent`).

Nothing here is taken from a particular walk. An answer is *drawn from* its graph: it lists nodes of
the graph, its links are arcs, and an index names the edge type that was followed
(`SamplingOutput.DrawnFrom`). In the ring the key of an index leaves one edge type only, so the
origin of a link decides where it leads and which ID it has. The rest is that the tables of the ring
answer every list of their IDs, and at once (`Dataset.Ring.Echoes`).
-/

namespace HopSampler

/-! ### Tables in memory -/

namespace FeatureTable

variable {t : FeatureTable} {device : UInt64}

theorem moment_fetchPart {source : RowSource} (h : source.Instant) (part : List (Nat × Nat)) :
    (t.fetchPart source part).moment = 0 := by
  rw [fetchPart]
  split
  · rfl
  · exact h _

/-- A table is as fast as its sources. -/
theorem moment_lookup (hhot : ∀ source, t.replicaFor device = .ok source → source.Instant)
    (hcold : t.cold.Instant) (ids : List Id) : (t.lookup ids device).moment = 0 := by
  rw [lookup]
  split
  · rfl
  · next rows _ =>
    split
    · rfl
    · next replica hsource =>
      have hreplica : replica.Instant := by
        rw [hotSource] at hsource
        split at hsource
        · exact Except.ok.inj hsource ▸ hcold
        · exact hhot replica hsource
      exact Delayed.moment_both (moment_fetchPart hreplica _) (moment_fetchPart hcold _)

namespace Plan

variable {p : Plan}

/-- Under every placement the backing of cold rows is there at once. -/
theorem instant_coldBacking (hnone : p.coldSource = none) {cold : RowSource}
    (h : p.coldBacking = .ok cold) : cold.Instant := by
  simp only [coldBacking, hnone] at h
  split at h
  · exact Except.ok.inj h ▸ RowSource.instant_held _ _
  · exact Except.ok.inj h ▸ RowSource.instant_held _ _
  · obtain ⟨parts, hsplit, rfl⟩ := map_eq_ok_iff.1 h
    obtain ⟨-, rfl⟩ := Partitions.split_eq_ok_iff.1 hsplit
    exact Partitions.instant (List.forall_mem_map.2 fun k _ ↦ RowSource.instant_held _ _)

/-- **A table that keeps its own rows answers at once.** -/
theorem moment_lookup_of_build (hnone : p.coldSource = none) (hbuild : p.build = .ok t)
    (entity : Entity) (ids : List Id) (device : UInt64) :
    (({ t with entity } : FeatureTable).lookup ids device).moment = 0 := by
  refine moment_lookup (fun source hsource ↦ ?_) ?_ ids
  · have hcopy : t.replicaFor device = .ok source := hsource
    obtain ⟨home, rfl⟩ := resident_of_build hbuild hcopy
    exact RowSource.instant_held _ _
  · obtain ⟨-, -, -, copies, -, cold, hbacking, rfl⟩ := build_eq_ok_iff.1 hbuild
    exact instant_coldBacking hnone hbacking

end Plan

end FeatureTable

/-! ### Features of the ring -/

namespace Dataset.Ring

variable {count degree width : Nat} {groups : List DeviceGroup} {device : UInt64}

/-- A table answers every list of its IDs with rows that repeat the ID, and at once. -/
def Echoes (rows width : Nat) (device : UInt64) (table : FeatureTable) : Prop :=
  ∀ (limit : Option Nat) (ids : List Id), (∀ id ∈ ids, id.toNat < rows) →
    ∃ m, (table.lookup ids device).Gives limit m ∧ m.width = width ∧
      m.rows.toList = ids.map fun id ↦ List.replicate width id.toFloat32

/-- Nothing is in the way of a table of the ring, where there are groups and all have a device. -/
theorem usable_table (rows width : Nat) (hgroups : groups ≠ [])
    (hdevices : ∀ group ∈ groups, group.deviceIds ≠ []) : (table rows width).Usable groups where
  widths row hrow other hother := by
    obtain ⟨i, -, rfl⟩ := List.mem_map.1 hrow
    obtain ⟨j, -, rfl⟩ := List.mem_map.1 hother
    rw [List.length_replicate, List.length_replicate]
  ids := nofun
  ratio := by
    show (0.0 : Float) ≤ 0.2 ∧ (0.2 : Float) ≤ 1.0
    decide
  partitions := nofun
  groups _ := ⟨hgroups, hdevices⟩

theorem echoes_of_build {rows : Nat} (hrows : 0 < rows) {built : FeatureTable}
    (hbuild : (table rows width).build groups = .ok built) (entity : Entity)
    (hdevice : ∃ group ∈ groups, device ∈ group.deviceIds) :
    Echoes rows width device { built with entity } := by
  intro limit ids hids
  have hlength : (table rows width).rows.length = rows := by simp [table]
  have hwidth : (table rows width).width = width := by
    obtain ⟨n, rfl⟩ : ∃ n, rows = n + 1 := ⟨rows - 1, by omega⟩
    simp [TableData.width, table, List.range_succ_eq_map]
  have hown : ids.map (table rows width).idAt = ids := List.map_id ids
  obtain ⟨m, hresult, hm, hanswer⟩ := TableData.lookup_of_build hbuild entity (fun _ ↦ hdevice)
    fun k hk ↦ hlength.symm ▸ hids k hk
  rw [hown] at hresult
  obtain ⟨data, -, map, -, hplan⟩ := TableData.build_eq_ok_iff.1 hbuild
  have hmoment := FeatureTable.Plan.moment_lookup_of_build rfl hplan entity ids device
  refine ⟨m, ⟨hresult, fun l _ ↦ hmoment ▸ Nat.zero_le l⟩, hm.trans hwidth, ?_⟩
  refine List.map_injective_iff.2 (Option.some_injective _) (hanswer.trans ?_)
  rw [List.map_map]
  refine List.map_congr_left fun id hid ↦ ?_
  show ((List.range rows).map fun i ↦ List.replicate width i.toUInt64.toFloat32)[id.toNat]? = _
  rw [List.getElem?_map, List.getElem?_range (hids id hid), Option.map_some]
  exact congrArg (fun k : UInt64 ↦ some (List.replicate width k.toFloat32)) UInt64.ofNat_toNat

/-- Whatever such a table answers repeats the IDs. -/
theorem Echoes.eq_of_gives {rows : Nat} {table : FeatureTable}
    (h : Echoes rows width device table) {limit : Option Nat} {ids : List Id}
    (hids : ∀ id ∈ ids, id.toNat < rows) {m : Matrix}
    (hm : (table.lookup ids device).Gives limit m) :
    m.width = width ∧ m.rows.toList = ids.map fun id ↦ List.replicate width id.toFloat32 := by
  obtain ⟨m', hm', hrows⟩ := h limit ids hids
  obtain rfl : m = m' := Except.ok.inj (hm.result.symm.trans hm'.result)
  exact hrows

/-- A store has a table that repeats IDs for all nodes and edges of the ring. -/
structure IsStore (count degree width : Nat) (device : UInt64) (store : FeatureStore) : Prop where
  nodes : ∀ t, t = user ∨ t = item →
    ∃ table, store.find? (.node t) = some table ∧ Echoes count width device table
  edges : ∀ e offset, (e, offset) ∈ kinds →
    ∃ table, store.find? (.edge e) = some table ∧ Echoes (count * degree) width device table

/-- **The ring has a feature store, and its tables repeat their IDs.** -/
theorem exists_features (hcount : 0 < count) (hdegree : 0 < degree) (width : Nat)
    (hdevices : ∀ group ∈ groups, group.deviceIds ≠ [])
    (hdevice : ∃ group ∈ groups, device ∈ group.deviceIds) :
    ∃ store, (ring count degree width).features groups = .ok store ∧
      IsStore count degree width device store := by
  have hgroups : groups ≠ [] := by
    obtain ⟨group, hgroup, -⟩ := hdevice
    exact List.ne_nil_of_mem hgroup
  have husable : (ring count degree width).Usable groups := by
    constructor
    · intro t data hdata
      obtain ⟨-, rfl⟩ := get?_both_iff.1 hdata
      exact usable_table count width hgroups hdevices
    · exact List.forall_mem_cons.2 ⟨usable_table _ width hgroups hdevices,
        List.forall_mem_singleton.2 (usable_table _ width hgroups hdevices)⟩
  obtain ⟨store, hstore⟩ := exists_foldlM_put_iff.2 (forall_tables_iff.2 husable)
  have hechoes : ∀ subject rows, 0 < rows →
      (ring count degree width).table? subject = some (table rows width) →
      ∃ table, store.find? subject = some table ∧ Echoes rows width device table := by
    intro subject rows hrows htable
    obtain ⟨built, hbuild, hfind⟩ := find?_of_foldlM_put hstore (last?_tables htable)
    exact ⟨_, hfind, echoes_of_build hrows hbuild subject.entity hdevice⟩
  refine ⟨store, features_eq.trans hstore, fun t ht ↦ ?_, fun e offset hkind ↦ ?_⟩
  · exact hechoes (.node t) count hcount (get?_both_iff.2 ⟨ht, rfl⟩)
  · refine hechoes (.edge e) (count * degree) (Nat.mul_pos hcount hdegree) ?_
    rcases mem_kinds_iff.1 hkind with ⟨rfl, -⟩ | ⟨rfl, -⟩ <;> rfl

end Dataset.Ring

/-! ### Answers and their graph -/

/-- An output lists nodes and edges of a graph. -/
structure SamplingOutput.DrawnFrom (o : SamplingOutput) (g : Graph) (layout : EdgeLayout)
    (withEdge : Bool) : Prop where
  /-- A node type is listed with nodes of the graph, and only if it has some. -/
  nodes : ∀ t ids, o.nodes.get? t = some ids → ids ≠ [] ∧ ∀ id ∈ ids, g.HasNode t id
  /-- An index is in step with the nodes and with the graph. -/
  faithful : ∀ key index, o.edges.get? key = some index → index.Faithful o g layout withEdge key
  /-- It names an edge type of the graph, one that is listed under its key. -/
  origin : ∀ key index, o.edges.get? key = some index → index.origin ∈ g.edgeTypes ∧
    Expansion.listedUnder layout index.origin = key

namespace Expansion

variable {rules : Rules} {seeds : Rosters} {last hops : Nat} {layout : EdgeLayout} {withEdge : Bool}
  {metadata : Metadata}

/-- The origin of an index is an edge type that was followed. -/
theorem origin_stage {key : EdgeType} {index : EdgeIndex}
    (hindex : ((stage rules seeds last).edges layout withEdge).get? key = some index) :
    index.origin ∈ rules.graph.edgeTypes ∧ listedUnder layout index.origin = key := by
  rw [get?_edges, Option.map_eq_some_iff] at hindex
  obtain ⟨block, hblock, rfl⟩ := hindex
  obtain ⟨hmem, hkey⟩ := List.mem_filter.1 (List.mem_of_mem_head? hblock)
  obtain ⟨s, -, task, htask, rfl⟩ := (mem_blocks_stage_iff rules seeds).1 hmem
  obtain ⟨-, -, htop, -⟩ := (mem_tasksAt_iff rules seeds).1 htask
  rw [listing_origin]
  exact ⟨List.mem_map.2 ⟨_, Graph.topology_eq_ok_iff.1 htop, rfl⟩, of_decide_eq_true hkey⟩

/-- **A stage is drawn from the graph.** -/
theorem drawnFrom_stage (hg : rules.graph.WellFormed) (hseeds : InRange rules.graph seeds)
    (hlisted : seeds.NoneEmpty) (hlast : last ≤ hops) :
    ((stage rules seeds last).present layout withEdge hops metadata).DrawnFrom rules.graph layout
      withEdge where
  nodes t ids hids := by
    rw [present, SortedMap.get?_mapEntries, Option.map_eq_some_iff] at hids
    obtain ⟨roster, hroster, rfl⟩ := hids
    refine ⟨noneEmpty_stage rules hlisted last t roster hroster, fun id hid ↦ ?_⟩
    refine inRange_stage hg hseeds last t id ?_
    rwa [Rosters.roster, SortedMap.getD_of_get? hroster]
  faithful key index hindex := faithful_stage hg hseeds hlast hindex
  origin key index hindex := origin_stage hindex

end Expansion

namespace Sampler

variable {s : Sampler}

theorem graph_of_make {g : Graph} {config : SamplerConfig} (h : make g config = .ok s) :
    s.graph = g := by
  rw [make, check_bind_eq_ok_iff, check_bind_eq_ok_iff] at h
  obtain ⟨-, -, h⟩ := h
  exact Except.ok.inj h ▸ rfl

/-- **An accepted request is answered from the graph.** -/
theorem exists_output_drawnFrom {r : Request} (hg : s.graph.WellFormed) (h : s.Accepts r)
    (seed : UInt64) : ∃ o, (s.answer r seed).output = .ok o ∧
      o.DrawnFrom s.graph s.config.layout s.config.withEdge := by
  obtain ⟨metadata, -, houtput⟩ := exists_output hg h seed
  have hrules : (s.rules seed).graph.WellFormed := hg
  refine ⟨_, houtput s.config.layout, ?_⟩
  exact Expansion.drawnFrom_stage hrules (inRange_seeds h seed) (noneEmpty_seeds r seed)
    (Nat.le_refl _)

end Sampler

/-! ### Links of the ring -/

theorem SamplingOutput.DrawnFrom.hasNode {o : SamplingOutput} {g : Graph} {layout : EdgeLayout}
    {withEdge : Bool} (h : o.DrawnFrom g layout withEdge) {t : NodeType} {id : Id}
    (hid : id ∈ o.nodesOf t) : g.HasNode t id := by
  rw [nodesOf, SortedMap.getD] at hid
  cases hids : o.nodes.get? t with
  | none => simp [hids] at hid
  | some ids =>
    rw [hids, Option.getD_some] at hid
    exact (h.nodes t ids hids).2 id hid

/-- Where IDs are listed, a link has the one at its position. -/
theorem EdgeIndex.edge_of_links {i : EdgeIndex} {layout : EdgeLayout} {ids : List Id}
    (hids : i.edge = some ids) {j : Nat} {link : Link} (hlink : (i.links layout)[j]? = some link) :
    link.edge = ids[j]? := by
  have hall : i.ids = ids.map some := by rw [EdgeIndex.ids, hids]
  have hat : ∀ pairs : List (Nat × Nat),
      (List.zipWith (fun p id ↦ (⟨p.1, p.2, id⟩ : Link)) pairs i.ids)[j]? = some link →
        link.edge = ids[j]? := by
    intro pairs hpair
    obtain ⟨p, id?, -, hid, rfl⟩ := List.getElem?_zipWith_eq_some.1 hpair
    rw [hall, List.getElem?_map, Option.map_eq_some_iff] at hid
    obtain ⟨id, hid, rfl⟩ := hid
    exact hid.symm
  cases layout with
  | traversal => exact hat _ hlink
  | messagePassing => exact hat _ hlink

namespace Dataset.Ring

variable {count degree : Nat} {g : Graph} {layout : EdgeLayout} {withEdge : Bool}
  {o : SamplingOutput} {key : EdgeType} {index : EdgeIndex}

theorem hasNode_iff (h : g.IsRing count degree) (hsize : count < UInt64.size) {t : NodeType}
    {id : Id} : g.HasNode t id ↔ (t = user ∨ t = item) ∧ id.toNat < count := by
  simp only [Graph.HasNode, h.numNodes, and_assoc, exists_and_left, exists_eq_left,
    UInt64.lt_iff_toNat_lt, toNat_toUInt64 hsize]

theorem exists_kind_iff (h : g.IsRing count degree) {e : EdgeType} :
    e ∈ g.edgeTypes ↔ ∃ offset, (e, offset) ∈ kinds := by
  rw [h.edgeTypes.mem_iff, List.mem_map]
  exact ⟨fun ⟨(_, offset), hkind, he⟩ ↦ ⟨offset, he ▸ hkind⟩, fun ⟨_, hkind⟩ ↦ ⟨_, hkind, rfl⟩⟩

/-- Users and items of the ring are accepted as seeds. -/
theorem accepts_nodes (hdegree : 0 < degree) (hheld : Holdable count degree) {s : Sampler}
    (h : s.graph.IsRing count degree) {r : NodeRequest} (htype : r.type = user ∨ r.type = item)
    (hids : ∀ id ∈ r.ids, id.toNat < count) : s.Accepts (.node r) where
  type := by
    have hcount := Graph.numNodes_eq_ok_iff.1 ((h.numNodes r.type _).2 ⟨htype, rfl⟩)
    exact Option.isSome_iff_exists.2 ⟨_, hcount⟩
  ids id hid := (hasNode_iff h (hheld.count_lt_size hdegree)).2 ⟨htype, hids id hid⟩

/-- A link of the ring that was followed under an edge type: it leads from a node to the one that is
`k` places after the first neighbor and, where IDs are listed, has the ID of link `k`. -/
def IsLink (count degree offset : Nat) (withEdge : Bool) (o : SamplingOutput) (e : EdgeType)
    (link : Link) : Prop :=
  ∃ source target k, source.toNat < count ∧ k < degree ∧
    (o.nodesOf e.source)[link.source]? = some source ∧
    (o.nodesOf e.target)[link.target]? = some target ∧
    target.toNat = (source.toNat + k + offset) % count ∧
    link.edge.map (·.toNat) = if withEdge then some (source.toNat * degree + k) else none

/-- An index lists links of the ring, all of its origin. -/
structure ListsLinks (count degree : Nat) (layout : EdgeLayout) (withEdge : Bool)
    (o : SamplingOutput) (index : EdgeIndex) : Prop where
  even : index.Even withEdge
  origin : ∃ offset, (index.origin, offset) ∈ kinds
  links : ∀ offset, (index.origin, offset) ∈ kinds → ∀ j < index.size,
    ∃ link, (index.links layout)[j]? = some link ∧
      IsLink count degree offset withEdge o index.origin link

/-- The key of an index leaves one edge type of the ring only. -/
theorem eq_of_listedUnder {e f : EdgeType} {offset offset' : Nat} (he : (e, offset) ∈ kinds)
    (hf : (f, offset') ∈ kinds)
    (h : Expansion.listedUnder layout e = Expansion.listedUnder layout f) : e = f := by
  have hsource := congrArg layout.sourceType h
  rw [Expansion.sourceType_listedUnder, Expansion.sourceType_listedUnder] at hsource
  rcases mem_kinds_iff.1 he with ⟨rfl, -⟩ | ⟨rfl, -⟩ <;>
    rcases mem_kinds_iff.1 hf with ⟨rfl, -⟩ | ⟨rfl, -⟩
  · rfl
  · exact absurd hsource (by decide)
  · exact absurd hsource (by decide)
  · rfl

/-- **What is drawn from the ring are its links**, and the origin of an index says which. -/
theorem listsLinks_of_drawnFrom (hdegree : 0 < degree) (hheld : Holdable count degree)
    (h : g.IsRing count degree) (hdrawn : o.DrawnFrom g layout withEdge)
    (hindex : o.edges.get? key = some index) : ListsLinks count degree layout withEdge o index := by
  have hsize := hheld.count_lt_size hdegree
  obtain ⟨horigin, hkey⟩ := hdrawn.origin key index hindex
  have hfaithful := hdrawn.faithful key index hindex
  refine ⟨hfaithful.even, (exists_kind_iff h).1 horigin, fun offset hkind j hj ↦ ?_⟩
  obtain ⟨link, hlink, e, hunder, source, row, hrow, arc, harc, hsource, htarget, hedge⟩ :=
    hfaithful.entries j hj
  -- the edge type that was followed is the origin
  obtain ⟨topology, htop, -⟩ := Graph.neighbors_eq_ok_iff.1 hrow
  have he : e ∈ g.edgeTypes := List.mem_map.2 ⟨_, Graph.topology_eq_ok_iff.1 htop, rfl⟩
  obtain ⟨offset', hkind'⟩ := (exists_kind_iff h).1 he
  obtain rfl : e = index.origin := eq_of_listedUnder hkind' hkind (hunder.trans hkey.symm)
  rw [← hkey, Expansion.sourceType_listedUnder] at hsource
  rw [← hkey, Expansion.targetType_listedUnder] at htarget
  have hlt : source.toNat < count :=
    ((hasNode_iff h hsize).1 (hdrawn.hasNode (List.mem_of_getElem? hsource))).2
  obtain ⟨row', hrow', hperm⟩ := h.row _ offset hkind source hlt
  obtain rfl : row = row' := Except.ok.inj (hrow.symm.trans hrow')
  obtain ⟨k, hk, rfl⟩ := List.mem_map.1 (hperm.mem_iff.1 (Array.mem_toList_iff.2 harc))
  have hk := List.mem_range.1 hk
  obtain ⟨hplace, hid⟩ := toNat_arcAt hheld hdegree offset hlt hk
  refine ⟨link, hlink, source, _, k, hlt, hk, hsource, htarget, hplace, ?_⟩
  rw [hedge]
  cases withEdge
  · rfl
  · exact congrArg some hid

/-- The edge IDs that are listed are those of edges of the ring. -/
theorem ListsLinks.lt_of_mem (h : ListsLinks count degree layout withEdge o index) {ids : List Id}
    (hids : index.edge = some ids) {id : Id} (hid : id ∈ ids) : id.toNat < count * degree := by
  obtain ⟨j, hj⟩ := List.mem_iff_getElem?.1 hid
  have hlength : ids.length = index.size := by
    have hedge := h.even.edge
    rw [hids] at hedge
    cases withEdge
    · exact nomatch hedge
    · exact Option.some.inj hedge
  obtain ⟨offset, hkind⟩ := h.origin
  obtain ⟨link, hlink, source, target, k, hsource, hk, -, -, -, hedge⟩ :=
    h.links offset hkind j (hlength ▸ (List.getElem?_eq_some_iff.1 hj).1)
  rw [EdgeIndex.edge_of_links hids hlink, hj] at hedge
  cases withEdge
  · exact nomatch hedge
  · have hid : id.toNat = source.toNat * degree + k := Option.some.inj hedge
    exact hid ▸ edge_lt hsource hk

/-! ### Batches of the ring -/

/-- A batch of the ring: features repeat the IDs they stand beside, and labels are the IDs. -/
structure IsBatch (width : Nat) (o : SamplingOutput) (b : Batch) : Prop where
  sample : b.sample = o
  nodeFeatures : ∀ t ids, o.nodes.get? t = some ids → ∃ x, b.nodeFeatures.get? t = some x ∧
    x.width = width ∧ x.rows.toList = ids.map fun id ↦ List.replicate width id.toFloat32
  edgeFeatures : ∀ key index ids, o.edges.get? key = some index → index.edge = some ids →
    ∃ attr, b.edgeFeatures.get? key = some attr ∧
      attr.width = width ∧ attr.rows.toList = ids.map fun id ↦ List.replicate width id.toFloat32
  labels : ∀ t ids, o.nodes.get? t = some ids → ∃ y, b.labels.get? t = some y ∧
    y.map (·.toInt) = ids.map fun id ↦ (id.toNat : Int)

/-- Labels that were found at IDs are the IDs. -/
theorem toInt_of_labels (hcount : count < Int64.size / 2) {ids : List Id}
    (hids : ∀ id ∈ ids, id.toNat < count) {found : List Int64}
    (h : found.map some = ids.map fun id ↦ (labels count)[id.toNat]?) :
    found.map (·.toInt) = ids.map fun id ↦ (id.toNat : Int) := by
  have hfound : found = ids.map fun id ↦ Int64.ofNat id.toNat := by
    refine List.map_injective_iff.2 (Option.some_injective _) (h.trans ?_)
    rw [List.map_map]
    refine List.map_congr_left fun id hid ↦ ?_
    rw [labels, List.getElem?_map, List.getElem?_range (hids id hid)]
    rfl
  rw [hfound, List.map_map]
  exact List.map_congr_left fun id hid ↦
    Int64.toInt_ofNat_of_lt (Nat.lt_trans (hids id hid) hcount)

section Batches

variable (hdegree : 0 < degree) (hheld : Holdable count degree) (h : g.IsRing count degree)
  (hdrawn : o.DrawnFrom g layout withEdge)
include hdegree hheld h hdrawn

/-- The nodes that are listed are users and items of the ring. -/
theorem nodes_of_drawnFrom {t : NodeType} {ids : List Id} (hids : o.nodes.get? t = some ids) :
    (t = user ∨ t = item) ∧ ∀ id ∈ ids, id.toNat < count := by
  have hsize := hheld.count_lt_size hdegree
  obtain ⟨hne, hall⟩ := hdrawn.nodes t ids hids
  obtain ⟨id, hid⟩ := List.exists_mem_of_ne_nil ids hne
  exact ⟨((hasNode_iff h hsize).1 (hall id hid)).1,
    fun id hid ↦ ((hasNode_iff h hsize).1 (hall id hid)).2⟩

variable {width : Nat} {a : Assembler} {store : FeatureStore} (hstore : a.features = some store)
  (hechoes : IsStore count degree width a.device store)
include hstore hechoes

/-- What is listed has a table. -/
theorem exists_nodeTable {t : NodeType} {ids : List Id} (hids : o.nodes.get? t = some ids) :
    ∃ table, a.table? (.node t) = some table ∧ Echoes count width a.device table := by
  rw [Assembler.table?_eq hstore]
  exact hechoes.nodes t (nodes_of_drawnFrom hdegree hheld h hdrawn hids).1

theorem exists_edgeTable (hindex : o.edges.get? key = some index) :
    ∃ table, a.table? (.edge index.origin) = some table ∧
      Echoes (count * degree) width a.device table := by
  obtain ⟨offset, hkind⟩ := (listsLinks_of_drawnFrom hdegree hheld h hdrawn hindex).origin
  rw [Assembler.table?_eq hstore]
  exact hechoes.edges index.origin offset hkind

/-- All that is looked up is answered, whatever the deadline. -/
theorem exists_featuresOf : ∃ features, a.featuresOf o = .ok features := by
  refine Assembler.exists_featuresOf_iff.2 fun table ids hneeds ↦ ?_
  cases hneeds with
  | node hids htable =>
    obtain ⟨table', htable', hecho⟩ := exists_nodeTable hdegree hheld h hdrawn hstore hechoes hids
    obtain rfl : table = table' := Option.some.inj (htable.symm.trans htable')
    have hrange := (nodes_of_drawnFrom hdegree hheld h hdrawn hids).2
    exact (hecho a.limit ids hrange).imp fun _ hm ↦ hm.1
  | edge hindex hids htable =>
    obtain ⟨table', htable', hecho⟩ := exists_edgeTable hdegree hheld h hdrawn hstore hechoes hindex
    obtain rfl : table = table' := Option.some.inj (htable.symm.trans htable')
    have hlinks := listsLinks_of_drawnFrom hdegree hheld h hdrawn hindex
    exact (hecho a.limit ids fun _ ↦ hlinks.lt_of_mem hids).imp fun _ hm ↦ hm.1

/-- **What is drawn from the ring makes a batch of the ring**, whatever the deadline. -/
theorem exists_batch (hlabels : a.labels = (ring count degree width).nodeLabels) :
    ∃ b, a.assemble o = .ok b ∧ IsBatch width o b := by
  have hnodes : ∀ {t ids}, o.nodes.get? t = some ids →
      (t = user ∨ t = item) ∧ ∀ id ∈ ids, id.toNat < count := fun hids ↦
    nodes_of_drawnFrom hdegree hheld h hdrawn hids
  have hlabelled : ∀ t ids, o.nodes.get? t = some ids → a.labels.get? t = some (labels count) := by
    intro t ids hids
    rw [hlabels]
    exact get?_both_iff.2 ⟨(hnodes hids).1, rfl⟩
  obtain ⟨⟨x, attr⟩, hfeatures⟩ := exists_featuresOf hdegree hheld h hdrawn hstore hechoes
  obtain ⟨y, hy⟩ : ∃ y, a.gatherLabels o.nodes = .ok y := by
    refine Assembler.exists_gatherLabels_iff.2 fun t ids found hids hfound id hid ↦ ?_
    obtain rfl : found = labels count := Option.some.inj (hfound.symm.trans (hlabelled t ids hids))
    rw [labels, List.length_map, List.length_range]
    exact (hnodes hids).2 id hid
  have hbatch := Assembler.assemble_eq_ok_iff.2 ⟨x, attr, y, hfeatures, hy, rfl⟩
  have haligned := Assembler.aligned_of_assemble hbatch
  refine ⟨_, hbatch, rfl, fun t ids hids ↦ ?_, fun key index ids hindex hids ↦ ?_,
    fun t ids hids ↦ ?_⟩
  · obtain ⟨table, htable, hecho⟩ := exists_nodeTable hdegree hheld h hdrawn hstore hechoes hids
    obtain ⟨m, hm, hreads⟩ := haligned.nodeRows t ids table hids htable
    exact ⟨m, hm, hecho.eq_of_gives (hnodes hids).2 hreads.answered⟩
  · obtain ⟨table, htable, hecho⟩ := exists_edgeTable hdegree hheld h hdrawn hstore hechoes hindex
    obtain ⟨m, hm, hreads⟩ := haligned.edgeRows key index ids table hindex hids htable
    have hlinks := listsLinks_of_drawnFrom hdegree hheld h hdrawn hindex
    exact ⟨m, hm, hecho.eq_of_gives (fun _ ↦ hlinks.lt_of_mem hids) hreads.answered⟩
  · obtain ⟨found, hfound, hrows⟩ := haligned.labels t ids _ hids (hlabelled t ids hids)
    exact ⟨found, hfound, toInt_of_labels (hheld.count_lt hdegree) (hnodes hids).2 hrows⟩

end Batches

/-! ### From the dataset to the batch -/

/-- An answer to a request on the ring: links are links of the ring, and the batch that is assembled
from the ring's features and labels is a batch of the ring. -/
structure IsAnswer (count degree width : Nat) (s : Sampler) (a : Assembler) (o : SamplingOutput) :
    Prop where
  /-- Every index that is listed lists links of its origin. -/
  edges : ∀ key index, o.edges.get? key = some index →
    ListsLinks count degree s.config.layout s.config.withEdge o index
  batch : ∃ b, a.assemble o = .ok b ∧ IsBatch width o b

end Dataset.Ring

open Dataset.Ring in
/-- **The ring is consistent from end to end.** -/
theorem Dataset.ring_selfConsistent {count degree : Nat} (hcount : 0 < count) (hdegree : 0 < degree)
    (hheld : Holdable count degree) (width : Nat) :
    ∃ g, (ring count degree width).graph = .ok g ∧ g.IsRing count degree ∧
      ∀ (groups : List DeviceGroup) (device : UInt64) (deadline : Option Milliseconds),
        (∀ group ∈ groups, group.deviceIds ≠ []) → (∃ group ∈ groups, device ∈ group.deviceIds) →
        ∃ store, (ring count degree width).features groups = .ok store ∧
          ∀ (config : SamplerConfig) (s : Sampler) (r : NodeRequest) (seed : UInt64),
            Sampler.make g config = .ok s → r.type = user ∨ r.type = item →
            (∀ id ∈ r.ids, id.toNat < count) →
            ∃ o, (s.answer (.node r) seed).output = .ok o ∧
              IsAnswer count degree width s
                ⟨some store, (ring count degree width).nodeLabels, device, deadline⟩ o := by
  obtain ⟨g, hgraph, h⟩ := exists_graph hcount hdegree hheld width
  refine ⟨g, hgraph, h, fun groups device deadline hdevices hdevice ↦ ?_⟩
  obtain ⟨store, hfeatures, hstore⟩ := exists_features hcount hdegree width hdevices hdevice
  refine ⟨store, hfeatures, fun config s r seed hmake htype hids ↦ ?_⟩
  obtain rfl : s.graph = g := Sampler.graph_of_make hmake
  obtain ⟨o, ho, hdrawn⟩ :=
    Sampler.exists_output_drawnFrom h.wellFormed (accepts_nodes hdegree hheld h htype hids) seed
  exact ⟨o, ho, fun _ _ ↦ listsLinks_of_drawnFrom hdegree hheld h hdrawn,
    exists_batch hdegree hheld h hdrawn rfl hstore rfl⟩

open Dataset.Ring in
/-- A short ring with many links, asked twice for one of its users, without time to wait. -/
theorem Dataset.ring_selfConsistent_short :
    ∃ g store o, (ring 2 3 1).graph = .ok g ∧ (ring 2 3 1).features [⟨0, [4, 5]⟩] = .ok store ∧
      ((⟨g, { budgets := .uniform [2, 1], withEdge := true }⟩ : Sampler).answer
        (.node ⟨user, [1, 0, 1]⟩) 7).output = .ok o ∧
      IsAnswer 2 3 1 ⟨g, { budgets := .uniform [2, 1], withEdge := true }⟩
        ⟨some store, (ring 2 3 1).nodeLabels, 5, some 0⟩ o := by
  have hheld : Holdable 2 3 := show 2 * 3 < Int64.size / 2 by decide
  obtain ⟨g, hgraph, -, hrest⟩ := ring_selfConsistent (by decide) (by decide) hheld 1
  obtain ⟨store, hstore, hrest⟩ := hrest [⟨0, [4, 5]⟩] 5 (some 0) (by decide) (by decide)
  obtain ⟨o, ho, hanswer⟩ := hrest { budgets := .uniform [2, 1], withEdge := true } _
    ⟨user, [1, 0, 1]⟩ 7 rfl (.inl rfl) (by simp)
  exact ⟨g, store, o, hgraph, hstore, ho, hanswer⟩

end HopSampler
