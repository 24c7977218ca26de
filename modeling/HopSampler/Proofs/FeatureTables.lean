import HopSampler.Dataset.Basic
import HopSampler.Proofs.IdMaps
import HopSampler.Proofs.Maps
import HopSampler.Proofs.Placements

/-!
# The rows of a dataset are found under their IDs

A table passes four stations on its way into a store: its rows become one list of values and rows
again, its IDs a map, the two of them a plan, and the plan a table that keeps its rows in copies and
a backing. Each station has a condition of its own, and together they are all that can be in the way
(`TableData.exists_build_iff`). Past them positions are the common measure: an ID map sends the ID
at a position to that position (`TableData.Numbers`), and a table that keeps a matrix answers with
the rows at the positions it is sent to (`FeatureTable.Keeps.exists_lookup`).

A store is filled table by table. The last table of a subject is the one it keeps
(`Dataset.find?_of_foldlM_put`), by induction on the tables from the back.
-/

namespace HopSampler

/-! ### Rows as values and back -/

/-- Rows of one width, written one after the other, are cut into the same rows. -/
theorem Matrix.cutRows_flatten {rows : List Row} {width : Nat}
    (h : ∀ row ∈ rows, row.length = width) : cutRows width rows.length rows.flatten = rows := by
  induction rows with
  | nil => rfl
  | cons row rows ih =>
    obtain ⟨hrow, hrows⟩ := List.forall_mem_cons.1 h
    show (row ++ rows.flatten).take width ::
      cutRows width rows.length ((row ++ rows.flatten).drop width) = row :: rows
    rw [List.take_left' hrow, List.drop_left' hrow, ih hrows]

/-! ### Plans that can be carried out -/

namespace FeatureTable.Plan

/-- Copies are made exactly if every group has a device. -/
theorem exists_replicate_iff (hot : Matrix) {groups : List DeviceGroup} :
    (∃ copies, replicate hot groups = .ok copies) ↔ ∀ group ∈ groups, group.deviceIds ≠ [] := by
  refine ⟨?_, exists_replicate hot⟩
  rintro ⟨copies, h⟩ group hgroup hempty
  obtain ⟨made, made', hadd⟩ := exists_step_of_foldlM h hgroup
  rw [addCopy, DeviceGroup.home?, hempty] at hadd
  cases hadd

/-- The map has no row out of range. -/
theorem checkRows_eq_ok_iff {ids : IdMap} {rows : Nat} :
    checkRows ids rows = .ok () ↔ ∀ row, ids.maxRow? = some row → row < rows := by
  rw [checkRows]
  split
  · next hnone => simp [hnone]
  · next row hmax =>
    rw [ite_ok_eq_ok_iff, hmax]
    simp

/-- Cold rows can be kept, but not in no partitions. -/
theorem exists_coldBacking_iff {p : Plan} (hcold : p.coldSource = none) :
    (∃ cold, p.coldBacking = .ok cold) ↔
      ∀ count, p.coldPlacement = .partitioned count → count ≠ 0 := by
  simp only [coldBacking, hcold]
  cases p.coldPlacement with
  | zeroCopy => exact iff_of_true ⟨_, rfl⟩ fun count h ↦ by cases h
  | resident device => exact iff_of_true ⟨_, rfl⟩ fun count h ↦ by cases h
  | partitioned count =>
    simp only [map_eq_ok_iff, Partitions.split_eq_ok_iff, Placement.partitioned.injEq, forall_eq']
    constructor
    · rintro ⟨cold, parts, ⟨hcount, -⟩, -⟩
      exact hcount
    · intro hcount
      exact ⟨_, _, ⟨hcount, rfl⟩, rfl⟩

/-- Nothing is in the way of the plan. -/
structure Feasible (p : Plan) : Prop where
  ratio : 0.0 ≤ p.splitRatio ∧ p.splitRatio ≤ 1.0
  rows : ∀ row, p.ids.maxRow? = some row → row < p.data.height
  groups : 0 < p.hotRows → p.groups ≠ [] ∧ ∀ group ∈ p.groups, group.deviceIds ≠ []
  partitions : ∀ count, p.coldPlacement = .partitioned count → count ≠ 0

theorem exists_copies_iff {p : Plan} : (∃ copies, p.copies = .ok copies) ↔
    (0 < p.hotRows → ∀ group ∈ p.groups, group.deviceIds ≠ []) := by
  rw [copies]
  split
  · next hhot => rw [exists_replicate_iff, forall_prop_of_true hhot]
  · next hnone => exact iff_of_true ⟨∅, rfl⟩ fun hhot ↦ absurd hhot hnone

/-- **A table is made exactly if nothing is in the way of the plan.** -/
theorem exists_build_iff {p : Plan} (hcold : p.coldSource = none) :
    (∃ t, p.build = .ok t) ↔ p.Feasible := by
  simp only [build_eq_ok_iff, checkRows_eq_ok_iff, checkRatio, ite_ok_eq_ok_iff]
  constructor
  · rintro ⟨t, ⟨hratio, -⟩, hrows, hgroups, copies, hcopies, cold, hbacking, -⟩
    exact {
      ratio := hratio
      rows := hrows
      groups := fun hhot ↦
        ⟨fun hnil ↦ hgroups ⟨hhot, hnil⟩, exists_copies_iff.1 ⟨copies, hcopies⟩ hhot⟩
      partitions := (exists_coldBacking_iff hcold).1 ⟨cold, hbacking⟩ }
  · intro h
    obtain ⟨copies, hcopies⟩ := exists_copies_iff.2 fun hhot ↦ (h.groups hhot).2
    obtain ⟨cold, hbacking⟩ := (exists_coldBacking_iff hcold).2 h.partitions
    exact ⟨_, ⟨h.ratio, trivial⟩, h.rows, fun ⟨hhot, hnil⟩ ↦ (h.groups hhot).1 hnil,
      copies, hcopies, cold, hbacking, rfl⟩

end FeatureTable.Plan

/-! ### IDs by position -/

namespace IdMap

theorem rows_identity (n : Nat) : (identity n).rows = List.range n := by
  show ((Array.range n).map some).toList.filterMap id = _
  rw [Array.toList_map, Array.toList_range, List.filterMap_map]
  exact List.filterMap_some

variable {ids : List Id} {m : IdMap}

theorem nodup_rows_zipIdx (ids : List Id) : (ids.zipIdx.map (·.2)).Nodup := by
  rw [List.zipIdx_map_snd]
  exact List.nodup_range'

/-- IDs are numbered exactly if none is repeated. -/
theorem exists_ofIds_iff : (∃ m, ofIds ids = .ok m) ↔ ids.Nodup := by
  have hsettles := settles_fill (emptyFor_emptyFor ids.zipIdx)
  have hids : (ids.zipIdx.map (·.1)).Nodup ↔ ids.Nodup := by rw [List.zipIdx_map_fst]
  constructor
  · rintro ⟨m, hm⟩
    by_contra hrepeat
    obtain ⟨pair, -, herror⟩ := hsettles.duplicate (nodup_rows_zipIdx ids) (mt hids.1 hrepeat)
    exact nomatch hm.symm.trans herror
  · intro hnodup
    obtain ⟨m, hm, -⟩ := hsettles.listed (nodup_rows_zipIdx ids) (hids.2 hnodup)
    exact ⟨m, hm⟩

theorem lists_of_ofIds (h : ofIds ids = .ok m) : m.Lists ids.zipIdx := by
  have hnodup := exists_ofIds_iff.1 ⟨m, h⟩
  obtain ⟨m', hm', hlists⟩ := (settles_fill (emptyFor_emptyFor ids.zipIdx)).listed
    (nodup_rows_zipIdx ids) (by rwa [List.zipIdx_map_fst])
  obtain rfl : m = m' := Except.ok.inj (h.symm.trans hm')
  exact hlists

end IdMap

namespace TableData

variable {t : TableData} {groups : List DeviceGroup} {m : IdMap} {data : Matrix}

/-- The ID of the row at a position: the one that is given, or else the position. -/
def idAt (t : TableData) (k : UInt64) : Id :=
  match t.ids with
  | some ids => ids.getD k.toNat 0
  | none => k

/-- The map finds the rows of a table under their IDs, and no others. -/
structure Numbers (m : IdMap) (t : TableData) : Prop where
  inRange : ∀ row, m.maxRow? = some row → row < t.rows.length
  get? : ∀ k : UInt64, k.toNat < t.rows.length → m.get? (t.idAt k) = some k.toNat

theorem numbers_identity (h : t.ids = none) : Numbers (.identity t.rows.length) t where
  inRange row hrow := by
    rw [IdMap.maxRow?, IdMap.rows_identity] at hrow
    exact List.mem_range.1 (List.max?_mem hrow)
  get? k hk := by
    rw [idAt, h]
    show (IdMap.identity t.rows.length).get? k = _
    rw [IdMap.get?_identity, if_pos hk]

theorem numbers_ofIds {ids : List Id} (h : t.ids = some ids) (hlength : ids.length = t.rows.length)
    (hm : IdMap.ofIds ids = .ok m) : Numbers m t where
  inRange row hrow := by
    rw [(IdMap.lists_of_ofIds hm).maxRow?, List.zipIdx_map_snd] at hrow
    have hmem := List.mem_range'_1.1 (List.max?_mem hrow)
    omega
  get? k hk := by
    have hk' : k.toNat < ids.length := hlength ▸ hk
    rw [idAt, h]
    show m.get? (ids.getD k.toNat 0) = _
    have hget : ids[k.toNat]? = some ids[k.toNat] := List.getElem?_eq_getElem hk'
    rw [(IdMap.lists_of_ofIds hm).get?_eq_some_iff, List.mk_mem_zipIdx_iff_getElem?, hget,
      List.getD_eq_getElem?_getD, hget, Option.getD_some]

theorem exists_idMap_iff : (∃ m, t.idMap = .ok m) ↔
    ∀ ids, t.ids = some ids → ids.length = t.rows.length ∧ ids.Nodup := by
  rw [idMap]
  split
  · next hids => exact iff_of_true ⟨_, rfl⟩ fun ids h ↦ nomatch hids.symm.trans h
  · next ids hids =>
    simp only [ite_error_eq_ok_iff, not_not, hids, Option.some.injEq, forall_eq', exists_and_left,
      IdMap.exists_ofIds_iff, ne_eq]

theorem numbers_of_idMap (h : t.idMap = .ok m) : Numbers m t := by
  rw [idMap] at h
  split at h
  · next hids => exact Except.ok.inj h ▸ numbers_identity hids
  · next ids hids =>
    obtain ⟨hlength, hm⟩ := ite_error_eq_ok_iff.1 h
    exact numbers_ofIds hids (not_not.1 hlength) hm

/-! ### Rows of one width -/

theorem width_iff : (∀ row ∈ t.rows, row.length = t.width) ↔
    ∀ row ∈ t.rows, ∀ other ∈ t.rows, row.length = other.length := by
  refine ⟨fun h row hrow other hother ↦ (h row hrow).trans (h other hother).symm,
    fun h row hrow ↦ ?_⟩
  obtain ⟨first, rest, hrows⟩ := List.exists_cons_of_ne_nil (List.ne_nil_of_mem hrow)
  have hwidth : t.width = first.length := by rw [width, hrows]; rfl
  rw [hwidth]
  exact h row hrow first (hrows ▸ List.mem_cons_self)

theorem exists_matrix_iff : (∃ data, t.matrix = .ok data) ↔
    ∀ row ∈ t.rows, ∀ other ∈ t.rows, row.length = other.length := by
  rw [← width_iff]
  simp only [matrix, dite_ok_eq_ok_iff]
  exact ⟨fun ⟨_, h, _⟩ ↦ h, fun h ↦ ⟨_, h, rfl⟩⟩

/-- The matrix of a table has its rows. -/
theorem of_matrix (h : t.matrix = .ok data) :
    data.width = t.width ∧ data.rows = t.rows.toArray := by
  rw [matrix, dite_ok_eq_ok_iff] at h
  obtain ⟨hwidth, h⟩ := h
  obtain rfl := Except.ok.inj h
  exact ⟨rfl, congrArg List.toArray (Matrix.cutRows_flatten hwidth)⟩

/-! ### Tables -/

/-- How many rows of the table are hot: the given share of them, rounded down. -/
def hotRows (t : TableData) : Nat := FeatureTable.Plan.hotCount t.splitRatio t.rows.length

/-- Nothing is in the way of the table. -/
structure Usable (t : TableData) (groups : List DeviceGroup) : Prop where
  /-- All rows have the same width. -/
  widths : ∀ row ∈ t.rows, ∀ other ∈ t.rows, row.length = other.length
  /-- IDs that are given are as many as the rows, and different. -/
  ids : ∀ ids, t.ids = some ids → ids.length = t.rows.length ∧ ids.Nodup
  ratio : 0.0 ≤ t.splitRatio ∧ t.splitRatio ≤ 1.0
  partitions : ∀ count, t.cold = .partitioned count → count ≠ 0
  groups : 0 < t.hotRows → groups ≠ [] ∧ ∀ group ∈ groups, group.deviceIds ≠ []

/-- What the table is made from. -/
def plan (t : TableData) (groups : List DeviceGroup) (data : Matrix) (ids : IdMap) :
    FeatureTable.Plan :=
  ⟨data, ids, t.splitRatio, groups, t.cold, none⟩

variable {table : FeatureTable}

theorem build_eq_ok_iff : t.build groups = .ok table ↔
    ∃ data, t.matrix = .ok data ∧ ∃ ids, t.idMap = .ok ids ∧
      (t.plan groups data ids).build = .ok table := by
  rw [build, bind_eq_ok_iff]
  simp only [bind_eq_ok_iff]
  rfl

theorem height_of_matrix (h : t.matrix = .ok data) : data.height = t.rows.length := by
  rw [Matrix.height, (of_matrix h).2, List.size_toArray]

theorem hotRows_plan (h : t.matrix = .ok data) : (t.plan groups data m).hotRows = t.hotRows := by
  show FeatureTable.Plan.hotCount t.splitRatio data.height = _
  rw [height_of_matrix h, hotRows]

/-- **A table is made exactly if nothing is in its way.** -/
theorem exists_build_iff : (∃ table, t.build groups = .ok table) ↔ t.Usable groups := by
  simp only [build_eq_ok_iff]
  constructor
  · rintro ⟨table, data, hdata, m, hm, hbuild⟩
    have hfeasible := (FeatureTable.Plan.exists_build_iff rfl).1 ⟨table, hbuild⟩
    exact {
      widths := exists_matrix_iff.1 ⟨data, hdata⟩
      ids := exists_idMap_iff.1 ⟨m, hm⟩
      ratio := hfeasible.ratio
      partitions := hfeasible.partitions
      groups := fun hhot ↦ hfeasible.groups ((hotRows_plan hdata).symm ▸ hhot) }
  · intro h
    obtain ⟨data, hdata⟩ := exists_matrix_iff.2 h.widths
    obtain ⟨m, hm⟩ := exists_idMap_iff.2 h.ids
    have hfeasible : (t.plan groups data m).Feasible := {
      ratio := h.ratio
      rows := fun row hrow ↦ height_of_matrix hdata ▸ (numbers_of_idMap hm).inRange row hrow
      groups := fun hhot ↦ h.groups (hotRows_plan hdata ▸ hhot)
      partitions := h.partitions }
    obtain ⟨table, hbuild⟩ := (FeatureTable.Plan.exists_build_iff rfl).2 hfeasible
    exact ⟨table, data, hdata, m, hm, hbuild⟩

section Lookup

variable {device : UInt64} {places : List UInt64}

/-- The rows of the IDs at some positions are these positions, whatever the table is called. -/
theorem rowsOf_of_build (hbuild : t.build groups = .ok table) (entity : Entity)
    (hplaces : ∀ k ∈ places, k.toNat < t.rows.length) :
    ({ table with entity } : FeatureTable).rowsOf (places.map t.idAt) =
      .ok (places.map (·.toNat)) := by
  obtain ⟨data, -, m, hm, hbuild⟩ := build_eq_ok_iff.1 hbuild
  have hids : table.ids = m := (FeatureTable.Plan.fields_of_build hbuild).1
  rw [FeatureTable.rowsOf_eq_ok_iff, List.map_map, List.map_map, hids]
  exact List.map_congr_left fun k hk ↦ (numbers_of_idMap hm).get? k (hplaces k hk)

/-- Where a hot row is asked for there is a copy to ask. -/
theorem exists_replicaFor_of_build (hbuild : t.build groups = .ok table)
    (hplaces : ∀ k ∈ places, k.toNat < t.rows.length)
    (hdevice : 0 < t.hotRows → ∃ group ∈ groups, device ∈ group.deviceIds)
    (hhot : table.hotPart (places.map (·.toNat)) ≠ []) :
    ∃ source, table.replicaFor device = .ok source := by
  have hrows := rowsOf_of_build hbuild table.entity hplaces
  obtain ⟨data, hdata, m, -, hbuild⟩ := build_eq_ok_iff.1 hbuild
  obtain ⟨id, -, row, -, hlt⟩ := (FeatureTable.hotPart_ne_nil_iff hrows).1 hhot
  rw [(FeatureTable.Plan.fields_of_build hbuild).2.1, hotRows_plan hdata] at hlt
  exact FeatureTable.Plan.exists_replicaFor_of_build hbuild hrows hhot
    (hdevice (Nat.zero_lt_of_lt hlt))

/-- **Rows are found under their IDs**, whatever the table is called. -/
theorem lookup_of_build (hbuild : t.build groups = .ok table) (entity : Entity)
    (hdevice : 0 < t.hotRows → ∃ group ∈ groups, device ∈ group.deviceIds)
    (hplaces : ∀ k ∈ places, k.toNat < t.rows.length) :
    ∃ m, (({ table with entity } : FeatureTable).lookup (places.map t.idAt) device).result = .ok m ∧
      m.width = t.width ∧ m.rows.toList.map some = places.map (t.rows[·.toNat]?) := by
  have hrows := rowsOf_of_build hbuild entity hplaces
  have hreplica := exists_replicaFor_of_build hbuild hplaces hdevice
  obtain ⟨data, hdata, ids, -, hbuild⟩ := build_eq_ok_iff.1 hbuild
  obtain ⟨hwidth, hdataRows⟩ := of_matrix hdata
  have hkeeps : ({ table with entity } : FeatureTable).Keeps data :=
    have h := FeatureTable.Plan.keeps_of_build rfl hbuild
    ⟨⟨h.width, h.hotRows, h.registered⟩, h.hot, h.cold⟩
  obtain ⟨m, hm⟩ := hkeeps.exists_lookup hrows hreplica
  obtain ⟨hwidth', hanswer⟩ := hkeeps.holds.answer hm
  refine ⟨m, hm.result, hwidth'.trans hwidth, ?_⟩
  calc
    m.rows.toList.map some
      = (places.map t.idAt).map (table.ids.rowIn? data) := hanswer
    _ = (places.map (·.toNat)).map (data.rows[·]?) := FeatureTable.map_rowIn? hrows data
    _ = places.map (t.rows[·.toNat]?) := by
      rw [List.map_map, hdataRows]
      exact List.map_congr_left fun k _ ↦ List.getElem?_toArray

end Lookup

end TableData

/-! ### Stores -/

theorem FeatureStore.find?_register (s : FeatureStore) (subject other : Subject)
    (table : FeatureTable) : (s.register subject table).find? other =
      if subject = other then some { table with entity := subject.entity } else s.find? other := by
  cases subject <;> cases other
  · rw [register, find?, SortedMap.get?_insert]
    exact if_congr (iff_of_eq (Subject.node.injEq ..)).symm rfl rfl
  · exact (if_neg nofun).symm
  · exact (if_neg nofun).symm
  · rw [register, find?, SortedMap.get?_insert]
    exact if_congr (iff_of_eq (Subject.edge.injEq ..)).symm rfl rfl

namespace Dataset

variable {d : Dataset} {groups : List DeviceGroup} {subject : Subject} {table : TableData}

/-- The table of a subject. Of the tables of an edge type it is the one that is listed last. -/
def table? (d : Dataset) : Subject → Option TableData
  | .node t => d.nodeFeatures.get? t
  | .edge e => (d.edgeFeatures.filter (·.type = e)).getLast?.map (·.table)

/-- All tables with what they describe, in the order in which they are put into the store. -/
def tables (d : Dataset) : List (Subject × TableData) :=
  d.nodeFeatures.entries.map (fun (t, table) ↦ (.node t, table)) ++
    d.edgeFeatures.map fun edges ↦ (.edge edges.type, edges.table)

/-- Make a table and put it into the store. -/
def put (groups : List DeviceGroup) (s : FeatureStore) (item : Subject × TableData) :
    Except Error FeatureStore :=
  s.register item.1 <$> item.2.build groups

theorem features_eq : d.features groups = d.tables.foldlM (put groups) .empty := by
  rw [features, tables, List.foldlM_append, List.foldlM_map]
  simp only [List.foldlM_map]
  rfl

/-- All tables can be put in exactly if nothing is in the way of any. -/
theorem exists_foldlM_put_iff {items : List (Subject × TableData)} {s : FeatureStore} :
    (∃ s', items.foldlM (put groups) s = .ok s') ↔ ∀ item ∈ items, item.2.Usable groups := by
  constructor
  · rintro ⟨s', h⟩ item hitem
    obtain ⟨before, after, hput⟩ := exists_step_of_foldlM h hitem
    obtain ⟨table, hbuild, -⟩ := map_eq_ok_iff.1 hput
    exact TableData.exists_build_iff.1 ⟨table, hbuild⟩
  · intro h
    induction items generalizing s with
    | nil => exact ⟨s, rfl⟩
    | cons item items ih =>
      obtain ⟨husable, hrest⟩ := List.forall_mem_cons.1 h
      obtain ⟨table, hbuild⟩ := TableData.exists_build_iff.2 husable
      obtain ⟨s', hs'⟩ := ih (s := s.register item.1 table) hrest
      refine ⟨s', ?_⟩
      rw [List.foldlM_cons, bind_eq_ok_iff]
      exact ⟨_, map_eq_ok_iff.2 ⟨table, hbuild, rfl⟩, hs'⟩

/-- The last table of a subject in a list. -/
def last? (subject : Subject) (items : List (Subject × TableData)) : Option TableData :=
  (items.filter (·.1 = subject)).getLast?.map (·.2)

theorem last?_concat (items : List (Subject × TableData)) (item : Subject × TableData) :
    last? subject (items ++ [item]) =
      if item.1 = subject then some item.2 else last? subject items := by
  by_cases h : item.1 = subject <;> simp [last?, List.filter_append, h]

/-- **A later table takes the place of an earlier one.** -/
theorem find?_of_foldlM_put {items : List (Subject × TableData)} {s : FeatureStore}
    (h : items.foldlM (put groups) .empty = .ok s) (hlast : last? subject items = some table) :
    ∃ built, table.build groups = .ok built ∧
      s.find? subject = some { built with entity := subject.entity } := by
  induction items using List.reverseRecOn generalizing s with
  | nil => exact nomatch hlast
  | append_singleton items item ih =>
    rw [List.foldlM_append] at h
    obtain ⟨before, hbefore, h⟩ := bind_eq_ok_iff.1 h
    rw [List.foldlM_cons] at h
    obtain ⟨after, hput, h⟩ := bind_eq_ok_iff.1 h
    obtain rfl : after = s := Except.ok.inj h
    obtain ⟨built, hbuild, rfl⟩ := map_eq_ok_iff.1 hput
    rw [last?_concat] at hlast
    rw [FeatureStore.find?_register]
    split at hlast
    · next heq =>
      obtain rfl := Option.some.inj hlast
      exact ⟨built, hbuild, by rw [if_pos heq, heq]⟩
    · next hne =>
      rw [if_neg hne]
      exact ih hbefore hlast

/-- A table that is listed once for its subject is the last one. -/
theorem last?_of_unique {items : List (Subject × TableData)} (hmem : (subject, table) ∈ items)
    (hunique : ∀ other, (subject, other) ∈ items → other = table) :
    last? subject items = some table := by
  have hfilter : (subject, table) ∈ items.filter (·.1 = subject) :=
    List.mem_filter.2 ⟨hmem, decide_eq_true rfl⟩
  obtain ⟨⟨subject', last⟩, hlast⟩ : ∃ item, (items.filter (·.1 = subject)).getLast? = some item :=
    ⟨_, List.getLast?_eq_some_getLast (List.ne_nil_of_mem hfilter)⟩
  obtain ⟨hin, hsubject⟩ := List.mem_filter.1 (List.mem_of_getLast? hlast)
  obtain rfl : subject' = subject := of_decide_eq_true hsubject
  rw [last?, hlast, Option.map_some, hunique last hin]

/-- The store keeps the table of every subject. -/
theorem last?_tables (h : d.table? subject = some table) : last? subject d.tables = some table := by
  cases subject with
  | node t =>
    have hmem : (t, table) ∈ d.nodeFeatures.entries := SortedMap.get?_eq_some_iff.1 h
    have hentry : ∀ other, (Subject.node t, other) ∈ d.tables ↔
        (t, other) ∈ d.nodeFeatures.entries := by
      intro other
      simp [tables]
    exact last?_of_unique ((hentry table).2 hmem) fun other hother ↦
      SortedMap.eq_of_mem_entries ((hentry other).1 hother) hmem
  | edge e =>
    have hnodes : (d.nodeFeatures.entries.map
        fun (t, table) ↦ (Subject.node t, table)).filter (·.1 = .edge e) = [] := by
      refine List.filter_eq_nil_iff.2 fun item hitem ↦ ?_
      obtain ⟨entry, -, rfl⟩ := List.mem_map.1 hitem
      exact fun h ↦ nomatch of_decide_eq_true h
    have hedges : (fun item : Subject × TableData ↦ decide (item.1 = .edge e)) ∘
        (fun edges : EdgeTable ↦ (Subject.edge edges.type, edges.table)) =
          fun edges ↦ decide (edges.type = e) := by
      funext edges
      exact decide_eq_decide.2 (iff_of_eq (Subject.edge.injEq ..))
    rw [last?, tables, List.filter_append, hnodes, List.nil_append, List.filter_map, hedges,
      List.getLast?_map, Option.map_map]
    exact h

/-- Nothing is in the way of any table. -/
structure Usable (d : Dataset) (groups : List DeviceGroup) : Prop where
  nodes : ∀ t table, d.nodeFeatures.get? t = some table → table.Usable groups
  edges : ∀ edges ∈ d.edgeFeatures, edges.table.Usable groups

theorem forall_tables_iff : (∀ item ∈ d.tables, item.2.Usable groups) ↔ d.Usable groups := by
  rw [tables, List.forall_mem_append, List.forall_mem_map, List.forall_mem_map]
  refine ⟨fun ⟨hnodes, hedges⟩ ↦ ⟨fun t table htable ↦ ?_, hedges⟩,
    fun h ↦ ⟨fun entry hentry ↦ ?_, h.edges⟩⟩
  · exact hnodes (t, table) (SortedMap.get?_eq_some_iff.1 htable)
  · exact h.nodes entry.1 entry.2 (SortedMap.get?_eq_some_iff.2 hentry)

/-- The store finds the rows of every table under their IDs, in the order of the request. -/
def Resolves (s : FeatureStore) (d : Dataset) (groups : List DeviceGroup) : Prop :=
  ∀ subject table, d.table? subject = some table →
    ∀ device, (0 < table.hotRows → ∃ group ∈ groups, device ∈ group.deviceIds) →
      ∀ places : List UInt64, (∀ k ∈ places, k.toNat < table.rows.length) →
        ∃ m, (s.lookup subject (places.map table.idAt) device).result = .ok m ∧
          m.width = table.width ∧ m.rows.toList.map some = places.map (table.rows[·.toNat]?)

/-- **A dataset has a feature store exactly if nothing is in the way of its tables, and the store
finds the rows of every table under their IDs.** -/
theorem features_resolve (d : Dataset) (groups : List DeviceGroup) :
    ((∃ s, d.features groups = .ok s) ↔ d.Usable groups) ∧
      ∀ s, d.features groups = .ok s → Resolves s d groups := by
  rw [features_eq]
  refine ⟨exists_foldlM_put_iff.trans forall_tables_iff, fun s hs ↦ ?_⟩
  intro subject table htable device hdevice places hplaces
  obtain ⟨built, hbuild, hfind⟩ := find?_of_foldlM_put hs (last?_tables htable)
  have hlookup : ∀ ids, s.lookup subject ids device =
      ({ built with entity := subject.entity } : FeatureTable).lookup ids device := by
    intro ids
    rw [FeatureStore.lookup, FeatureStore.table, hfind]
  rw [hlookup]
  exact TableData.lookup_of_build hbuild subject.entity hdevice hplaces

end Dataset

end HopSampler
