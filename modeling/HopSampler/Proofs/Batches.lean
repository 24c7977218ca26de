import HopSampler.Loading.Batch
import HopSampler.Proofs.Placements
import HopSampler.Proofs.Maps

/-!
# Batches are aligned, or there is none

The look-ups of a batch are kept in a map, awaited as a list and put back under the keys of the map.
As the keys are in order and none is listed twice, every key gets what was awaited for it
(`get?_refill`), whatever tables there are and however the look-ups were awaited. A deadline is a
limit on each of them.

**All or nothing** (`assemble_allOrNothing`). A batch is made exactly when every table that is
needed answers in time and every label is there. Then the batch has features and labels for exactly
the types that have them, in the order of the IDs; the features of listed edges come from the table
of the edge type that was followed, which need not be the one they are listed under.
-/

namespace HopSampler.Assembler

/-! ### Awaiting a map of results -/

section Awaited

variable {κ α : Type} [Tag κ] [DecidableEq κ] {m : SortedMap κ (Delayed α)} {limit : Option Nat}
  {xs : List α}

omit [DecidableEq κ] in
theorem length_of_awaitAll (h : (awaitAll m).Gives limit xs) : m.keys.length = xs.length := by
  have hlength := (Delayed.all_gives_iff.1 h).length_eq
  rwa [SortedMap.values, List.length_map, ← List.length_map (f := Prod.fst)] at hlength

theorem entries_refill (h : (awaitAll m).Gives limit xs) :
    (refill m xs).entries = m.keys.zip xs := by
  refine SortedMap.entries_ofList (List.pairwise_map.1 ?_)
  rw [List.map_fst_zip (Nat.le_of_eq (length_of_awaitAll h))]
  exact m.keys_ascending

theorem keys_refill (h : (awaitAll m).Gives limit xs) : (refill m xs).keys = m.keys := by
  rw [SortedMap.keys, entries_refill h, List.map_fst_zip (Nat.le_of_eq (length_of_awaitAll h))]

/-- Every key gets what was awaited for it. -/
theorem get?_refill (h : (awaitAll m).Gives limit xs) {key : κ} {d : Delayed α}
    (hkey : m.get? key = some d) : ∃ x, (refill m xs).get? key = some x ∧ d.Gives limit x := by
  obtain ⟨i, hi⟩ := List.mem_iff_getElem?.1 (SortedMap.get?_eq_some_iff.1 hkey)
  have hkeys : m.keys[i]? = some key := by
    rw [SortedMap.keys, List.getElem?_map, hi, Option.map_some]
  have hvalues : m.values[i]? = some d := by
    rw [SortedMap.values, List.getElem?_map, hi, Option.map_some]
  obtain ⟨x, hx, hgives⟩ := exists_partner (Delayed.all_gives_iff.1 h) hvalues
  refine ⟨x, SortedMap.get?_eq_some_iff.2 ?_, hgives⟩
  rw [entries_refill h]
  exact List.mem_of_getElem? (List.getElem?_zip_eq_some.2 ⟨hkeys, hx⟩)

/-- All results of a map are there in time if each of them is. -/
theorem exists_awaitAll_iff : (∃ xs, (awaitAll m).Gives limit xs) ↔
    ∀ key d, m.get? key = some d → ∃ x, d.Gives limit x := by
  constructor
  · rintro ⟨xs, hxs⟩ key d hkey
    obtain ⟨x, -, hx⟩ := get?_refill hxs hkey
    exact ⟨x, hx⟩
  · intro h
    refine Delayed.exists_all_gives fun d hd ↦ ?_
    obtain ⟨⟨key, d⟩, hentry, rfl⟩ := List.mem_map.1 hd
    exact h key d (SortedMap.get?_eq_some_iff.2 hentry)

end Awaited

/-! ### Look-ups -/

variable {a : Assembler} {out : SamplingOutput} {store : FeatureStore}

/-- The table that has the features of a subject. -/
def table? (a : Assembler) (subject : Subject) : Option FeatureTable :=
  a.features.bind (·.find? subject)

/-- By when a look-up has to be answered. -/
def limit (a : Assembler) : Option Nat := a.deadline.map (·.toNat)

theorem lookup_of_find? {subject : Subject} {table : FeatureTable}
    (h : store.find? subject = some table) (ids : List Id) (device : UInt64) :
    store.lookup subject ids device = table.lookup ids device := by
  simp only [FeatureStore.lookup, FeatureStore.table, h]

theorem get?_nodeLookups_eq_some_iff {t : NodeType} {d : Delayed Matrix} :
    (a.nodeLookups store out).get? t = some d ↔ ∃ ids table, out.nodes.get? t = some ids ∧
      store.find? (.node t) = some table ∧ table.lookup ids a.device = d := by
  rw [nodeLookups, SortedMap.get?_mapEntries, Option.map_eq_some_iff]
  constructor
  · rintro ⟨ids, hids, rfl⟩
    obtain ⟨hids, htable⟩ := SortedMap.get?_filter_eq_some_iff.1 hids
    obtain ⟨table, htable⟩ := Option.isSome_iff_exists.1 htable
    exact ⟨ids, table, hids, htable, (lookup_of_find? htable ..).symm⟩
  · rintro ⟨ids, table, hids, htable, rfl⟩
    have hcontains : store.contains (.node t) := Option.isSome_iff_exists.2 ⟨table, htable⟩
    exact ⟨ids, SortedMap.get?_filter_eq_some_iff.2 ⟨hids, hcontains⟩, lookup_of_find? htable ..⟩

theorem get?_edgeLookups_eq_some_iff {e : EdgeType} {d : Delayed Matrix} :
    (a.edgeLookups store out).get? e = some d ↔ ∃ index ids table, out.edges.get? e = some index ∧
      index.edge = some ids ∧ store.find? (.edge index.origin) = some table ∧
        table.lookup ids a.device = d := by
  rw [edgeLookups, SortedMap.get?_mapEntries, Option.map_eq_some_iff]
  constructor
  · rintro ⟨index, hindex, rfl⟩
    obtain ⟨hindex, hneeded⟩ := SortedMap.get?_filter_eq_some_iff.1 hindex
    obtain ⟨hids, htable⟩ := Bool.and_eq_true_iff.1 hneeded
    obtain ⟨ids, hids⟩ := Option.isSome_iff_exists.1 hids
    obtain ⟨table, htable⟩ := Option.isSome_iff_exists.1 htable
    exact ⟨index, ids, table, hindex, hids, htable, by rw [hids, lookup_of_find? htable]; rfl⟩
  · rintro ⟨index, ids, table, hindex, hids, htable, rfl⟩
    have hcontains : store.contains (.edge index.origin) :=
      Option.isSome_iff_exists.2 ⟨table, htable⟩
    have hneeded : (index.edge.isSome && store.contains (.edge index.origin)) = true := by
      rw [hids, hcontains]
      rfl
    exact ⟨index, SortedMap.get?_filter_eq_some_iff.2 ⟨hindex, hneeded⟩, by
      rw [hids, lookup_of_find? htable]; rfl⟩

/-- Two maps of results that are awaited together. -/
theorem awaitBoth_gives_iff {nodes : SortedMap NodeType (Delayed Matrix)}
    {edges : SortedMap EdgeType (Delayed Matrix)} {limit : Option Nat}
    {features : SortedMap NodeType Matrix × SortedMap EdgeType Matrix} :
    ((Delayed.both (awaitAll nodes) (awaitAll edges)).map fun (x, attr) ↦
      (refill nodes x, refill edges attr)).Gives limit features ↔ ∃ x attr,
        (awaitAll nodes).Gives limit x ∧ (awaitAll edges).Gives limit attr ∧
          (refill nodes x, refill edges attr) = features := by
  simp only [Delayed.map_gives_iff, Prod.exists, Delayed.both_gives_iff, and_assoc]

theorem resolve_eq_ok_iff {features : SortedMap NodeType Matrix × SortedMap EdgeType Matrix} :
    (a.resolve store out).result = .ok features ↔ ∃ x attr,
      (awaitAll (a.nodeLookups store out)).Gives a.limit x ∧
        (awaitAll (a.edgeLookups store out)).Gives a.limit attr ∧
          (refill (a.nodeLookups store out) x,
            refill (a.edgeLookups store out) attr) = features := by
  rw [resolve, limit]
  split
  · next hnone =>
    rw [hnone, ← Delayed.gives_none_iff]
    exact awaitBoth_gives_iff
  · next deadline hsome =>
    rw [hsome, Delayed.within_gives_iff]
    exact awaitBoth_gives_iff

/-! ### Features -/

/-- What is looked up for an output: lists of IDs in tables. -/
inductive Needs (a : Assembler) (out : SamplingOutput) : FeatureTable → List Id → Prop where
  /-- The nodes of a type that has a table. -/
  | node {t : NodeType} {ids : List Id} {table : FeatureTable} :
      out.nodes.get? t = some ids → a.table? (.node t) = some table → Needs a out table ids
  /-- Listed edges whose IDs are there, where the edge type that was followed has a table. -/
  | edge {e : EdgeType} {index : EdgeIndex} {ids : List Id} {table : FeatureTable} :
      out.edges.get? e = some index → index.edge = some ids →
        a.table? (.edge index.origin) = some table → Needs a out table ids

theorem table?_eq_none (h : a.features = none) (subject : Subject) : a.table? subject = none := by
  rw [table?, h, Option.bind_none]

theorem table?_eq (h : a.features = some store) (subject : Subject) :
    a.table? subject = store.find? subject := by
  rw [table?, h, Option.bind_some]

/-- There are features if all that is needed is answered in time. -/
theorem exists_featuresOf_iff : (∃ features, a.featuresOf out = .ok features) ↔
    ∀ table ids, a.Needs out table ids → ∃ m, (table.lookup ids a.device).Gives a.limit m := by
  rw [featuresOf]
  split
  · next hnone =>
    refine ⟨fun _ table ids hneeds ↦ ?_, fun _ ↦ ⟨_, rfl⟩⟩
    cases hneeds with
    | node _ htable => exact nomatch (table?_eq_none hnone _).symm.trans htable
    | edge _ _ htable => exact nomatch (table?_eq_none hnone _).symm.trans htable
  · next store hsome =>
    have hresolve : (∃ features, (a.resolve store out).result = .ok features) ↔
        (∃ x, (awaitAll (a.nodeLookups store out)).Gives a.limit x) ∧
          ∃ attr, (awaitAll (a.edgeLookups store out)).Gives a.limit attr := by
      simp only [resolve_eq_ok_iff]
      exact ⟨fun ⟨_, x, attr, hx, hattr, _⟩ ↦ ⟨⟨x, hx⟩, attr, hattr⟩,
        fun ⟨⟨x, hx⟩, attr, hattr⟩ ↦ ⟨_, x, attr, hx, hattr, rfl⟩⟩
    simp only [hresolve, exists_awaitAll_iff, get?_nodeLookups_eq_some_iff,
      get?_edgeLookups_eq_some_iff]
    constructor
    · rintro ⟨hnodes, hedges⟩ table ids hneeds
      cases hneeds with
      | node hids htable =>
        exact hnodes _ _ ⟨ids, table, hids, (table?_eq hsome _).symm.trans htable, rfl⟩
      | edge hindex hids htable =>
        exact hedges _ _ ⟨_, ids, table, hindex, hids, (table?_eq hsome _).symm.trans htable, rfl⟩
    · refine fun h ↦ ⟨?_, ?_⟩
      · rintro t _ ⟨ids, table, hids, htable, rfl⟩
        exact h table ids (.node hids ((table?_eq hsome _).trans htable))
      · rintro e _ ⟨index, ids, table, hindex, hids, htable, rfl⟩
        exact h table ids (.edge hindex hids ((table?_eq hsome _).trans htable))

/-- Features by what they were looked up for. -/
structure Features (a : Assembler) (out : SamplingOutput) (x : SortedMap NodeType Matrix)
    (attr : SortedMap EdgeType Matrix) : Prop where
  nodeTypes : ∀ t, t ∈ x.keys ↔ ∃ ids table, out.nodes.get? t = some ids ∧
    a.table? (.node t) = some table
  nodeRows : ∀ t ids table, out.nodes.get? t = some ids → a.table? (.node t) = some table →
    ∃ m, x.get? t = some m ∧ (table.lookup ids a.device).Gives a.limit m
  edgeTypes : ∀ e, e ∈ attr.keys ↔ ∃ index ids table, out.edges.get? e = some index ∧
    index.edge = some ids ∧ a.table? (.edge index.origin) = some table
  edgeRows : ∀ e index ids table, out.edges.get? e = some index → index.edge = some ids →
    a.table? (.edge index.origin) = some table →
    ∃ m, attr.get? e = some m ∧ (table.lookup ids a.device).Gives a.limit m

theorem features_of_featuresOf {x : SortedMap NodeType Matrix} {attr : SortedMap EdgeType Matrix}
    (h : a.featuresOf out = .ok (x, attr)) : a.Features out x attr := by
  rw [featuresOf] at h
  split at h
  · next hnone =>
    cases h
    have htable := table?_eq_none hnone
    exact ⟨by simp [htable, SortedMap.empty, SortedMap.keys], by simp [htable],
      by simp [htable, SortedMap.empty, SortedMap.keys], by simp [htable]⟩
  · next store hsome =>
    obtain ⟨xs, attrs, hxs, hattrs, hrefill⟩ := resolve_eq_ok_iff.1 h
    cases hrefill
    have htable := table?_eq hsome
    constructor
    · intro t
      simp only [keys_refill hxs, SortedMap.mem_keys_iff, get?_nodeLookups_eq_some_iff, htable]
      constructor
      · rintro ⟨d, ids, table, hids, htable, -⟩
        exact ⟨ids, table, hids, htable⟩
      · rintro ⟨ids, table, hids, htable⟩
        exact ⟨_, ids, table, hids, htable, rfl⟩
    · intro t ids table hids hfind
      exact get?_refill hxs (get?_nodeLookups_eq_some_iff.2
        ⟨ids, table, hids, (htable _).symm.trans hfind, rfl⟩)
    · intro e
      simp only [keys_refill hattrs, SortedMap.mem_keys_iff, get?_edgeLookups_eq_some_iff, htable]
      constructor
      · rintro ⟨d, index, ids, table, hindex, hids, htable, -⟩
        exact ⟨index, ids, table, hindex, hids, htable⟩
      · rintro ⟨index, ids, table, hindex, hids, htable⟩
        exact ⟨_, index, ids, table, hindex, hids, htable, rfl⟩
    · intro e index ids table hindex hids hfind
      exact get?_refill hattrs (get?_edgeLookups_eq_some_iff.2
        ⟨index, ids, table, hindex, hids, (htable _).symm.trans hfind, rfl⟩)

/-! ### Labels -/

private theorem labelsOf_lookup (t : NodeType) (labels : Array Int64) (id : Id) :
    (match labels[id.toNat]? with
      | some label => .ok label
      | none => .error (.unknownEntity (.labels t) id) : Except Error Int64) =
      (labels[id.toNat]?).elim (.error (.unknownEntity (.labels t) id)) .ok := by
  cases labels[id.toNat]? <;> rfl

theorem labelsOf_eq_ok_iff {t : NodeType} {labels : List Int64} {ids : List Id}
    {found : List Int64} : labelsOf t labels.toArray ids = .ok found ↔
      ids.map (fun id ↦ labels[id.toNat]?) = found.map some := by
  refine (mapM_lookup_eq_ok_iff (labelsOf_lookup t labels.toArray)).trans ?_
  simp only [List.getElem?_toArray]

theorem exists_labelsOf_iff {t : NodeType} {labels : List Int64} {ids : List Id} :
    (∃ found, labelsOf t labels.toArray ids = .ok found) ↔
      ∀ id ∈ ids, id.toNat < labels.length := by
  constructor
  · rintro ⟨found, hfound⟩ id hid
    have hmem : labels[id.toNat]? ∈ found.map some :=
      labelsOf_eq_ok_iff.1 hfound ▸ List.mem_map_of_mem hid
    obtain ⟨label, -, hlabel⟩ := List.mem_map.1 hmem
    exact (List.getElem?_eq_some_iff.1 hlabel.symm).1
  · intro h
    refine exists_mapM_lookup_eq_ok (labelsOf_lookup t labels.toArray) fun id hid ↦ ?_
    rw [List.getElem?_toArray]
    exact ⟨_, List.getElem?_eq_getElem (h id hid)⟩

/-- Labels are added for a type that has some, if every node has one. -/
theorem addLabels_eq_ok_iff {gathered y : SortedMap NodeType (List Int64)}
    {entry : NodeType × List Id} : a.addLabels gathered entry = .ok y ↔
      (a.labels.get? entry.1 = none ∧ gathered = y) ∨ ∃ labels found,
        a.labels.get? entry.1 = some labels ∧ labelsOf entry.1 labels.toArray entry.2 = .ok found ∧
          gathered.insert entry.1 found = y := by
  rw [addLabels]
  split
  · next hnone => simp [hnone]
  · next labels hsome =>
    cases hfound : labelsOf entry.1 labels.toArray entry.2 with
    | error e => simp [hsome, hfound, Functor.map, Except.map]
    | ok found => simp [hsome, hfound, Functor.map, Except.map]

theorem exists_addLabels_iff {gathered : SortedMap NodeType (List Int64)}
    {entry : NodeType × List Id} : (∃ y, a.addLabels gathered entry = .ok y) ↔
      ∀ labels, a.labels.get? entry.1 = some labels → ∀ id ∈ entry.2, id.toNat < labels.length := by
  simp only [addLabels_eq_ok_iff]
  constructor
  · rintro ⟨y, ⟨hnone, -⟩ | ⟨labels, found, hsome, hfound, -⟩⟩ labels' hlabels
    · cases hnone.symm.trans hlabels
    · obtain rfl : labels = labels' := Option.some.inj (hsome.symm.trans hlabels)
      exact exists_labelsOf_iff.1 ⟨found, hfound⟩
  · intro h
    cases hlabels : a.labels.get? entry.1 with
    | none => exact ⟨gathered, .inl ⟨rfl, rfl⟩⟩
    | some labels =>
      obtain ⟨found, hfound⟩ := exists_labelsOf_iff.2 (h labels hlabels)
      exact ⟨_, .inr ⟨labels, found, rfl, hfound, rfl⟩⟩

/-- The labels of a list of types, none of which is listed twice. -/
theorem get?_foldlM_addLabels {entries : List (NodeType × List Id)}
    (hnodup : (entries.map (·.1)).Nodup) {y : SortedMap NodeType (List Int64)}
    (h : entries.foldlM a.addLabels .empty = .ok y) {t : NodeType} {found : List Int64} :
    y.get? t = some found ↔ ∃ ids labels, (t, ids) ∈ entries ∧ a.labels.get? t = some labels ∧
      labelsOf t labels.toArray ids = .ok found := by
  induction entries using List.reverseRecOn generalizing y with
  | nil =>
    cases h
    simp [SortedMap.get?_empty]
  | append_singleton entries entry ih =>
    rw [List.map_append, List.nodup_append] at hnodup
    obtain ⟨hinit, -, hlast⟩ := hnodup
    rw [List.foldlM_append] at h
    obtain ⟨made, hmade, h⟩ := bind_eq_ok_iff.1 h
    rw [List.foldlM_cons] at h
    obtain ⟨y', hadd, h⟩ := bind_eq_ok_iff.1 h
    cases h
    -- the last entry matters only for its own type, and there it is the only one
    have hother : entry.1 ≠ t → ∀ ids, (t, ids) ∈ entries ++ [entry] ↔ (t, ids) ∈ entries := by
      intro hne ids
      rw [List.mem_append, List.mem_singleton]
      exact ⟨fun hmem ↦ hmem.resolve_right fun heq ↦ hne (congrArg Prod.fst heq).symm, .inl⟩
    have hown : ∀ ids, (entry.1, ids) ∈ entries ++ [entry] ↔ ids = entry.2 := by
      intro ids
      rw [List.mem_append, List.mem_singleton]
      constructor
      · rintro (hmem | heq)
        · have hlisted : entry.1 ∈ entries.map (·.1) := List.mem_map.2 ⟨_, hmem, rfl⟩
          exact absurd rfl (hlast entry.1 hlisted entry.1 List.mem_cons_self)
        · exact congrArg Prod.snd heq
      · rintro rfl
        exact .inr rfl
    rcases addLabels_eq_ok_iff.1 hadd with ⟨hnone, rfl⟩ | ⟨labels, last, hsome, hfound, rfl⟩
    · rw [ih hinit hmade]
      by_cases heq : entry.1 = t
      · subst heq
        simp [hnone]
      · simp only [hother heq]
    · rw [SortedMap.get?_insert]
      split
      · next heq =>
        subst heq
        simp [hown, hsome, hfound]
      · next hne =>
        rw [ih hinit hmade]
        simp only [hother hne]

/-- All labels are gathered if every node of a type with labels has one. -/
theorem exists_foldlM_addLabels_iff {entries : List (NodeType × List Id)}
    {gathered : SortedMap NodeType (List Int64)} :
    (∃ y, entries.foldlM a.addLabels gathered = .ok y) ↔ ∀ entry ∈ entries, ∀ labels,
      a.labels.get? entry.1 = some labels → ∀ id ∈ entry.2, id.toNat < labels.length := by
  induction entries generalizing gathered with
  | nil => exact ⟨fun _ _ hentry ↦ absurd hentry List.not_mem_nil, fun _ ↦ ⟨gathered, rfl⟩⟩
  | cons entry entries ih =>
    rw [List.foldlM_cons, List.forall_mem_cons, ← exists_addLabels_iff]
    simp only [bind_eq_ok_iff]
    constructor
    · rintro ⟨y, made, hmade, hrest⟩
      exact ⟨⟨made, hmade⟩, ih.1 ⟨y, hrest⟩⟩
    · rintro ⟨⟨made, hmade⟩, hrest⟩
      obtain ⟨y, hy⟩ := ih.2 hrest
      exact ⟨y, made, hmade, hy⟩

/-! ### Batches -/

/-- The matrix was looked up in time and has, row by row, the table's rows of the IDs. -/
structure Reads (a : Assembler) (table : FeatureTable) (ids : List Id) (m : Matrix) : Prop where
  answered : (table.lookup ids a.device).Gives a.limit m
  /-- Of whatever matrix the table holds. -/
  held : ∀ data, table.Holds data →
    m.width = data.width ∧ m.rows.toList.map some = ids.map (table.ids.rowIn? data)
  /-- In particular of its own data, where the table was made by a plan and put in a store. -/
  planned : ∀ (p : FeatureTable.Plan) (t : FeatureTable), p.coldSource = none → p.build = .ok t →
    table = { t with entity := table.entity } →
    m.width = p.data.width ∧ m.rows.toList.map some = ids.map (p.ids.rowIn? p.data)

theorem reads_of_gives {table : FeatureTable} {ids : List Id} {m : Matrix}
    (h : (table.lookup ids a.device).Gives a.limit m) : a.Reads table ids m := by
  refine ⟨h, fun data hdata ↦ hdata.answer h, fun p t hcold hbuild htable ↦ ?_⟩
  have hholds : table.Holds p.data := by
    rw [htable]
    exact (FeatureTable.Plan.keeps_of_build hcold hbuild).holds.withEntity _
  have hids : table.ids = p.ids := by
    rw [htable]
    exact (FeatureTable.Plan.fields_of_build hbuild).1
  exact hids ▸ hholds.answer h

/-- The batch has the features and labels of an output, beside its IDs. -/
structure Aligned (a : Assembler) (out : SamplingOutput) (b : Batch) : Prop where
  sample : b.sample = out
  /-- There are features of the node types that have a table. -/
  nodeTypes : ∀ t, t ∈ b.nodeFeatures.keys ↔ ∃ ids table, out.nodes.get? t = some ids ∧
    a.table? (.node t) = some table
  nodeRows : ∀ t ids table, out.nodes.get? t = some ids → a.table? (.node t) = some table →
    ∃ m, b.nodeFeatures.get? t = some m ∧ a.Reads table ids m
  /-- There are features of listed edges that have IDs, where their origin has a table. -/
  edgeTypes : ∀ e, e ∈ b.edgeFeatures.keys ↔ ∃ index ids table, out.edges.get? e = some index ∧
    index.edge = some ids ∧ a.table? (.edge index.origin) = some table
  edgeRows : ∀ e index ids table, out.edges.get? e = some index → index.edge = some ids →
    a.table? (.edge index.origin) = some table →
    ∃ m, b.edgeFeatures.get? e = some m ∧ a.Reads table ids m
  /-- There are labels of the node types that have some. -/
  labelTypes : ∀ t, t ∈ b.labels.keys ↔ ∃ ids labels, out.nodes.get? t = some ids ∧
    a.labels.get? t = some labels
  labels : ∀ t ids labels, out.nodes.get? t = some ids → a.labels.get? t = some labels →
    ∃ found, b.labels.get? t = some found ∧ found.map some = ids.map fun id ↦ labels[id.toNat]?

theorem exists_gatherLabels_iff {nodes : SortedMap NodeType (List Id)} :
    (∃ y, a.gatherLabels nodes = .ok y) ↔ ∀ t ids labels, nodes.get? t = some ids →
      a.labels.get? t = some labels → ∀ id ∈ ids, id.toNat < labels.length := by
  rw [gatherLabels, exists_foldlM_addLabels_iff]
  constructor
  · intro h t ids labels hids
    exact h (t, ids) (SortedMap.get?_eq_some_iff.1 hids) labels
  · rintro h ⟨t, ids⟩ hentry labels
    exact h t ids labels (SortedMap.get?_eq_some_iff.2 hentry)

theorem assemble_eq_ok_iff {b : Batch} : a.assemble out = .ok b ↔ ∃ x attr y,
    a.featuresOf out = .ok (x, attr) ∧ a.gatherLabels out.nodes = .ok y ∧
      ⟨out, x, attr, y⟩ = b := by
  rw [assemble, bind_eq_ok_iff]
  simp only [Prod.exists, bind_eq_ok_iff, Except.ok.injEq, exists_and_left]

theorem aligned_of_assemble {b : Batch} (h : a.assemble out = .ok b) : a.Aligned out b := by
  obtain ⟨x, attr, y, hfeatures, hlabels, rfl⟩ := assemble_eq_ok_iff.1 h
  have haligned := features_of_featuresOf hfeatures
  have hfound : ∀ {t found}, y.get? t = some found ↔ ∃ ids labels, out.nodes.get? t = some ids ∧
      a.labels.get? t = some labels ∧ labelsOf t labels.toArray ids = .ok found := by
    intro t found
    rw [get?_foldlM_addLabels out.nodes.keys_nodup hlabels]
    simp only [SortedMap.get?_eq_some_iff (m := out.nodes)]
  have hlabelled := exists_gatherLabels_iff.1 ⟨y, hlabels⟩
  refine ⟨rfl, haligned.nodeTypes, fun t ids table hids htable ↦ ?_, haligned.edgeTypes,
    fun e index ids table hindex hids htable ↦ ?_, fun t ↦ ?_, fun t ids labels hids hsome ↦ ?_⟩
  · obtain ⟨m, hm, hgives⟩ := haligned.nodeRows t ids table hids htable
    exact ⟨m, hm, reads_of_gives hgives⟩
  · obtain ⟨m, hm, hgives⟩ := haligned.edgeRows e index ids table hindex hids htable
    exact ⟨m, hm, reads_of_gives hgives⟩
  · rw [SortedMap.mem_keys_iff]
    constructor
    · rintro ⟨found, hat⟩
      obtain ⟨ids, labels, hids, hsome, -⟩ := hfound.1 hat
      exact ⟨ids, labels, hids, hsome⟩
    · rintro ⟨ids, labels, hids, hsome⟩
      obtain ⟨found, hof⟩ := exists_labelsOf_iff.2 (hlabelled t ids labels hids hsome)
      exact ⟨found, hfound.2 ⟨ids, labels, hids, hsome, hof⟩⟩
  · obtain ⟨found, hof⟩ := exists_labelsOf_iff.2 (hlabelled t ids labels hids hsome)
    exact ⟨found, hfound.2 ⟨ids, labels, hids, hsome, hof⟩, (labelsOf_eq_ok_iff.1 hof).symm⟩

/-- What is known of the batch of an output. -/
structure AllOrNothing (a : Assembler) (out : SamplingOutput) : Prop where
  /-- If there is one, it is aligned with the output. -/
  aligned : ∀ b, a.assemble out = .ok b → a.Aligned out b
  /-- There is one if all that is needed is answered in time and every node has its label. -/
  complete : (∃ b, a.assemble out = .ok b) ↔
    (∀ table ids, a.Needs out table ids → ∃ m, (table.lookup ids a.device).Gives a.limit m) ∧
    ∀ t ids labels, out.nodes.get? t = some ids → a.labels.get? t = some labels →
      ∀ id ∈ ids, id.toNat < labels.length
  /-- An ID without a row in its table fails it. -/
  unregistered : ∀ table ids, a.Needs out table ids → (∃ id ∈ ids, table.ids.get? id = none) →
    ∃ e, a.assemble out = .error e
  /-- So does a failing look-up. -/
  failed : ∀ table ids e, a.Needs out table ids → (table.lookup ids a.device).result = .error e →
    ∃ e', a.assemble out = .error e'
  /-- So does one that is not answered by the deadline. -/
  late : ∀ table ids deadline, a.Needs out table ids → a.deadline = some deadline →
    deadline.toNat < (table.lookup ids a.device).moment → ∃ e, a.assemble out = .error e
  /-- And so does a node without a label, where its type has labels. -/
  unlabelled : ∀ t ids labels, out.nodes.get? t = some ids → a.labels.get? t = some labels →
    (∃ id ∈ ids, labels.length ≤ id.toNat) → ∃ e, a.assemble out = .error e

/-- **A batch is aligned with its output, or there is none.** -/
theorem assemble_allOrNothing (a : Assembler) (out : SamplingOutput) : a.AllOrNothing out := by
  have hcomplete : (∃ b, a.assemble out = .ok b) ↔
      (∀ table ids, a.Needs out table ids → ∃ m, (table.lookup ids a.device).Gives a.limit m) ∧
      ∀ t ids labels, out.nodes.get? t = some ids → a.labels.get? t = some labels →
        ∀ id ∈ ids, id.toNat < labels.length := by
    rw [← exists_featuresOf_iff, ← exists_gatherLabels_iff]
    simp only [assemble_eq_ok_iff]
    exact ⟨fun ⟨_, x, attr, y, hfeatures, hlabels, _⟩ ↦ ⟨⟨_, hfeatures⟩, y, hlabels⟩,
      fun ⟨⟨(x, attr), hfeatures⟩, y, hlabels⟩ ↦ ⟨_, x, attr, y, hfeatures, hlabels, rfl⟩⟩
  have hfails : (¬∃ b, a.assemble out = .ok b) → ∃ e, a.assemble out = .error e := by
    intro hnone
    cases hresult : a.assemble out with
    | error e => exact ⟨e, rfl⟩
    | ok b => exact absurd ⟨b, hresult⟩ hnone
  refine ⟨fun b ↦ aligned_of_assemble, hcomplete, ?_, ?_, ?_, ?_⟩
  · rintro table ids hneeds ⟨id, hid, hnone⟩
    refine hfails fun hok ↦ ?_
    obtain ⟨m, hm⟩ := (hcomplete.1 hok).1 table ids hneeds
    obtain ⟨row, hrow⟩ := FeatureTable.registered_of_lookup hm hid
    exact nomatch hnone.symm.trans hrow
  · intro table ids e hneeds hfailed
    refine hfails fun hok ↦ ?_
    obtain ⟨m, hm⟩ := (hcomplete.1 hok).1 table ids hneeds
    exact nomatch hfailed.symm.trans hm.result
  · intro table ids deadline hneeds hdeadline hlate
    refine hfails fun hok ↦ ?_
    obtain ⟨m, hm⟩ := (hcomplete.1 hok).1 table ids hneeds
    exact Nat.not_le.2 hlate (hm.inTime _ (by rw [limit, hdeadline]; rfl))
  · rintro t ids labels hids hsome ⟨id, hid, hpast⟩
    exact hfails fun hok ↦ Nat.not_le.2 ((hcomplete.1 hok).2 t ids labels hids hsome id hid) hpast

end HopSampler.Assembler
