import HopSampler.CommandLine.Run
import HopSampler.Proofs.Names

/-!
# What the report of a subgraph tells

The report of a sampled subgraph lists edge types by their keys, three times: their edges, how many
of these each hop added, and the shapes of their features. A key is made of three names, and
different edge types may have the same key; then the last of them is reported, the others are not.

**A report tells of every edge type exactly if the keys are different**
(`CommandLine.reportsAll_iff`). Keys are different where each name of a source and each relation can
be told from the underscores behind it (`CommandLine.edgeKey_inj`).
-/

namespace HopSampler

/-- The value of a field of an object. -/
def Json.fieldAt? (name : String) : Json → Option Json
  | .object fields => SortedMap.lookup name fields
  | _ => none

namespace CommandLine

/-! ### Keys of edge types -/

/-- A name in which no double underscore begins, with two underscores behind it. -/
def KeyClear (name : String) : Prop := ClearOf ['_', '_'] name.toList

instance (name : String) : Decidable (KeyClear name) :=
  inferInstanceAs (Decidable ¬['_', '_'] <:+: name.toList ++ ['_', '_'].dropLast)

theorem toList_edgeKey (e : EdgeType) : (edgeKey e).toList =
    e.source.name.toList ++ (['_', '_'] ++ (e.relation.toList ++
      (['_', '_'] ++ e.target.name.toList))) := by
  simp [edgeKey]

/-- Keys can be read back where sources and relations are clear of the separator. -/
theorem edgeKey_inj {e e' : EdgeType} (hsource : KeyClear e.source.name)
    (hrelation : KeyClear e.relation) (hsource' : KeyClear e'.source.name)
    (hrelation' : KeyClear e'.relation) (h : edgeKey e = edgeKey e') : e = e' := by
  have hlist := congrArg String.toList h
  rw [toList_edgeKey, toList_edgeKey] at hlist
  obtain ⟨hsources, hrest⟩ := eq_of_append_separator hsource hsource' hlist
  obtain ⟨hrelations, htargets⟩ := eq_of_append_separator hrelation hrelation' hrest
  refine Tag.eq_of_path ?_
  show [e.source.name, e.relation, e.target.name] = [e'.source.name, e'.relation, e'.target.name]
  rw [String.toList_inj.1 hsources, String.toList_inj.1 hrelations, String.toList_inj.1 htargets]

/-- All sources and relations of a map are clear of the separator. -/
def KeysClear (m : SortedMap EdgeType ν) : Prop :=
  ∀ e ∈ m.keys, KeyClear e.source.name ∧ KeyClear e.relation

theorem KeysClear.namesApart {m : SortedMap EdgeType ν} (h : KeysClear m) :
    m.NamesApart edgeKey :=
  SortedMap.namesApart_of_inj fun e he e' he' heq ↦
    edgeKey_inj (h e he).1 (h e he).2 (h e' he').1 (h e' he').2 heq

/-! ### Fields of objects -/

theorem fieldAt?_sorted {name : String} {value : Json} {after : List (String × Json)}
    (before : List (String × Json)) (h : ∀ field ∈ after, field.1 ≠ name) :
    (sorted (before ++ (name, value) :: after)).fieldAt? name = some value :=
  SortedMap.get?_ofList_of_last h

theorem fieldAt?_sorted_eq_none {name : String} {fields : List (String × Json)}
    (h : ∀ field ∈ fields, field.1 ≠ name) : (sorted fields).fieldAt? name = none := by
  show (SortedMap.ofList fields).get? name = none
  rw [← Option.not_isSome_iff_eq_none, Option.isSome_iff_exists, ← SortedMap.mem_keys_iff,
    SortedMap.mem_keys_ofList_iff, List.mem_map]
  rintro ⟨field, hfield, rfl⟩
  exact h field hfield rfl

/-! ### What is listed by key -/

/-- A value tells of listed edges: where they are, their IDs if these are known, and the edge type
that was followed. -/
structure TellsEdges (i : EdgeIndex) (value : Json) : Prop where
  origin : value.fieldAt? "origin" = some (.string (edgeKey i.origin))
  row : value.fieldAt? "row" = some (naturals i.row)
  col : value.fieldAt? "col" = some (naturals i.col)
  edge : value.fieldAt? "edge" = i.edge.map (.ofList .ofWord)

theorem edgesJson_tells (i : EdgeIndex) : TellsEdges i (edgesJson i) where
  origin := fieldAt?_sorted [] (by simp)
  row := fieldAt?_sorted [("origin", _)] (by simp)
  col := fieldAt?_sorted [("origin", _), ("row", _)] (by simp)
  edge := by
    cases hedge : i.edge with
    | none => exact fieldAt?_sorted_eq_none (by simp [hedge])
    | some ids =>
      have hfields : edgesJson i = sorted ([("origin", .string (edgeKey i.origin)),
          ("row", naturals i.row), ("col", naturals i.col)] ++
            [("edge", .ofList .ofWord ids)]) := by
        rw [edgesJson, hedge]
        rfl
      rw [hfields]
      exact fieldAt?_sorted _ nofun

/-- An object has exactly one entry for each edge type of a map, under its key and with what is to
be told of its value. -/
def ListsEach (Tells : ν → Json → Prop) (m : SortedMap EdgeType ν) (value : Json) : Prop :=
  ∃ fields listed, value = .object fields ∧ fields.Perm listed ∧
    List.Forall₂ (fun a field ↦ field.1 = edgeKey a.1 ∧ Tells a.2 field.2) m.entries listed

/-- **There is an entry for each edge type exactly if the keys are different.** -/
theorem listsEach_byEdge_iff {Tells : ν → Json → Prop} {f : ν → Json} (hf : ∀ v, Tells v (f v))
    {m : SortedMap EdgeType ν} : ListsEach Tells m (byEdge f m) ↔ m.NamesApart edgeKey := by
  constructor
  · rintro ⟨fields, listed, heq, hperm, hlisted⟩
    have hfields : (m.named edgeKey f).entries = fields := Json.object.inj heq
    have hlength : (m.named edgeKey f).entries.length = m.entries.length := by
      rw [hfields, hperm.length_eq, hlisted.length_eq]
    refine SortedMap.size_named_iff.1 (hlength.trans ?_)
    rw [SortedMap.keys, List.length_map]
  · intro h
    refine ⟨_, _, rfl, SortedMap.entries_named_perm_iff.2 h, ?_⟩
    rw [List.forall₂_map_right_iff]
    exact List.forall₂_same.2 fun a _ ↦ ⟨rfl, hf a.2⟩

/-- The entry of an edge type that is not shadowed is its own. -/
theorem fieldAt?_byEdge {m : SortedMap EdgeType ν} {f : ν → Json} {e : EdgeType} {v : ν}
    (hget : m.get? e = some v) (h : ¬m.Shadowed edgeKey e) :
    (byEdge f m).fieldAt? (edgeKey e) = some (f v) :=
  SortedMap.get?_named hget h

/-- The entries are the keys of the edge types. -/
theorem fieldAt?_byEdge_isSome_iff {m : SortedMap EdgeType ν} {f : ν → Json} {key : String} :
    ((byEdge f m).fieldAt? key).isSome ↔ ∃ e ∈ m.keys, edgeKey e = key := by
  rw [← SortedMap.mem_keys_named_iff, SortedMap.mem_keys_iff, Option.isSome_iff_exists]
  rfl

/-! ### The report of a subgraph -/

theorem fieldAt?_summary_edges (o : SamplingOutput) (batch : Option Batch) :
    (summary o batch).fieldAt? "edges" = some (byEdge edgesJson o.edges) :=
  fieldAt?_sorted [("node", _)] (by simp)

theorem fieldAt?_summary_counts (o : SamplingOutput) (batch : Option Batch) :
    (summary o batch).fieldAt? "num_sampled_edges" = some (byEdge naturals o.edgeCounts) :=
  fieldAt?_sorted [("node", _), ("edges", _), ("num_sampled_nodes", _)] (by simp)

theorem fieldAt?_summary_features (o : SamplingOutput) (b : Batch) :
    (summary o (some b)).fieldAt? "features" = some (shapes b) :=
  fieldAt?_sorted [("node", _), ("edges", _), ("num_sampled_nodes", _), ("num_sampled_edges", _),
    ("metadata", _)] nofun

theorem fieldAt?_shapes (b : Batch) :
    (shapes b).fieldAt? "edge_attr" = some (byEdge shape b.edgeFeatures) :=
  fieldAt?_sorted [("x", _)] (by simp)

/-- The value of a field of a report is an object that lists each edge type of a map. -/
def ListsUnder (report : Json) (name : String) (Tells : ν → Json → Prop)
    (m : SortedMap EdgeType ν) : Prop :=
  ∃ value, report.fieldAt? name = some value ∧ ListsEach Tells m value

/-- The value of a field of a report is an object with the keys of the edge types of a map, where
the last edge type with a key is listed. -/
structure ListsLastUnder (report : Json) (name : String) (Tells : ν → Json → Prop)
    (m : SortedMap EdgeType ν) (value : Json) : Prop where
  field : report.fieldAt? name = some value
  keys : ∀ key, (value.fieldAt? key).isSome ↔ ∃ e ∈ m.keys, edgeKey e = key
  last : ∀ e v, m.get? e = some v → ¬m.Shadowed edgeKey e →
    ∃ entry, value.fieldAt? (edgeKey e) = some entry ∧ Tells v entry

theorem listsLastUnder_byEdge {report : Json} {name : String} {Tells : ν → Json → Prop}
    {f : ν → Json} {m : SortedMap EdgeType ν} (hfield : report.fieldAt? name = some (byEdge f m))
    (hf : ∀ v, Tells v (f v)) : ListsLastUnder report name Tells m (byEdge f m) where
  field := hfield
  keys _ := fieldAt?_byEdge_isSome_iff
  last _ v hget h := ⟨f v, fieldAt?_byEdge hget h, hf v⟩

/-- A report tells of every edge type of an output and of its batch. -/
structure ReportsAll (o : SamplingOutput) (batch : Option Batch) : Prop where
  edges : ListsUnder (summary o batch) "edges" TellsEdges o.edges
  edgeCounts : ListsUnder (summary o batch) "num_sampled_edges"
    (fun counts value ↦ value = naturals counts) o.edgeCounts
  shapes : ∀ b, batch = some b → ∃ features, (summary o batch).fieldAt? "features" = some features ∧
    ListsUnder features "edge_attr" (fun m value ↦ value = shape m) b.edgeFeatures

theorem listsUnder_iff {report : Json} {name : String} {Tells : ν → Json → Prop} {f : ν → Json}
    {m : SortedMap EdgeType ν} (hfield : report.fieldAt? name = some (byEdge f m))
    (hf : ∀ v, Tells v (f v)) : ListsUnder report name Tells m ↔ m.NamesApart edgeKey := by
  simp only [ListsUnder, hfield, Option.some.injEq, exists_eq_left']
  exact listsEach_byEdge_iff hf

variable {o : SamplingOutput} {batch : Option Batch}

/-- **A report tells of every edge type exactly if the keys are different**, in the output and among
the features. -/
theorem reportsAll_iff : ReportsAll o batch ↔ o.edges.NamesApart edgeKey ∧
    o.edgeCounts.NamesApart edgeKey ∧ ∀ b, batch = some b → b.edgeFeatures.NamesApart edgeKey := by
  have hedges : ListsUnder (summary o batch) "edges" TellsEdges o.edges ↔ _ :=
    listsUnder_iff (fieldAt?_summary_edges o batch) edgesJson_tells
  have hcounts : ListsUnder (summary o batch) "num_sampled_edges"
      (fun counts value ↦ value = naturals counts) o.edgeCounts ↔ _ :=
    listsUnder_iff (fieldAt?_summary_counts o batch) fun _ ↦ rfl
  have hshapes (b : Batch) : ListsUnder (shapes b) "edge_attr"
      (fun m value ↦ value = shape m) b.edgeFeatures ↔ _ :=
    listsUnder_iff (fieldAt?_shapes b) fun _ ↦ rfl
  constructor
  · intro h
    refine ⟨hedges.1 h.edges, hcounts.1 h.edgeCounts, ?_⟩
    rintro b rfl
    obtain ⟨features, hfeatures, hlists⟩ := h.shapes b rfl
    rw [fieldAt?_summary_features, Option.some.injEq] at hfeatures
    exact (hshapes b).1 (hfeatures ▸ hlists)
  · rintro ⟨hapart, hapart', hapart''⟩
    refine ⟨hedges.2 hapart, hcounts.2 hapart', ?_⟩
    rintro b rfl
    exact ⟨shapes b, fieldAt?_summary_features o b, (hshapes b).2 (hapart'' b rfl)⟩

/-- What a report tells, whatever the names are. -/
structure SummaryTells (o : SamplingOutput) (batch : Option Batch) : Prop where
  edges : ∃ value, ListsLastUnder (summary o batch) "edges" TellsEdges o.edges value
  edgeCounts : ∃ value, ListsLastUnder (summary o batch) "num_sampled_edges"
    (fun counts value ↦ value = naturals counts) o.edgeCounts value
  shapes : ∀ b, batch = some b → ∃ features value,
    (summary o batch).fieldAt? "features" = some features ∧
      ListsLastUnder features "edge_attr" (fun m value ↦ value = shape m) b.edgeFeatures value
  all_iff : ReportsAll o batch ↔ o.edges.NamesApart edgeKey ∧
    o.edgeCounts.NamesApart edgeKey ∧ ∀ b, batch = some b → b.edgeFeatures.NamesApart edgeKey
  /-- Nothing is missing where sources and relations are clear of the separator. -/
  all_of_clear : KeysClear o.edges → KeysClear o.edgeCounts →
    (∀ b, batch = some b → KeysClear b.edgeFeatures) → ReportsAll o batch

/-- **A report has the keys of all edge types and tells of the last one with each**; that is all
edge types exactly if their keys are different. -/
theorem summary_tells (o : SamplingOutput) (batch : Option Batch) : SummaryTells o batch where
  edges := ⟨_, listsLastUnder_byEdge (fieldAt?_summary_edges o batch) edgesJson_tells⟩
  edgeCounts := ⟨_, listsLastUnder_byEdge (fieldAt?_summary_counts o batch) fun _ ↦ rfl⟩
  shapes := by
    rintro b rfl
    exact ⟨shapes b, _, fieldAt?_summary_features o b,
      listsLastUnder_byEdge (fieldAt?_shapes b) fun _ ↦ rfl⟩
  all_iff := reportsAll_iff
  all_of_clear hedges hcounts hshapes := reportsAll_iff.2
    ⟨hedges.namesApart, hcounts.namesApart, fun b hb ↦ (hshapes b hb).namesApart⟩

/-! ### Two edge types with one key -/

/-- The first of two edge types with the same key. -/
def joinedFirst : EdgeType := ⟨⟨"a"⟩, "x", ⟨"y__b"⟩⟩

/-- And the last. -/
def joinedLast : EdgeType := ⟨⟨"a"⟩, "x__y", ⟨"b"⟩⟩

/-- A dataset file with an edge of either type. -/
def joinedText : String :=
  "\x7b\"edges\": [\x7b\"edge_type\": [\"a\", \"x\", \"y__b\"], \"rows\": [0], \"cols\": [0], " ++
    "\"edge_ids\": [10]\x7d, \x7b\"edge_type\": [\"a\", \"x__y\", \"b\"], \"rows\": [0], " ++
    "\"cols\": [1], \"edge_ids\": [20]\x7d]\x7d"

/-- That file as the only one. -/
def joinedFiles : Files := fun path ↦ if path = "g.json" then some joinedText else none

/-- Sample one neighbor per edge type from the node that has edges. -/
def joinedWords : List String :=
  ["sample", "g.json", "--input-type", "a", "--seeds", "0", "--num-neighbors", "1", "--with-edge"]

/-- The command of these words. -/
def sampleJoined : Command :=
  .sample "g.json" ⟨"a"⟩ [0] ⟨none, some [1], none, none, true, false⟩ ⟨false, 0⟩

theorem ofWords_joinedWords : Command.ofWords joinedWords = .ok sampleJoined := by decide +kernel

/-- The output that a command reports without features. -/
def reported? : Except Failure Outcome → Option SamplingOutput
  | .ok ⟨none, .subgraph o none⟩ => some o
  | _ => none

theorem reported?_eq_some_iff {result : Except Failure Outcome} {o : SamplingOutput} :
    reported? result = some o ↔ result = .ok ⟨none, .subgraph o none⟩ := by
  constructor
  · intro h
    unfold reported? at h
    split at h
    · rw [Option.some.inj h]
    · cases h
  · rintro rfl
    rfl

/-- Both edge types are sampled, and the report has one entry, which tells of the last. -/
theorem exists_report_short : ∃ command o,
    Command.ofWords joinedWords = .ok command ∧
      command.run joinedFiles = .ok ⟨none, .subgraph o none⟩ ∧
      o.edges.keys = [joinedFirst, joinedLast] ∧
      (∃ entry, (summary o none).fieldAt? "edges" = some (.object [("a__x__y__b", entry)]) ∧
        entry.fieldAt? "edge" = some (.ofList .ofWord [20])) ∧
      ¬ReportsAll o none := by
  have hrun : (reported? (sampleJoined.run joinedFiles)).map
      (fun o ↦ (o.edges.keys, (o.edges.named edgeKey edgesJson).keys,
        (o.edges.get? joinedLast).map (·.edge))) =
        some ([joinedFirst, joinedLast], ["a__x__y__b"], some (some [20])) := by
    decide +kernel
  obtain ⟨o, ho, htold⟩ := Option.map_eq_some_iff.1 hrun
  obtain ⟨hkeys, htold⟩ := Prod.mk.inj htold
  obtain ⟨hlisted, hlast⟩ := Prod.mk.inj htold
  obtain ⟨index, hindex, hedge⟩ := Option.map_eq_some_iff.1 hlast
  have hshown : ¬o.edges.Shadowed edgeKey joinedLast := by
    rw [SortedMap.Shadowed, hkeys]
    decide
  obtain ⟨⟨key, entry⟩, hentries, rfl⟩ := List.map_eq_singleton_iff.1 hlisted
  have hobject : byEdge edgesJson o.edges = .object [("a__x__y__b", entry)] :=
    congrArg Json.object hentries
  have hentry : (byEdge edgesJson o.edges).fieldAt? "a__x__y__b" = some (edgesJson index) :=
    fieldAt?_byEdge hindex hshown
  refine ⟨sampleJoined, o, ofWords_joinedWords, reported?_eq_some_iff.1 ho, hkeys,
    ⟨entry, hobject ▸ fieldAt?_summary_edges o none, ?_⟩, fun h ↦ ?_⟩
  · rw [hobject] at hentry
    rw [show entry = edgesJson index from Option.some.inj hentry, (edgesJson_tells index).edge,
      hedge]
    rfl
  · have hsize : (o.edges.named edgeKey edgesJson).size = o.edges.keys.length :=
      SortedMap.size_named_iff.2 (reportsAll_iff.1 h).1
    rw [SortedMap.size, hentries, hkeys] at hsize
    exact absurd (show 1 = 2 from hsize) (by decide)

end CommandLine

end HopSampler
