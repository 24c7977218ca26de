import HopSampler.Proofs.Decoding
import HopSampler.Proofs.JsonTexts

/-!
# Dataset files can be written and read again

A dataset is written as a value and the value as a text. Reading goes the same way back, and all
that it can find changed are the numbers of the tables: those that are not finite are written as
`null`, and of the others it depends on their digits what they are read as. Everything else (names,
words, labels, placements, what is given and what is left out) is read as it was written.

So each lemma speaks of values with other values in the place of their numbers (`Json.mapNumbers`).
A table is read back **exactly if its numbers stand for themselves** (`TableData.Kept`), alone and
flat beside the type of its edges, and a dataset if its tables are
(`Dataset.ofJson?_mapNumbers_iff`). Numbers that are not touched give the values, where being finite
is all that is needed (`Dataset.ofJson?_toJson_iff`); numbers that are read from their texts give
the files (`Dataset.ofText_text`).
-/

namespace HopSampler

open Json (KeepsWhole Legible reading)

variable {f : Json.Number → Json}

/-! ### Placements and edge lists -/

@[simp]
theorem EdgeType.mapNumbers_toJson (e : EdgeType) : e.toJson.mapNumbers f = e.toJson := rfl

namespace Placement

theorem mapNumbers_toJson (hf : KeepsWhole f) (p : Placement) :
    p.toJson.mapNumbers f = p.toJson := by
  cases p with
  | zeroCopy => rfl
  | resident device => simp [toJson, hf.ofWord]
  | partitioned count => simp [toJson, hf.ofWord]

theorem body?_object (name : String) (w : UInt64) :
    body? name (.object [(name, .ofWord w)]) = some w := by
  have hnames : [(name, Json.ofWord w)].map (·.1) = [name] := rfl
  rw [body?, Json.record?_object hnames (List.nodup_singleton name)]
  exact Json.word?_ofWord w

@[simp]
theorem ofJson?_toJson (p : Placement) : ofJson? p.toJson = some p := by
  cases p with
  | zeroCopy => rfl
  | resident device => rw [toJson, ofJson?, body?_object, Option.map_some]
  | partitioned count => rw [toJson, ofJson?, body?_object, Option.map_some]

@[simp]
theorem ofFlatJson?_toJson (p : Placement) : ofFlatJson? p.toJson = some p := by
  rw [← ofJson?_toJson p]
  cases p <;> rfl

end Placement

namespace EdgeList

theorem mapNumbers_toJson (hf : KeepsWhole f) (e : EdgeList) :
    e.toJson.mapNumbers f = e.toJson := by
  cases hids : e.edgeIds <;>
    simp [toJson, hids, optionalField, hf.ofWords, Placement.mapNumbers_toJson hf]

/-- The fields of an edge list are found, that of its IDs where there are some. -/
theorem record?_toJson (e : EdgeList) :
    e.toJson.record? ["edge_type", "rows", "cols", "edge_ids", "placement"] =
      some [some e.type.toJson, some (.ofList .ofWord e.sources), some (.ofList .ofWord e.targets),
        e.edgeIds.map (.ofList .ofWord), some e.placement.toJson] := by
  rw [toJson]
  cases e.edgeIds with
  | none =>
    rw [Json.record?_object_eq_some_lookup]
    · simp [SortedMap.lookup, optionalField]
    · show List.Nodup ["edge_type", "rows", "cols", "placement"]
      decide
  | some ids =>
    rw [Json.record?_object_eq_some_lookup]
    · simp [SortedMap.lookup, optionalField]
    · show List.Nodup ["edge_type", "rows", "cols", "edge_ids", "placement"]
      decide

theorem ofJsonWith?_toJson (e : EdgeList) :
    ofJsonWith? Placement.ofJson? e.toJson = some e := by
  rw [ofJsonWith?, record?_toJson]
  simp only [Json.required_some, Json.defaulted_some, EdgeType.ofJson?_toJson, Json.words?_ofList,
    Placement.ofJson?_toJson,
    Json.optional_map (fun _ ↦ Json.noConfusion) Json.words?_ofList e.edgeIds]
  rfl

end EdgeList

/-! ### Tables -/

namespace TableData

/-- The numbers of a table stand for themselves. -/
structure Kept (f : Json.Number → Json) (t : TableData) : Prop where
  values : ∀ row ∈ t.rows, ∀ x ∈ row, ((Json.ofFloat32 x).mapNumbers f).float32? = some x
  splitRatio : ((Json.ofFloat t.splitRatio).mapNumbers f).float? = some t.splitRatio

/-- The fields of a table with other values in the place of the numbers. -/
def fieldsWith (f : Json.Number → Json) (t : TableData) : List (String × Json) :=
  t.fields.map fun (name, value) ↦ (name, value.mapNumbers f)

theorem fieldsWith_eq (hf : KeepsWhole f) (t : TableData) : t.fieldsWith f =
    EdgeList.optionalField "ids" (.ofList .ofWord) t.ids ++
      [("rows", .ofList (.ofList fun x ↦ (Json.ofFloat32 x).mapNumbers f) t.rows),
        ("split_ratio", (Json.ofFloat t.splitRatio).mapNumbers f), ("cold", t.cold.toJson)] := by
  have hrows : (Json.ofList (.ofList .ofFloat32) t.rows).mapNumbers f =
      .ofList (.ofList fun x ↦ (Json.ofFloat32 x).mapNumbers f) t.rows := by
    rw [Json.mapNumbers_ofList]
    exact congrArg (Json.ofList · t.rows) (funext fun row ↦ Json.mapNumbers_ofList _ row)
  rw [fieldsWith, fields]
  cases t.ids <;>
    simp [EdgeList.optionalField, hf.ofWords, hrows, Placement.mapNumbers_toJson hf]

/-- No field of a table is given twice, and none has the name of the type of an edge table. -/
theorem names_nodup (hf : KeepsWhole f) (t : TableData) :
    ("edge_type" :: (t.fieldsWith f).map (·.1)).Nodup := by
  rw [fieldsWith_eq hf]
  cases t.ids with
  | none =>
    show List.Nodup ["edge_type", "rows", "split_ratio", "cold"]
    decide
  | some ids =>
    show List.Nodup ["edge_type", "ids", "rows", "split_ratio", "cold"]
    decide

theorem lookup_fieldsWith (hf : KeepsWhole f) (t : TableData) :
    fieldNames.map (fun name ↦ SortedMap.lookup name (t.fieldsWith f)) =
      [t.ids.map (.ofList .ofWord),
        some (.ofList (.ofList fun x ↦ (Json.ofFloat32 x).mapNumbers f) t.rows),
        some ((Json.ofFloat t.splitRatio).mapNumbers f), some t.cold.toJson] := by
  rw [fieldsWith_eq hf]
  cases t.ids <;> simp [fieldNames, SortedMap.lookup, EdgeList.optionalField]

/-- **A table is read off its fields exactly if its numbers stand for themselves.** -/
theorem ofFields?_iff (hf : KeepsWhole f) {t : TableData} {placement? : Json → Option Placement}
    (hcold : placement? t.cold.toJson = some t.cold) :
    ofFields? placement? (fieldNames.map fun name ↦ SortedMap.lookup name (t.fieldsWith f)) =
      some t ↔ t.Kept f := by
  have hvalues : (Json.ofList (.ofList fun x ↦ (Json.ofFloat32 x).mapNumbers f) t.rows).list?
      (Json.list? Json.float32?) = some t.rows ↔
        ∀ row ∈ t.rows, ∀ x ∈ row, ((Json.ofFloat32 x).mapNumbers f).float32? = some x := by
    rw [Json.list?_ofList_iff]
    exact forall₂_congr fun row _ ↦ Json.list?_ofList_iff
  rw [lookup_fieldsWith hf, ofFields?,
    Json.optional_map (fun _ ↦ Json.noConfusion) Json.words?_ofList t.ids]
  simp only [Json.required_some, Json.defaulted_some, hcold, Option.bind_eq_bind,
    Option.bind_some, Option.bind_eq_some_iff, Option.some.injEq]
  constructor
  · rintro ⟨rows, hrows, ratio, hratio, heq⟩
    obtain ⟨rfl, rfl⟩ : rows = t.rows ∧ ratio = t.splitRatio := by rw [← heq]; exact ⟨rfl, rfl⟩
    exact ⟨hvalues.1 hrows, hratio⟩
  · intro h
    exact ⟨_, hvalues.2 h.values, _, h.splitRatio, rfl⟩

theorem ofJsonWith?_iff (hf : KeepsWhole f) {t : TableData} :
    ofJsonWith? Placement.ofJson? (t.toJson.mapNumbers f) = some t ↔ t.Kept f := by
  rw [toJson, Json.mapNumbers_object, ← fieldsWith, ofJsonWith?,
    Json.record?_object_eq_some_lookup (List.nodup_cons.1 (t.names_nodup hf)).2, Option.bind_some]
  exact ofFields?_iff hf (Placement.ofJson?_toJson t.cold)

end TableData

/-! ### Flat tables -/

namespace Json

/-- A value is usable throughout and nested no deeper than a bound. -/
structure Shallow (bound : Nat) (value : Json) : Prop where
  usable : value.isUsable
  depth_le : value.depth ≤ bound

theorem Shallow.mono {bound bound' : Nat} {value : Json} (h : Shallow bound value)
    (hle : bound ≤ bound') : Shallow bound' value :=
  ⟨h.usable, Nat.le_trans h.depth_le hle⟩

theorem Shallow.array {bound : Nat} {items : List Json} (h : ∀ item ∈ items, Shallow bound item) :
    Shallow (bound + 1) (.array items) := by
  have hitems : areItemsUsable items ∧ depthOfItems items ≤ bound := by
    induction items with
    | nil => exact ⟨rfl, Nat.zero_le bound⟩
    | cons item items ih =>
      obtain ⟨hitem, hrest⟩ := List.forall_mem_cons.1 h
      obtain ⟨husable, hdepth⟩ := ih hrest
      rw [areItemsUsable, depthOfItems, hitem.usable, husable]
      exact ⟨rfl, Nat.max_le.2 ⟨hitem.depth_le, hdepth⟩⟩
  exact ⟨hitems.1, Nat.succ_le_succ hitems.2⟩

theorem Shallow.ofList {α : Type} {bound : Nat} {encode : α → Json} {items : List α}
    (h : ∀ a ∈ items, Shallow bound (encode a)) : Shallow (bound + 1) (Json.ofList encode items) :=
  .array (List.forall_mem_map.2 h)

theorem shallow_number (n : Number) : Shallow 0 (.number n) := ⟨rfl, Nat.le_refl 0⟩

end Json

theorem Placement.shallow_toJson (p : Placement) : p.toJson.Shallow 2 := by
  cases p with
  | zeroCopy => exact ⟨rfl, by decide⟩
  | resident device => exact ⟨rfl, Nat.le_refl 2⟩
  | partitioned count => exact ⟨rfl, Nat.le_refl 2⟩

theorem TableData.Kept.shallow (hf : KeepsWhole f) {t : TableData} (h : t.Kept f) :
    ∀ field ∈ t.fieldsWith f, field.2.Shallow 2 := by
  have hids (ids : List UInt64) : (Json.ofList .ofWord ids).Shallow 1 :=
    .ofList fun _ _ ↦ ⟨rfl, Nat.le_refl 0⟩
  have hrows :
      (Json.ofList (.ofList fun x ↦ (Json.ofFloat32 x).mapNumbers f) t.rows).Shallow 2 := by
    refine .ofList fun row hrow ↦ .ofList fun x hx ↦ ?_
    obtain ⟨n, hn⟩ := Json.exists_number_of_float32? (h.values row hrow x hx)
    exact hn ▸ Json.shallow_number n
  have hratio : ((Json.ofFloat t.splitRatio).mapNumbers f).Shallow 2 := by
    obtain ⟨n, hn⟩ := Json.exists_number_of_float? h.splitRatio
    exact hn ▸ (Json.shallow_number n).mono (Nat.zero_le 2)
  rw [fieldsWith_eq hf]
  simp only [List.forall_mem_append, List.forall_mem_cons]
  refine ⟨?_, hrows, hratio, t.cold.shallow_toJson, nofun⟩
  cases t.ids with
  | none => nofun
  | some ids => exact List.forall_mem_singleton.2 ((hids ids).mono (by decide))

namespace EdgeTable

theorem shallow_toJson (e : EdgeType) : e.toJson.Shallow 1 := ⟨rfl, Nat.le_refl 1⟩

/-- **A flat table is read exactly if its numbers stand for themselves**: the type beside its fields
is none of them, and none of them is nested too deeply to be read. -/
theorem ofJson?_iff (hf : KeepsWhole f) {t : EdgeTable} :
    ofJson? (t.toJson.mapNumbers f) = some t ↔ t.table.Kept f := by
  have hfields : t.toJson.mapNumbers f =
      .object (("edge_type", t.type.toJson) :: t.table.fieldsWith f) := by
    rw [toJson, Json.mapNumbers_object]
    rfl
  have hnames : ((("edge_type", t.type.toJson) :: t.table.fieldsWith f).map (·.1)).Nodup :=
    t.table.names_nodup hf
  have htype :
      SortedMap.lookup "edge_type" (("edge_type", t.type.toJson) :: t.table.fieldsWith f) =
        some t.type.toJson := by simp [SortedMap.lookup]
  have htable : TableData.fieldNames.mapM
      (Json.field? (("edge_type", t.type.toJson) :: t.table.fieldsWith f)) = some
        (TableData.fieldNames.map fun name ↦ SortedMap.lookup name (t.table.fieldsWith f)) := by
    refine (Json.record?_object_eq_some_lookup hnames TableData.fieldNames).trans ?_
    simp [TableData.fieldNames, SortedMap.lookup]
  have hread := TableData.ofFields?_iff hf (Placement.ofFlatJson?_toJson t.table.cold)
  rw [hfields, ofJson?, Json.field?_eq_some_lookup hnames, htype, htable]
  simp only [Option.bind_eq_bind, Option.bind_some, Json.required_some, EdgeType.ofJson?_toJson]
  constructor
  · intro h
    split at h
    · obtain ⟨table, htable, heq⟩ := Option.bind_eq_some_iff.1 h
      obtain rfl : table = t.table := by rw [← Option.some.inj heq]
      exact hread.1 htable
    · cases h
  · intro h
    have hreadable : ∀ field ∈ ("edge_type", t.type.toJson) :: t.table.fieldsWith f,
        isReadable field.2 := by
      intro field hfield
      obtain ⟨husable, hdepth⟩ : field.2.Shallow 2 := by
        rcases List.mem_cons.1 hfield with rfl | hfield
        · exact (shallow_toJson t.type).mono (by decide)
        · exact h.shallow hf field hfield
      rw [isReadable, husable, Bool.true_and, decide_eq_true_eq]
      exact Nat.le_trans hdepth (by decide)
    rw [if_pos (List.all_eq_true.2 hreadable), hread.2 h]
    rfl

end EdgeTable

/-! ### Maps by type -/

namespace SortedMap

variable {ν : Type} {encode : ν → Json} {decode : Json → Option ν}

theorem mapNumbers_toJson (encode : ν → Json) (m : SortedMap NodeType ν) :
    (m.toJson encode).mapNumbers f = m.toJson fun v ↦ (encode v).mapNumbers f := by
  rw [toJson, toJson, Json.mapNumbers_object, List.map_map]
  rfl

/-- Decoding the values of fields keeps their names. -/
private theorem names_of_mapM {fields : List (String × Json)} {found : List (String × ν)}
    (h : fields.mapM (fun (name, value) ↦ (decode value).map (name, ·)) = some found) :
    found.map (·.1) = fields.map (·.1) := by
  induction fields generalizing found with
  | nil =>
    obtain rfl := Option.some.inj h
    rfl
  | cons field fields ih =>
    rw [List.mapM_cons] at h
    simp only [Option.bind_eq_bind, Option.bind_eq_some_iff] at h
    obtain ⟨_, hfield, rest, hrest, heq⟩ := h
    obtain ⟨v, -, rfl⟩ := Option.map_eq_some_iff.1 hfield
    obtain rfl := Option.some.inj heq
    rw [List.map_cons, List.map_cons, ih hrest]

/-- Entries by name are those of a map, once their names are types again. -/
private theorem ofList_named_iff {m : SortedMap NodeType ν} {found : List (String × ν)}
    (hnames : found.map (·.1) = m.entries.map (·.1.name)) :
    ofList (found.map fun (name, v) ↦ ((⟨name⟩ : NodeType), v)) = m ↔
      found = m.entries.map fun (t, v) ↦ (t.name, v) := by
  have hkeys : (found.map fun (name, v) ↦ ((⟨name⟩ : NodeType), v)).map (·.1) = m.keys := by
    have htypes := congrArg (List.map NodeType.mk) hnames
    rw [List.map_map, List.map_map] at htypes
    rw [List.map_map]
    exact htypes
  have hascending : (found.map fun (name, v) ↦ ((⟨name⟩ : NodeType), v)).Pairwise
      fun a b ↦ Tag.Before a.1 b.1 := List.pairwise_map.1 (hkeys ▸ m.keys_ascending)
  rw [SortedMap.ext_iff, entries_ofList hascending]
  constructor
  · intro h
    rw [← h, List.map_map]
    exact (List.map_id found).symm
  · rintro rfl
    rw [List.map_map]
    exact List.map_id m.entries

/-- A map is read back exactly if its values are. -/
theorem ofJson?_toJson_iff {m : SortedMap NodeType ν} :
    ofJson? decode (m.toJson encode) = some m ↔ ∀ v ∈ m.values, decode (encode v) = some v := by
  have hvalues : (m.entries.map fun (t, v) ↦ (t.name, encode v)).mapM
      (fun (name, value) ↦ (decode value).map (name, ·)) =
        some (m.entries.map fun (t, v) ↦ (t.name, v)) ↔
          ∀ v ∈ m.values, decode (encode v) = some v := by
    rw [Json.mapM_map_eq_some_iff, values, List.forall_mem_map]
    refine forall₂_congr fun entry _ ↦ ?_
    rw [Option.map_eq_some_iff]
    constructor
    · rintro ⟨v, hv, heq⟩
      rwa [(Prod.mk.inj heq).2] at hv
    · exact fun hv ↦ ⟨entry.2, hv, rfl⟩
  rw [← hvalues, ofJson?, toJson, Json.entries?, Option.map_eq_some_iff]
  constructor
  · rintro ⟨found, hfound, heq⟩
    have hnames := names_of_mapM hfound
    rw [List.map_map] at hnames
    rwa [← (ofList_named_iff hnames).1 heq]
  · intro h
    exact ⟨_, h, (ofList_named_iff (List.map_map ..)).2 rfl⟩

end SortedMap

/-! ### Datasets -/

namespace Dataset

/-- All tables, of nodes and of edges. -/
def allTables (d : Dataset) : List TableData :=
  d.nodeFeatures.values ++ d.edgeFeatures.map (·.table)

theorem mapNumbers_toJson (hf : KeepsWhole f) (d : Dataset) : d.toJson.mapNumbers f =
    .object [("num_nodes", d.nodeCounts.toJson .ofWord),
      ("edges", .ofList EdgeList.toJson d.edges),
      ("node_features", d.nodeFeatures.toJson fun t ↦ t.toJson.mapNumbers f),
      ("edge_features", .ofList (fun t ↦ t.toJson.mapNumbers f) d.edgeFeatures),
      ("node_labels", d.nodeLabels.toJson (.ofList .ofInt64))] := by
  have hwords : (fun w ↦ (Json.ofWord w).mapNumbers f) = Json.ofWord := funext hf.ofWord
  have hedges : (fun e : EdgeList ↦ e.toJson.mapNumbers f) = EdgeList.toJson :=
    funext fun e ↦ e.mapNumbers_toJson hf
  have hlabels : (fun i ↦ (Json.ofInt64 i).mapNumbers f) = Json.ofInt64 := funext hf.ofInt64
  rw [toJson, Json.mapNumbers_object]
  simp only [List.map_cons, List.map_nil, SortedMap.mapNumbers_toJson, Json.mapNumbers_ofList,
    hwords, hedges, hlabels]

/-- **A dataset is read exactly if the numbers of its tables stand for themselves.** -/
theorem ofJson?_mapNumbers_iff (hf : KeepsWhole f) {d : Dataset} :
    ofJson? (d.toJson.mapNumbers f) = some d ↔ ∀ t ∈ d.allTables, t.Kept f := by
  have hcounts : SortedMap.ofJson? Json.word? (d.nodeCounts.toJson .ofWord) = some d.nodeCounts :=
    SortedMap.ofJson?_toJson_iff.2 fun w _ ↦ Json.word?_ofWord w
  have hedges : (Json.ofList EdgeList.toJson d.edges).list?
      (EdgeList.ofJsonWith? Placement.ofJson?) = some d.edges :=
    Json.list?_ofList fun e _ ↦ e.ofJsonWith?_toJson
  have hnodes : SortedMap.ofJson? (TableData.ofJsonWith? Placement.ofJson?)
      (d.nodeFeatures.toJson fun t ↦ t.toJson.mapNumbers f) = some d.nodeFeatures ↔
        ∀ t ∈ d.nodeFeatures.values, t.Kept f := by
    rw [SortedMap.ofJson?_toJson_iff]
    exact forall₂_congr fun t _ ↦ TableData.ofJsonWith?_iff hf
  have htables : (Json.ofList (fun t ↦ t.toJson.mapNumbers f) d.edgeFeatures).list?
      EdgeTable.ofJson? = some d.edgeFeatures ↔ ∀ t ∈ d.edgeFeatures.map (·.table), t.Kept f := by
    rw [Json.list?_ofList_iff, List.forall_mem_map]
    exact forall₂_congr fun t _ ↦ EdgeTable.ofJson?_iff hf
  have hlabels : SortedMap.ofJson? (Json.list? Json.int64?)
      (d.nodeLabels.toJson (.ofList .ofInt64)) = some d.nodeLabels :=
    SortedMap.ofJson?_toJson_iff.2 fun l _ ↦ Json.list?_ofList fun i _ ↦ Json.int64?_ofInt64 i
  rw [mapNumbers_toJson hf, ofJson?, ofJsonWith?, Json.record?_object]
  · simp only [List.map_cons, List.map_nil, Json.required_some, Json.defaulted_some, hcounts,
      hedges, hlabels, Option.bind_eq_bind, Option.bind_some, Option.bind_eq_some_iff,
      Option.some.injEq]
    rw [allTables, List.forall_mem_append, ← hnodes, ← htables]
    constructor
    · rintro ⟨nodeFeatures, hnodes, edgeFeatures, hedges, heq⟩
      obtain rfl : nodeFeatures = d.nodeFeatures := congrArg Dataset.nodeFeatures heq
      obtain rfl : edgeFeatures = d.edgeFeatures := congrArg Dataset.edgeFeatures heq
      exact ⟨hnodes, hedges⟩
    · rintro ⟨hnodes, hedges⟩
      exact ⟨_, hnodes, _, hedges, rfl⟩
  · rfl
  · decide

/-- All numbers of all tables are finite. -/
def Finite (d : Dataset) : Prop :=
  ∀ t ∈ d.allTables, (∀ row ∈ t.rows, ∀ x ∈ row, x.isFinite) ∧ t.splitRatio.isFinite

instance (d : Dataset) : Decidable d.Finite :=
  inferInstanceAs (Decidable (∀ t ∈ d.allTables,
    (∀ row ∈ t.rows, ∀ x ∈ row, x.isFinite) ∧ t.splitRatio.isFinite))

/-- **Exactly the datasets with finite numbers are read back as what they are.** -/
theorem ofJson?_toJson_iff {d : Dataset} : ofJson? d.toJson = some d ↔ d.Finite := by
  have hkept : (∀ t ∈ d.allTables, t.Kept .number) ↔ d.Finite := by
    refine forall₂_congr fun t _ ↦ ?_
    simp only [← Json.float32?_ofFloat32_iff, ← Json.float?_ofFloat_iff]
    constructor
    · rintro ⟨hvalues, hratio⟩
      simp only [Json.mapNumbers_number] at hvalues hratio
      exact ⟨hvalues, hratio⟩
    · rintro ⟨hvalues, hratio⟩
      exact ⟨by simpa only [Json.mapNumbers_number], by rwa [Json.mapNumbers_number]⟩
  rw [← hkept, ← ofJson?_mapNumbers_iff Json.keepsWhole_number, Json.mapNumbers_number]

end Dataset

/-! ### Files -/

namespace Json

theorem legible_ofFloat32 {x : Float32}
    (h : (ofText? (ofFloat32 x).compact).bind float32? = some x) :
    Legible reading (ofFloat32 x) := by
  rw [ofFloat32] at h ⊢
  by_cases hx : x.isFinite
  · rw [if_pos hx] at h ⊢
    exact legible_of_decode (fun _ ↦ exists_number_of_float32?) h
  · rw [if_neg hx]
    exact .null

theorem legible_ofFloat {x : Float} (h : (ofText? (ofFloat x).compact).bind float? = some x) :
    Legible reading (ofFloat x) := by
  rw [ofFloat] at h ⊢
  by_cases hx : x.isFinite
  · rw [if_pos hx] at h ⊢
    exact legible_of_decode (fun _ ↦ exists_number_of_float?) h
  · rw [if_neg hx]
    exact .null

end Json

theorem EdgeType.legible_toJson (e : EdgeType) : Legible f e.toJson := by
  refine .array ?_
  simp only [List.forall_mem_cons]
  exact ⟨.string _, .string _, .string _, nofun⟩

theorem Placement.legible_toJson (p : Placement) : Legible reading p.toJson := by
  have hbody (name field : String) (w : UInt64) :
      Legible reading (.object [(name, .object [(field, .ofWord w)])]) :=
    .object (List.forall_mem_singleton.2
      (.object (List.forall_mem_singleton.2 (Json.legible_ofWord w))))
  cases p with
  | zeroCopy => exact .string "zero_copy"
  | resident device => exact hbody "resident" "device" device
  | partitioned count => exact hbody "partitioned" "num_partitions" count

theorem EdgeList.legible_ids (name : String) (ids : Option (List Id)) :
    ∀ field ∈ optionalField name (.ofList .ofWord) ids, Legible reading field.2 := by
  cases ids with
  | none => nofun
  | some ids => exact List.forall_mem_singleton.2 (Json.legible_ofWords ids)

theorem EdgeList.legible_toJson (e : EdgeList) : Legible reading e.toJson := by
  refine .object ?_
  simp only [List.forall_mem_append, List.forall_mem_cons]
  exact ⟨⟨⟨e.type.legible_toJson, Json.legible_ofWords e.sources, Json.legible_ofWords e.targets,
    nofun⟩, legible_ids "edge_ids" e.edgeIds⟩, e.placement.legible_toJson, nofun⟩

namespace TableData

/-- Every number of the table, written alone, is read as the number. -/
structure ReadsAlone (t : TableData) : Prop where
  values : ∀ row ∈ t.rows, ∀ x ∈ row,
    (Json.ofText? (Json.ofFloat32 x).compact).bind Json.float32? = some x
  splitRatio : (Json.ofText? (Json.ofFloat t.splitRatio).compact).bind Json.float? =
    some t.splitRatio

variable {t : TableData}

theorem ReadsAlone.legible (h : t.ReadsAlone) : ∀ field ∈ t.fields, Legible reading field.2 := by
  have hrows : Legible reading (.ofList (.ofList .ofFloat32) t.rows) :=
    .ofList fun row hrow ↦ .ofList fun x hx ↦ Json.legible_ofFloat32 (h.values row hrow x hx)
  rw [fields]
  simp only [List.forall_mem_append, List.forall_mem_cons]
  exact ⟨EdgeList.legible_ids "ids" t.ids, hrows, Json.legible_ofFloat h.splitRatio,
    t.cold.legible_toJson, nofun⟩

/-- What is read alone is what its text stands for. -/
theorem ReadsAlone.kept (h : t.ReadsAlone) : t.Kept reading where
  values row hrow x hx := by
    have hx := h.values row hrow x hx
    rwa [(Json.legible_ofFloat32 hx).ofText?_compact] at hx
  splitRatio := by
    have hratio := h.splitRatio
    rwa [(Json.legible_ofFloat hratio).ofText?_compact] at hratio

end TableData

theorem SortedMap.legible_toJson {encode : ν → Json} {m : SortedMap NodeType ν}
    (h : ∀ v ∈ m.values, Legible f (encode v)) : Legible f (m.toJson encode) :=
  .object (List.forall_mem_map.2 fun _ hentry ↦ h _ (List.mem_map_of_mem hentry))

namespace Dataset

variable {d : Dataset}

/-- Every number of every table, written alone, is read as the number. -/
def ReadsAlone (d : Dataset) : Prop := ∀ t ∈ d.allTables, t.ReadsAlone

theorem ReadsAlone.legible (h : d.ReadsAlone) : Legible reading d.toJson := by
  obtain ⟨hnodes, hedges⟩ := List.forall_mem_append.1 h
  refine .object ?_
  simp only [List.forall_mem_cons]
  refine ⟨SortedMap.legible_toJson fun w _ ↦ Json.legible_ofWord w,
    .ofList fun e _ ↦ e.legible_toJson,
    SortedMap.legible_toJson fun t ht ↦ .object (hnodes t ht).legible,
    .ofList fun t ht ↦ .object ?_,
    SortedMap.legible_toJson fun l _ ↦ .ofList fun i _ ↦ Json.legible_ofInt64 i, nofun⟩
  exact List.forall_mem_cons.2 ⟨t.type.legible_toJson, (List.forall_mem_map.1 hedges t ht).legible⟩

/-- **A dataset file is read as the dataset that was written**, if its numbers are. -/
theorem ofText_text (h : d.ReadsAlone) : ofText d.text = .ok d := by
  have hread : ofJson? (d.toJson.mapNumbers reading) = some d :=
    (ofJson?_mapNumbers_iff Json.keepsWhole_reading).2 fun t ht ↦ (h t ht).kept
  rw [ofText, text, h.legible.ofText?_compact, Option.bind_some, hread]

/-- A dataset can be written and read again, as a value and as a file. -/
structure RoundTrips (d : Dataset) : Prop where
  read : ofJson? d.toJson = some d
  /-- However the dataset is given, it is the same when it is written and read again. -/
  reread : ∀ value, ofJson? value = some d → ofJson? d.toJson = some d
  text : d.ReadsAlone → ofText d.text = .ok d

/-- **Datasets with finite numbers can be written and read again.** -/
theorem roundTrips (h : d.Finite) : d.RoundTrips where
  read := ofJson?_toJson_iff.2 h
  reread _ _ := ofJson?_toJson_iff.2 h
  text := ofText_text

/-- A dataset with all kinds of fields, given and left out. -/
def varied : Dataset where
  nodeCounts := ⟨[(⟨"a"⟩, 2), (⟨"b c"⟩, 18446744073709551615)], by decide⟩
  edges := [⟨⟨⟨"a"⟩, "r", ⟨"b c"⟩⟩, [0, 1], [1, 0], some [7, 3], .resident 1⟩,
    ⟨⟨⟨"b c"⟩, "", ⟨"a"⟩⟩, [0], [1], none, .partitioned 3⟩]
  nodeFeatures :=
    ⟨[(⟨"a"⟩, ⟨some [1, 0], [[0.5, -2.0], [1.25, 0.0]], 0.25, .partitioned 2⟩)], by decide⟩
  edgeFeatures := [⟨⟨⟨"a"⟩, "ids", ⟨"rows"⟩⟩, ⟨none, [[1.5]], 1.0, .resident 0⟩⟩]
  nodeLabels := ⟨[(⟨"a"⟩, [-1, 9223372036854775807])], by decide⟩

/-- The same with no values in its tables. -/
def valueless : Dataset where
  nodeCounts := varied.nodeCounts
  edges := varied.edges
  nodeFeatures := .empty
  edgeFeatures := [⟨⟨⟨"a"⟩, "ids", ⟨"rows"⟩⟩, ⟨some [4, 2], [[], []], 0.25, .resident 0⟩⟩]
  nodeLabels := varied.nodeLabels

theorem roundTrips_varied : varied.Finite ∧ varied.RoundTrips ∧ valueless.Finite ∧
    valueless.ReadsAlone ∧ ofText valueless.text = .ok valueless := by
  have hfinite : varied.Finite := by decide +kernel
  have hfinite' : valueless.Finite := by decide +kernel
  have halone : valueless.ReadsAlone := List.forall_mem_singleton.2 ⟨by simp, rfl⟩
  exact ⟨hfinite, roundTrips hfinite, hfinite', halone, (roundTrips hfinite').text halone⟩

end Dataset

end HopSampler
