import HopSampler.Proofs.Checks
import HopSampler.Proofs.Decoding
import HopSampler.Sampling.Codec

/-!
# Configuration files can be written and read again

Every field of a configuration is written, so no default is filled in when it is read again, and
every field but the budgets reads back as it is. Budgets do unless they are lists of no edge type
(`Budgets.ofJson?_toJson_iff`): these are written as the empty list, which is read as budgets for no
hop. They are nothing that was ever read, and they are not valid, as they have no hop.
-/

namespace HopSampler

/-! ### Budgets -/

namespace Budgets

theorem pairOfJson?_pairToJson (pair : EdgeType × List UInt64) :
    pairOfJson? (pairToJson pair) = some pair := by
  rw [pairToJson, pairOfJson?, EdgeType.ofJson?_toJson, Json.words?_ofList]
  rfl

/-- **Budgets are read back as what they are**, unless they list no edge type. -/
theorem ofJson?_toJson_iff {b : Budgets} : ofJson? b.toJson = some b ↔ b ≠ .perEdgeType [] := by
  cases b with
  | uniform hops =>
    rw [toJson, ofJson?, Json.words?_ofList]
    exact iff_of_true rfl nofun
  | perEdgeType lists =>
    have hlists : (Json.ofList pairToJson lists).list? pairOfJson? = some lists :=
      Json.list?_ofList fun pair _ ↦ pairOfJson?_pairToJson pair
    rw [toJson, ofJson?, hlists]
    cases lists with
    | nil => exact iff_of_false nofun fun h ↦ h rfl
    | cons pair rest =>
      -- a pair is no number, so the list is not taken for one of numbers
      have hwords : (Json.ofList pairToJson (pair :: rest)).list? Json.word? = none := rfl
      rw [hwords]
      exact iff_of_true rfl nofun

/-- Budgets that list no edge type are never read. -/
theorem ne_of_ofJson? {value : Json} {b : Budgets} (h : ofJson? value = some b) :
    b ≠ .perEdgeType [] := by
  rintro rfl
  rw [ofJson?] at h
  cases hwords : value.list? Json.word? with
  | some hops =>
    rw [hwords] at h
    cases h
  | none =>
    rw [hwords, Option.map_none, Option.none_or, Option.map_eq_some_iff] at h
    obtain ⟨lists, hlists, hnil⟩ := h
    obtain rfl := Budgets.perEdgeType.inj hnil
    rw [Json.eq_of_list?_eq_nil hlists] at hwords
    cases hwords

/-- Valid budgets have a hop. -/
theorem ne_of_validate {b : Budgets} (h : b.validate = .ok ()) : b ≠ .perEdgeType [] := by
  rintro rfl
  cases h

end Budgets

/-! ### Configurations -/

@[simp]
theorem NegativeMode.ofJson?_toJson (mode : NegativeMode) :
    NegativeMode.ofJson? mode.toJson = some mode := by
  cases mode <;> rfl

@[simp]
theorem EdgeLayout.ofJson?_toJson (layout : EdgeLayout) :
    EdgeLayout.ofJson? layout.toJson = some layout := by
  cases layout <;> rfl

theorem NegativeSampling.ofJson?_toJson (n : NegativeSampling) :
    NegativeSampling.ofJson? n.toJson = some n := by
  rw [ofJson?, toJson, Json.record?_object]
  · simp
  · rfl
  · decide

theorem LoaderConfig.ofJson?_toJson (c : LoaderConfig) :
    LoaderConfig.ofJson? c.toJson = some c := by
  rw [ofJson?, toJson, Json.record?_object]
  · simp
  · rfl
  · decide

namespace SamplerConfig

/-- **A configuration is read back as what it is**, unless its budgets list no edge type. -/
theorem ofJson?_toJson_iff {c : SamplerConfig} :
    ofJson? c.toJson = some c ↔ c.budgets ≠ .perEdgeType [] := by
  rw [← Budgets.ofJson?_toJson_iff, ofJson?, toJson, Json.record?_object]
  · simp only [List.map_cons, List.map_nil, Json.required_some, Json.defaulted_some,
      Json.bool?_bool, EdgeLayout.ofJson?_toJson, Json.word?_ofWord, Json.optional_word?,
      Option.bind_eq_bind, Option.bind_some, Option.bind_eq_some_iff]
    constructor
    · rintro ⟨b, hb, hc⟩
      have hbudgets : b = c.budgets := congrArg budgets (Option.some.inj hc)
      exact hbudgets ▸ hb
    · exact fun hb ↦ ⟨c.budgets, hb, rfl⟩
  · rfl
  · decide

/-- A configuration that is read has budgets that are read. -/
theorem exists_budgets_of_ofJson? {value : Json} {c : SamplerConfig} (h : ofJson? value = some c) :
    ∃ budgets, Budgets.ofJson? budgets = some c.budgets := by
  rw [ofJson?] at h
  split at h
  · simp only [Json.required, Option.bind_eq_bind, Option.bind_eq_some_iff, Option.some.injEq] at h
    obtain ⟨b, ⟨budgets, -, hbudgets⟩, _, -, _, -, _, -, _, -, _, -, _, -, _, -, rfl⟩ := h
    exact ⟨budgets, hbudgets⟩
  · cases h

end SamplerConfig

/-- **Configurations can be written and read again**, valid or not where they were read before. -/
theorem configs_roundTrip :
    Json.RoundTrips SamplerConfig.ofJson? SamplerConfig.toJson (·.validate = .ok ()) ∧
    Json.RoundTrips LoaderConfig.ofJson? LoaderConfig.toJson (fun _ ↦ True) ∧
    Json.RoundTrips NegativeSampling.ofJson? NegativeSampling.toJson (fun _ ↦ True) := by
  refine ⟨.of_read (fun value c hc ↦ ?_) (fun c hc ↦ ?_),
    .of_read (fun _ c _ ↦ c.ofJson?_toJson) (fun c _ ↦ c.ofJson?_toJson),
    .of_read (fun _ n _ ↦ n.ofJson?_toJson) (fun n _ ↦ n.ofJson?_toJson)⟩
  · obtain ⟨budgets, hbudgets⟩ := SamplerConfig.exists_budgets_of_ofJson? hc
    exact SamplerConfig.ofJson?_toJson_iff.2 (Budgets.ne_of_ofJson? hbudgets)
  · rw [SamplerConfig.validate, check_bind_eq_ok_iff] at hc
    exact SamplerConfig.ofJson?_toJson_iff.2 (Budgets.ne_of_validate hc.1)

end HopSampler
