import HopSampler.Dataset.Codec
import HopSampler.Proofs.Maps

/-!
# Decoding what was encoded

Leaves, lists and structures read back as what they were written from. Lists are read back where
their members are (`Json.list?_ofList`). A structure is written as an object with its fields in
order and no name twice, so each of its fields is found where it is asked for
(`Json.record?_object`); whether it is required, has a default or may be `null` does not matter for
a field that is written.

`Json.RoundTrips` is what a codec owes: whatever was read can be written and read again, values that
are valid survive being written, and so no two of them are written alike.
-/

namespace HopSampler

namespace Json

variable {α : Type}

/-! ### Leaves and lists -/

@[simp]
theorem word?_ofWord (w : UInt64) : (ofWord w).word? = some w := by
  rw [ofWord, ofNat, word?, if_pos w.toNat_lt, Nat.toUInt64_eq, UInt64.ofNat_toNat]

@[simp]
theorem bool?_bool (b : Bool) : (Json.bool b).bool? = some b := rfl

@[simp]
theorem int64?_ofInt64 (i : Int64) : (ofInt64 i).int64? = some i := by
  have hlow := i.le_toInt
  have hhigh := i.toInt_lt
  have hsize : Int64.size = 2 ^ 64 := rfl
  rw [ofInt64]
  split
  · next hneg =>
    have habs : -(i.toInt.natAbs : Int) = i.toInt := by omega
    rw [int64?, if_pos (by omega), habs, Int64.ofInt_toInt]
  · next hpos =>
    have habs : (i.toInt.toNat : Int) = i.toInt := by omega
    rw [ofNat, int64?, if_pos (by omega), habs, Int64.ofInt_toInt]

/-- A single is written as itself exactly if it is finite. -/
theorem float32?_ofFloat32_iff {x : Float32} : (ofFloat32 x).float32? = some x ↔ x.isFinite := by
  rw [ofFloat32]
  split
  · next h => exact iff_of_true rfl h
  · next h => exact iff_of_false nofun h

theorem float?_ofFloat_iff {x : Float} : (ofFloat x).float? = some x ↔ x.isFinite := by
  rw [ofFloat]
  split
  · next h => exact iff_of_true rfl h
  · next h => exact iff_of_false nofun h

/-- Only numbers are read as numbers. -/
theorem exists_number_of_float32? {value : Json} {x : Float32} (h : value.float32? = some x) :
    ∃ n, value = .number n := by
  cases value with
  | number n => exact ⟨n, rfl⟩
  | _ => cases h

theorem exists_number_of_float? {value : Json} {x : Float} (h : value.float? = some x) :
    ∃ n, value = .number n := by
  cases value with
  | number n => exact ⟨n, rfl⟩
  | _ => cases h

/-- Decoding member by member. -/
theorem mapM_map_eq_some_iff {β γ : Type} {encode : α → β} {decode : β → Option γ} {result : α → γ}
    {items : List α} : (items.map encode).mapM decode = some (items.map result) ↔
      ∀ a ∈ items, decode (encode a) = some (result a) := by
  induction items with
  | nil => exact iff_of_true rfl nofun
  | cons a items ih =>
    rw [List.map_cons, List.mapM_cons, List.forall_mem_cons, ← ih]
    simp only [Option.bind_eq_bind, Option.bind_eq_some_iff, List.map_cons]
    constructor
    · rintro ⟨first, hfirst, rest, hrest, heq⟩
      obtain ⟨rfl, rfl⟩ := List.cons.inj (Option.some.inj heq)
      exact ⟨hfirst, hrest⟩
    · rintro ⟨hfirst, hrest⟩
      exact ⟨_, hfirst, _, hrest, rfl⟩

theorem mapM_map_eq_some {β γ : Type} {encode : α → β} {decode : β → Option γ} {result : α → γ}
    {items : List α} (h : ∀ a ∈ items, decode (encode a) = some (result a)) :
    (items.map encode).mapM decode = some (items.map result) :=
  mapM_map_eq_some_iff.2 h

/-- A list is read back exactly if its members are. -/
theorem list?_ofList_iff {encode : α → Json} {decode : Json → Option α} {items : List α} :
    (ofList encode items).list? decode = some items ↔
      ∀ a ∈ items, decode (encode a) = some a := by
  have hmembers : (items.map encode).mapM decode = some (items.map id) ↔ _ := mapM_map_eq_some_iff
  rwa [List.map_id] at hmembers

theorem list?_ofList {encode : α → Json} {decode : Json → Option α} {items : List α}
    (h : ∀ a ∈ items, decode (encode a) = some a) :
    (ofList encode items).list? decode = some items :=
  list?_ofList_iff.2 h

@[simp]
theorem words?_ofList (words : List UInt64) : (ofList ofWord words).list? word? = some words :=
  list?_ofList fun w _ ↦ word?_ofWord w

/-- Only a list without members is read as one without members. -/
theorem eq_of_list?_eq_nil {decode : Json → Option α} {value : Json}
    (h : value.list? decode = some []) : value = .array [] := by
  cases value with
  | array items =>
    cases items with
    | nil => rfl
    | cons item items =>
      rw [list?, List.mapM_cons] at h
      simp only [Option.bind_eq_bind, Option.bind_eq_some_iff] at h
      obtain ⟨a, -, rest, -, h⟩ := h
      cases h
  | _ => cases h

/-! ### Fields -/

@[simp]
theorem required_some (decode : Json → Option α) (value : Json) :
    required decode (some value) = decode value := rfl

@[simp]
theorem defaulted_some (decode : Json → Option α) (fallback : α) (value : Json) :
    defaulted decode fallback (some value) = decode value := rfl

theorem optional_some {value : Json} (decode : Json → Option α) (h : value ≠ .null) :
    optional decode (some value) = (decode value).map some := by
  cases value with
  | null => exact absurd rfl h
  | _ => rfl

/-- What may be absent is read back, if nothing that is there is written as `null`. -/
theorem optional_ofOption {encode : α → Json} {decode : Json → Option α}
    (hnull : ∀ a, encode a ≠ .null) (h : ∀ a, decode (encode a) = some a) (a? : Option α) :
    optional decode (some (ofOption encode a?)) = some a? := by
  cases a? with
  | none => rfl
  | some a => rw [ofOption, optional_some decode (hnull a), h, Option.map_some]

/-- What may be left out is read back, if nothing that is there is written as `null`. -/
theorem optional_map {encode : α → Json} {decode : Json → Option α}
    (hnull : ∀ a, encode a ≠ .null) (h : ∀ a, decode (encode a) = some a) (a? : Option α) :
    optional decode (a?.map encode) = some a? := by
  cases a? with
  | none => rfl
  | some a => rw [Option.map_some, optional_some decode (hnull a), h, Option.map_some]

@[simp]
theorem optional_word? (w? : Option UInt64) :
    optional word? (some (ofOption ofWord w?)) = some w? :=
  optional_ofOption (fun _ ↦ Json.noConfusion) word?_ofWord w?

/-- A field is found where no name occurs twice. -/
theorem field?_of_mem {fields : List (String × Json)} (h : (fields.map (·.1)).Nodup)
    {name : String} {value : Json} (hmem : (name, value) ∈ fields) :
    field? fields name = some (some value) := by
  rw [field?, filter_eq_singleton h hmem]

/-- An object gives the values of its fields. -/
theorem record?_object {names : List String} {fields : List (String × Json)}
    (hnames : fields.map (·.1) = names) (h : names.Nodup) :
    (Json.object fields).record? names = some (fields.map (some ·.2)) := by
  subst hnames
  exact mapM_map_eq_some fun _ hfield ↦ field?_of_mem h hfield

/-- Where no name occurs twice, a field is looked up. -/
theorem field?_eq_some_lookup {fields : List (String × Json)} (h : (fields.map (·.1)).Nodup)
    (name : String) : field? fields name = some (SortedMap.lookup name fields) := by
  have hlookup : SortedMap.lookup name fields =
      ((fields.filter (·.1 = name)).head?).map (·.2) := by
    rw [List.head?_filter, SortedMap.lookup]
  rw [field?, hlookup]
  cases hfound : fields.filter (·.1 = name) with
  | nil => rfl
  | cons field rest =>
    have hmem : field ∈ fields.filter (·.1 = name) := hfound ▸ List.mem_cons_self
    obtain ⟨hfield, hname⟩ := List.mem_filter.1 hmem
    rw [← of_decide_eq_true hname, filter_eq_singleton h hfield] at hfound
    rw [← (List.cons.inj hfound).2]
    rfl

/-- An object gives the values of its fields, absent ones where there are none. -/
theorem record?_object_eq_some_lookup {fields : List (String × Json)}
    (h : (fields.map (·.1)).Nodup) (names : List String) :
    (Json.object fields).record? names =
      some (names.map fun name ↦ SortedMap.lookup name fields) := by
  rw [record?, funext (field?_eq_some_lookup h)]
  exact List.mapM_pure

end Json

/-! ### Tags -/

@[simp]
theorem NodeType.ofJson?_toJson (t : NodeType) : NodeType.ofJson? t.toJson = some t := rfl

@[simp]
theorem EdgeType.ofJson?_toJson (e : EdgeType) : EdgeType.ofJson? e.toJson = some e := rfl

/-! ### Codecs -/

/-- What is read can be written and read again, and valid values are written apart. -/
structure Json.RoundTrips {α : Type} (decode : Json → Option α) (encode : α → Json)
    (valid : α → Prop) : Prop where
  /-- However a value is given, it is the same when it is written and read again. -/
  reread : ∀ value a, decode value = some a → decode (encode a) = some a
  read : ∀ a, valid a → decode (encode a) = some a
  /-- No two valid values are written alike. -/
  apart : ∀ a b, valid a → valid b → encode a = encode b → a = b

/-- What survives being written is written apart. -/
theorem Json.RoundTrips.of_read {α : Type} {decode : Json → Option α} {encode : α → Json}
    {valid : α → Prop} (reread : ∀ value a, decode value = some a → decode (encode a) = some a)
    (read : ∀ a, valid a → decode (encode a) = some a) : RoundTrips decode encode valid where
  reread := reread
  read := read
  apart a b ha hb hsame := Option.some.inj ((read a ha).symm.trans (hsame ▸ read b hb))

end HopSampler
