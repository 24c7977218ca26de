import HopSampler.SortedMap
import Mathlib.Data.List.Induction
import Mathlib.Data.List.Nodup

/-!
# Look-ups in sorted maps

A sorted map is read in two ways, entry by entry and key by key. The facts here tie the two
together: a look-up finds exactly the entries (`get?_eq_some_iff`), and each operation is described
by what it does to look-ups, so that nothing later opens a list of entries.
-/

-- Sums start from the numeral, also where zero comes with more structure.
attribute [local instance (high)] Zero.ofOfNat0

namespace HopSampler

/-- Where keys differ, one key has one element. -/
theorem filter_eq_singleton {α β : Type} [DecidableEq β] {key : α → β} {xs : List α}
    (h : (xs.map key).Nodup) {a : α} (ha : a ∈ xs) : xs.filter (key · = key a) = [a] := by
  induction xs with
  | nil => cases ha
  | cons b xs ih =>
    obtain ⟨hfresh, hrest⟩ := List.nodup_cons.1 h
    rcases List.mem_cons.1 ha with rfl | ha
    · have hnone : xs.filter (key · = key a) = [] := by
        rw [List.filter_eq_nil_iff]
        intro c hc hkey
        exact hfresh (List.mem_map.2 ⟨c, hc, of_decide_eq_true hkey⟩)
      rw [List.filter_cons_of_pos (by simp), hnone]
    · have hne : ¬key b = key a := fun heq ↦ hfresh (heq ▸ List.mem_map_of_mem ha)
      rw [List.filter_cons_of_neg (by simpa using hne), ih hrest ha]

namespace SortedMap

variable {κ ν ω : Type} [Tag κ]

/-! ### Keys -/

/-- Lists in strictly ascending order of a tag are equal when they have the same members. -/
theorem eq_of_ascending {α : Type} (key : α → κ) {xs ys : List α}
    (hxs : xs.Pairwise fun a b ↦ Tag.Before (key a) (key b))
    (hys : ys.Pairwise fun a b ↦ Tag.Before (key a) (key b)) (h : ∀ a, a ∈ xs ↔ a ∈ ys) :
    xs = ys := by
  have hnodup {zs : List α} (hzs : zs.Pairwise fun a b ↦ Tag.Before (key a) (key b)) : zs.Nodup :=
    hzs.imp fun hbefore heq ↦ hbefore.ne (congrArg key heq)
  have hperm : xs.Perm ys := (List.perm_ext_iff_of_nodup (hnodup hxs) (hnodup hys)).2 h
  refine hperm.eq_of_pairwise (fun a b _ _ hab hba ↦ ?_) hxs hys
  exact absurd (hab.trans hba) (Tag.Before.irrefl _)

theorem keys_ascending (m : SortedMap κ ν) : m.keys.Pairwise Tag.Before :=
  List.pairwise_map.2 m.ascending

/-- No key is listed twice. -/
theorem keys_nodup (m : SortedMap κ ν) : m.keys.Nodup :=
  m.keys_ascending.imp Tag.Before.ne

@[simp]
theorem keys_mapEntries (m : SortedMap κ ν) (f : κ → ν → ω) : (m.mapEntries f).keys = m.keys := by
  simp [keys, mapEntries]

/-- Values that are read off the keys are determined by the keys. -/
theorem mapEntries_congr_keys {m : SortedMap κ ν} {ν' : Type} {n : SortedMap κ ν'}
    (h : m.keys = n.keys) {f g : κ → ω} (hfg : ∀ key ∈ n.keys, f key = g key) :
    (m.mapEntries fun key _ ↦ f key) = n.mapEntries fun key _ ↦ g key := by
  have hread {ν : Type} (m : SortedMap κ ν) (f : κ → ω) :
      (m.mapEntries fun key _ ↦ f key).entries = m.keys.map fun key ↦ (key, f key) := by
    rw [keys, List.map_map]
    rfl
  refine SortedMap.ext ?_
  rw [hread, hread, h]
  exact List.map_congr_left fun key hkey ↦ by rw [hfg key hkey]

/-- Two entries under one key are one entry. -/
theorem eq_of_mem_entries {m : SortedMap κ ν} {key : κ} {v w : ν} (hv : (key, v) ∈ m.entries)
    (hw : (key, w) ∈ m.entries) : v = w := by
  have hnodup : (m.entries.map (·.1)).Nodup := m.keys_nodup
  have heq : (key, v) = (key, w) := List.inj_on_of_nodup_map hnodup hv hw rfl
  exact congrArg Prod.snd heq

variable [DecidableEq κ]

/-! ### Entries and look-ups -/

/-- **A look-up finds exactly the entries.** -/
theorem get?_eq_some_iff {m : SortedMap κ ν} {key : κ} {value : ν} :
    m.get? key = some value ↔ (key, value) ∈ m.entries := by
  rw [get?, lookup, Option.map_eq_some_iff]
  constructor
  · rintro ⟨⟨k, v⟩, hfind, rfl⟩
    have hkey : k = key := by simpa using List.find?_some hfind
    exact hkey ▸ List.mem_of_find?_eq_some hfind
  · intro hmem
    obtain ⟨⟨k, v⟩, hfind⟩ : ∃ a, m.entries.find? (·.1 = key) = some a := by
      rw [← Option.isSome_iff_exists, List.find?_isSome]
      exact ⟨_, hmem, by simp⟩
    have hkey : k = key := by simpa using List.find?_some hfind
    subst hkey
    exact ⟨_, hfind, eq_of_mem_entries (List.mem_of_find?_eq_some hfind) hmem⟩

/-- The keys are those with a value. -/
theorem mem_keys_iff {m : SortedMap κ ν} {key : κ} :
    key ∈ m.keys ↔ ∃ value, m.get? key = some value := by
  simp only [get?_eq_some_iff, keys, List.mem_map, Prod.exists, exists_and_right, exists_eq_right]

/-- A sum over the values is one over the keys. -/
theorem sum_values (m : SortedMap κ ν) (f : ν → Nat) :
    (m.values.map f).sum = (m.keys.map fun key ↦ ((m.get? key).map f).getD 0).sum := by
  rw [values, keys, List.map_map, List.map_map]
  refine congrArg List.sum (List.map_congr_left fun a ha ↦ ?_)
  have hget : m.get? a.1 = some a.2 := get?_eq_some_iff.2 ha
  simp only [Function.comp_apply, hget, Option.map_some, Option.getD_some]

theorem getD_of_get? {m : SortedMap κ ν} {key : κ} {value : ν} (h : m.get? key = some value)
    (fallback : ν) : m.getD key fallback = value := by
  rw [getD, h, Option.getD_some]

/-! ### Operations by their look-ups -/

omit [Tag κ] in
private theorem lookup_cons (key k : κ) (v : ν) (rest : List (κ × ν)) :
    lookup key ((k, v) :: rest) = if k = key then some v else lookup key rest := by
  by_cases h : k = key <;> simp [lookup, h]

private theorem lookup_insertEntry (key key' : κ) (value : ν) (entries : List (κ × ν)) :
    lookup key' (insertEntry key value entries) =
      if key = key' then some value else lookup key' entries := by
  induction entries with
  | nil => rw [insertEntry, lookup_cons]
  | cons a rest ih =>
    obtain ⟨k, v⟩ := a
    rw [insertEntry]
    split
    · next heq => rw [lookup_cons, lookup_cons, heq]; split <;> rfl
    · next hne =>
      split
      · rw [lookup_cons]
      · rw [lookup_cons, lookup_cons, ih]
        by_cases h : k = key'
        · rw [if_pos h, if_pos h, if_neg fun hkey ↦ hne (hkey.trans h.symm)]
        · rw [if_neg h, if_neg h]

theorem get?_insert (m : SortedMap κ ν) (key key' : κ) (value : ν) :
    (m.insert key value).get? key' = if key = key' then some value else m.get? key' :=
  lookup_insertEntry key key' value m.entries

theorem getD_insert (m : SortedMap κ ν) (key key' : κ) (value fallback : ν) :
    (m.insert key value).getD key' fallback =
      if key = key' then value else m.getD key' fallback := by
  rw [getD, get?_insert]
  split <;> rfl

omit [Tag κ] in
private theorem lookup_map (f : κ → ν → ω) (key : κ) (entries : List (κ × ν)) :
    lookup key (entries.map fun a ↦ (a.1, f a.1 a.2)) = (lookup key entries).map (f key) := by
  induction entries with
  | nil => rfl
  | cons a rest ih =>
    obtain ⟨k, v⟩ := a
    rw [List.map_cons, lookup_cons, lookup_cons, ih]
    by_cases h : k = key
    · rw [if_pos h, if_pos h, Option.map_some, h]
    · rw [if_neg h, if_neg h]

theorem get?_mapEntries (m : SortedMap κ ν) (f : κ → ν → ω) (key : κ) :
    (m.mapEntries f).get? key = (m.get? key).map (f key) :=
  lookup_map f key m.entries

theorem get?_filter_eq_some_iff {m : SortedMap κ ν} {p : κ → ν → Bool} {key : κ} {value : ν} :
    (m.filter p).get? key = some value ↔ m.get? key = some value ∧ p key value := by
  rw [get?_eq_some_iff, get?_eq_some_iff]
  exact List.mem_filter

theorem get?_empty (key : κ) : (empty : SortedMap κ ν).get? key = none := rfl

/-- Maps with the same look-ups are equal. -/
theorem ext_get? {m n : SortedMap κ ν} (h : ∀ key, m.get? key = n.get? key) : m = n := by
  refine SortedMap.ext (eq_of_ascending (·.1) m.ascending n.ascending fun (key, value) ↦ ?_)
  rw [← get?_eq_some_iff, h, get?_eq_some_iff]

/-- The last of two values under a key counts. -/
theorem insert_insert (m : SortedMap κ ν) (key : κ) (value last : ν) :
    (m.insert key value).insert key last = m.insert key last := by
  refine ext_get? fun key' ↦ ?_
  rw [get?_insert, get?_insert, get?_insert]
  split <;> rfl

/-! ### Maps of lists -/

theorem ofList_concat (entries : List (κ × ν)) (last : κ × ν) :
    ofList (entries ++ [last]) = (ofList entries).insert last.1 last.2 :=
  List.foldl_concat ..

/-- An entry that no other one under its key follows is found. -/
theorem get?_ofList_of_last {before after : List (κ × ν)} {key : κ} {value : ν}
    (h : ∀ a ∈ after, a.1 ≠ key) :
    (ofList (before ++ (key, value) :: after)).get? key = some value := by
  induction after using List.reverseRecOn with
  | nil => rw [ofList_concat, get?_insert, if_pos rfl]
  | append_singleton after last ih =>
    have hlast : last.1 ≠ key := h last (List.mem_append_right _ (List.mem_singleton_self last))
    rw [← List.cons_append, ← List.append_assoc, ofList_concat, get?_insert, if_neg hlast,
      ih fun a ha ↦ h a (List.mem_append_left _ ha)]

/-- The keys are those of the entries. -/
theorem mem_keys_ofList_iff {entries : List (κ × ν)} {key : κ} :
    key ∈ (ofList entries).keys ↔ key ∈ entries.map (·.1) := by
  induction entries using List.reverseRecOn with
  | nil => exact iff_of_false List.not_mem_nil List.not_mem_nil
  | append_singleton entries last ih =>
    rw [ofList_concat, List.map_append, List.mem_append, List.map_singleton, List.mem_singleton,
      ← ih, mem_keys_iff, mem_keys_iff]
    simp only [get?_insert]
    by_cases hlast : last.1 = key
    · simp [hlast]
    · simp [hlast, Ne.symm hlast]

private theorem insertEntry_last {entries : List (κ × ν)} {key : κ} (value : ν)
    (h : ∀ e ∈ entries, Tag.Before e.1 key) :
    insertEntry key value entries = entries ++ [(key, value)] := by
  induction entries with
  | nil => rfl
  | cons e entries ih =>
    have hbefore : Tag.Before e.1 key := h e List.mem_cons_self
    rw [insertEntry, if_neg hbefore.ne.symm, if_neg fun hafter ↦ (hbefore.trans hafter).ne rfl,
      ih fun e' he' ↦ h e' (List.mem_cons_of_mem e he'), List.cons_append]

/-- Entries that are in order are listed as they are. -/
theorem entries_ofList {entries : List (κ × ν)}
    (h : entries.Pairwise fun a b ↦ Tag.Before a.1 b.1) : (ofList entries).entries = entries := by
  induction entries using List.reverseRecOn with
  | nil => rfl
  | append_singleton entries last ih =>
    obtain ⟨hinit, -, hlast⟩ := List.pairwise_append.1 h
    rw [ofList_concat]
    show insertEntry last.1 last.2 (ofList entries).entries = _
    rw [ih hinit, insertEntry_last last.2 fun e he ↦ hlast e he last (List.mem_singleton_self last)]

end SortedMap

end HopSampler
