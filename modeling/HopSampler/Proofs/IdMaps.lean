import HopSampler.IdMap
import HopSampler.Proofs.Blueprints
import Mathlib.Data.List.Induction
import Mathlib.Data.List.Nodup
import Mathlib.Data.List.ReduceOption

/-!
# ID maps are one-to-one, in either form

A map that is filled pair by pair holds what was put in (`IdMap.Holds`), and putting in one more
pair is one step for both forms: the look-ups change at one ID (`IdMap.get?_put`), and the rows gain
one (`IdMap.rows_put_perm`). All that is asked of the form is a slot for every ID. So a list is
answered in the same way from any empty map that has room for it (`IdMap.settles_fill`), and how the
form is chosen does not show.

**Which failure is reported** is a matter of the list alone: of the pairs that repeat a row the
first one, and only where there is none the first that repeats an ID (`IsFirstRepeat`).
-/

namespace HopSampler

/-! ### First repetitions -/

/-- An element repeats the key of an earlier one, and none before it does. -/
def IsFirstRepeat {α κ : Type} (key : α → κ) (items : List α) (a : α) : Prop :=
  ∃ before after, items = before ++ a :: after ∧ (before.map key).Nodup ∧ key a ∈ before.map key

section FirstRepeat

variable {α κ : Type} {key : α → κ} {items : List α}

/-- There is a first repetition, unless there is none. -/
theorem exists_isFirstRepeat (h : ¬(items.map key).Nodup) : ∃ a, IsFirstRepeat key items a := by
  induction items using List.reverseRecOn with
  | nil => exact absurd .nil h
  | append_singleton items last ih =>
    by_cases hitems : (items.map key).Nodup
    · refine ⟨last, items, [], rfl, hitems, ?_⟩
      by_contra hlast
      refine h ?_
      rw [List.map_append, List.map_singleton, ← List.concat_eq_append]
      exact hitems.concat hlast
    · obtain ⟨a, before, after, rfl, hrepeat⟩ := ih hitems
      exact ⟨a, before, after ++ [last], by rw [List.append_assoc, List.cons_append], hrepeat⟩

variable [BEq κ] [Hashable κ] [LawfulBEq κ] [LawfulHashable κ]

theorem firstRepeat?_eq_none_iff {seen : Std.HashSet κ} : firstRepeat? key seen items = none ↔
    (items.map key).Nodup ∧ ∀ a ∈ items, key a ∉ seen := by
  induction items generalizing seen with
  | nil => simp [firstRepeat?]
  | cons a items ih =>
    rw [firstRepeat?, List.map_cons, List.nodup_cons]
    split
    · next hseen =>
      exact iff_of_false nofun fun ⟨_, hfresh⟩ ↦ hfresh a List.mem_cons_self hseen
    · next hfresh =>
      rw [ih]
      simp only [Std.HashSet.mem_insert, beq_iff_eq, List.mem_map, List.mem_cons, forall_eq_or_imp]
      grind

theorem exists_of_firstRepeat? {seen : Std.HashSet κ} {a : α}
    (h : firstRepeat? key seen items = some a) :
    ∃ before after, items = before ++ a :: after ∧ (before.map key).Nodup ∧
      (∀ b ∈ before, key b ∉ seen) ∧ (key a ∈ before.map key ∨ key a ∈ seen) := by
  induction items generalizing seen with
  | nil => exact nomatch h
  | cons first items ih =>
    rw [firstRepeat?] at h
    split at h
    · next hseen =>
      obtain rfl : first = a := Option.some.inj h
      exact ⟨[], items, rfl, .nil, by simp, .inr hseen⟩
    · next hfresh =>
      obtain ⟨before, after, rfl, hnodup, hunseen, hrepeat⟩ := ih h
      simp only [Std.HashSet.mem_insert, beq_iff_eq] at hunseen hrepeat
      refine ⟨first :: before, after, rfl, ?_, ?_, ?_⟩
      · rw [List.map_cons, List.nodup_cons]
        refine ⟨fun hmem ↦ ?_, hnodup⟩
        obtain ⟨b, hb, heq⟩ := List.mem_map.1 hmem
        exact hunseen b hb (.inl heq.symm)
      · exact List.forall_mem_cons.2 ⟨hfresh, fun b hb hseen ↦ hunseen b hb (.inr hseen)⟩
      · rw [List.map_cons, List.mem_cons]
        grind

/-- The search finds the first repetition. -/
theorem isFirstRepeat_of_firstRepeat? {a : α} (h : firstRepeat? key ∅ items = some a) :
    IsFirstRepeat key items a := by
  obtain ⟨before, after, hitems, hnodup, -, hrepeat⟩ := exists_of_firstRepeat? h
  exact ⟨before, after, hitems, hnodup, hrepeat.resolve_right Std.HashSet.not_mem_empty⟩

end FirstRepeat

namespace IdMap

variable {m : IdMap} {pairs : List (Id × Nat)} {id : Id} {row : Nat}

/-! ### One more pair -/

/-- There is a place for the row of an ID. -/
def HasRoom (m : IdMap) (id : Id) : Prop :=
  match m with
  | .dense slots => id.toNat < slots.size
  | .sparse _ => True

theorem hasRoom_put_iff {id' : Id} : (m.put id row).HasRoom id' ↔ m.HasRoom id' := by
  cases m with
  | dense slots =>
    show id'.toNat < (slots.setIfInBounds id.toNat (some row)).size ↔ id'.toNat < slots.size
    rw [Array.size_setIfInBounds]
  | sparse rowOf => exact Iff.rfl

/-- Putting a pair in changes the look-up of its ID and no other. -/
theorem get?_put (h : m.HasRoom id) (id' : Id) :
    (m.put id row).get? id' = if id = id' then some row else m.get? id' := by
  cases m with
  | dense slots =>
    have hlt : id.toNat < slots.size := h
    show (slots.setIfInBounds id.toNat (some row))[id'.toNat]?.join = _
    rw [Array.getElem?_setIfInBounds, if_pos hlt]
    by_cases hid : id = id'
    · rw [if_pos hid, if_pos (congrArg UInt64.toNat hid), Option.join_some]
    · rw [if_neg hid, if_neg fun h ↦ hid (UInt64.toNat_inj.1 h)]
      rfl
  | sparse rowOf =>
    show (rowOf.insert id row)[id']? = _
    rw [Std.HashMap.getElem?_insert]
    simp only [beq_iff_eq]
    rfl

/-- Filling an empty slot adds one value to those that are there. -/
theorem reduceOption_set_perm {α : Type} {slots : List (Option α)} {i : Nat}
    (h : slots[i]? = some none) (a : α) :
    (slots.set i (some a)).reduceOption.Perm (a :: slots.reduceOption) := by
  induction slots generalizing i with
  | nil => exact nomatch h
  | cons slot slots ih =>
    cases i with
    | zero =>
      obtain rfl : slot = none := Option.some.inj h
      exact .refl _
    | succ i =>
      have hrest := ih (List.getElem?_cons_succ ▸ h)
      cases slot with
      | none => exact hrest
      | some b => exact (hrest.cons b).trans (.swap a b _)

/-- Putting in an ID that was not listed adds its row. -/
theorem rows_put_perm (hroom : m.HasRoom id) (h : m.get? id = none) :
    (m.put id row).rows.Perm (row :: m.rows) := by
  cases m with
  | dense slots =>
    have hlt : id.toNat < slots.size := hroom
    have hempty : slots[id.toNat]? = some none := by
      have hjoin : slots[id.toNat]?.join = none := h
      rw [Array.getElem?_eq_getElem hlt] at hjoin ⊢
      exact congrArg some hjoin
    show (slots.setIfInBounds id.toNat (some row)).toList.reduceOption.Perm _
    rw [Array.toList_setIfInBounds]
    exact reduceOption_set_perm (by rwa [Array.getElem?_toList]) row
  | sparse rowOf =>
    have hothers : rowOf.toList.filter (fun e ↦ ¬(id == e.1)) = rowOf.toList := by
      refine List.filter_eq_self.2 fun e he ↦ ?_
      have hfound : rowOf[e.1]? = some e.2 := Std.HashMap.mem_toList_iff_getElem?_eq_some.1 he
      simp only [beq_iff_eq, decide_eq_true_iff]
      rintro rfl
      exact nomatch hfound.symm.trans h
    have hperm := Std.HashMap.toList_insert_perm (m := rowOf) (k := id) (v := row)
    rw [hothers] at hperm
    exact hperm.map _

theorem countP_isSome {α : Type} (slots : List (Option α)) :
    slots.countP (·.isSome) = slots.reduceOption.length := by
  induction slots with
  | nil => rfl
  | cons slot slots ih =>
    rw [List.countP_cons, ih]
    cases slot <;> rfl

theorem size_eq (m : IdMap) : m.size = m.rows.length := by
  cases m with
  | dense slots => exact countP_isSome slots.toList
  | sparse rowOf =>
    show rowOf.size = (rowOf.toList.map (·.2)).length
    rw [List.length_map, Std.HashMap.length_toList]

/-! ### A whole list -/

/-- The map finds the pairs, and has as many rows. -/
structure Holds (m : IdMap) (pairs : List (Id × Nat)) : Prop where
  get?_eq_some_iff : ∀ id row, m.get? id = some row ↔ (id, row) ∈ pairs
  rows_perm : m.rows.Perm (pairs.map (·.2))

/-- An empty map, in either form, with room for the IDs of a list. -/
inductive EmptyFor (pairs : List (Id × Nat)) : IdMap → Prop
  | dense {span : Nat} (room : ∀ pair ∈ pairs, pair.1.toNat < span) :
    EmptyFor pairs (.dense (.replicate span none))
  | sparse : EmptyFor pairs (.sparse ∅)

theorem EmptyFor.holds_nil {empty : IdMap} (h : EmptyFor pairs empty) : empty.Holds [] := by
  cases h with
  | @dense span _ =>
    refine ⟨fun id row ↦ ?_, ?_⟩
    · show (Array.replicate span (none : Option Nat))[id.toNat]?.join = some row ↔ _
      rw [Array.getElem?_replicate]
      split <;> simp
    · show (Array.replicate span (none : Option Nat)).toList.reduceOption.Perm []
      rw [Array.toList_replicate, List.reduceOption_replicate_none]
  | sparse =>
    refine ⟨fun id row ↦ ?_, ?_⟩
    · show (∅ : Std.HashMap Id Nat)[id]? = some row ↔ _
      simp
    · show ((∅ : Std.HashMap Id Nat).toList.map (·.2)).Perm []
      simp

theorem EmptyFor.hasRoom {empty : IdMap} (h : EmptyFor pairs empty) {pair : Id × Nat}
    (hpair : pair ∈ pairs) : empty.HasRoom pair.1 := by
  cases h with
  | @dense span room =>
    show pair.1.toNat < (Array.replicate span (none : Option Nat)).size
    rw [Array.size_replicate]
    exact room pair hpair
  | sparse => trivial

theorem Holds.get?_eq_none (h : m.Holds pairs) (hid : id ∉ pairs.map (·.1)) :
    m.get? id = none := by
  refine Option.eq_none_iff_forall_ne_some.2 fun row hrow ↦ hid ?_
  exact List.mem_map_of_mem ((h.get?_eq_some_iff id row).1 hrow)

/-- A pair whose ID is new is put in. -/
theorem Holds.put (h : m.Holds pairs) {pair : Id × Nat} (hroom : m.HasRoom pair.1)
    (hnew : pair.1 ∉ pairs.map (·.1)) : (m.put pair.1 pair.2).Holds (pairs ++ [pair]) := by
  refine ⟨fun id row ↦ ?_, ?_⟩
  · rw [get?_put hroom, List.mem_append, List.mem_singleton]
    split
    · next hid =>
      subst hid
      rw [Option.some.injEq]
      refine ⟨fun hrow ↦ .inr (hrow ▸ rfl), fun hmem ↦ ?_⟩
      rcases hmem with hmem | hmem
      · exact absurd (List.mem_map_of_mem hmem) hnew
      · exact (congrArg Prod.snd hmem).symm
    · next hid =>
      rw [h.get?_eq_some_iff]
      exact ⟨.inl, fun hmem ↦ hmem.resolve_right fun heq ↦ hid (congrArg Prod.fst heq).symm⟩
  · rw [List.map_append, List.map_singleton]
    refine (rows_put_perm hroom (h.get?_eq_none hnew)).trans ?_
    exact (h.rows_perm.cons pair.2).trans (List.perm_append_singleton pair.2 _).symm

theorem hasRoom_putAll_iff : (m.putAll pairs).HasRoom id ↔ m.HasRoom id := by
  induction pairs generalizing m with
  | nil => exact Iff.rfl
  | cons pair pairs ih => exact ih.trans hasRoom_put_iff

theorem putAll_concat (m : IdMap) (pairs : List (Id × Nat)) (pair : Id × Nat) :
    m.putAll (pairs ++ [pair]) = (m.putAll pairs).put pair.1 pair.2 :=
  List.foldl_concat ..

/-- **A list without repeated IDs is put in** as a whole. -/
theorem EmptyFor.holds_putAll {empty : IdMap} {all : List (Id × Nat)} (h : EmptyFor all empty)
    (hsub : pairs ⊆ all) (hnodup : (pairs.map (·.1)).Nodup) :
    (empty.putAll pairs).Holds pairs ∧ pairs.foldlM IdMap.add empty = .ok (empty.putAll pairs) := by
  induction pairs using List.reverseRecOn with
  | nil => exact ⟨h.holds_nil, rfl⟩
  | append_singleton pairs pair ih =>
    rw [List.map_append, List.map_singleton, List.nodup_append] at hnodup
    obtain ⟨hpairs, -, hapart⟩ := hnodup
    have hnew : pair.1 ∉ pairs.map (·.1) := fun hmem ↦
      hapart _ hmem _ (List.mem_singleton_self _) rfl
    obtain ⟨hholds, hok⟩ := ih (fun _ hp ↦ hsub (List.mem_append_left _ hp)) hpairs
    have hroom : (empty.putAll pairs).HasRoom pair.1 :=
      hasRoom_putAll_iff.2 (h.hasRoom (hsub (List.mem_append_right _ (List.mem_singleton_self _))))
    rw [putAll_concat]
    refine ⟨hholds.put hroom hnew, ?_⟩
    rw [List.foldlM_append, hok]
    show List.foldlM IdMap.add (empty.putAll pairs) [pair] = _
    rw [List.foldlM_cons, IdMap.add, hholds.get?_eq_none hnew]
    rfl

/-- A repeated ID stops the filling where it is repeated. -/
theorem EmptyFor.foldlM_add_eq_error {empty : IdMap} (h : EmptyFor pairs empty) {pair : Id × Nat}
    (hrepeat : IsFirstRepeat (·.1) pairs pair) :
    pairs.foldlM IdMap.add empty = .error (.duplicateId pair.1) := by
  obtain ⟨before, after, rfl, hnodup, hmem⟩ := hrepeat
  obtain ⟨hholds, hok⟩ := h.holds_putAll (List.subset_append_left _ _) hnodup
  obtain ⟨earlier, hearlier, hid⟩ := List.mem_map.1 hmem
  have hid : earlier.1 = pair.1 := hid
  have hfound : (empty.putAll before).get? pair.1 = some earlier.2 :=
    hid ▸ (hholds.get?_eq_some_iff earlier.1 earlier.2).2 hearlier
  rw [List.foldlM_append, hok]
  show List.foldlM IdMap.add (empty.putAll before) (pair :: after) = _
  rw [List.foldlM_cons, IdMap.add, hfound]
  rfl

/-! ### What a list is answered with -/

/-- The map lists the pairs, and nothing else. -/
structure Lists (m : IdMap) (pairs : List (Id × Nat)) : Prop where
  get?_eq_some_iff : ∀ id row, m.get? id = some row ↔ (id, row) ∈ pairs
  get?_eq_none : ∀ id, id ∉ pairs.map (·.1) → m.get? id = none
  injective : ∀ id id' row, m.get? id = some row → m.get? id' = some row → id = id'
  size : m.size = pairs.length
  maxRow? : m.maxRow? = (pairs.map (·.2)).max?

theorem max?_of_perm {xs ys : List Nat} (h : xs.Perm ys) : xs.max? = ys.max? := by
  refine Option.ext fun n ↦ ?_
  rw [List.max?_eq_some_iff, List.max?_eq_some_iff, h.mem_iff]
  exact and_congr_right fun _ ↦ forall_congr' fun k ↦ by rw [h.mem_iff]

theorem Holds.lists (h : m.Holds pairs) (hrows : (pairs.map (·.2)).Nodup) : m.Lists pairs where
  get?_eq_some_iff := h.get?_eq_some_iff
  get?_eq_none _ := h.get?_eq_none
  injective id id' row hid hid' := by
    have hpair := (h.get?_eq_some_iff id row).1 hid
    have hpair' := (h.get?_eq_some_iff id' row).1 hid'
    exact congrArg Prod.fst (List.inj_on_of_nodup_map hrows hpair hpair' rfl)
  size := by rw [size_eq, h.rows_perm.length_eq, List.length_map]
  maxRow? := max?_of_perm h.rows_perm

/-- What a list of pairs is answered with. -/
structure Settles (answer : Except Error IdMap) (pairs : List (Id × Nat)) : Prop where
  /-- The first pair that repeats a row decides. -/
  shared : ¬(pairs.map (·.2)).Nodup → ∃ pair, IsFirstRepeat (·.2) pairs pair ∧
    answer = .error (.input (.sharedRow pair.2 pair.1))
  /-- Else the first that repeats an ID. -/
  duplicate : (pairs.map (·.2)).Nodup → ¬(pairs.map (·.1)).Nodup →
    ∃ pair, IsFirstRepeat (·.1) pairs pair ∧ answer = .error (.duplicateId pair.1)
  /-- Else there is a map of the pairs. -/
  listed : (pairs.map (·.2)).Nodup → (pairs.map (·.1)).Nodup → ∃ m, answer = .ok m ∧ m.Lists pairs

theorem fill_eq_foldlM {empty : IdMap} (h : (pairs.map (·.2)).Nodup) :
    fill empty pairs = pairs.foldlM IdMap.add empty := by
  rw [fill, firstRepeat?_eq_none_iff.2 ⟨h, fun _ _ ↦ Std.HashSet.not_mem_empty⟩]

/-- **From any empty map with room for it a list is answered in the same way.** -/
theorem settles_fill {empty : IdMap} (h : EmptyFor pairs empty) :
    Settles (fill empty pairs) pairs where
  shared hshared := by
    obtain ⟨pair, hpair⟩ : ∃ pair, firstRepeat? (·.2) ∅ pairs = some pair := by
      by_contra hnone
      have hfind := Option.eq_none_iff_forall_ne_some.2 fun pair hpair ↦ hnone ⟨pair, hpair⟩
      exact hshared (firstRepeat?_eq_none_iff.1 hfind).1
    exact ⟨pair, isFirstRepeat_of_firstRepeat? hpair, by rw [fill, hpair]⟩
  duplicate hrows hids := by
    obtain ⟨pair, hpair⟩ := exists_isFirstRepeat hids
    exact ⟨pair, hpair, by rw [fill_eq_foldlM hrows, h.foldlM_add_eq_error hpair]⟩
  listed hrows hids := by
    obtain ⟨hholds, hok⟩ := h.holds_putAll (List.Subset.refl pairs) hids
    exact ⟨_, (fill_eq_foldlM hrows).trans hok, hholds.lists hrows⟩

/-! ### The form that is chosen -/

theorem emptyFor_cases (pairs : List (Id × Nat)) : emptyFor pairs = .sparse ∅ ∨
    ∃ span, span? pairs = some span ∧ emptyFor pairs = .dense (.replicate span none) := by
  rw [emptyFor]
  split
  · next span hspan =>
    split
    · exact .inr ⟨span, hspan, rfl⟩
    · exact .inl rfl
  · exact .inl rfl

/-- The chosen form has room for the list. -/
theorem emptyFor_emptyFor (pairs : List (Id × Nat)) : EmptyFor pairs (emptyFor pairs) := by
  obtain hsparse | ⟨span, hspan, hdense⟩ := emptyFor_cases pairs
  · rw [hsparse]
    exact .sparse
  · rw [hdense]
    refine .dense fun pair hpair ↦ ?_
    rw [span?] at hspan
    split at hspan
    · next hnone =>
      rw [List.max?_eq_none_iff, List.map_eq_nil_iff] at hnone
      exact absurd (hnone ▸ hpair) List.not_mem_nil
    · next greatest hmax =>
      split at hspan
      · obtain rfl := Option.some.inj hspan
        have hle := (List.max?_eq_some_iff.1 hmax).2 pair.1 (List.mem_map_of_mem hpair)
        exact Nat.lt_succ_of_le (UInt64.le_iff_toNat_le.1 hle)
      · exact nomatch hspan

/-! ### Rows by position -/

theorem get?_identity (n : Nat) (id : Id) :
    (identity n).get? id = if id.toNat < n then some id.toNat else none := by
  show ((Array.range n).map some)[id.toNat]?.join = _
  rw [Array.getElem?_map]
  split
  · next hlt =>
    rw [Array.getElem?_eq_getElem (by rwa [Array.size_range]), Array.getElem_range]
    rfl
  · next hge =>
    rw [Array.getElem?_eq_none (by rw [Array.size_range]; omega)]
    rfl

theorem putAll_dense (slots : Array (Option Nat)) (pairs : List (Id × Nat)) :
    ∃ slots', putAll (.dense slots) pairs = .dense slots' ∧ slots'.size = slots.size := by
  induction pairs generalizing slots with
  | nil => exact ⟨slots, rfl, rfl⟩
  | cons pair pairs ih =>
    obtain ⟨slots', hput, hsize⟩ := ih (slots.setIfInBounds pair.1.toNat (some pair.2))
    exact ⟨slots', hput, hsize.trans Array.size_setIfInBounds⟩

/-- The first numbers with their positions. -/
def counted (n : Nat) : List (Id × Nat) := (List.range n).map fun i ↦ (i.toUInt64, i)

theorem counted_eq (n : Nat) : ((List.range n).map (·.toUInt64)).zipIdx = counted n := by
  rw [List.zipIdx_eq_zip_range', List.length_map, List.length_range, ← List.range_eq_range']
  calc
    ((List.range n).map (·.toUInt64)).zip (List.range n)
      = ((List.range n).map (·.toUInt64)).zip ((List.range n).map id) := by rw [List.map_id]
    _ = counted n := List.zip_map'

theorem map_snd_counted (n : Nat) : (counted n).map (·.2) = List.range n := by
  rw [counted, List.map_map]
  exact List.map_id _

theorem map_fst_counted (n : Nat) : (counted n).map (·.1) = (List.range n).map (·.toUInt64) := by
  rw [counted, List.map_map]
  rfl

theorem span?_counted {n : Nat} (hn : n < UInt64.size) : span? (counted n) = some n := by
  rw [span?, map_fst_counted]
  cases n with
  | zero => rfl
  | succ n =>
    have hlast : n.toUInt64.toNat = n := toNat_toUInt64 (Nat.lt_of_succ_lt hn)
    have hmax : ((List.range (n + 1)).map (·.toUInt64)).max? = some n.toUInt64 := by
      refine List.max?_eq_some_iff.2 ⟨List.mem_map_of_mem List.self_mem_range_succ, ?_⟩
      intro id hid
      obtain ⟨i, hi, rfl⟩ := List.mem_map.1 hid
      have hi := List.mem_range.1 hi
      rw [UInt64.le_iff_toNat_le, hlast, toNat_toUInt64 (Nat.lt_trans hi hn)]
      exact Nat.le_of_lt_succ hi
    rw [hmax]
    show (if n.toUInt64.toNat + 1 < UInt64.size then some (n.toUInt64.toNat + 1) else none) = _
    rw [hlast, if_pos hn]

theorem emptyFor_counted {n : Nat} (hn : n < UInt64.size) :
    emptyFor (counted n) = .dense (.replicate n none) := by
  have hlength : (counted n).length = n := by rw [counted, List.length_map, List.length_range]
  have hle : n ≤ greatestSpan (counted n).length := by
    rw [hlength, greatestSpan]
    omega
  rw [emptyFor, span?_counted hn]
  exact if_pos hle

/-- Numbering by position is the identity, where the numbers are words. -/
theorem ofIds_range {n : Nat} (hn : n < UInt64.size) :
    ofIds ((List.range n).map (·.toUInt64)) = .ok (identity n) := by
  have hempty := emptyFor_emptyFor (counted n)
  rw [emptyFor_counted hn] at hempty
  have hrows : ((counted n).map (·.2)).Nodup := map_snd_counted n ▸ List.nodup_range
  have hids : ((counted n).map (·.1)).Nodup := by
    rw [map_fst_counted]
    refine List.Nodup.map_on (fun i hi j hj h ↦ ?_) List.nodup_range
    exact toUInt64_inj (Nat.lt_trans (List.mem_range.1 hi) hn)
      (Nat.lt_trans (List.mem_range.1 hj) hn) h
  obtain ⟨hholds, hok⟩ := hempty.holds_putAll (List.Subset.refl _) hids
  obtain ⟨slots, hput, hsize⟩ := putAll_dense (.replicate n none) (counted n)
  have hslots : slots = (Array.range n).map some := by
    refine Array.ext (by rw [hsize]; simp) fun i hi _ ↦ ?_
    rw [hsize, Array.size_replicate] at hi
    have hrow : (IdMap.dense slots).get? i.toUInt64 = some i :=
      hput ▸ (hholds.get?_eq_some_iff _ _).2 (List.mem_map.2 ⟨i, List.mem_range.2 hi, rfl⟩)
    have hslot : slots[i.toUInt64.toNat]? = some (some i) := Option.join_eq_some_iff.1 hrow
    rw [toNat_toUInt64 (Nat.lt_trans hi hn)] at hslot
    rw [Array.getElem_map, Array.getElem_range]
    exact (Array.getElem?_eq_some_iff.1 hslot).2
  rw [ofIds, counted_eq, ofPairs, emptyFor_counted hn, fill_eq_foldlM hrows, hok, hput, hslots]
  rfl

/-- **An ID map is one-to-one and finds what is listed, in either form.** A list is answered in the
same way from every empty map with room for it, the one that is chosen among them. Numbering IDs by
position is a special case, and so is the identity. -/
theorem ofPairs_settles (pairs : List (Id × Nat)) (ids : List Id) (n : UInt64) :
    Settles (ofPairs pairs) pairs ∧
    EmptyFor pairs (emptyFor pairs) ∧
    (∀ empty, EmptyFor pairs empty → Settles (fill empty pairs) pairs) ∧
    ofIds ids = ofPairs ids.zipIdx ∧
    ofIds ((List.range n.toNat).map (·.toUInt64)) = .ok (identity n.toNat) :=
  ⟨settles_fill (emptyFor_emptyFor pairs), emptyFor_emptyFor pairs, fun _ ↦ settles_fill, rfl,
    ofIds_range n.toNat_lt⟩

end IdMap

end HopSampler
