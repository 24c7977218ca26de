import HopSampler.Proofs.Maps
import Mathlib.Data.List.Infix

/-!
# Entries listed by name

A map is listed by name when each of its keys is replaced by a text (`SortedMap.named`). Keys with
the same name then share one entry: of those the last in order is listed and the others are
*shadowed* (`SortedMap.Shadowed`).

**The list by name has the entries of the map exactly if no key is shadowed**
(`SortedMap.entries_named_perm_iff`). For names that are joined from parts this comes down to
reading the parts back: a part ends at the first separator as long as the separator does not begin
inside it (`eq_of_append_separator`).
-/

namespace HopSampler

/-! ### Parts and separators -/

/-- The separator does not occur before the end of a part that it is put behind. -/
def ClearOf (separator part : List Char) : Prop :=
  ¬separator <:+: part ++ separator.dropLast

/-- What stands before the first separator is determined. -/
theorem eq_of_append_separator {separator xs ys rest rest' : List Char}
    (hxs : ClearOf separator xs) (hys : ClearOf separator ys)
    (h : xs ++ (separator ++ rest) = ys ++ (separator ++ rest')) : xs = ys ∧ rest = rest' := by
  have hlength {xs ys rest rest' : List Char} (hys : ClearOf separator ys)
      (h : xs ++ (separator ++ rest) = ys ++ (separator ++ rest')) : ys.length ≤ xs.length := by
    by_contra hlt
    -- The separator behind the shorter part would begin inside the longer one.
    have hends : separator.dropLast.length = separator.length - 1 := List.length_dropLast
    have hnil : separator ≠ [] := by
      rintro rfl
      exact hys List.nil_infix
    have hpositive : 0 < separator.length := List.length_pos_iff.2 hnil
    have hlong : ys ++ separator.dropLast <+: xs ++ (separator ++ rest) := by
      rw [h, List.prefix_append_right_inj]
      exact (List.dropLast_prefix separator).trans (List.prefix_append separator rest')
    have hshort : xs ++ separator <+: xs ++ (separator ++ rest) := by
      rw [List.prefix_append_right_inj]
      exact List.prefix_append separator rest
    have hinside : xs ++ separator <+: ys ++ separator.dropLast :=
      List.prefix_of_prefix_length_le hshort hlong (by
        rw [List.length_append, List.length_append]
        omega)
    exact hys ((List.suffix_append xs separator).isInfix.trans hinside.isInfix)
  have hsame : xs.length = ys.length := Nat.le_antisymm (hlength hxs h.symm) (hlength hys h)
  obtain ⟨hparts, hrests⟩ := List.append_inj h hsame
  exact ⟨hparts, List.append_cancel_left hrests⟩

namespace SortedMap

variable {κ ν ω : Type} [Tag κ] {m : SortedMap κ ν} {key : κ} {name : κ → String}

/-! ### Shadowed keys -/

/-- A later key has the same name. -/
def Shadowed (m : SortedMap κ ν) (name : κ → String) (key : κ) : Prop :=
  ∃ later ∈ m.keys, Tag.Before key later ∧ name later = name key

instance (m : SortedMap κ ν) (name : κ → String) (key : κ) : Decidable (m.Shadowed name key) :=
  inferInstanceAs (Decidable (∃ later ∈ m.keys, Tag.Before key later ∧ name later = name key))

/-- No key is shadowed: different keys have different names. -/
def NamesApart (m : SortedMap κ ν) (name : κ → String) : Prop :=
  ∀ key ∈ m.keys, ¬m.Shadowed name key

instance (m : SortedMap κ ν) (name : κ → String) : Decidable (m.NamesApart name) :=
  inferInstanceAs (Decidable (∀ key ∈ m.keys, ¬m.Shadowed name key))

/-- The keys that are not shadowed, in order. -/
def shown (m : SortedMap κ ν) (name : κ → String) : List κ :=
  m.keys.filter fun key ↦ ¬m.Shadowed name key

theorem mem_shown_iff : key ∈ m.shown name ↔ key ∈ m.keys ∧ ¬m.Shadowed name key := by
  simp [shown]

/-- Of the keys of one name the last is followed by none. -/
private theorem exists_last {keys : List κ} (h : keys.Pairwise Tag.Before) (hkey : key ∈ keys) :
    ∃ last ∈ keys, name last = name key ∧
      ∀ later ∈ keys, Tag.Before last later → name later ≠ name last := by
  induction keys generalizing key with
  | nil => cases hkey
  | cons first keys ih =>
    obtain ⟨hfirst, hkeys⟩ := List.pairwise_cons.1 h
    by_cases hlater : ∃ later ∈ keys, name later = name key
    · obtain ⟨later, hmem, hname⟩ := hlater
      obtain ⟨last, hlast, hsame, hnone⟩ := ih hkeys hmem
      refine ⟨last, List.mem_cons_of_mem first hlast, hsame.trans hname,
        List.forall_mem_cons.2 ⟨fun hbefore ↦ ?_, hnone⟩⟩
      exact absurd (hbefore.trans (hfirst last hlast)) (Tag.Before.irrefl last)
    · obtain rfl : key = first := by
        rcases List.mem_cons.1 hkey with rfl | hmem
        · rfl
        · exact absurd ⟨key, hmem, rfl⟩ hlater
      refine ⟨key, hkey, rfl,
        List.forall_mem_cons.2 ⟨fun hbefore ↦ ?_, fun later hmem _ hname ↦ ?_⟩⟩
      · exact absurd hbefore (Tag.Before.irrefl key)
      · exact hlater ⟨later, hmem, hname⟩

/-- Every name is that of a key that is shown. -/
theorem exists_mem_shown (h : key ∈ m.keys) : ∃ last ∈ m.shown name, name last = name key := by
  obtain ⟨last, hlast, hname, hnone⟩ := exists_last m.keys_ascending h
  exact ⟨last, mem_shown_iff.2 ⟨hlast, fun ⟨later, hlater, hbefore, hsame⟩ ↦
    hnone later hlater hbefore hsame⟩, hname⟩

/-- No name is shown twice. -/
theorem shown_names_nodup (m : SortedMap κ ν) (name : κ → String) :
    ((m.shown name).map name).Nodup := by
  refine List.Nodup.map_on (fun a ha b hb hname ↦ ?_) (m.keys_nodup.filter _)
  obtain ⟨ha, hshown⟩ := mem_shown_iff.1 ha
  obtain ⟨hb, hshown'⟩ := mem_shown_iff.1 hb
  by_contra hne
  by_cases hbefore : Tag.Before a b
  · exact hshown ⟨b, hb, hbefore, hname.symm⟩
  · exact hshown' ⟨a, ha, Tag.before_of_not_before hbefore hne, hname⟩

theorem namesApart_of_inj
    (h : ∀ key ∈ m.keys, ∀ key' ∈ m.keys, name key = name key' → key = key') :
    m.NamesApart name := by
  rintro key hkey ⟨later, hlater, hbefore, hname⟩
  exact hbefore.ne (h key hkey later hlater hname.symm)

theorem NamesApart.shown_eq (h : m.NamesApart name) : m.shown name = m.keys :=
  List.filter_eq_self.2 fun key hkey ↦ decide_eq_true (h key hkey)

variable [DecidableEq κ]

/-! ### The list by name -/

/-- A map with its keys replaced by their names. -/
def named (name : κ → String) (f : ν → ω) (m : SortedMap κ ν) : SortedMap String ω :=
  .ofList (m.entries.map fun (key, value) ↦ (name key, f value))

variable {f : ν → ω}

omit [DecidableEq κ] in
theorem mem_keys_named_iff {text : String} :
    text ∈ (m.named name f).keys ↔ ∃ key ∈ m.keys, name key = text := by
  rw [named, mem_keys_ofList_iff, keys, List.map_map]
  simp only [List.mem_map, Function.comp_apply, exists_exists_and_eq_and]

/-- The entry of a key that is not shadowed is its own. -/
theorem get?_named {value : ν} (hget : m.get? key = some value) (h : ¬m.Shadowed name key) :
    (m.named name f).get? (name key) = some (f value) := by
  obtain ⟨before, after, hsplit⟩ := List.append_of_mem (get?_eq_some_iff.1 hget)
  have hbehind : ∀ a ∈ after, Tag.Before key a.1 := by
    have hascending := m.ascending
    rw [hsplit, List.pairwise_append, List.pairwise_cons] at hascending
    exact hascending.2.1.1
  rw [named, hsplit, List.map_append, List.map_cons]
  refine get?_ofList_of_last fun entry hentry hname ↦ ?_
  obtain ⟨a, ha, rfl⟩ := List.mem_map.1 hentry
  have hmem : a ∈ m.entries := by
    rw [hsplit]
    exact List.mem_append_right _ (List.mem_cons_of_mem _ ha)
  exact h ⟨a.1, List.mem_map_of_mem hmem, hbehind a ha, hname⟩

omit [DecidableEq κ] in
/-- The names are those of the keys that are shown, each once. -/
theorem keys_named_perm (m : SortedMap κ ν) (name : κ → String) (f : ν → ω) :
    (m.named name f).keys.Perm ((m.shown name).map name) := by
  refine (List.perm_ext_iff_of_nodup (keys_nodup _) (m.shown_names_nodup name)).2 fun text ↦ ?_
  rw [mem_keys_named_iff, List.mem_map]
  constructor
  · rintro ⟨key, hkey, rfl⟩
    exact exists_mem_shown hkey
  · rintro ⟨key, hkey, rfl⟩
    exact ⟨key, (mem_shown_iff.1 hkey).1, rfl⟩

omit [DecidableEq κ] in
/-- There is an entry for each key exactly if none is shadowed. -/
theorem size_named_iff : (m.named name f).size = m.keys.length ↔ m.NamesApart name := by
  have hsize : (m.named name f).size = (m.shown name).length := by
    have hlength := (m.keys_named_perm name f).length_eq
    rwa [keys, List.length_map, List.length_map] at hlength
  rw [hsize, shown, List.length_filter_eq_length_iff]
  simp [NamesApart]

/-- **The list by name has the entries of the map exactly if no key is shadowed.** -/
theorem entries_named_perm_iff :
    (m.named name f).entries.Perm (m.entries.map fun (key, value) ↦ (name key, f value)) ↔
      m.NamesApart name := by
  constructor
  · intro h
    have hlength := h.length_eq
    rw [List.length_map] at hlength
    refine size_named_iff.1 (hlength.trans ?_)
    rw [keys, List.length_map]
  · intro h
    have hnodup : (m.entries.map fun (key, value) ↦ (name key, f value)).Nodup := by
      refine List.Nodup.of_map Prod.fst ?_
      have hnames := m.shown_names_nodup name
      rw [h.shown_eq, keys, List.map_map] at hnames
      rw [List.map_map]
      exact hnames
    have hnodup' : (m.named name f).entries.Nodup := (keys_nodup _).of_map
    refine (List.perm_ext_iff_of_nodup hnodup' hnodup).2 fun entry ↦ ?_
    obtain ⟨text, value⟩ := entry
    rw [← get?_eq_some_iff, List.mem_map]
    have hown {key : κ} {own : ν} (hmem : (key, own) ∈ m.entries) :
        (m.named name f).get? (name key) = some (f own) :=
      get?_named (get?_eq_some_iff.2 hmem) (h key (List.mem_map_of_mem hmem))
    constructor
    · intro hget
      obtain ⟨key, hkey, rfl⟩ := mem_keys_named_iff.1 (mem_keys_iff.2 ⟨value, hget⟩)
      obtain ⟨⟨key, own⟩, hmem, rfl⟩ := List.mem_map.1 hkey
      obtain rfl : f own = value := Option.some.inj ((hown hmem).symm.trans hget)
      exact ⟨(key, own), hmem, rfl⟩
    · rintro ⟨⟨key, own⟩, hmem, heq⟩
      obtain ⟨rfl, rfl⟩ := Prod.mk.inj heq
      exact hown hmem

end SortedMap

end HopSampler
