import HopSampler.Tag

/-!
# Maps listed by tag

A finite map from tags to values, kept as the list of its entries in tag order without repetition.
Listing the map *is* reading the list, so everything the library writes by type comes out in order
without sorting anywhere else.

A map holds as many entries as a graph has types, which is few; look-ups walk the list.
-/

namespace HopSampler

/-- Entries in strictly ascending tag order. -/
structure SortedMap (κ ν : Type) [Tag κ] where
  entries : List (κ × ν)
  ascending : entries.Pairwise fun a b ↦ Tag.Before a.1 b.1

namespace SortedMap

variable {κ ν ω : Type} [Tag κ]

/-! ### Listing -/

@[ext] theorem ext {m n : SortedMap κ ν} (h : m.entries = n.entries) : m = n := by
  cases m; cases n; cases h; rfl

/-- The map without entries. -/
def empty : SortedMap κ ν := ⟨[], .nil⟩

instance : Inhabited (SortedMap κ ν) := ⟨empty⟩

/-- The keys, in order. -/
def keys (m : SortedMap κ ν) : List κ := m.entries.map (·.1)

/-- The values, in key order. -/
def values (m : SortedMap κ ν) : List ν := m.entries.map (·.2)

/-- The number of entries. -/
def size (m : SortedMap κ ν) : Nat := m.entries.length

/-- Apply a function to every value, with its key. -/
def mapEntries (f : κ → ν → ω) (m : SortedMap κ ν) : SortedMap κ ω :=
  ⟨m.entries.map fun (k, v) ↦ (k, f k v), List.pairwise_map.2 m.ascending⟩

/-- Keep the entries that pass a test. -/
def filter (p : κ → ν → Bool) (m : SortedMap κ ν) : SortedMap κ ν :=
  ⟨m.entries.filter fun (k, v) ↦ p k v, m.ascending.sublist List.filter_sublist⟩

variable [DecidableEq κ]

/-! ### Looking up -/

/-- The value of the first entry under `key`. -/
def lookup (key : κ) (entries : List (κ × ν)) : Option ν :=
  (entries.find? (·.1 = key)).map (·.2)

/-- The value under `key`. -/
def get? (m : SortedMap κ ν) (key : κ) : Option ν := lookup key m.entries

/-- The value under `key`, or `fallback` where there is none. -/
def getD (m : SortedMap κ ν) (key : κ) (fallback : ν) : ν := (m.get? key).getD fallback

/-- Whether there is an entry under `key`. -/
def contains (m : SortedMap κ ν) (key : κ) : Bool := (m.get? key).isSome

/-! ### Writing -/

/-- Put an entry at its place in an ascending list, replacing one under the same key. -/
def insertEntry (key : κ) (value : ν) : List (κ × ν) → List (κ × ν)
  | [] => [(key, value)]
  | (k, v) :: rest =>
    if key = k then (key, value) :: rest
    else if Tag.Before key k then (key, value) :: (k, v) :: rest
    else (k, v) :: insertEntry key value rest

theorem mem_insertEntry {key : κ} {value : ν} {entries : List (κ × ν)} {e : κ × ν}
    (h : e ∈ insertEntry key value entries) : e = (key, value) ∨ e ∈ entries := by
  induction entries with
  | nil => simpa [insertEntry] using h
  | cons a rest ih =>
    rw [insertEntry] at h
    split at h <;> try split at h
    all_goals
      simp only [List.mem_cons] at h ⊢
      grind

theorem insertEntry_ascending {key : κ} {value : ν} {entries : List (κ × ν)}
    (h : entries.Pairwise fun a b ↦ Tag.Before a.1 b.1) :
    (insertEntry key value entries).Pairwise fun a b ↦ Tag.Before a.1 b.1 := by
  induction entries with
  | nil => simp [insertEntry]
  | cons a rest ih =>
    obtain ⟨hhead, htail⟩ := List.pairwise_cons.1 h
    rw [insertEntry]
    split
    · next heq => exact List.pairwise_cons.2 ⟨fun b hb ↦ by simpa [heq] using hhead b hb, htail⟩
    · next hne =>
      split
      · next hlt =>
        refine List.pairwise_cons.2 ⟨fun b hb ↦ ?_, h⟩
        rcases List.mem_cons.1 hb with rfl | hb
        · exact hlt
        · exact Tag.Before.trans hlt (hhead b hb)
      · next hlt =>
        refine List.pairwise_cons.2 ⟨fun b hb ↦ ?_, ih htail⟩
        rcases mem_insertEntry hb with rfl | hb
        · exact Tag.before_of_not_before hlt hne
        · exact hhead b hb

/-- Set the value under `key`. -/
def insert (m : SortedMap κ ν) (key : κ) (value : ν) : SortedMap κ ν :=
  ⟨insertEntry key value m.entries, insertEntry_ascending m.ascending⟩

/-- Replace the value under `key` by a function of it, from `fallback` where there is none. -/
def alter (m : SortedMap κ ν) (key : κ) (fallback : ν) (f : ν → ν) : SortedMap κ ν :=
  m.insert key (f (m.getD key fallback))

/-- The map of a list of entries, a later one replacing an earlier one under the same key. -/
def ofList (entries : List (κ × ν)) : SortedMap κ ν :=
  entries.foldl (fun m (k, v) ↦ m.insert k v) empty

end SortedMap

end HopSampler
