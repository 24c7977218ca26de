import HopSampler.Proofs.JsonTokens
import Mathlib.Data.List.DropRight

/-!
# JSON texts read back

The compact form of a value, read again, is the value, except for its numbers: a number is read as
whatever its own text is read as. `Json.mapNumbers` puts these readings in the place of the numbers.

**What is shown of every part of a value is that it is read in front of other text**
(`Reader.Reads`): what is taken off is what was written, up to blanks. Lists and objects follow, as
behind each of their parts stands a comma or a closing bracket (`Json.Legible.reads`). As many steps
as the text has characters are enough, each step having one to read.

What is a number's text is for the reader to say: where all of a text is read as a number, it is
read as that number in front of other text (`Reader.reads_of_ofText?`). So nothing has to be known
of how doubles are written.
-/

namespace HopSampler.Json

/-! ### Other numbers in the place of numbers -/

mutual

/-- Put other values in the place of the numbers. -/
def mapNumbers (f : Number → Json) : Json → Json
  | .number n => f n
  | .array items => .array (mapNumbersOfItems f items)
  | .object fields => .object (mapNumbersOfFields f fields)
  | .null => .null
  | .bool b => .bool b
  | .string s => .string s
  | .unusable => .unusable

/-- Put other values in the place of the numbers of list items. -/
def mapNumbersOfItems (f : Number → Json) : List Json → List Json
  | [] => []
  | item :: rest => item.mapNumbers f :: mapNumbersOfItems f rest

/-- Put other values in the place of the numbers of field values. -/
def mapNumbersOfFields (f : Number → Json) : List (String × Json) → List (String × Json)
  | [] => []
  | (name, value) :: rest => (name, value.mapNumbers f) :: mapNumbersOfFields f rest

end

variable {f : Number → Json}

@[simp]
theorem mapNumbers_array (items : List Json) :
    (Json.array items).mapNumbers f = .array (items.map (mapNumbers f)) := by
  rw [mapNumbers]
  congr 1
  induction items with
  | nil => rfl
  | cons item items ih => rw [mapNumbersOfItems, ih, List.map_cons]

@[simp]
theorem mapNumbers_object (fields : List (String × Json)) : (Json.object fields).mapNumbers f =
    .object (fields.map fun (name, value) ↦ (name, value.mapNumbers f)) := by
  rw [mapNumbers]
  congr 1
  induction fields with
  | nil => rfl
  | cons field fields ih => rw [mapNumbersOfFields, ih, List.map_cons]

theorem mapNumbers_ofList (encode : α → Json) (items : List α) :
    (ofList encode items).mapNumbers f = ofList (fun a ↦ (encode a).mapNumbers f) items := by
  rw [ofList, mapNumbers_array, List.map_map]
  rfl

mutual

/-- Nothing changes where numbers stand for themselves. -/
theorem mapNumbers_number : ∀ value : Json, value.mapNumbers .number = value
  | .number _ | .null | .bool _ | .string _ | .unusable => rfl
  | .array items => by rw [mapNumbers, mapNumbersOfItems_number items]
  | .object fields => by rw [mapNumbers, mapNumbersOfFields_number fields]

theorem mapNumbersOfItems_number : ∀ items, mapNumbersOfItems .number items = items
  | [] => rfl
  | item :: rest => by
    rw [mapNumbersOfItems, mapNumbers_number item, mapNumbersOfItems_number rest]

theorem mapNumbersOfFields_number : ∀ fields, mapNumbersOfFields .number fields = fields
  | [] => rfl
  | (name, value) :: rest => by
    rw [mapNumbersOfFields, mapNumbers_number value, mapNumbersOfFields_number rest]

end

/-! ### Whole numbers that stay -/

/-- Whole numbers stand for themselves, as far as words and signed words go. -/
structure KeepsWhole (f : Number → Json) : Prop where
  natural : ∀ n < UInt64.size, f (.natural n) = .number (.natural n)
  negative : ∀ n, 0 < n → n ≤ Int64.size / 2 → f (.negative n) = .number (.negative n)

variable {α : Type}

theorem keepsWhole_number : KeepsWhole .number := ⟨fun _ _ ↦ rfl, fun _ _ _ ↦ rfl⟩

/-- A signed word is written as a number of one kind or the other. -/
theorem exists_number_ofInt64 (i : Int64) :
    (∃ n < UInt64.size, ofInt64 i = .number (.natural n)) ∨
      ∃ n, 0 < n ∧ n ≤ Int64.size / 2 ∧ ofInt64 i = .number (.negative n) := by
  have hlow := i.le_toInt
  have hhigh := i.toInt_lt
  have hword : UInt64.size = 2 ^ 64 := rfl
  have hsize : Int64.size = 2 ^ 64 := rfl
  rw [ofInt64]
  split
  · exact .inr ⟨_, by omega, by omega, rfl⟩
  · exact .inl ⟨_, by omega, rfl⟩

theorem KeepsWhole.ofWord (hf : KeepsWhole f) (w : UInt64) :
    (Json.ofWord w).mapNumbers f = Json.ofWord w :=
  hf.natural _ w.toNat_lt

theorem KeepsWhole.ofInt64 (hf : KeepsWhole f) (i : Int64) :
    (Json.ofInt64 i).mapNumbers f = Json.ofInt64 i := by
  rcases exists_number_ofInt64 i with ⟨n, h, heq⟩ | ⟨n, hpos, h, heq⟩
  · rw [heq]
    exact hf.natural n h
  · rw [heq]
    exact hf.negative n hpos h

theorem KeepsWhole.ofList {encode : α → Json} (h : ∀ a, (encode a).mapNumbers f = encode a)
    (items : List α) : (Json.ofList encode items).mapNumbers f = Json.ofList encode items := by
  rw [mapNumbers_ofList]
  simp only [h]

theorem KeepsWhole.ofWords (hf : KeepsWhole f) (words : List UInt64) :
    (Json.ofList Json.ofWord words).mapNumbers f = Json.ofList Json.ofWord words :=
  KeepsWhole.ofList hf.ofWord words

/-! ### The compact form as characters -/

mutual

/-- The characters of the compact form. -/
def chars : Json → List Char
  | .null | .unusable => ['n', 'u', 'l', 'l']
  | .bool true => ['t', 'r', 'u', 'e']
  | .bool false => ['f', 'a', 'l', 's', 'e']
  | .number n => n.text.toList
  | .string s => (quoted s).toList
  | .array [] => ['[', ']']
  | .array (item :: rest) => '[' :: (item.chars ++ charsBehindItem rest)
  | .object [] => ['\x7b', '\x7d']
  | .object ((name, value) :: rest) =>
    '\x7b' :: ((quoted name).toList ++ ':' :: (value.chars ++ charsBehindField rest))

/-- The characters behind an item of a list. -/
def charsBehindItem : List Json → List Char
  | [] => [']']
  | item :: rest => ',' :: (item.chars ++ charsBehindItem rest)

/-- The characters behind a field of an object. -/
def charsBehindField : List (String × Json) → List Char
  | [] => ['\x7d']
  | (name, value) :: rest =>
    ',' :: ((quoted name).toList ++ ':' :: (value.chars ++ charsBehindField rest))

end

mutual

theorem toList_writeCompact : ∀ (value : Json) (done : String),
    (writeCompact done value).toList = done.toList ++ value.chars
  | .null, done | .unusable, done | .number _, done | .string _, done => String.toList_append ..
  | .bool true, done | .bool false, done => String.toList_append ..
  | .array [], done => String.toList_append ..
  | .array (item :: rest), done => by
    rw [writeCompact, toList_writeItems, toList_writeCompact, chars, String.toList_push]
    simp
  | .object [], done => by
    rw [writeCompact, chars, String.toList_push, String.toList_push]
    simp
  | .object ((name, value) :: rest), done => by
    rw [writeCompact, toList_writeFields, toList_writeCompact, chars]
    simp

theorem toList_writeItems : ∀ (items : List Json) (done : String),
    (writeItems done items).toList = done.toList ++ charsBehindItem items
  | [], done => by rw [writeItems, charsBehindItem, String.toList_push]
  | item :: rest, done => by
    rw [writeItems, toList_writeItems, toList_writeCompact, charsBehindItem, String.toList_push]
    simp

theorem toList_writeFields : ∀ (fields : List (String × Json)) (done : String),
    (writeFields done fields).toList = done.toList ++ charsBehindField fields
  | [], done => by rw [writeFields, charsBehindField, String.toList_push]
  | (name, value) :: rest, done => by
    rw [writeFields, toList_writeFields, toList_writeCompact, charsBehindField]
    simp

end

theorem toList_compact (value : Json) : value.compact.toList = value.chars := by
  rw [compact, toList_writeCompact, String.toList_empty, List.nil_append]

namespace Reader

variable {cs left rest : List Char}

/-! ### Numbers in front of other text -/

theorem items?_ne_number {fuel : Nat} {found : List Json} {n : Number} :
    items? fuel found cs ≠ some (.number n, left) := by
  induction fuel generalizing found cs with
  | zero => nofun
  | succ fuel ih =>
    rw [items?]
    split
    · nofun
    · split
      · exact ih
      · nofun
      · nofun

theorem fields?_ne_number {fuel : Nat} {found : Option (List (String × Json))} {n : Number} :
    fields? fuel found cs ≠ some (.number n, left) := by
  induction fuel generalizing found cs with
  | zero => nofun
  | succ fuel ih =>
    rw [fields?]
    split
    · nofun
    · split
      · nofun
      · dsimp only
        split
        · exact ih
        · intro h
          have hvalue := (Prod.mk.inj (Option.some.inj h)).1
          split at hvalue <;> cases hvalue
        · nofun

/-- Only a numeral is read as a number. -/
theorem numeral_of_value? {fuel : Nat} {n : Number}
    (h : value? (fuel + 1) cs = some (.number n, left)) :
    (∃ digits, skipBlanks cs = '-' :: digits ∧ numeral? true digits = some (.number n, left)) ∨
      numeral? false (skipBlanks cs) = some (.number n, left) := by
  rw [value?] at h
  split at h
  iterate 3
    obtain ⟨_, _, heq⟩ := Option.map_eq_some_iff.1 h
    cases heq
  · next hblanks => exact .inl ⟨_, hblanks, h⟩
  · obtain ⟨⟨text, _⟩, _, heq⟩ := Option.map_eq_some_iff.1 h
    cases text <;> cases heq
  · split at h
    · cases h
    · exact absurd h items?_ne_number
  · split at h
    · cases h
    · exact absurd h fields?_ne_number
  · exact .inr h

/-- **A number is read in front of any text that does not go on with it.** -/
theorem value?_append_of_number (h : Stops rest) {fuel : Nat} {n : Number}
    (hcs : value? (fuel + 1) cs = some (.number n, left)) (fuel' : Nat) :
    value? (fuel' + 1) (cs ++ rest) = some (.number n, left ++ rest) := by
  rcases numeral_of_value? hcs with ⟨digits, hblanks, hnumeral⟩ | hnumeral
  · rw [value?, skipBlanks_append_of_ne_nil (by simp [hblanks]), hblanks]
    exact numeral?_append h hnumeral
  · obtain ⟨c, r, hblanks, hc⟩ := isDigit_of_numeral? hnumeral
    have hblanks' : skipBlanks (cs ++ rest) = c :: (r ++ rest) := by
      rw [skipBlanks_append_of_ne_nil (by simp [hblanks]), hblanks, List.cons_append]
    rw [value?_of_isDigit hc hblanks', ← List.cons_append, ← hblanks]
    exact numeral?_append h hnumeral

/-! ### Texts that are read as a value -/

/-- In front of other text, and with a step for each character, a text is read as a value, and up to
blanks the other text is left. -/
def Reads (cs : List Char) (value : Json) : Prop :=
  ∀ fuel rest, cs.length ≤ fuel → Stops rest → ∃ left,
    value? fuel (cs ++ rest) = some (value, left) ∧ skipBlanks left = skipBlanks rest

theorem reads_of_value? {n : Number} (fuel : Nat)
    (h : value? (fuel + 1) cs = some (.number n, left)) (hleft : skipBlanks left = []) :
    Reads cs (.number n) := by
  intro fuel' rest hfuel hstops
  have hne : cs ≠ [] := by
    rintro rfl
    cases h
  have hpos := List.length_pos_iff.2 hne
  obtain ⟨steps, rfl⟩ := Nat.exists_eq_add_one_of_ne_zero (by omega : fuel' ≠ 0)
  exact ⟨left ++ rest, value?_append_of_number hstops h steps,
    skipBlanks_append_of_eq_nil hleft rest⟩

/-- **A text that is read as a number is read as it also in front of other text.** -/
theorem reads_of_ofText? {text : String} {n : Number} (h : ofText? text = some (.number n)) :
    Reads text.toList (.number n) := by
  unfold ofText? at h
  dsimp only at h
  split at h
  · next value left hvalue =>
    rw [Option.ite_none_right_eq_some] at h
    obtain ⟨hleft, hnumber⟩ := h
    rw [Option.some.inj hnumber] at hvalue
    exact reads_of_value? _ hvalue hleft
  · cases h

theorem isBlank_of_isDigit {c : Char} (h : c.isDigit) : isBlank c = false := by
  rw [← Bool.not_eq_true]
  intro hblank
  simp only [isBlank, Bool.or_eq_true, decide_eq_true_eq] at hblank
  rcases hblank with ((rfl | rfl) | rfl) | rfl <;> exact absurd h (by decide)

theorem reads_natural {n : Nat} (h : n < UInt64.size) :
    Reads (toString n).toList (.number (.natural n)) := by
  have hnumeral := numeral?_natural h
  obtain ⟨c, rest, hcs, hc⟩ := isDigit_of_numeral? hnumeral
  have hblanks : skipBlanks (toString n).toList = c :: rest := by
    rw [hcs, skipBlanks_cons (isBlank_of_isDigit hc)]
  have hvalue : value? (0 + 1) (toString n).toList = some (.number (.natural n), []) := by
    rw [value?_of_isDigit hc hblanks, ← hcs, hnumeral]
  exact reads_of_value? 0 hvalue rfl

theorem reads_negative {n : Nat} (hpos : 0 < n) (h : n ≤ Int64.size / 2) :
    Reads ("-" ++ toString n).toList (.number (.negative n)) := by
  have hvalue : value? (0 + 1) ('-' :: (toString n).toList) = some (.number (.negative n), []) := by
    rw [value?, skipBlanks_cons rfl]
    exact numeral?_negative hpos h
  rw [String.toList_append]
  exact reads_of_value? 0 hvalue rfl

/-! ### Strings and names -/

theorem value?_quoted (s : String) (fuel : Nat) (rest : List Char) :
    value? (fuel + 1) ((quoted s).toList ++ rest) = some (.string s, rest) := by
  have hquoted : (quoted s).toList ++ rest =
      '\x22' :: (s.toList.flatMap escape ++ '\x22' :: rest) := by simp [quoted]
  rw [hquoted, value?, skipBlanks_cons rfl]
  show (string? (s.toList.flatMap escape ++ '\x22' :: rest)).map _ = _
  rw [string?_escaped, String.ofList_toList]
  rfl

theorem skipBlanks_quoted (s : String) (rest : List Char) :
    skipBlanks ((quoted s).toList ++ rest) = (quoted s).toList ++ rest := by
  rw [quoted, String.toList_ofList, List.cons_append, skipBlanks_cons rfl]

theorem key?_quoted (name : String) (rest : List Char) :
    key? ((quoted name).toList ++ ':' :: rest) = some (some name, rest) := by
  have hquoted : (quoted name).toList ++ ':' :: rest =
      '\x22' :: (name.toList.flatMap escape ++ '\x22' :: ':' :: rest) := by simp [quoted]
  rw [hquoted, key?]
  rw [string?_escaped, String.ofList_toList]
  rfl

/-! ### Lists and objects -/

theorem skipBlanks_skipBlanks (cs : List Char) : skipBlanks (skipBlanks cs) = skipBlanks cs :=
  List.dropWhile_idempotent isBlank cs

theorem value?_skipBlanks (fuel : Nat) (cs : List Char) :
    value? fuel (skipBlanks cs) = value? fuel cs := by
  cases fuel with
  | zero => rfl
  | succ fuel => rw [value?, value?, skipBlanks_skipBlanks]

theorem items?_skipBlanks (fuel : Nat) (found : List Json) (cs : List Char) :
    items? fuel found (skipBlanks cs) = items? fuel found cs := by
  cases fuel with
  | zero => rfl
  | succ fuel => rw [items?, items?, value?_skipBlanks]

theorem fields?_skipBlanks (fuel : Nat) (found : Option (List (String × Json)))
    (cs : List Char) : fields? fuel found (skipBlanks cs) = fields? fuel found cs := by
  cases fuel with
  | zero => rfl
  | succ fuel => rw [fields?, fields?, skipBlanks_skipBlanks]

/-- A bracket opens a list of what follows, unless it is closed at once. -/
theorem value?_bracket (h : ∀ rest, skipBlanks cs ≠ ']' :: rest) (fuel : Nat) :
    value? (fuel + 1) ('[' :: cs) = items? fuel [] cs := by
  rw [value?, skipBlanks_cons rfl]
  -- By `h`, what follows the bracket is read as items.
  simp only [items?_skipBlanks]

/-- A brace opens an object of what follows, unless it is closed at once. -/
theorem value?_brace (h : ∀ rest, skipBlanks cs ≠ '\x7d' :: rest) (fuel : Nat) :
    value? (fuel + 1) ('\x7b' :: cs) = fields? fuel (some []) cs := by
  rw [value?, skipBlanks_cons rfl]
  simp only [fields?_skipBlanks]

/-- No item begins with the bracket that closes a list. -/
theorem skipBlanks_ne_bracket {fuel : Nat} {found : List Json} {result : Json × List Char}
    (h : items? fuel found cs = some result) (rest : List Char) : skipBlanks cs ≠ ']' :: rest := by
  intro hblanks
  rcases fuel with _ | _ | steps
  · cases h
  · cases h
  · have hvalue : value? (steps + 1) cs = none := by
      rw [value?, hblanks]
      rfl
    rw [items?, hvalue] at h
    cases h

/-- A part is read in front of a mark, which takes a step less than there are. -/
theorem Reads.part {value : Json} {mark : Char} {behind : List Char} {fuel : Nat}
    (h : Reads cs value) (hfuel : (cs ++ mark :: behind).length ≤ fuel) (rest : List Char)
    (hmark : Stops [mark]) (hblank : isBlank mark = false) : ∃ steps left, fuel = steps + 1 ∧
      behind.length ≤ steps ∧ value? steps (cs ++ mark :: (behind ++ rest)) = some (value, left) ∧
        skipBlanks left = mark :: (behind ++ rest) := by
  rw [List.length_append, List.length_cons] at hfuel
  obtain ⟨steps, rfl⟩ := Nat.exists_eq_add_one_of_ne_zero (by omega : fuel ≠ 0)
  obtain ⟨left, hvalue, hleft⟩ := h steps (mark :: (behind ++ rest)) (by omega) hmark
  rw [skipBlanks_cons hblank] at hleft
  exact ⟨steps, left, rfl, by omega, hvalue, hleft⟩

theorem stops_comma : Stops [','] := ⟨by decide, by decide, by decide, by decide⟩

theorem stops_bracket : Stops [']'] := ⟨by decide, by decide, by decide, by decide⟩

theorem stops_brace : Stops ['\x7d'] := ⟨by decide, by decide, by decide, by decide⟩

/-- The items of a list are read one after the other. -/
theorem items?_chars {item : Json} {items : List Json} {fuel : Nat}
    (h : ∀ i ∈ item :: items, Reads i.chars (i.mapNumbers f))
    (hfuel : (item.chars ++ charsBehindItem items).length ≤ fuel) (found : List Json)
    (rest : List Char) : items? fuel found (item.chars ++ (charsBehindItem items ++ rest)) =
      some (.array (found.reverse ++ (item :: items).map (mapNumbers f)), rest) := by
  obtain ⟨hitem, hitems⟩ := List.forall_mem_cons.1 h
  induction items generalizing item fuel found with
  | nil =>
    obtain ⟨steps, left, rfl, -, hvalue, hleft⟩ := hitem.part hfuel rest stops_bracket rfl
    rw [items?, charsBehindItem, List.cons_append, hvalue]
    dsimp only
    rw [hleft]
    simp
  | cons next items ih =>
    obtain ⟨hnext, hrest⟩ := List.forall_mem_cons.1 hitems
    obtain ⟨steps, left, rfl, hsteps, hvalue, hleft⟩ := hitem.part hfuel rest stops_comma rfl
    rw [items?, charsBehindItem, List.cons_append, hvalue]
    dsimp only
    rw [hleft]
    show items? steps (item.mapNumbers f :: found) _ = _
    rw [List.append_assoc, ih hitems hsteps _ hnext hrest]
    simp

/-- The fields of an object are read one after the other. -/
theorem fields?_chars {name : String} {value : Json} {fields : List (String × Json)} {fuel : Nat}
    (h : ∀ field ∈ (name, value) :: fields, Reads field.2.chars (field.2.mapNumbers f))
    (hfuel : (value.chars ++ charsBehindField fields).length ≤ fuel)
    (found : List (String × Json)) (rest : List Char) :
    fields? fuel (some found)
        ((quoted name).toList ++ ':' :: (value.chars ++ (charsBehindField fields ++ rest))) =
      some (.object (found.reverse ++
        ((name, value) :: fields).map fun (name, value) ↦ (name, value.mapNumbers f)), rest) := by
  have hkey (name : String) (rest : List Char) :
      key? (skipBlanks ((quoted name).toList ++ ':' :: rest)) = some (some name, rest) := by
    rw [skipBlanks_quoted, key?_quoted]
  obtain ⟨hfield, hfields⟩ := List.forall_mem_cons.1 h
  induction fields generalizing name value fuel found with
  | nil =>
    obtain ⟨steps, left, rfl, -, hvalue, hleft⟩ := hfield.part hfuel rest stops_brace rfl
    rw [fields?, hkey]
    dsimp only
    rw [charsBehindField, List.cons_append, hvalue]
    dsimp only
    rw [hleft]
    simp
  | cons next fields ih =>
    obtain ⟨name', value'⟩ := next
    obtain ⟨hnext, hrest⟩ := List.forall_mem_cons.1 hfields
    obtain ⟨steps, left, rfl, hsteps, hvalue, hleft⟩ := hfield.part hfuel rest stops_comma rfl
    rw [fields?, hkey]
    dsimp only
    rw [charsBehindField, List.cons_append, hvalue]
    dsimp only
    rw [hleft]
    show fields? steps (some ((name, value.mapNumbers f) :: found)) _ = _
    have hlength : (value'.chars ++ charsBehindField fields).length ≤ steps := by
      simp only [List.length_append, List.length_cons] at hsteps ⊢
      omega
    rw [List.append_assoc, List.cons_append, List.append_assoc, ih hfields hlength _ hnext hrest]
    simp

/-- A list is read where its items are. -/
theorem reads_array {items : List Json} (h : ∀ item ∈ items, Reads item.chars (item.mapNumbers f)) :
    Reads (Json.array items).chars ((Json.array items).mapNumbers f) := by
  rintro (_ | fuel) rest hfuel -
  · cases items <;> simp [chars] at hfuel
  refine ⟨rest, ?_, rfl⟩
  cases items with
  | nil => rfl
  | cons item items =>
    rw [chars, List.length_cons] at hfuel
    have hitems := items?_chars h (Nat.le_of_succ_le_succ hfuel) [] rest
    rw [chars, List.cons_append, List.append_assoc,
      value?_bracket (skipBlanks_ne_bracket hitems), hitems, mapNumbers_array]
    rfl

/-- An object is read where the values of its fields are. -/
theorem reads_object {fields : List (String × Json)}
    (h : ∀ field ∈ fields, Reads field.2.chars (field.2.mapNumbers f)) :
    Reads (Json.object fields).chars ((Json.object fields).mapNumbers f) := by
  rintro (_ | fuel) rest hfuel -
  · rcases fields with _ | ⟨⟨name, value⟩, fields⟩ <;> simp [chars] at hfuel
  refine ⟨rest, ?_, rfl⟩
  rcases fields with _ | ⟨⟨name, value⟩, fields⟩
  · rfl
  · have hlength : (value.chars ++ charsBehindField fields).length ≤ fuel := by
      simp only [chars, List.length_cons, List.length_append] at hfuel ⊢
      omega
    have hfields := fields?_chars h hlength [] rest
    have htext : (Json.object ((name, value) :: fields)).chars ++ rest = '\x7b' ::
        ((quoted name).toList ++ ':' :: (value.chars ++ (charsBehindField fields ++ rest))) := by
      simp [chars]
    have hopen (rest' : List Char) : skipBlanks ((quoted name).toList ++ ':' ::
        (value.chars ++ (charsBehindField fields ++ rest))) ≠ '\x7d' :: rest' := by
      rw [skipBlanks_quoted]
      simp [quoted]
    rw [htext, value?_brace hopen, hfields, mapNumbers_object]
    rfl

end Reader

/-! ### Values whose text is read -/

/-- Values whose numbers are read from their texts as `f` says. -/
inductive Legible (f : Number → Json) : Json → Prop
  | null : Legible f .null
  | bool (b : Bool) : Legible f (.bool b)
  | string (s : String) : Legible f (.string s)
  | number {n : Number} (h : Reader.Reads n.text.toList (f n)) : Legible f (.number n)
  | array {items : List Json} (h : ∀ item ∈ items, Legible f item) : Legible f (.array items)
  | object {fields : List (String × Json)} (h : ∀ field ∈ fields, Legible f field.2) :
    Legible f (.object fields)

open Reader in
/-- **The text of a value is read as the value**, but for its numbers. -/
theorem Legible.reads {value : Json} (h : Legible f value) :
    Reads value.chars (value.mapNumbers f) := by
  induction h with
  | number h => exact h
  | null =>
    rintro (_ | fuel) rest hfuel -
    · cases hfuel
    · exact ⟨rest, rfl, rfl⟩
  | bool b =>
    rintro (_ | fuel) rest hfuel -
    · cases b <;> cases hfuel
    · cases b <;> exact ⟨rest, rfl, rfl⟩
  | string s =>
    rintro (_ | fuel) rest hfuel -
    · simp [chars, quoted] at hfuel
    · exact ⟨rest, value?_quoted s fuel rest, rfl⟩
  | array _ ih => exact reads_array ih
  | object _ ih => exact reads_object ih

theorem ofText?_of_reads {text : String} {value : Json} (h : Reader.Reads text.toList value) :
    ofText? text = some value := by
  obtain ⟨left, hvalue, hleft⟩ := h (2 * text.toList.length + 2) [] (by omega) trivial
  rw [List.append_nil] at hvalue
  unfold ofText?
  dsimp only
  rw [hvalue]
  exact if_pos hleft

/-- **The compact form of a value is read as the value**, but for its numbers. -/
theorem Legible.ofText?_compact {value : Json} (h : Legible f value) :
    ofText? value.compact = some (value.mapNumbers f) :=
  ofText?_of_reads ((toList_compact value).symm ▸ h.reads)

theorem Legible.ofList {encode : α → Json} {items : List α}
    (h : ∀ a ∈ items, Legible f (encode a)) : Legible f (Json.ofList encode items) :=
  .array (List.forall_mem_map.2 h)

/-! ### The readings of numbers -/

/-- What the text of a number alone is read as. -/
def reading (n : Number) : Json := (ofText? n.text).getD .null

theorem reading_eq {n : Number} {value : Json} (h : ofText? n.text = some value) :
    reading n = value := by
  rw [reading, h, Option.getD_some]

theorem legible_of_ofText? {n m : Number} (h : ofText? n.text = some (.number m)) :
    Legible reading (.number n) :=
  .number (reading_eq h ▸ Reader.reads_of_ofText? h)

theorem ofText?_natural {n : Nat} (h : n < UInt64.size) :
    ofText? (Number.natural n).text = some (.number (.natural n)) :=
  ofText?_of_reads (Reader.reads_natural h)

theorem ofText?_negative {n : Nat} (hpos : 0 < n) (h : n ≤ Int64.size / 2) :
    ofText? (Number.negative n).text = some (.number (.negative n)) :=
  ofText?_of_reads (Reader.reads_negative hpos h)

theorem keepsWhole_reading : KeepsWhole reading where
  natural _ h := reading_eq (ofText?_natural h)
  negative _ hpos h := reading_eq (ofText?_negative hpos h)

theorem legible_ofWord (w : UInt64) : Legible reading (ofWord w) :=
  legible_of_ofText? (ofText?_natural w.toNat_lt)

theorem legible_ofWords (words : List UInt64) : Legible reading (ofList ofWord words) :=
  .ofList fun w _ ↦ legible_ofWord w

theorem legible_ofInt64 (i : Int64) : Legible reading (ofInt64 i) := by
  rcases exists_number_ofInt64 i with ⟨n, h, heq⟩ | ⟨n, hpos, h, heq⟩
  · exact heq ▸ legible_of_ofText? (ofText?_natural h)
  · exact heq ▸ legible_of_ofText? (ofText?_negative hpos h)

/-- A number is legible if its text is read as something that only numbers are decoded as. -/
theorem legible_of_decode {decode : Json → Option α} {n : Number} {a : α}
    (hdecode : ∀ value, decode value = some a → ∃ m, value = .number m)
    (h : (ofText? (Json.number n).compact).bind decode = some a) : Legible reading (.number n) := by
  obtain ⟨value, hvalue, hdecoded⟩ := Option.bind_eq_some_iff.1 h
  obtain ⟨m, rfl⟩ := hdecode value hdecoded
  rw [compact, writeCompact, String.empty_append] at hvalue
  exact legible_of_ofText? hvalue

end HopSampler.Json
