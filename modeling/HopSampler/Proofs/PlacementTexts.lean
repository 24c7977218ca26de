import HopSampler.Placement
import Mathlib.Data.List.Basic

/-!
# How placements are written

`Placement.Written` is the grammar of placements: a word in any case, with `_` or `-` between its
parts, and where the word calls for it a number behind a colon. A number is written as decimal
digits after an optional plus sign (`Text.Spells`).

**Reading accepts the grammar and nothing else** (`Placement.ofText_eq_ok_iff`). A text is cut at
its first colon, and no word contains one, so the text determines which part is the word
(`Text.cutAt_append`). The form in which a placement is shown is one of its written forms
(`Placement.written_text`), so what was read is read again.
-/

namespace HopSampler

namespace Text

/-! ### Texts cut at a mark -/

variable {mark : Char} {s before after : List Char}

/-- A text is cut behind what has no mark in it. -/
theorem cutAt_append (h : mark ∉ before) (after : List Char) :
    cutAt mark (before ++ mark :: after) = (before, some after) := by
  induction before with
  | nil => rw [List.nil_append, cutAt, if_pos rfl]
  | cons c before ih =>
    obtain ⟨hc, hrest⟩ := List.ne_and_not_mem_of_not_mem_cons h
    rw [List.cons_append, cutAt, if_neg (Ne.symm hc), ih hrest]

theorem cutAt_of_notMem (h : mark ∉ s) : cutAt mark s = (s, none) := by
  induction s with
  | nil => rfl
  | cons c s ih =>
    obtain ⟨hc, hrest⟩ := List.ne_and_not_mem_of_not_mem_cons h
    rw [cutAt, if_neg (Ne.symm hc), ih hrest]

/-! ### Numbers -/

/-- Decimal digits, at least one, whose value is that of a word. -/
structure DigitsOf (w : UInt64) (digits : List Char) : Prop where
  ne_nil : digits ≠ []
  isDigit : ∀ c ∈ digits, c.isDigit
  value : Nat.ofDigitChars 10 digits 0 = w.toNat

/-- The ways to write a word: digits, alone or after a plus sign. -/
inductive Spells (w : UInt64) : List Char → Prop
  | bare {digits : List Char} (h : DigitsOf w digits) : Spells w digits
  | signed {digits : List Char} (h : DigitsOf w digits) : Spells w ('+' :: digits)

private theorem foldlM_digits_eq_some_iff {digits : List Char} {start n : Nat} :
    digits.foldlM (fun n c ↦ if c.isDigit then some (n * 10 + (c.toNat - '0'.toNat)) else none)
        start = some n ↔
      (∀ c ∈ digits, c.isDigit) ∧ Nat.ofDigitChars 10 digits start = n := by
  induction digits generalizing start with
  | nil => simp
  | cons c digits ih =>
    rw [List.foldlM_cons, List.forall_mem_cons, Nat.ofDigitChars_cons, Nat.mul_comm]
    by_cases hc : c.isDigit
    · rw [if_pos hc, Option.bind_eq_bind, Option.bind_some, ih]
      exact and_congr_left fun _ ↦ (and_iff_right hc).symm
    · rw [if_neg hc]
      exact iff_of_false nofun fun h ↦ hc h.1.1

theorem digitsValue?_eq_some_iff {digits : List Char} {n : Nat} :
    digitsValue? digits = some n ↔
      (∀ c ∈ digits, c.isDigit) ∧ Nat.ofDigitChars 10 digits 0 = n :=
  foldlM_digits_eq_some_iff

/-- A word is spelt by digits behind what may be a plus sign. -/
theorem spells_iff {w : UInt64} : Spells w s ↔ DigitsOf w (unsigned s) := by
  constructor
  · rintro (h | h)
    · rcases s with _ | ⟨c, rest⟩
      · exact h
      · have hc : c ≠ '+' := by
          rintro rfl
          exact absurd (h.isDigit '+' List.mem_cons_self) (by decide)
        rwa [unsigned]
        exact fun rest' heq ↦ hc (List.cons.inj heq).1
    · exact h
  · intro h
    rw [unsigned.eq_def] at h
    split at h
    · exact .signed h
    · exact .bare h

/-- **Exactly the spellings of a word are read as it.** -/
theorem word?_eq_some_iff {w : UInt64} : word? s = some w ↔ Spells w s := by
  rw [spells_iff, word?]
  split
  · next hnil => exact iff_of_false nofun fun h ↦ h.ne_nil hnil
  · next hne =>
    rw [Option.bind_eq_some_iff]
    simp only [digitsValue?_eq_some_iff, Option.ite_none_right_eq_some, Option.some.injEq]
    constructor
    · rintro ⟨n, ⟨hdigits, hvalue⟩, hlt, rfl⟩
      exact ⟨hne, hdigits, hvalue.trans (UInt64.toNat_ofNat_of_lt' hlt).symm⟩
    · rintro ⟨-, hdigits, hvalue⟩
      exact ⟨w.toNat, ⟨hdigits, hvalue⟩, w.toNat_lt, UInt64.ofNat_toNat⟩

/-- The digits of a number spell it. -/
theorem digitsOf_toString (w : UInt64) : DigitsOf w (toString w.toNat).toList := by
  rw [Nat.toString_eq_repr, Nat.toList_repr]
  exact ⟨Nat.toDigits_ne_nil, fun c ↦ Nat.isDigit_of_mem_toDigits (by decide) (by decide),
    Nat.ofDigitChars_ten_toDigits⟩

end Text

namespace Placement

/-! ### Words -/

/-- A text is a word, but for the case of its letters. -/
def Spelt (word : String) (s : List Char) : Prop := s.map Char.toLower = word.toList

/-- `-` in the place of `_`. -/
private def dashed (c : Char) : Char := if c = '_' then '-' else c

/-- The word in its standard spelling: first the case, then the dashes. -/
private theorem toList_standardWord (word : List Char) :
    (standardWord word).toList = (word.map Char.toLower).map dashed := by
  rw [standardWord, String.toList_ofList, List.map_map]
  refine List.map_congr_left fun c _ ↦ ?_
  have hlower : c.toLower = '_' ↔ c = '_' := by
    show dite _ _ _ = '_' ↔ _
    rw [Char.ext_iff, Char.ext_iff]
    grind
  by_cases hc : c = '_'
  · rw [if_pos hc, Function.comp_apply, dashed, if_pos (hlower.2 hc)]
  · rw [if_neg hc, Function.comp_apply, dashed, if_neg (mt hlower.1 hc)]

/-- Nothing changes where there are no dashes. -/
private theorem map_dashed_eq_iff {s word : List Char} (hdash : '-' ∉ word) (hunder : '_' ∉ word) :
    s.map dashed = word ↔ s = word := by
  have hself {t : List Char} (ht : '_' ∉ t) : t.map dashed = t := by
    have hkeep : ∀ c ∈ t, dashed c = id c := fun c hc ↦ if_neg (ne_of_mem_of_not_mem hc ht)
    rw [List.map_congr_left hkeep, List.map_id]
  constructor
  · rintro rfl
    refine (hself fun hmem ↦ hdash ?_).symm
    exact List.mem_map.2 ⟨'_', hmem, rfl⟩
  · rintro rfl
    exact hself hunder

theorem standardWord_eq_iff {word : String} {s : List Char} (hdash : '-' ∉ word.toList)
    (hunder : '_' ∉ word.toList) : standardWord s = word ↔ Spelt word s := by
  rw [← String.toList_inj, toList_standardWord, map_dashed_eq_iff hdash hunder, Spelt]

/-- A dash in a word may be written as either character. -/
theorem standardWord_eq_zeroCopy_iff {s : List Char} :
    standardWord s = "zero-copy" ↔ Spelt "zero-copy" s ∨ Spelt "zero_copy" s := by
  have hsplit : "zero-copy".toList = "zero".toList ++ '-' :: "copy".toList := rfl
  have hsplit' : "zero_copy".toList = "zero".toList ++ '_' :: "copy".toList := rfl
  rw [← String.toList_inj, toList_standardWord, Spelt, Spelt, hsplit, hsplit']
  generalize s.map Char.toLower = lowered
  have hdash (c : Char) : dashed c = '-' ↔ c = '-' ∨ c = '_' := by
    rw [dashed]
    split
    · next hc => exact iff_of_true rfl (.inr hc)
    · next hc => exact (or_iff_left hc).symm
  simp only [List.map_eq_append_iff, List.map_eq_cons_iff, hdash]
  constructor
  · rintro ⟨front, _, rfl, hfront, c, back, rfl, hc, hback⟩
    rw [map_dashed_eq_iff (by decide) (by decide)] at hfront hback
    subst hfront hback
    rcases hc with rfl | rfl
    · exact .inl rfl
    · exact .inr rfl
  · have hself : ∀ word ∈ ["zero".toList, "copy".toList], word.map dashed = word := by decide
    rintro (rfl | rfl)
    · exact ⟨_, _, rfl, hself _ (by simp), '-', _, rfl, .inl rfl, hself _ (by simp)⟩
    · exact ⟨_, _, rfl, hself _ (by simp), '_', _, rfl, .inr rfl, hself _ (by simp)⟩

/-- No spelling of a word has a colon in it, where the word has none. -/
theorem Spelt.colon_notMem {word : String} {s : List Char} (h : Spelt word s)
    (hword : ':' ∉ word.toList) : ':' ∉ s :=
  fun hmem ↦ hword (h ▸ List.mem_map.2 ⟨':', hmem, rfl⟩)

/-! ### The grammar -/

/-- The ways to write a placement. -/
inductive Written : Placement → List Char → Prop
  | zeroCopy {s : List Char} (hword : Spelt "zero-copy" s ∨ Spelt "zero_copy" s) :
    Written .zeroCopy s
  /-- Without a number the first device is meant. -/
  | home {s : List Char} (hword : Spelt "resident" s) : Written (.resident 0) s
  | resident {word digits : List Char} {device : UInt64} (hword : Spelt "resident" word)
    (hdevice : Text.Spells device digits) : Written (.resident device) (word ++ ':' :: digits)
  | partitioned {word digits : List Char} {count : UInt64} (hword : Spelt "partitioned" word)
    (hcount : Text.Spells count digits) (hpos : count ≠ 0) :
    Written (.partitioned count) (word ++ ':' :: digits)

/-- What stands for a placement on its own. -/
theorem ofParts?_none_eq_some_iff {word : List Char} {p : Placement} :
    ofParts? (standardWord word) none = some p ↔
      (Spelt "zero-copy" word ∨ Spelt "zero_copy" word) ∧ p = .zeroCopy ∨
      Spelt "resident" word ∧ p = .resident 0 := by
  rw [← standardWord_eq_zeroCopy_iff, ← standardWord_eq_iff (by decide) (by decide)]
  generalize standardWord word = standard
  rw [ofParts?.eq_def]
  split <;> grind

/-- What stands for a placement together with a number. -/
theorem ofParts?_some_eq_some_iff {word digits : List Char} {p : Placement} :
    ofParts? (standardWord word) (some digits) = some p ↔
      (Spelt "resident" word ∧ ∃ device, Text.Spells device digits ∧ p = .resident device) ∨
      Spelt "partitioned" word ∧
        ∃ count, Text.Spells count digits ∧ count ≠ 0 ∧ p = .partitioned count := by
  rw [← standardWord_eq_iff (by decide) (by decide), ← standardWord_eq_iff (by decide) (by decide)]
  simp only [← Text.word?_eq_some_iff]
  generalize standardWord word = standard
  by_cases hresident : standard = "resident"
  · subst hresident
    show (Text.word? digits).map resident = some p ↔ _
    simp [Option.map_eq_some_iff, eq_comm (a := p)]
  by_cases hpartitioned : standard = "partitioned"
  · subst hpartitioned
    show ((Text.word? digits).bind fun n ↦
      if n = 0 then none else some (partitioned n)) = some p ↔ _
    simp [Option.bind_eq_some_iff, eq_comm (a := p)]
  · rw [ofParts?.eq_def]
    split <;> simp_all

theorem ofText_eq_ok_iff_ofParts? {s : String} {word : List Char} {argument : Option (List Char)}
    {p : Placement} (h : Text.cutAt ':' s.toList = (word, argument)) :
    ofText s = .ok p ↔ ofParts? (standardWord word) argument = some p := by
  simp only [ofText, h]
  split <;> simp_all

/-- A text whose parts stand for a placement is one of its written forms. -/
theorem written_of_ofParts? {s word : List Char} {argument : Option (List Char)} {p : Placement}
    (hcut : Text.cutAt ':' s = (word, argument))
    (h : ofParts? (standardWord word) argument = some p) : Written p s := by
  cases argument with
  | none =>
    rw [← Text.cutAt_none hcut]
    rcases ofParts?_none_eq_some_iff.1 h with ⟨hword, rfl⟩ | ⟨hword, rfl⟩
    · exact .zeroCopy hword
    · exact .home hword
  | some digits =>
    rw [← Text.cutAt_some hcut]
    rcases ofParts?_some_eq_some_iff.1 h with
      ⟨hword, device, hdevice, rfl⟩ | ⟨hword, count, hcount, hpos, rfl⟩
    · exact .resident hword hdevice
    · exact .partitioned hword hcount hpos

/-- A written form is cut behind its word, as no word has a colon. -/
theorem Written.exists_parts {p : Placement} {s : List Char} (h : Written p s) :
    ∃ word argument, Text.cutAt ':' s = (word, argument) ∧
      ofParts? (standardWord word) argument = some p := by
  cases h with
  | zeroCopy hword =>
    have hcolon : ':' ∉ s := by
      rcases hword with h | h <;> exact h.colon_notMem (by decide)
    exact ⟨s, none, Text.cutAt_of_notMem hcolon, ofParts?_none_eq_some_iff.2 (.inl ⟨hword, rfl⟩)⟩
  | home hword =>
    exact ⟨s, none, Text.cutAt_of_notMem (hword.colon_notMem (by decide)),
      ofParts?_none_eq_some_iff.2 (.inr ⟨hword, rfl⟩)⟩
  | resident hword hdevice =>
    exact ⟨_, _, Text.cutAt_append (hword.colon_notMem (by decide)) _,
      ofParts?_some_eq_some_iff.2 (.inl ⟨hword, _, hdevice, rfl⟩)⟩
  | partitioned hword hcount hpos =>
    exact ⟨_, _, Text.cutAt_append (hword.colon_notMem (by decide)) _,
      ofParts?_some_eq_some_iff.2 (.inr ⟨hword, _, hcount, hpos, rfl⟩)⟩

/-- **Exactly the written forms of a placement are read as it.** -/
theorem ofText_eq_ok_iff {s : String} {p : Placement} :
    ofText s = .ok p ↔ Written p s.toList := by
  constructor
  · exact fun h ↦ written_of_ofParts? rfl ((ofText_eq_ok_iff_ofParts? rfl).1 h)
  · intro h
    obtain ⟨word, argument, hcut, hparts⟩ := h.exists_parts
    exact (ofText_eq_ok_iff_ofParts? hcut).2 hparts

/-! ### Shown and read again -/

/-- No text stands for a placement over no partitions. -/
theorem Written.ne_partitioned_zero {p : Placement} {s : List Char} (h : Written p s) :
    p ≠ .partitioned 0 := by
  cases h with
  | partitioned hword hcount hpos => exact fun heq ↦ hpos (Placement.partitioned.inj heq)
  | _ => nofun

/-- How a placement is shown is one of the ways to write it. -/
theorem written_text {p : Placement} (h : p ≠ .partitioned 0) : Written p p.text.toList := by
  cases p with
  | zeroCopy => exact .zeroCopy (.inl rfl)
  | resident device =>
    rw [text, String.toList_append]
    have hword : Spelt "resident" "resident".toList := rfl
    exact .resident hword (.bare (Text.digitsOf_toString device))
  | partitioned count =>
    rw [text, String.toList_append]
    have hword : Spelt "partitioned" "partitioned".toList := rfl
    exact .partitioned hword (.bare (Text.digitsOf_toString count)) fun hzero ↦ h (congrArg _ hzero)

/-- What reading makes of a text. -/
structure TextSettled (s : String) : Prop where
  accepts : ∀ p, ofText s = .ok p ↔ Written p s.toList
  refuses : (∀ p, ¬Written p s.toList) → ofText s = .error (.config (.placement s))
  /-- What was read is read again from how it is shown. -/
  reread : ∀ p, ofText s = .ok p → ofText p.text = .ok p

/-- **A text is read as the placement that it is written for**, refused if there is none, and what
was read survives being shown. -/
theorem ofText_settled (s : String) : TextSettled s where
  accepts _ := ofText_eq_ok_iff
  refuses hnone := by
    have hfails (p : Placement) : ofText s ≠ .ok p := fun h ↦ hnone p (ofText_eq_ok_iff.1 h)
    rw [ofText] at hfails ⊢
    dsimp only at hfails ⊢
    cases hparts : ofParts? _ _ with
    | none => rfl
    | some p =>
      rw [hparts] at hfails
      exact absurd rfl (hfails p)
  reread _ h := ofText_eq_ok_iff.2 (written_text (ofText_eq_ok_iff.1 h).ne_partitioned_zero)

example : ofText "Partitioned:+08" = .ok (.partitioned 8) := rfl

end Placement

end HopSampler
