import HopSampler.Json.Printer
import HopSampler.Json.Reader
import Mathlib.Data.List.Basic
import Mathlib.Data.List.TakeWhile

/-!
# JSON tokens read in front of other text

A reader takes a token off the front of a text and leaves the rest. For blanks, numerals and strings
the facts here say that what follows a token does not change how it is read.

**Where a numeral ends is the question of this module.** It ends where it cannot go on, so the text
behind it must not begin with a digit, a point or the letter of an exponent (`Reader.Stops`). Inside
a value it is followed by a comma or by a closing bracket, which do not.

A string is written character by character. What is written for a character is found as one piece
that stands for it (`Reader.exists_piece`), and the pieces join to the string.
-/

namespace HopSampler.Json

namespace Reader

variable {cs left rest : List Char}

/-! ### Blanks -/

theorem skipBlanks_append_of_ne_nil (h : skipBlanks cs ≠ []) (rest : List Char) :
    skipBlanks (cs ++ rest) = skipBlanks cs ++ rest := by
  rw [skipBlanks, List.dropWhile_append, if_neg]
  · rfl
  · rwa [List.isEmpty_iff]

theorem skipBlanks_append_of_eq_nil (h : skipBlanks cs = []) (rest : List Char) :
    skipBlanks (cs ++ rest) = skipBlanks rest := by
  rw [skipBlanks, List.dropWhile_append, if_pos]
  · rfl
  · rwa [List.isEmpty_iff]

theorem skipBlanks_cons {c : Char} (h : isBlank c = false) (rest : List Char) :
    skipBlanks (c :: rest) = c :: rest := by
  rw [skipBlanks, List.dropWhile_cons_of_neg (by simp [h])]

/-! ### Numerals -/

/-- A numeral does not go on with this text. -/
def Stops : List Char → Prop
  | [] => True
  | c :: _ => ¬c.isDigit ∧ c ≠ '.' ∧ c ≠ 'e' ∧ c ≠ 'E'

theorem digits_append (h : Stops rest) (cs : List Char) :
    digits (cs ++ rest) = ((digits cs).1, (digits cs).2 ++ rest) := by
  induction cs with
  | nil =>
    cases rest with
    | nil => rfl
    | cons c rest => simp [digits, h.1]
  | cons c cs ih =>
    obtain ⟨hfirst, hleft⟩ := Prod.mk.inj ih
    by_cases hc : c.isDigit
    · simpa [digits, hc] using ⟨hfirst, hleft⟩
    · simp [digits, hc]

/-- The whole part is all leading digits, and no zero in front of others. -/
theorem whole?_eq_some_iff {whole : List Nat} : whole? cs = some (whole, left) ↔
    digits cs = (whole, left) ∧ whole ≠ [] ∧ ∀ d ds, whole ≠ 0 :: d :: ds := by
  rw [whole?]
  split
  · next hdigits => exact iff_of_false nofun fun ⟨h, hnil, _⟩ ↦ by simp_all
  · next hdigits => exact iff_of_false nofun fun ⟨h, _, hzero⟩ ↦ by simp_all
  · next hnil hzero =>
    rw [Option.some.injEq]
    refine ⟨fun h ↦ ⟨h, ?_, ?_⟩, And.left⟩
    · rintro rfl
      exact hnil left h
    · rintro d ds rfl
      exact hzero d ds left h

theorem whole?_append (h : Stops rest) {whole : List Nat} (hcs : whole? cs = some (whole, left)) :
    whole? (cs ++ rest) = some (whole, left ++ rest) := by
  obtain ⟨hdigits, hwhole⟩ := whole?_eq_some_iff.1 hcs
  exact whole?_eq_some_iff.2 ⟨by rw [digits_append h, hdigits], hwhole⟩

theorem fraction?_append (h : Stops rest) {fraction : List Nat}
    (hcs : fraction? cs = some (fraction, left)) :
    fraction? (cs ++ rest) = some (fraction, left ++ rest) := by
  unfold fraction? at hcs
  split at hcs
  · next cs =>
    rw [List.cons_append, fraction?, digits_append h]
    split at hcs
    · cases hcs
    · next hnil =>
      obtain hdigits := Option.some.inj hcs
      rw [hdigits]
      cases fraction with
      | nil => exact absurd hdigits (hnil left)
      | cons d ds => rfl
  · next hpoint =>
    obtain ⟨rfl, rfl⟩ := Prod.mk.inj (Option.some.inj hcs)
    rw [fraction?]
    intro cs' heq
    cases cs with
    | nil =>
      cases rest with
      | nil => cases heq
      | cons c rest =>
        exact h.2.1 (List.cons.inj heq).1
    | cons c cs =>
      exact hpoint cs (by rw [(List.cons.inj heq).1])

theorem exponentDigits?_append (h : Stops rest) {negative : Bool}
    {exponent : Option (Bool × List Nat)}
    (hcs : exponentDigits? negative cs = some (exponent, left)) :
    exponentDigits? negative (cs ++ rest) = some (exponent, left ++ rest) := by
  rw [exponentDigits?] at hcs ⊢
  rw [digits_append h]
  split at hcs
  · cases hcs
  · next found left' hnil hdigits =>
    obtain ⟨rfl, rfl⟩ := Prod.mk.inj (Option.some.inj hcs)
    rw [hdigits]
    cases found with
    | nil => exact absurd rfl hnil
    | cons d ds => rfl

theorem exponent?_append (h : Stops rest) {exponent : Option (Bool × List Nat)}
    (hcs : exponent? cs = some (exponent, left)) :
    exponent? (cs ++ rest) = some (exponent, left ++ rest) := by
  cases cs with
  | nil =>
    obtain ⟨rfl, rfl⟩ := Prod.mk.inj (Option.some.inj hcs)
    cases rest with
    | nil => rfl
    | cons c rest => exact if_neg (not_or.2 h.2.2)
  | cons c cs =>
    unfold exponent? at hcs ⊢
    dsimp only [List.cons_append] at hcs ⊢
    by_cases hc : c = 'e' ∨ c = 'E'
    · rw [if_pos hc] at hcs ⊢
      split at hcs
      · exact exponentDigits?_append h hcs
      · exact exponentDigits?_append h hcs
      · next hminus hplus =>
        rw [← exponentDigits?_append h hcs]
        cases cs with
        | nil => cases hcs
        | cons d cs =>
          split
          · next heq => exact absurd (by rw [(List.cons.inj heq).1]) (hminus cs)
          · next heq => exact absurd (by rw [(List.cons.inj heq).1]) (hplus cs)
          · rfl
    · rw [if_neg hc] at hcs ⊢
      obtain ⟨rfl, rfl⟩ := Prod.mk.inj (Option.some.inj hcs)
      rfl

/-- **A numeral is read in front of any text that does not go on with it.** -/
theorem numeral?_append (h : Stops rest) {negative : Bool} {value : Json}
    (hcs : numeral? negative cs = some (value, left)) :
    numeral? negative (cs ++ rest) = some (value, left ++ rest) := by
  simp only [numeral?, Option.bind_eq_bind, Option.bind_eq_some_iff, Prod.exists] at hcs ⊢
  obtain ⟨whole, cs₁, hwhole, fraction, cs₂, hfraction, exponent, cs₃, hexponent, hvalue⟩ := hcs
  obtain ⟨rfl, rfl⟩ := Prod.mk.inj (Option.some.inj hvalue)
  exact ⟨whole, _, whole?_append h hwhole, fraction, _, fraction?_append h hfraction, exponent, _,
    exponent?_append h hexponent, rfl⟩

theorem isDigit_of_numeral? {negative : Bool} {found : Json × List Char}
    (h : numeral? negative cs = some found) : ∃ c rest, cs = c :: rest ∧ c.isDigit := by
  simp only [numeral?, Option.bind_eq_bind, Option.bind_eq_some_iff, Prod.exists] at h
  obtain ⟨whole, left, hwhole, -⟩ := h
  obtain ⟨hdigits, hnil, -⟩ := whole?_eq_some_iff.1 hwhole
  obtain ⟨hdigits, -⟩ := Prod.mk.inj hdigits
  cases cs with
  | nil => exact absurd hdigits.symm hnil
  | cons c rest =>
    refine ⟨c, rest, rfl, ?_⟩
    by_contra hc
    rw [List.takeWhile_cons_of_neg hc] at hdigits
    exact hnil hdigits.symm

theorem digits_toString (n : Nat) :
    digits (toString n).toList =
      ((Nat.toDigits 10 n).map fun c ↦ c.toNat - '0'.toNat, []) := by
  have hdigits : ∀ c ∈ Nat.toDigits 10 n, c.isDigit := fun c hc ↦
    Nat.isDigit_of_mem_toDigits (by decide) (by decide) hc
  rw [Nat.toString_eq_repr, Nat.toList_repr, digits, List.takeWhile_eq_self_iff.2 hdigits,
    List.dropWhile_eq_nil_iff.2 hdigits]

/-- The digits of a number do not begin with a zero, unless the number is zero. -/
theorem toDigits_ne_zero_cons {n : Nat} (h : n ≠ 0) (rest : List Char) :
    Nat.toDigits 10 n ≠ '0' :: rest := by
  induction n using Nat.strongRecOn generalizing rest with
  | ind n ih =>
    by_cases hsmall : n < 10
    · rw [Nat.toDigits_of_lt_base hsmall]
      exact fun heq ↦ h (Nat.digitChar_eq_zero.1 (List.cons.inj heq).1)
    · rw [Nat.toDigits_of_base_le (by decide) (Nat.le_of_not_lt hsmall)]
      intro heq
      cases hfront : Nat.toDigits 10 (n / 10) with
      | nil => exact Nat.toDigits_ne_nil hfront
      | cons c cs =>
        rw [hfront, List.cons_append] at heq
        obtain rfl : c = '0' := (List.cons.inj heq).1
        exact ih (n / 10) (by omega) (by omega) cs hfront

theorem whole?_toString (n : Nat) :
    whole? (toString n).toList =
      some ((Nat.toDigits 10 n).map fun c ↦ c.toNat - '0'.toNat, []) := by
  refine whole?_eq_some_iff.2 ⟨digits_toString n, fun h ↦ ?_, fun d ds h ↦ ?_⟩
  · exact Nat.toDigits_ne_nil (List.map_eq_nil_iff.1 h)
  · by_cases hn : n = 0
    · subst hn
      exact absurd (congrArg List.length h) (by simp)
    · obtain ⟨c, cs, hcs, hc, -⟩ := List.map_eq_cons_iff.1 h
      have hdigit : c.isDigit :=
        Nat.isDigit_of_mem_toDigits (by decide) (by decide) (hcs ▸ List.mem_cons_self)
      obtain rfl : c = '0' := by
        rw [Char.isDigit_iff_toNat] at hdigit
        exact Char.toNat_inj.1 (Nat.le_antisymm (Nat.le_of_sub_eq_zero hc) hdigit.1)
      exact toDigits_ne_zero_cons hn cs hcs

theorem ofDigits_toDigits (n : Nat) :
    Numeral.ofDigits ((Nat.toDigits 10 n).map fun c ↦ c.toNat - '0'.toNat) = n := by
  have hvalue : Nat.ofDigitChars 10 (Nat.toDigits 10 n) 0 = n := Nat.ofDigitChars_ten_toDigits
  rw [Nat.ofDigitChars] at hvalue
  rw [Numeral.ofDigits, List.foldl_map]
  simpa only [Nat.mul_comm] using hvalue

/-- A whole number is read off its digits. -/
theorem numeral?_toString (negative : Bool) (n : Nat) :
    numeral? negative (toString n).toList = some (Numeral.value
      ⟨negative, (Nat.toDigits 10 n).map fun c ↦ c.toNat - '0'.toNat, [], none⟩, []) := by
  rw [numeral?, whole?_toString]
  rfl

theorem numeral?_natural {n : Nat} (h : n < UInt64.size) :
    numeral? false (toString n).toList = some (.number (.natural n), []) := by
  rw [numeral?_toString, Numeral.value, if_pos ⟨rfl, rfl⟩, ofDigits_toDigits,
    if_neg Bool.false_ne_true, if_pos h]

theorem numeral?_negative {n : Nat} (hpos : 0 < n) (h : n ≤ Int64.size / 2) :
    numeral? true (toString n).toList = some (.number (.negative n), []) := by
  rw [numeral?_toString, Numeral.value, if_pos ⟨rfl, rfl⟩, ofDigits_toDigits, if_pos rfl,
    if_pos ⟨hpos, h⟩]

/-! ### Strings -/

/-- A piece stands for a character. -/
def Piece.StandsFor (piece : Piece) (c : Char) : Prop :=
  ∀ done rest, joinPieces? done (piece :: rest) = joinPieces? (c :: done) rest

theorem unit?_hexChar : ∀ n < 0x20, unit? '0' '0' (hexChar (n / 16)) (hexChar n) = some n := by
  decide

/-- A character that is not escaped stands for itself. -/
theorem pieces?_of_plain {c : Char} (hquote : c ≠ '\x22') (hslash : c ≠ '\\')
    (hcontrol : ¬c.toNat < 0x20) (found : List Piece) (rest : List Char) :
    pieces? found (c :: rest) = pieces? (.char c :: found) rest := by
  rw [pieces?]
  · exact if_neg (not_or.2 ⟨hcontrol, hslash⟩)
  · exact hquote
  · exact fun _ _ _ _ _ h _ ↦ hslash h
  · exact fun _ _ h _ ↦ hslash h

/-- The number of a control character is the code unit of the character. -/
theorem standsFor_unit {c : Char} (h : c.toNat < 0x20) : (Piece.unit c.toNat).StandsFor c := by
  intro done rest
  have hhigh : isHighHalf c.toNat = false := by
    simp only [isHighHalf, Bool.and_eq_false_iff, decide_eq_false_iff_not]
    omega
  have hlow : isLowHalf c.toNat = false := by
    simp only [isLowHalf, Bool.and_eq_false_iff, decide_eq_false_iff_not]
    omega
  conv_lhs => unfold joinPieces?
  rw [hhigh, hlow, Char.ofNat_toNat]
  rfl

/-- An escaped character is found as a piece that stands for it. -/
theorem exists_piece (c : Char) : ∃ piece : Piece, piece.StandsFor c ∧
    ∀ found rest, pieces? found (escape c ++ rest) = pieces? (piece :: found) rest := by
  rw [escape.eq_def]
  split
  iterate 7 exact ⟨.char _, fun _ _ ↦ rfl, fun _ _ ↦ rfl⟩
  next hquote hslash _ _ _ _ _ =>
  by_cases hcontrol : c.toNat < 0x20
  · rw [if_pos hcontrol]
    refine ⟨.unit c.toNat, standsFor_unit hcontrol, fun found rest ↦ ?_⟩
    simp only [List.cons_append, List.nil_append, pieces?, unit?_hexChar _ hcontrol]
  · rw [if_neg hcontrol]
    exact ⟨.char c, fun _ _ ↦ rfl, pieces?_of_plain hquote hslash hcontrol⟩

theorem exists_pieces (s : List Char) : ∃ pieces : List Piece,
    (∀ done rest, joinPieces? done (pieces ++ rest) = joinPieces? (s ++ done) rest) ∧
      ∀ found rest, pieces? found (s.flatMap escape ++ rest) = pieces? (pieces ++ found) rest := by
  induction s with
  | nil => exact ⟨[], fun _ _ ↦ rfl, fun _ _ ↦ rfl⟩
  | cons c s ih =>
    obtain ⟨pieces, hjoin, hfound⟩ := ih
    obtain ⟨piece, hc, hpiece⟩ := exists_piece c
    refine ⟨pieces ++ [piece], fun done rest ↦ ?_, fun found rest ↦ ?_⟩
    · rw [List.append_assoc, hjoin, List.singleton_append, hc, List.cons_append]
    · rw [List.flatMap_cons, List.append_assoc, hpiece, hfound, List.append_assoc,
        List.singleton_append]

/-- **A string that was written is read back.** -/
theorem string?_escaped (s : List Char) (rest : List Char) :
    string? (s.flatMap escape ++ '\x22' :: rest) = some (some (String.ofList s), rest) := by
  obtain ⟨pieces, hjoin, hfound⟩ := exists_pieces s
  have hjoin := hjoin [] []
  rw [List.append_nil, List.append_nil] at hjoin
  rw [string?, hfound, List.append_nil]
  show some ((joinPieces? [] pieces).map String.ofList, rest) = _
  rw [hjoin]
  rfl

end Reader

end HopSampler.Json
