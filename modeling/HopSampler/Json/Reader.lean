import HopSampler.Json.Numeral

/-!
# Reading JSON

A text is one value with blanks around it. The reader takes characters off the front of the text;
each step leaves less to read, so as many steps as there are characters are enough.

The grammar is the standard's and nothing more: no comments, no trailing commas, no leading zeros,
no bare control characters in strings.
-/

namespace HopSampler.Json

namespace Reader

/-! ### Blanks and literals -/

/-- The characters that may stand between tokens. -/
def isBlank (c : Char) : Bool := c = ' ' || c = '\n' || c = '\t' || c = '\r'

/-- What is left after blanks. -/
def skipBlanks (cs : List Char) : List Char := cs.dropWhile isBlank

/-- What is left after a word. -/
def literal? : List Char → List Char → Option (List Char)
  | [], cs => some cs
  | w :: word, c :: cs => if w = c then literal? word cs else none
  | _ :: _, [] => none

/-! ### Numerals -/

/-- Split off leading digits. -/
def digits (cs : List Char) : List Nat × List Char :=
  ((cs.takeWhile Char.isDigit).map fun c ↦ c.toNat - '0'.toNat, cs.dropWhile Char.isDigit)

/-- The digits before the point: one zero, or no zero in front. -/
def whole? (cs : List Char) : Option (List Nat × List Char) :=
  match digits cs with
  | ([], _) => none
  | (0 :: _ :: _, _) => none
  | found => some found

/-- The digits after a point, if there is one. -/
def fraction? : List Char → Option (List Nat × List Char)
  | '.' :: cs =>
    match digits cs with
    | ([], _) => none
    | found => some found
  | cs => some ([], cs)

/-- The digits of an exponent, with its sign. -/
def exponentDigits? (negative : Bool) (cs : List Char) :
    Option (Option (Bool × List Nat) × List Char) :=
  match digits cs with
  | ([], _) => none
  | (found, rest) => some (some (negative, found), rest)

/-- An exponent, if there is one. -/
def exponent? : List Char → Option (Option (Bool × List Nat) × List Char)
  | c :: cs =>
    if c = 'e' ∨ c = 'E' then
      match cs with
      | '-' :: rest => exponentDigits? true rest
      | '+' :: rest => exponentDigits? false rest
      | _ => exponentDigits? false cs
    else some (none, c :: cs)
  | [] => some (none, [])

/-- A numeral after its sign. -/
def numeral? (negative : Bool) (cs : List Char) : Option (Json × List Char) := do
  let (whole, cs) ← whole? cs
  let (fraction, cs) ← fraction? cs
  let (exponent, cs) ← exponent? cs
  some (Numeral.value ⟨negative, whole, fraction, exponent⟩, cs)

/-! ### Strings -/

/-- The value of a hexadecimal digit. -/
def hexDigit? (c : Char) : Option Nat :=
  if c.isDigit then some (c.toNat - '0'.toNat)
  else if 'a' ≤ c ∧ c ≤ 'f' then some (c.toNat - 'a'.toNat + 10)
  else if 'A' ≤ c ∧ c ≤ 'F' then some (c.toNat - 'A'.toNat + 10)
  else none

/-- The code unit written by four hexadecimal digits. -/
def unit? (a b c d : Char) : Option Nat := do
  let a ← hexDigit? a
  let b ← hexDigit? b
  let c ← hexDigit? c
  let d ← hexDigit? d
  some (((a * 16 + b) * 16 + c) * 16 + d)

/-- Whether a code unit is the first half of a pair. -/
def isHighHalf (u : Nat) : Bool := 0xD800 ≤ u && u < 0xDC00

/-- Whether a code unit is the second half of a pair. -/
def isLowHalf (u : Nat) : Bool := 0xDC00 ≤ u && u < 0xE000

/-- The character of a pair of halves. -/
def joinHalves (high low : Nat) : Char :=
  Char.ofNat (0x10000 + (high - 0xD800) * 0x400 + (low - 0xDC00))

/-- The character that an escape letter stands for. -/
def escaped? (c : Char) : Option Char :=
  match c with
  | '\x22' => some '\x22'
  | '\\' => some '\\'
  | '/' => some '/'
  | 'b' => some '\x08'
  | 'f' => some '\x0c'
  | 'n' => some '\n'
  | 'r' => some '\r'
  | 't' => some '\t'
  | _ => none

/-- A part of a string: a character that stands for itself, or a code unit given by its number. -/
inductive Piece where
  | char (c : Char)
  | unit (u : Nat)

/-- The pieces of a string up to its closing quote, behind those in `found`, last first. -/
def pieces? (found : List Piece) : List Char → Option (List Piece × List Char)
  | [] => none
  | '\x22' :: rest => some (found, rest)
  | '\\' :: 'u' :: a :: b :: c :: d :: rest =>
    match unit? a b c d with
    | some u => pieces? (.unit u :: found) rest
    | none => none
  | '\\' :: c :: rest =>
    match escaped? c with
    | some c => pieces? (.char c :: found) rest
    | none => none
  | c :: rest => if c.toNat < 0x20 ∨ c = '\\' then none else pieces? (.char c :: found) rest

/-- The characters of pieces, last first, in front of those in `done`; absent where there is half of
a surrogate pair. -/
def joinPieces? (done : List Char) : List Piece → Option (List Char)
  | [] => some done
  | .char c :: rest => joinPieces? (c :: done) rest
  | .unit u :: rest =>
    if isHighHalf u then none
    else if isLowHalf u then
      match rest with
      | .unit high :: rest =>
        if isHighHalf high then joinPieces? (joinHalves high u :: done) rest else none
      | _ => none
    else joinPieces? (Char.ofNat u :: done) rest

/-- A string after its opening quote. The text is absent where it stands for nothing. -/
def string? (cs : List Char) : Option (Option String × List Char) :=
  (pieces? [] cs).map fun (found, rest) ↦ ((joinPieces? [] found).map String.ofList, rest)

/-- A field name with its colon. -/
def key? (cs : List Char) : Option (Option String × List Char) :=
  match cs with
  | '\x22' :: cs =>
    match string? cs with
    | some (key, cs) =>
      match skipBlanks cs with
      | ':' :: rest => some (key, rest)
      | _ => none
    | none => none
  | _ => none

/-! ### Values -/

mutual

/-- A value at the front of the text, after blanks. -/
def value? : Nat → List Char → Option (Json × List Char)
  | 0, _ => none
  | fuel + 1, cs =>
    match skipBlanks cs with
    | 'n' :: rest => (literal? ['u', 'l', 'l'] rest).map fun rest ↦ (.null, rest)
    | 't' :: rest => (literal? ['r', 'u', 'e'] rest).map fun rest ↦ (.bool true, rest)
    | 'f' :: rest => (literal? ['a', 'l', 's', 'e'] rest).map fun rest ↦ (.bool false, rest)
    | '-' :: rest => numeral? true rest
    | '\x22' :: rest =>
      (string? rest).map fun (text, rest) ↦
        (match text with
          | some s => .string s
          | none => .unusable, rest)
    | '[' :: rest =>
      match skipBlanks rest with
      | ']' :: rest => some (.array [], rest)
      | rest => items? fuel [] rest
    | '\x7b' :: rest =>
      match skipBlanks rest with
      | '\x7d' :: rest => some (.object [], rest)
      | rest => fields? fuel (some []) rest
    | rest => numeral? false rest

/-- The rest of a list, from an item on, after the items in `found`, last first. -/
def items? : Nat → List Json → List Char → Option (Json × List Char)
  | 0, _, _ => none
  | fuel + 1, found, cs =>
    match value? fuel cs with
    | none => none
    | some (item, rest) =>
      match skipBlanks rest with
      | ',' :: rest => items? fuel (item :: found) rest
      | ']' :: rest => some (.array (item :: found).reverse, rest)
      | _ => none

/-- The rest of an object, from a field on, after the fields in `found`, last first. The object is
unusable where a name is. -/
def fields? : Nat → Option (List (String × Json)) → List Char → Option (Json × List Char)
  | 0, _, _ => none
  | fuel + 1, found, cs =>
    match key? (skipBlanks cs) with
    | none => none
    | some (key, rest) =>
      match value? fuel rest with
      | none => none
      | some (value, rest) =>
        let found := match key, found with
          | some key, some found => some ((key, value) :: found)
          | _, _ => none
        match skipBlanks rest with
        | ',' :: rest => fields? fuel found rest
        | '\x7d' :: rest =>
          some (match found with
            | some fields => .object fields.reverse
            | none => .unusable, rest)
        | _ => none

end

/-- A value that begins with a digit is a numeral. -/
theorem value?_of_isDigit {cs rest : List Char} {c : Char} (hc : c.isDigit)
    (h : skipBlanks cs = c :: rest) (fuel : Nat) :
    value? (fuel + 1) cs = numeral? false (c :: rest) := by
  rw [value?, h]
  split
  all_goals first
    | rfl
    | next heq =>
      rw [(List.cons.inj heq).1] at hc
      exact absurd hc (by decide)

end Reader

/-- The value of a text. -/
def ofText? (text : String) : Option Json :=
  let cs := text.toList
  match Reader.value? (2 * cs.length + 2) cs with
  | some (value, rest) => if Reader.skipBlanks rest = [] then some value else none
  | none => none

end HopSampler.Json
