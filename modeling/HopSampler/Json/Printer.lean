import HopSampler.Decimal.Layout
import HopSampler.Json.Value

/-!
# Writing JSON

Values are written compactly, or with one item to a line and two blanks per level. Strings escape
the quote, the backslash and the control characters and nothing else. A number without a fraction
keeps a `.0` where its value is a double or a single.
-/

namespace HopSampler.Json

/-! ### Leaves -/

/-- A lower-case hexadecimal digit. -/
def hexChar (n : Nat) : Char := (Nat.toDigits 16 (n % 16)).headD '0'

/-- A character inside a string. -/
def escape (c : Char) : List Char :=
  match c with
  | '\x22' => ['\\', '\x22']
  | '\\' => ['\\', '\\']
  | '\x08' => ['\\', 'b']
  | '\x0c' => ['\\', 'f']
  | '\n' => ['\\', 'n']
  | '\r' => ['\\', 'r']
  | '\t' => ['\\', 't']
  | _ => if c.toNat < 0x20 then ['\\', 'u', '0', '0', hexChar (c.toNat / 16), hexChar c.toNat]
    else [c]

/-- A string in quotes. -/
def quoted (s : String) : String :=
  String.ofList ('\x22' :: (s.toList.flatMap escape ++ ['\x22']))

/-- A number. -/
def Number.text : Number → String
  | .natural n => toString n
  | .negative n => "-" ++ toString n
  | .double x => if x.isFinite then (Decimal.Reading.ofFloat x).write Decimal.fileDouble else "null"
  | .single x =>
    if x.isFinite then (Decimal.Reading.ofFloat32 x).write Decimal.fileSingle else "null"

/-! ### The compact form -/

mutual

/-- Write a value after `done`. -/
def writeCompact (done : String) : Json → String
  | .null => done ++ "null"
  | .bool b => done ++ (if b then "true" else "false")
  | .number n => done ++ n.text
  | .string s => done ++ quoted s
  | .array [] => done ++ "[]"
  | .array (item :: rest) => writeItems (writeCompact (done.push '[') item) rest
  | .object [] => (done.push '\x7b').push '\x7d'
  | .object ((key, value) :: rest) =>
    writeFields (writeCompact (((done.push '\x7b') ++ quoted key).push ':') value) rest
  | .unusable => done ++ "null"

/-- Write the remaining items of a list and close it. -/
def writeItems (done : String) : List Json → String
  | [] => done.push ']'
  | item :: rest => writeItems (writeCompact (done.push ',') item) rest

/-- Write the remaining fields of an object and close it. -/
def writeFields (done : String) : List (String × Json) → String
  | [] => done.push '\x7d'
  | (key, value) :: rest =>
    writeFields (writeCompact (((done.push ',') ++ quoted key).push ':') value) rest

end

/-- The compact form of a value. -/
def compact (value : Json) : String := writeCompact "" value

/-! ### The indented form -/

/-- The start of a line at a level. -/
def indent (level : Nat) : String := String.ofList ('\n' :: List.replicate (2 * level) ' ')

mutual

/-- Write a value at a level after `done`. -/
def writePretty (level : Nat) (done : String) : Json → String
  | .null => done ++ "null"
  | .bool b => done ++ (if b then "true" else "false")
  | .number n => done ++ n.text
  | .string s => done ++ quoted s
  | .array [] => done ++ "[]"
  | .array (item :: rest) =>
    writePrettyItems level (writePretty (level + 1) ((done.push '[') ++ indent (level + 1)) item) rest
  | .object [] => (done.push '\x7b').push '\x7d'
  | .object ((key, value) :: rest) =>
    writePrettyFields level
      (writePretty (level + 1)
        ((done.push '\x7b') ++ indent (level + 1) ++ quoted key ++ ": ") value) rest
  | .unusable => done ++ "null"

/-- Write the remaining items of a list, one to a line, and close it. -/
def writePrettyItems (level : Nat) (done : String) : List Json → String
  | [] => (done ++ indent level).push ']'
  | item :: rest =>
    writePrettyItems level (writePretty (level + 1) ((done.push ',') ++ indent (level + 1)) item) rest

/-- Write the remaining fields of an object, one to a line, and close it. -/
def writePrettyFields (level : Nat) (done : String) : List (String × Json) → String
  | [] => (done ++ indent level).push '\x7d'
  | (key, value) :: rest =>
    writePrettyFields level
      (writePretty (level + 1) ((done.push ',') ++ indent (level + 1) ++ quoted key ++ ": ") value)
      rest

end

/-- The indented form of a value. -/
def pretty (value : Json) : String := writePretty 0 "" value

end HopSampler.Json
