/-!
# Words in text

A 64-bit number in text: decimal digits, at least one, after an optional plus sign. Leading zeros
are allowed; what does not fit 64 bits is refused.
-/

namespace HopSampler.Text

/-- The value of a row of decimal digits, `none` where a character is no digit. -/
def digitsValue? (digits : List Char) : Option Nat :=
  digits.foldlM (fun n c ↦ if c.isDigit then some (n * 10 + (c.toNat - '0'.toNat)) else none) 0

/-- The digits after an optional plus sign. -/
def unsigned : List Char → List Char
  | '+' :: rest => rest
  | s => s

/-- The number that a text is. -/
def word? (s : List Char) : Option UInt64 :=
  if unsigned s = [] then none
  else (digitsValue? (unsigned s)).bind fun n ↦ if n < UInt64.size then some n.toUInt64 else none

example : word? ['+', '0', '7'] = some 7 := by decide

example : word? ['+'] = none := rfl

end HopSampler.Text
