import HopSampler.Json.Value

/-!
# Reading numerals

A numeral is digits, perhaps a fraction, perhaps an exponent. Without fraction and exponent it is a
whole number where 64 bits hold it. Everything else is a double, found in two steps: as many leading
digits as 64 bits hold are collected into a significand, and the significand is multiplied or
divided by one power of ten.

**One rounding per step.** The significand, the power and the quotient are each rounded to a double,
so the value can be a unit off the nearest double. Reading what was written is exact for the short
numerals the library writes in practice, and the steps are spelled out so that the value of every
numeral is fixed.
-/

namespace HopSampler.Json

/-- The parts of a numeral. -/
structure Numeral where
  negative : Bool
  whole : List Nat
  fraction : List Nat
  /-- Whether the exponent is negative, and its digits. -/
  exponent : Option (Bool × List Nat)

namespace Numeral

/-- The number written by a row of digits. -/
def ofDigits (digits : List Nat) : Nat := digits.foldl (fun n d ↦ n * 10 + d) 0

/-! ### The significand -/

/-- Collect whole digits while 64 bits hold the significand; the rest only raise the exponent. -/
def collectWhole (significand : Nat) : List Nat → Nat × Int
  | [] => (significand, 0)
  | d :: rest =>
    if significand * 10 + d < UInt64.size then collectWhole (significand * 10 + d) rest
    else (significand, rest.length + 1)

/-- Collect fraction digits while 64 bits hold the significand, each lowering the exponent; the rest
are dropped. -/
def collectFraction (significand : Nat) (exponent : Int) : List Nat → Nat × Int
  | [] => (significand, exponent)
  | d :: rest =>
    if significand * 10 + d < UInt64.size then
      collectFraction (significand * 10 + d) (exponent - 1) rest
    else (significand, exponent)

/-! ### Scaling -/

/-- The double nearest to a power of ten. -/
def powerOfTen (k : Nat) : Float := Float.ofScientific 1 false k

/-- The greatest power of ten that a double holds. -/
def greatestPower : Nat := 308

/-- Divide by a power of ten, in steps of the greatest one. Three steps bring every significand to
zero. -/
def divideByPower (x : Float) (k : Nat) : Nat → Float
  | 0 => x
  | steps + 1 =>
    if k ≤ greatestPower then x / powerOfTen k
    else if x == 0.0 then x
    else divideByPower (x / powerOfTen greatestPower) (k - greatestPower) steps

/-- A significand times a power of ten, absent beyond the range of doubles. -/
def scale? (significand : Nat) (exponent : Int) : Option Float :=
  let x := significand.toUInt64.toFloat
  if exponent < 0 then some (divideByPower x exponent.natAbs 4)
  else if exponent.toNat ≤ greatestPower then
    let y := x * powerOfTen exponent.toNat
    if y.isInf then none else some y
  else if significand = 0 then some x
  else none

/-- Exponents beyond this are settled by their sign alone. -/
def greatestExponent : Nat := 2147483647

/-- The double of a numeral, without its sign. -/
def magnitude? (n : Numeral) : Option Float :=
  let (significand, exponent) := collectWhole 0 n.whole
  let (significand, exponent) := collectFraction significand exponent n.fraction
  match n.exponent with
  | none => scale? significand exponent
  | some (negative, digits) =>
    let k := ofDigits digits
    if greatestExponent < k then
      if significand = 0 ∨ negative then some 0.0 else none
    else scale? significand (if negative then exponent - k else exponent + k)

/-- The double of a numeral. -/
def double? (n : Numeral) : Option Float :=
  n.magnitude?.map fun x ↦ if n.negative then -x else x

/-- The value of a numeral. -/
def value (n : Numeral) : Json :=
  let wide : Json := match n.double? with
    | some x => .number (.double x)
    | none => .unusable
  if n.fraction = [] ∧ n.exponent = none then
    let k := ofDigits n.whole
    if n.negative then if 0 < k ∧ k ≤ Int64.size / 2 then .number (.negative k) else wide
    else if k < UInt64.size then .number (.natural k) else wide
  else wide

end Numeral

end HopSampler.Json
