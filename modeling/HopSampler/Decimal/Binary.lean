/-!
# Finite binary numbers, exactly

A finite floating-point number is `mantissa * 2 ^ exponent`. This module reads that off the bits,
and says which reals round to the number: those up to half the gap to either neighbour, both ends
included exactly when the mantissa is even. At a power of two the gap below is half the gap above.
-/

-- The power of numbers is meant, also where there are powers in monoids.
attribute [local instance (high)] instPowNat

namespace HopSampler.Decimal

/-- The widths of a binary interchange format: fraction bits and exponent bits. -/
structure Format where
  fractionBits : Nat
  exponentBits : Nat

namespace Format

/-- The 32-bit format. -/
def single : Format := ⟨23, 8⟩

/-- The 64-bit format. -/
def double : Format := ⟨52, 11⟩

end Format

/-- A positive binary number and how its lower neighbour lies. -/
structure Binary where
  mantissa : Nat
  exponent : Int
  /-- The gap below is half the gap above. -/
  atPower : Bool

namespace Binary

/-- The magnitude with the given exponent and fraction fields. The exponent field is not all
ones. -/
def ofFields (format : Format) (exponentField fraction : Nat) : Binary :=
  let bias : Int := 2 ^ (format.exponentBits - 1) - 1 + format.fractionBits
  if exponentField = 0 then ⟨fraction, 1 - bias, false⟩
  else
    ⟨2 ^ format.fractionBits + fraction, exponentField - bias, fraction = 0 ∧ 1 < exponentField⟩

/-! ### The reals that round to a number

All three are counted in quarters of a unit in the last place, which makes them whole. -/

/-- The number itself. -/
def quarters (b : Binary) : Nat := 4 * b.mantissa

/-- The lower end. -/
def lowerQuarters (b : Binary) : Nat := if b.atPower then 4 * b.mantissa - 1 else 4 * b.mantissa - 2

/-- The upper end. -/
def upperQuarters (b : Binary) : Nat := 4 * b.mantissa + 2

/-- Whether the two ends round to the number as well. -/
def endsIncluded (b : Binary) : Bool := b.mantissa % 2 = 0

end Binary

/-! ### Reading the bits -/

/-- What the bits of a floating-point number hold. -/
inductive Reading where
  | notANumber
  | infinite (negative : Bool)
  | zero (negative : Bool)
  | finite (negative : Bool) (magnitude : Binary)

/-- Split the bits of a number into sign, exponent and fraction. -/
def Reading.ofBits (format : Format) (bits : Nat) : Reading :=
  let fraction := bits % 2 ^ format.fractionBits
  let exponentField := bits / 2 ^ format.fractionBits % 2 ^ format.exponentBits
  let negative := bits / 2 ^ (format.fractionBits + format.exponentBits) % 2 = 1
  if exponentField = 2 ^ format.exponentBits - 1 then
    if fraction = 0 then .infinite negative else .notANumber
  else if exponentField = 0 ∧ fraction = 0 then .zero negative
  else .finite negative (.ofFields format exponentField fraction)

/-- The contents of a double. -/
def Reading.ofFloat (x : Float) : Reading := .ofBits .double x.toBits.toNat

/-- The contents of a single. -/
def Reading.ofFloat32 (x : Float32) : Reading := .ofBits .single x.toBits.toNat

end HopSampler.Decimal
