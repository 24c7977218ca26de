import HopSampler.Decimal.Binary

/-!
# The fewest digits that read back

A decimal `digits * 10 ^ exponent` reads back as a binary number when it lies among the reals that
round to it. Of those, `shortest` takes one on the coarsest grid of powers of ten that has any, and
of two on that grid the nearer.

**Two neighbours are enough.** If any point of a grid lies in the interval, so does one of the two
points next to the number itself, so each grid is settled by one division.
-/

-- The power of numbers is meant, also where there are powers in monoids.
attribute [local instance (high)] instPowNat

namespace HopSampler.Decimal

/-- A decimal number `digits * 10 ^ exponent`. -/
structure Scientific where
  digits : Nat
  exponent : Int

/-- Which of two equally near decimals is taken. -/
inductive Tie where
  | toEven
  | up

/-- The point of the grid of multiples of `10 ^ k` that reads back as `b` and is nearest to it, if
one reads back at all. -/
def Binary.onGrid (tie : Tie) (b : Binary) (k : Int) : Option Nat :=
  let scale := 2 ^ (b.exponent - 2).toNat * 10 ^ (-k).toNat
  let unit := 2 ^ (2 - b.exponent).toNat * 10 ^ k.toNat
  let value := b.quarters * scale
  let low := b.lowerQuarters * scale
  let high := b.upperQuarters * scale
  let within (d : Nat) : Bool :=
    if b.endsIncluded then low ≤ d * unit ∧ d * unit ≤ high else low < d * unit ∧ d * unit < high
  let d := value / unit
  match within d, within (d + 1) with
  | false, false => none
  | true, false => some d
  | false, true => some (d + 1)
  | true, true =>
    let rest := 2 * (value % unit)
    if rest < unit then some d
    else if unit < rest then some (d + 1)
    else match tie with
      | .toEven => some (if d % 2 = 0 then d else d + 1)
      | .up => some (d + 1)

/-- The number written out in full. -/
def Binary.exact (b : Binary) : Scientific :=
  if 0 ≤ b.exponent then ⟨b.mantissa * 2 ^ b.exponent.toNat, 0⟩
  else ⟨b.mantissa * 5 ^ (-b.exponent).toNat, b.exponent⟩

/-- A power of ten above the number. -/
def Binary.topGrid (b : Binary) : Int :=
  (b.exponent + b.mantissa.log2 + 1) * 30103 / 100000 + 1

/-- How many grids are tried: seventeen digits always read back as a double. -/
def gridCount : Nat := 20

/-- The shortest decimal that reads back as `b`. -/
def Binary.shortest (tie : Tie) (b : Binary) : Scientific :=
  ((List.range gridCount).findSome? fun i : Nat ↦
    let k := b.topGrid - i
    (b.onGrid tie k).map fun d ↦ ⟨d, k⟩).getD b.exact

end HopSampler.Decimal
