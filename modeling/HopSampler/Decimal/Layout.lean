import HopSampler.Decimal.Shortest

/-!
# Writing a decimal

How the digits of a number are laid out: with a point among them and zeros around them, or with one
digit before the point and a power of ten. A `Layout` says up to which exponents the first form is
used, how a tie between two shortest decimals goes, and whether a whole number keeps a `.0`.
-/

namespace HopSampler.Decimal

/-- Decisions of a written form. -/
structure Layout where
  /-- The least and greatest exponent of the leading digit that are written with a plain point;
  every exponent is when there is no bound. -/
  plainExponents : Option (Int × Int)
  tie : Tie
  wholeMark : String

namespace Scientific

/-- The exponent of the leading digit. -/
def leading (s : Scientific) : Int := s.exponent + (toString s.digits).length - 1

/-- A row of zeros. -/
def zeros (n : Nat) : String := String.ofList (List.replicate n '0')

/-- Written with a plain point. -/
def plain (wholeMark : String) (s : Scientific) : String :=
  let digits := toString s.digits
  if 0 ≤ s.exponent then digits ++ zeros s.exponent.toNat ++ wholeMark
  else
    let places := (-s.exponent).toNat
    if places < digits.length then
      let chars := digits.toList
      let whole := digits.length - places
      String.ofList (chars.take whole) ++ "." ++ String.ofList (chars.drop whole)
    else "0." ++ zeros (places - digits.length) ++ digits

/-- An exponent, always with its sign. -/
def exponentText (e : Int) : String :=
  (if e < 0 then "-" else "+") ++ toString e.natAbs

/-- Written with a power of ten. -/
def withPower (s : Scientific) : String :=
  match (toString s.digits).toList with
  | [] => ""
  | [d] => String.ofList [d] ++ "e" ++ exponentText s.leading
  | d :: rest => String.ofList [d] ++ "." ++ String.ofList rest ++ "e" ++ exponentText s.leading

/-- Written as the layout says. -/
def write (layout : Layout) (s : Scientific) : String :=
  match layout.plainExponents with
  | none => s.plain layout.wholeMark
  | some (least, greatest) =>
    if least ≤ s.leading ∧ s.leading ≤ greatest then s.plain layout.wholeMark else s.withPower

end Scientific

namespace Reading

/-- A number as text. -/
def write (layout : Layout) : Reading → String
  | .notANumber => "NaN"
  | .infinite negative => sign negative ++ "inf"
  | .zero negative => sign negative ++ "0" ++ layout.wholeMark
  | .finite negative b => sign negative ++ (b.shortest layout.tie).write layout
where
  sign (negative : Bool) : String := if negative then "-" else ""

end Reading

/-! ### The layouts in use -/

/-- Doubles in files: plain from a hundred-thousandth up to sixteen digits before the point, always
with a point or a power. -/
def fileDouble : Layout := ⟨some (-5, 15), .toEven, ".0"⟩

/-- Singles in files: plain from a millionth up to thirteen digits before the point. -/
def fileSingle : Layout := ⟨some (-6, 12), .toEven, ".0"⟩

/-- Doubles in messages: always plain, a whole number without a point, ties up. -/
def inMessage : Layout := ⟨none, .up, ""⟩

end HopSampler.Decimal
