/-!
# JSON values

What a JSON text stands for. Objects keep their fields in the order of the text and keep repeated
ones, because the decoders decide what a repetition means.

**Numbers keep their kind.** A whole number without fraction or exponent is not the same value as
the same number with one: the first fits integer fields, the second does not. A single-precision
number has a constructor of its own, since it is written with fewer digits than the double it
equals.

**Not every text has a value.** A number too large for a double and a string with half of a
surrogate pair are well formed and stand for nothing. They are kept as `unusable`, which no decoder
accepts and which does no harm in a field that is not read.
-/

namespace HopSampler

namespace Json

/-- A number, by kind. -/
inductive Number where
  /-- A whole number from zero up. -/
  | natural (n : Nat)
  /-- The negative of a positive whole number. -/
  | negative (n : Nat)
  | double (x : Float)
  | single (x : Float32)

end Json

/-- A JSON value. -/
inductive Json where
  | null
  | bool (b : Bool)
  | number (n : Json.Number)
  | string (s : String)
  | array (items : List Json)
  | object (fields : List (String × Json))
  | unusable

instance : Inhabited Json := ⟨.null⟩

namespace Json

/-! ### Building -/

/-- A whole number. -/
def ofNat (n : Nat) : Json := .number (.natural n)

/-- A 64-bit number. -/
def ofWord (w : UInt64) : Json := ofNat w.toNat

/-- A signed 64-bit number. -/
def ofInt64 (i : Int64) : Json :=
  if i.toInt < 0 then .number (.negative i.toInt.natAbs) else ofNat i.toInt.toNat

/-- A single, `null` where it is not finite. -/
def ofFloat32 (x : Float32) : Json := if x.isFinite then .number (.single x) else .null

/-- A double, `null` where it is not finite. -/
def ofFloat (x : Float) : Json := if x.isFinite then .number (.double x) else .null

/-- A list of values. -/
def ofList (f : α → Json) (items : List α) : Json := .array (items.map f)

/-- A value or `null`. -/
def ofOption (f : α → Json) : Option α → Json
  | none => .null
  | some a => f a

/-! ### Shape -/

mutual

/-- How many lists and objects lie around the innermost value. -/
def depth : Json → Nat
  | .array items => depthOfItems items + 1
  | .object fields => depthOfFields fields + 1
  | _ => 0

/-- The greatest depth among list items. -/
def depthOfItems : List Json → Nat
  | [] => 0
  | item :: rest => max item.depth (depthOfItems rest)

/-- The greatest depth among field values. -/
def depthOfFields : List (String × Json) → Nat
  | [] => 0
  | (_, value) :: rest => max value.depth (depthOfFields rest)

end

mutual

/-- Whether every part of the value is usable. -/
def isUsable : Json → Bool
  | .unusable => false
  | .array items => areItemsUsable items
  | .object fields => areFieldsUsable fields
  | _ => true

/-- Whether every list item is usable throughout. -/
def areItemsUsable : List Json → Bool
  | [] => true
  | item :: rest => item.isUsable && areItemsUsable rest

/-- Whether every field value is usable throughout. -/
def areFieldsUsable : List (String × Json) → Bool
  | [] => true
  | (_, value) :: rest => value.isUsable && areFieldsUsable rest

end

end Json

end HopSampler
