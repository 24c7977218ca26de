import HopSampler.Json.Value

/-!
# Decoding JSON values

A decoder takes a value to what it stands for, or to nothing. This module has the decoders of leaves
and lists, and `record?`, which reads the named fields of a structure.

**Structures come in two forms.** An object gives fields by name: fields that are not asked for are
skipped unread, and one that is asked for must not be repeated. A list gives them by position: it
may stop early and must not run over. Either way a field that is not given is absent, and the caller
says whether that is an error, a default or `none`.
-/

namespace HopSampler.Json

/-! ### Leaves -/

/-- A 64-bit number, written without sign, fraction or exponent. -/
def word? : Json → Option UInt64
  | .number (.natural n) => if n < UInt64.size then some n.toUInt64 else none
  | _ => none

/-- A signed 64-bit number. -/
def int64? : Json → Option Int64
  | .number (.natural n) => if n < Int64.size / 2 then some (Int64.ofInt n) else none
  | .number (.negative n) => if n ≤ Int64.size / 2 then some (Int64.ofInt (-n)) else none
  | _ => none

/-- A double, from any number. -/
def float? : Json → Option Float
  | .number (.natural n) => some n.toUInt64.toFloat
  | .number (.negative n) => some (Int64.ofInt (-n)).toFloat
  | .number (.double x) => some x
  | .number (.single x) => some x.toFloat
  | _ => none

/-- A single, from any number. -/
def float32? : Json → Option Float32
  | .number (.natural n) => some n.toUInt64.toFloat32
  | .number (.negative n) => some (Int64.ofInt (-n)).toFloat32
  | .number (.double x) => some x.toFloat32
  | .number (.single x) => some x
  | _ => none

/-- A text. -/
def text? : Json → Option String
  | .string s => some s
  | _ => none

/-- A truth value. -/
def bool? : Json → Option Bool
  | .bool b => some b
  | _ => none

/-! ### Lists and maps -/

/-- A list of things that decode. -/
def list? (decode : Json → Option α) : Json → Option (List α)
  | .array items => items.mapM decode
  | _ => none

/-- The fields of an object, each value decoded, in the order of the text. -/
def entries? (decode : Json → Option α) : Json → Option (List (String × α))
  | .object fields => fields.mapM fun (key, value) ↦ (decode value).map (key, ·)
  | _ => none

/-! ### Structures -/

/-- The value of a field of an object, absent where it is not given; fails where it is repeated. -/
def field? (fields : List (String × Json)) (name : String) : Option (Option Json) :=
  match fields.filter (·.1 = name) with
  | [] => some none
  | [(_, value)] => some (some value)
  | _ => none

/-- The values of the named fields, absent ones where they are not given. -/
def record? (names : List String) : Json → Option (List (Option Json))
  | .object fields => names.mapM (field? fields)
  | .array items =>
    if items.length ≤ names.length then
      some (items.map some ++ List.replicate (names.length - items.length) none)
    else none
  | _ => none

/-- A field that has to be given. -/
def required (decode : Json → Option α) (value : Option Json) : Option α := value.bind decode

/-- A field that stands for `fallback` when it is not given. -/
def defaulted (decode : Json → Option α) (fallback : α) : Option Json → Option α
  | none => some fallback
  | some value => decode value

/-- A field that may be absent or `null`. -/
def optional (decode : Json → Option α) : Option Json → Option (Option α)
  | none => some none
  | some .null => some none
  | some value => (decode value).map some

/-! ### Names -/

/-- A bare name: its text, or an object with that one field holding `null`. -/
def name? : Json → Option String
  | .string s => some s
  | .object [(s, .null)] => some s
  | _ => none

end HopSampler.Json
