import HopSampler.Text.Pieces

/-!
# Scanning a command line

The words of a command line are options and operands. An option has a long name after two dashes and
may have a letter after one; what it takes is fixed by its `Kind`. A value stands behind `=`, or in
the next word unless that starts with a dash; behind a letter it may also follow directly. Letters
that take no value can be run together. After `--` every word is an operand.

Options that are not meant to be repeated must not be. Values and operands are checked as they come,
so of two faults, or of a fault and a call for help, the first in the line counts.
-/

namespace HopSampler.CommandLine

/-- What an option takes. -/
inductive Kind where
  /-- Nothing; given at most once. -/
  | flag
  /-- Nothing; given any number of times. -/
  | counter
  /-- One value; given at most once. -/
  | single
  /-- One value each time; given any number of times. -/
  | many
  deriving DecidableEq

/-- An option that is known. -/
structure Known where
  name : String
  kind : Kind
  letter : Option Char := none
  /-- Whether a text is a value of the option. -/
  accepts : String → Bool := fun _ ↦ true

/-- What a command takes. -/
structure Usage where
  options : List Known
  /-- The greatest number of operands. -/
  operands : Nat

/-- Why a command line does not lead to a command. -/
inductive Refusal where
  /-- The words make no command. -/
  | usage
  /-- Help is asked for. -/
  | help
  deriving DecidableEq

/-- The words of a command line, told apart. -/
structure Scanned where
  /-- Options with their values, in order; options without a value have an empty one. -/
  options : List (String × String)
  operands : List String

namespace Scanned

/-- Nothing found yet. -/
def empty : Scanned := ⟨[], []⟩

/-- The values given for an option, in order. -/
def values (s : Scanned) (name : String) : List String :=
  (s.options.filter (·.1 = name)).map (·.2)

/-- Whether an option is given. -/
def has (s : Scanned) (name : String) : Bool := s.options.any (·.1 = name)

end Scanned

/-! ### One word -/

/-- What a word is. -/
inductive Word where
  | operand (text : String)
  /-- Everything behind is an operand. -/
  | divider
  | long (name : String) (value : Option String)
  | letters (letters : List Char)

/-- Tell a word by its dashes. -/
def Word.ofText (text : String) : Word :=
  match text.toList with
  | ['-', '-'] => .divider
  | '-' :: '-' :: rest =>
    let (name, value) := Text.cutAt '=' rest
    .long (String.ofList name) (value.map String.ofList)
  | ['-'] => .operand text
  | '-' :: rest => .letters rest
  | _ => .operand text

/-- A word that can be the value of the option before it. -/
def isValue (text : String) : Bool :=
  match Word.ofText text with
  | .operand _ => true
  | _ => false

/-! ### All words -/

/-- Note an option, unless it must not be repeated and is, or has a value that it does not take. -/
def note (found : Scanned) (option : Known) (value : String) : Except Refusal Scanned :=
  if found.has option.name ∧ (option.kind = .flag ∨ option.kind = .single) then .error .usage
  else if option.accepts value then
    .ok { found with options := found.options ++ [(option.name, value)] }
  else .error .usage

/-- Note operands, each the path of a file, unless there are too many. -/
def noteOperands (usage : Usage) (found : Scanned) (texts : List String) : Except Refusal Scanned :=
  if found.operands.length + texts.length ≤ usage.operands ∧ texts.all (· ≠ "") then
    .ok { found with operands := found.operands ++ texts }
  else .error .usage

/-- Read a run of letters: those that take no value, then perhaps one that does. The option left
waiting for the next word is given back. -/
def scanLetters (known : List Known) (found : Scanned) :
    List Char → Except Refusal (Scanned × Option Known)
  | [] => .ok (found, none)
  | c :: rest =>
    match known.find? (·.letter = some c) with
    | none => .error (if c = 'h' then .help else .usage)
    | some option =>
      match option.kind with
      | .flag | .counter => do
        let found ← note found option ""
        scanLetters known found rest
      | .single | .many =>
        match rest with
        | [] => .ok (found, some option)
        | '=' :: value => (·, none) <$> note found option (String.ofList value)
        | value => (·, none) <$> note found option (String.ofList value)

/-- Read a long option. The option left waiting for the next word is given back. -/
def scanLong (known : List Known) (found : Scanned) (name : String) (value : Option String) :
    Except Refusal (Scanned × Option Known) :=
  match known.find? (·.name = name) with
  | none => .error (if name = "help" ∧ value = none then .help else .usage)
  | some option =>
    match option.kind, value with
    | .flag, some _ => .error .usage
    | .counter, some _ => .error .usage
    | .flag, none => (·, none) <$> note found option ""
    | .counter, none => (·, none) <$> note found option ""
    | _, some value => (·, none) <$> note found option value
    | _, none => .ok (found, some option)

/-- Read the words, the first of which may be the value of the option that is waiting for one. -/
def scanWords (usage : Usage) (found : Scanned) (waiting : Option Known) :
    List String → Except Refusal Scanned
  | [] =>
    match waiting with
    | none => .ok found
    | some _ => .error .usage
  | text :: rest =>
    match waiting with
    | some option =>
      if isValue text then do
        let found ← note found option text
        scanWords usage found none rest
      else .error .usage
    | none =>
      match Word.ofText text with
      | .operand text => do
        let found ← noteOperands usage found [text]
        scanWords usage found none rest
      | .divider => noteOperands usage found rest
      | .long name value => do
        let (found, waiting) ← scanLong usage.options found name value
        scanWords usage found waiting rest
      | .letters letters => do
        let (found, waiting) ← scanLetters usage.options found letters
        scanWords usage found waiting rest

end HopSampler.CommandLine
