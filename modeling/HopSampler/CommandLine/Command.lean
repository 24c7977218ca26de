import HopSampler.CommandLine.Scan
import HopSampler.Sampling.Request
import HopSampler.Text.Blank
import HopSampler.Text.Word

/-!
# Commands

What can be asked for on a command line, and how the words of one are read as a command. Reading a
command looks at no file; it settles which values are given, which stand for themselves and which
words make no command at all.
-/

namespace HopSampler.CommandLine

/-! ### What can be asked for -/

/-- How to sample; what is not given is taken from the configuration. -/
structure SamplerOptions where
  config : Option String
  budgets : Option (List UInt64)
  layout : Option EdgeLayout
  seed : Option UInt64
  withEdge : Bool
  replace : Bool
  deriving DecidableEq

/-- Whether to resolve features, and from which device. -/
structure FeatureOptions where
  features : Bool
  device : UInt64
  deriving DecidableEq

/-- A command. -/
inductive Command where
  | ring (output : String) (count degree width : UInt64)
  | stats (input : String)
  | sample (input : String) (type : NodeType) (seeds : List Id) (sampler : SamplerOptions)
      (features : FeatureOptions)
  | samplePairs (input : String) (type : EdgeType) (rows cols : List Id)
      (negatives : Option NegativeSampling) (sampler : SamplerOptions) (features : FeatureOptions)
  | epoch (input : String) (type : NodeType) (number : UInt64) (config : LoaderConfig)
      (sampler : SamplerOptions)
  deriving DecidableEq

/-! ### Values -/

/-- A 64-bit number. -/
def word? (s : String) : Option UInt64 := Text.word? s.toList

/-- The path of a file, which is not empty. -/
def path? (s : String) : Option String := if s = "" then none else some s

/-- 64-bit numbers between commas. -/
def words? (s : String) : Option (List UInt64) :=
  (Text.splitAt ',' s.toList).mapM Text.word?

/-- A layout, by name. -/
def layout? : String → Option EdgeLayout
  | "traversal" => some .traversal
  | "message-passing" => some .messagePassing
  | _ => none

/-- A mode of negatives, by name. -/
def mode? : String → Option NegativeMode
  | "binary" => some .binary
  | "triplet" => some .triplet
  | _ => none

/-- An edge type: three names between commas, none of them blank. -/
def edgeType? (s : String) : Option EdgeType :=
  match (Text.splitAt ',' s.toList).map Text.trim with
  | [source, relation, target] =>
    if source = [] ∨ relation = [] ∨ target = [] then none
    else some ⟨⟨String.ofList source⟩, String.ofList relation, ⟨String.ofList target⟩⟩
  | _ => none

/-! ### Options by command -/

/-- An option without a value. -/
def flag (name : String) : Known := { name, kind := .flag }

/-- An option with one value. -/
def single (name : String) (read : String → Option α) : Known :=
  { name, kind := .single, accepts := fun s ↦ (read s).isSome }

/-- An option with numbers between commas. -/
def many (name : String) : Known :=
  { name, kind := .many, accepts := fun s ↦ (words? s).isSome }

/-- The option that every command takes. -/
def verbose : Known := { name := "verbose", kind := .counter, letter := some 'v' }

/-- Options on how to sample. -/
def samplerOptions : List Known :=
  [single "config" path?, many "num-neighbors", single "layout" layout?, single "seed" word?,
    flag "with-edge", flag "replace"]

/-- Options on features. -/
def featureOptions : List Known := [flag "features", single "device" word?]

/-- What a command takes, by its name. -/
def usage? : String → Option Usage
  | "ring" => some ⟨[verbose, { single "output" path? with letter := some 'o' },
      single "num-nodes" word?, single "degree" word?, single "dim" word?], 0⟩
  | "stats" => some ⟨[verbose], 1⟩
  | "sample" => some ⟨[verbose, single "input-type" some, many "seeds"] ++ samplerOptions ++
      featureOptions, 1⟩
  | "sample-edges" => some ⟨[verbose, single "edge-type" edgeType?, many "rows", many "cols",
      single "neg" mode?, single "amount" word?] ++ samplerOptions ++ featureOptions, 1⟩
  | "epoch" => some ⟨[verbose, single "input-type" some, single "batch-size" word?, flag "shuffle",
      flag "drop-last", single "epoch" word?, single "prefetch" word?, single "timeout-ms" word?,
      single "device" word?] ++ samplerOptions, 1⟩
  | _ => none

/-- Whether there is help on what the words name: nothing, a command, or help itself. -/
def isHelpTopic : List String → Bool
  | [] => true
  | [name] => name = "help" || (usage? name).isSome
  | _ => false

/-! ### Reading options -/

/-- A value, or the refusal of the command line. -/
def orUsage (value : Option α) : Except Refusal α :=
  match value with
  | some a => .ok a
  | none => .error .usage

namespace Scanned

/-- The value of an option that may be missing. -/
def optional (s : Scanned) (name : String) (read : String → Option α) :
    Except Refusal (Option α) :=
  match s.values name with
  | [] => .ok none
  | value :: _ => some <$> orUsage (read value)

/-- The value of an option that stands for `fallback` when it is missing. -/
def defaulted (s : Scanned) (name : String) (fallback : α) (read : String → Option α) :
    Except Refusal α :=
  (·.getD fallback) <$> s.optional name read

/-- The value of an option that must be given. -/
def required (s : Scanned) (name : String) (read : String → Option α) : Except Refusal α := do
  orUsage (← s.optional name read)

/-- The numbers given for an option, all occurrences together; absent where there is none. -/
def numbers (s : Scanned) (name : String) : Except Refusal (Option (List UInt64)) :=
  match s.values name with
  | [] => .ok none
  | values => (fun lists ↦ some lists.flatten) <$> orUsage (values.mapM words?)

/-- The numbers of an option that must be given. -/
def requiredNumbers (s : Scanned) (name : String) : Except Refusal (List UInt64) := do
  orUsage (← s.numbers name)

/-- The operand. -/
def input (s : Scanned) : Except Refusal String := orUsage s.operands.head?

/-- How to sample. -/
def samplerOptions (s : Scanned) : Except Refusal SamplerOptions := do
  .ok ⟨← s.optional "config" path?, ← s.numbers "num-neighbors", ← s.optional "layout" layout?,
    ← s.optional "seed" word?, s.has "with-edge", s.has "replace"⟩

/-- Whether to resolve features. -/
def featureOptions (s : Scanned) : Except Refusal FeatureOptions := do
  .ok ⟨s.has "features", ← s.defaulted "device" 0 word?⟩

/-- A node type, by name. -/
def nodeType (s : Scanned) : Except Refusal NodeType :=
  NodeType.mk <$> s.required "input-type" some

/-- The negatives asked for; the amount counts for triplets only. -/
def negatives (s : Scanned) : Except Refusal (Option NegativeSampling) := do
  let mode ← s.optional "neg" mode?
  let amount ← s.defaulted "amount" 1 word?
  .ok (mode.map fun
    | .binary => ⟨.binary, 1⟩
    | .triplet => ⟨.triplet, amount⟩)

/-- How to cut an epoch into batches. -/
def loaderConfig (s : Scanned) : Except Refusal LoaderConfig := do
  .ok { batchSize := ← s.defaulted "batch-size" 512 word?
        shuffle := s.has "shuffle"
        dropLast := s.has "drop-last"
        prefetch := ← s.defaulted "prefetch" 2 word?
        featureTimeout := ← s.optional "timeout-ms" word?
        device := ← s.defaulted "device" 0 word? }

end Scanned

/-! ### Reading a command -/

namespace Command

/-- The command of a name and the words behind it. -/
def ofScanned (name : String) (s : Scanned) : Except Refusal Command :=
  match name with
  | "ring" => do
    .ok (.ring (← s.required "output" path?) (← s.defaulted "num-nodes" 40 word?)
      (← s.defaulted "degree" 2 word?) (← s.defaulted "dim" 8 word?))
  | "stats" => .stats <$> s.input
  | "sample" => do
    .ok (.sample (← s.input) (← s.nodeType) (← s.requiredNumbers "seeds") (← s.samplerOptions)
      (← s.featureOptions))
  | "sample-edges" => do
    .ok (.samplePairs (← s.input) (← s.required "edge-type" edgeType?)
      (← s.requiredNumbers "rows") (← s.requiredNumbers "cols") (← s.negatives)
      (← s.samplerOptions) (← s.featureOptions))
  | "epoch" => do
    .ok (.epoch (← s.input) (← s.nodeType) (← s.defaulted "epoch" 0 word?) (← s.loaderConfig)
      (← s.samplerOptions))
  | _ => .error .usage

/-- The command of a command line: options that every command takes, the name of the command, and
its own options and operands. -/
def ofWords : List String → Except Refusal Command
  | [] => .error .usage
  | text :: rest =>
    match Word.ofText text with
    | .operand name =>
      if name = "help" then .error (if isHelpTopic rest then .help else .usage)
      else
        match usage? name with
        | none => .error .usage
        | some usage => do ofScanned name (← scanWords usage .empty none rest)
    | .divider => .error .usage
    | .long name value => do
      discard (scanLong [verbose] .empty name value)
      ofWords rest
    | .letters letters => do
      discard (scanLetters [verbose] .empty letters)
      ofWords rest

/-- The files that a command reads. -/
def inputs : Command → List String
  | .ring .. => []
  | .stats input => [input]
  | .sample input _ _ sampler _ => input :: sampler.config.toList
  | .samplePairs input _ _ _ _ sampler _ => input :: sampler.config.toList
  | .epoch input _ _ _ sampler => input :: sampler.config.toList

end Command

end HopSampler.CommandLine
