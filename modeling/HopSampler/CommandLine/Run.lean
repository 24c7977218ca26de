import HopSampler.CommandLine.Command
import HopSampler.CommandLine.Report
import HopSampler.Dataset.Ring
import HopSampler.Loading.Pipeline
import HopSampler.Sampling.Codec

/-!
# Running a command

A command is a function of the files it reads. What it leads to is a report, a report with a file to
be written first, or a failure. A failure says what was being done, and for most steps why that did
not succeed.
-/

namespace HopSampler.CommandLine

/-- The text of a file, by path; absent where it cannot be read. -/
abbrev Files := String → Option String

/-- What was being done when a command failed, and why it did. -/
structure Failure where
  message : String
  cause : Option Error

/-- What a command leads to. -/
structure Outcome where
  /-- A file to be written, path and text, before the report is made. -/
  write : Option (String × String)
  report : Report

/-! ### Failures -/

/-- Say what is being done. -/
def during (message : String) : Except Error α → Except Failure α
  | .ok a => .ok a
  | .error e => .error ⟨message, some e⟩

/-- A failure that speaks for itself. -/
def plainly : Except Error α → Except Failure α
  | .ok a => .ok a
  | .error e => .error ⟨e.message, none⟩

/-! ### Steps -/

/-- The dataset in a file and its graph. -/
def loadDataset (files : Files) (path : String) : Except Failure (Dataset × Graph) := do
  let dataset ← during ("Failed to load dataset " ++ path) <|
    match files path with
    | none => .error .file
    | some text => Dataset.ofText text
  let graph ← during ("Invalid topology in " ++ path) dataset.graph
  .ok (dataset, graph)

/-- The configuration in a file, or the standard one. -/
def baseConfig (files : Files) : Option String → Except Failure SamplerConfig
  | none => .ok {}
  | some path => during ("Failed to load sampler config " ++ path) <|
    match files path with
    | none => .error .file
    | some text => SamplerConfig.ofText text

/-- The configuration with what the options say. -/
def samplerConfig (files : Files) (o : SamplerOptions) : Except Failure SamplerConfig := do
  let c ← baseConfig files o.config
  .ok { c with
    budgets := (o.budgets.map .uniform).getD c.budgets
    layout := o.layout.getD c.layout
    seed := o.seed.getD c.seed
    withEdge := c.withEdge || o.withEdge
    replace := c.replace || o.replace }

/-- The assembler of a dataset for one device, which gets a copy of the hot rows. -/
def assembler (d : Dataset) (device : UInt64) : Except Failure Assembler := do
  let store ← during "Failed to build feature tables" (d.features [⟨0, [device]⟩])
  .ok ⟨some store, d.nodeLabels, device, none⟩

/-- Report an output, its features resolved if that is asked for. -/
def reportOutput (d : Dataset) (out : SamplingOutput) (o : FeatureOptions) :
    Except Failure Report :=
  if o.features then do
    let a ← assembler d o.device
    let batch ← during "Feature resolution failed" (a.assemble out)
    .ok (.subgraph out (some batch))
  else .ok (.subgraph out none)

/-- Sample with a configuration. -/
def sampleWith (graph : Graph) (config : SamplerConfig) (request : Request) :
    Except Failure SamplingOutput := do
  let sampler ← plainly (Sampler.make graph config)
  during "Sampling failed" (sampler.answer request config.seed).output

/-- The totals of received batches; fails at the first that failed. -/
def totals (batches nodes edges : Nat) :
    List (Except Error Batch) → Except Failure (Nat × Nat × Nat)
  | [] => .ok (batches, nodes, edges)
  | .error e :: _ => .error ⟨"Batch " ++ toString batches ++ " failed", some e⟩
  | .ok b :: rest =>
    totals (batches + 1) (nodes + b.sample.totalNodes) (edges + b.sample.totalEdges) rest

/-! ### Commands -/

/-- What an epoch over all nodes of a type leads to. -/
def runEpoch (files : Files) (input : String) (type : NodeType) (number : UInt64)
    (config : LoaderConfig) (options : SamplerOptions) : Except Failure Report := do
  let (dataset, graph) ← loadDataset files input
  let count ← during ("Unknown node type " ++ type.name) (graph.numNodes type)
  let sampler ← plainly (Sampler.make graph (← samplerConfig files options))
  let seeds : NodeRequest := ⟨type, (List.range count.toNat).map (·.toUInt64)⟩
  let loader ← plainly (Loader.ofNodes sampler seeds config)
  let pipeline := Pipeline.make loader (← assembler dataset config.device)
  let (batches, nodes, edges) ← totals 0 0 0 (pipeline.run number)
  .ok (.epoch number batches nodes edges)

/-- What a command leads to. -/
def Command.run (files : Files) : Command → Except Failure Outcome
  | .ring output count degree width =>
    if count = 0 ∨ degree = 0 then .error ⟨"--num-nodes and --degree must be positive", none⟩
    else
      let dataset := Dataset.ring count.toNat degree.toNat width.toNat
      .ok ⟨some (output, dataset.text), .written output count degree⟩
  | .stats input => do
    let (_, graph) ← loadDataset files input
    .ok ⟨none, .stats (← plainly graph.stats)⟩
  | .sample input type seeds options features => do
    let (dataset, graph) ← loadDataset files input
    let out ← sampleWith graph (← samplerConfig files options) (.node ⟨type, seeds⟩)
    .ok ⟨none, ← reportOutput dataset out features⟩
  | .samplePairs input type rows cols negatives options features => do
    let (dataset, graph) ← loadDataset files input
    let config := { ← samplerConfig files options with withNegatives := negatives.isSome }
    let out ← sampleWith graph config (.edge ⟨type, rows, cols, none, negatives⟩)
    .ok ⟨none, ← reportOutput dataset out features⟩
  | .epoch input type number config options => do
    .ok ⟨none, ← runEpoch files input type number config options⟩

/-- The failure to write a file. -/
def writeFailure (path : String) : Failure := ⟨"Failed to write " ++ path, some .file⟩

end HopSampler.CommandLine
