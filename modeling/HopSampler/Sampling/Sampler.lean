import HopSampler.Sampling.Expansion
import HopSampler.Sampling.Negatives
import HopSampler.Sampling.Request

/-!
# The sampler

A graph with a configuration that fits it answers requests. A request is checked against the graph
first; then its seeds are met in order (for pairs the sources, the destinations and the negatives),
the walk is taken, and the output is presented with the places of the seeds.

The answer to a request depends on the request and its seed alone. The tally of negatives is part of
the answer, and whoever answers several requests adds the tallies up.
-/

namespace HopSampler

/-- A graph and how it is sampled. -/
structure Sampler where
  graph : Graph
  config : SamplerConfig

/-- The output of a request, or why there is none, and the negatives drawn for it. -/
structure Answer where
  output : Except Error SamplingOutput
  tally : Tally

namespace Sampler

/-- A sampler; the configuration is usable and lists edge types of the graph only. -/
def make (graph : Graph) (config : SamplerConfig) : Except Error Sampler := do
  config.validate
  config.budgets.edgeTypes.forM fun e ↦ discard (graph.topology e)
  .ok ⟨graph, config⟩

/-- What a walk under a seed goes by. -/
def rules (s : Sampler) (seed : UInt64) : Expansion.Rules :=
  ⟨s.graph, s.config.budgets, s.config.replace, seed⟩

/-- Take the walk from the seeds and present it. -/
def sampleFrom (s : Sampler) (seed : UInt64) (seeds : Rosters)
    (metadata : Rosters → Except Error Metadata) : Except Error SamplingOutput := do
  let x ← Expansion.run (s.rules seed) seeds
  let metadata ← metadata x.rosters
  .ok (x.present s.config.layout s.config.withEdge s.config.budgets.numHops metadata)

/-! ### Seed nodes -/

/-- The seeds are nodes of the graph. -/
def checkNodes (s : Sampler) (r : NodeRequest) : Except Error Unit :=
  if s.graph.hasNodeType r.type then r.ids.forM (s.graph.checkNode r.type)
  else .error (.unknownNodeType r.type)

/-- The neighbourhood of seed nodes. -/
def sampleNodes (s : Sampler) (r : NodeRequest) (seed : UInt64) : Except Error SamplingOutput := do
  s.checkNodes r
  s.sampleFrom seed (Rosters.claimAll .empty r.type r.ids) fun _ ↦ .ok .node

/-! ### Seed pairs -/

/-- The last word that names the stream negatives are drawn from. -/
def negativeStream : UInt64 := 0xFFFFFFFFFFFFFFFF

/-- The pairs are pairs of nodes of the graph, and negatives are drawn only where they are
allowed. -/
def checkPairs (s : Sampler) (r : EdgeRequest) : Except Error Topology := do
  r.validate
  let topology ← s.graph.topology r.type
  r.rows.forM (s.graph.checkNode r.type.source)
  r.cols.forM (s.graph.checkNode r.type.target)
  if r.negatives.isSome ∧ ¬s.config.withNegatives then .error (.config .negativesDisabled)
  else .ok topology

/-- The negatives of a request, pair by pair. -/
def negatives (s : Sampler) (r : EdgeRequest) (topology : Topology) (seed : UInt64) :
    Except Error (List Negative) :=
  match r.negatives with
  | none => .ok []
  | some n => do
    let targets ← s.graph.numNodes r.type.target
    let attempts ← s.config.negativeAttempts n
    let sampler ← NegativeSampler.make topology targets attempts
    .ok (sampler.drawForPairs n.perPositive.toNat (r.rows.zip r.cols)
      (Random.stream seed [negativeStream])).1

/-- The seeds of a request for pairs: sources, then destinations, then negatives. -/
def pairSeeds (r : EdgeRequest) (negatives : List Id) : Rosters :=
  (Rosters.claimAll .empty r.type.source r.rows).claimAll r.type.target (r.cols ++ negatives)

/-- Cut a list into pieces of a size, as many as there are pairs. -/
def perPair (pairs size : Nat) (places : List Nat) : List (List Nat) :=
  (List.range pairs).map fun k ↦ (places.drop (k * size)).take size

/-- The greatest number of entries in a block. -/
def greatestBlock : Nat := Int64.size / 2 - 1

/-- `held` entries can be laid out as a block of `size` entries per pair. Without pairs the block is
empty, and its width alone counts. -/
def checkBlock (pairs size held : Nat) : Except Error Unit :=
  if greatestBlock < max pairs 1 * size then .error (.input .blockTooLarge)
  else if held ≠ pairs * size then .error (.input (.blockCount held (pairs * size)))
  else .ok ()

/-- Lay out the places of pairs and of their negatives. -/
def layOut (r : EdgeRequest) (sources positives drawn : List Nat) : Except Error Metadata :=
  match r.negatives with
  | none => .ok (.link r.type sources positives r.labels)
  | some n =>
    match n.mode with
    | .binary =>
      .ok (.link r.type (sources ++ sources) (positives ++ drawn)
        (some (List.replicate sources.length 1 ++ List.replicate sources.length 0)))
    | .triplet => do
      let size := n.amount.toNat
      checkBlock sources.length size drawn.length
      .ok (.triplet r.type sources positives size (perPair sources.length size drawn) r.labels)

/-- Where the pairs and their negatives are. -/
def pairMetadata (r : EdgeRequest) (negatives : List Id) (rosters : Rosters) :
    Except Error Metadata := do
  let sources ← rosters.placesOf r.type.source r.rows
  let positives ← rosters.placesOf r.type.target r.cols
  let drawn ← rosters.placesOf r.type.target negatives
  layOut r sources positives drawn

/-- The neighbourhood of seed pairs, and the negatives drawn for them. -/
def samplePairs (s : Sampler) (r : EdgeRequest) (seed : UInt64) : Answer :=
  match s.checkPairs r with
  | .error e => ⟨.error e, .zero⟩
  | .ok topology =>
    match s.negatives r topology seed with
    | .error e => ⟨.error e, .zero⟩
    | .ok negatives =>
      let ids := negatives.map (·.id)
      ⟨s.sampleFrom seed (pairSeeds r ids) (pairMetadata r ids), .ofNegatives negatives⟩

/-! ### Any request -/

/-- The answer to a request under a seed. -/
def answer (s : Sampler) (r : Request) (seed : UInt64) : Answer :=
  match r with
  | .node r => ⟨s.sampleNodes r seed, .zero⟩
  | .edge r => s.samplePairs r seed

end Sampler

end HopSampler
