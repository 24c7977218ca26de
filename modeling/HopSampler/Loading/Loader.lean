import HopSampler.Random.Shuffle
import HopSampler.Sampling.Sampler

/-!
# Loaders

A loader cuts the seeds of one request into batches, epoch by epoch. The plan of an epoch lists the
seed positions of every batch: all positions in order or shuffled, cut into pieces of the batch
size, the incomplete last piece kept or dropped. Every batch of every epoch is sampled under a seed
of its own.
-/

namespace HopSampler

/-- Seeds to be sampled in batches. -/
structure Loader where
  sampler : Sampler
  seeds : Request
  config : LoaderConfig

namespace Loader

/-! ### Making a loader -/

/-- A loader over seed nodes. -/
def ofNodes (sampler : Sampler) (seeds : NodeRequest) (config : LoaderConfig) :
    Except Error Loader := do
  config.validate
  .ok ⟨sampler, .node seeds, config⟩

/-- A loader over seed pairs. Negatives that are given here replace those of the request. -/
def ofPairs (sampler : Sampler) (seeds : EdgeRequest) (negatives : Option NegativeSampling)
    (config : LoaderConfig) : Except Error Loader := do
  config.validate
  let seeds := { seeds with negatives := negatives.or seeds.negatives }
  seeds.validate
  .ok ⟨sampler, .edge seeds, config⟩

/-! ### Epochs -/

/-- The number of seeds. -/
def numSeeds (l : Loader) : Nat := l.seeds.size

/-- The number of seeds in a full batch. -/
def batchSize (l : Loader) : Nat := max l.config.batchSize.toNat 1

/-- The number of batches in an epoch. -/
def numBatches (l : Loader) : Nat :=
  if l.config.dropLast then l.numSeeds / l.batchSize
  else (l.numSeeds + l.batchSize - 1) / l.batchSize

/-- The seed positions in the order of an epoch. -/
def order (l : Loader) (epoch : UInt64) : List Nat :=
  let positions := List.range l.numSeeds
  if l.config.shuffle then (Random.shuffle positions (Random.stream l.config.seed [epoch])).1
  else positions

/-- The seed positions of every batch of an epoch. -/
def plan (l : Loader) (epoch : UInt64) : List (List Nat) :=
  let order := l.order epoch
  (List.range l.numBatches).map fun k ↦ (order.drop (k * l.batchSize)).take l.batchSize

/-- The seed under which a batch is sampled. -/
def batchSeed (l : Loader) (epoch index : UInt64) : UInt64 :=
  Random.deriveSeed l.sampler.config.seed [epoch, index]

/-- Sample the seeds at the given positions. -/
def sampleAt (l : Loader) (positions : List Nat) (seed : UInt64) : Answer :=
  l.sampler.answer (l.seeds.select positions) seed

/-- The answers for all batches of an epoch, in order. -/
def answers (l : Loader) (epoch : UInt64) : List Answer :=
  (l.plan epoch).zipIdx.map fun (positions, index) ↦
    l.sampleAt positions (l.batchSeed epoch index.toUInt64)

/-- The outputs of all batches of an epoch; fails where one does. -/
def epochOutputs (l : Loader) (epoch : UInt64) : Except Error (List SamplingOutput) :=
  (l.answers epoch).mapM (·.output)

end Loader

end HopSampler
