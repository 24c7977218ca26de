import HopSampler.Loading.Batch
import HopSampler.Loading.Loader

/-!
# Pipelines

A pipeline streams the batches of an epoch: one task samples them in plan order, a second assembles
what the first has sampled, and the consumer receives the batches. What is received is the sequence
of assembled batches, cut after the first failure.
-/

namespace HopSampler

/-- A list of results up to the first failure, which is kept. -/
def cutAtFailure : List (Except Error α) → List (Except Error α)
  | [] => []
  | .ok a :: rest => .ok a :: cutAtFailure rest
  | .error e :: _ => [.error e]

/-- A loader whose batches are assembled as they are sampled. -/
structure Pipeline where
  loader : Loader
  assembler : Assembler

namespace Pipeline

/-- The pipeline of a loader. Its look-ups go to the loader's device, and to the loader's deadline
where there is one. -/
def make (loader : Loader) (assembler : Assembler) : Pipeline where
  loader := loader
  assembler :=
    { assembler with
      device := loader.config.device
      deadline := loader.config.featureTimeout.or assembler.deadline }

/-- How many results each stage may hold ready for the next. -/
def capacity (p : Pipeline) : Nat := max p.loader.config.prefetch.toNat 1

/-- The batch of every piece of the plan, or why there is none. -/
def results (p : Pipeline) (epoch : UInt64) : List (Except Error Batch) :=
  (p.loader.answers epoch).map fun answer ↦ answer.output.bind p.assembler.assemble

/-- What the consumer receives. -/
def run (p : Pipeline) (epoch : UInt64) : List (Except Error Batch) :=
  cutAtFailure (p.results epoch)

end Pipeline

end HopSampler
