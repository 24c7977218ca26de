import HopSampler.Loading.Pipeline

/-!
# Streams

How the batches of an epoch come about. A *sampling* task goes through the plan and sends what it
samples to an *assembling* task, which sends the batches on to the consumer. Both channels are
queues with room for a fixed number of results. A `Stream` is a state of all this; a `Move` is one
step of one party, and `step` says what it leads to or that the party has to wait. Nothing is said
about who moves when: every list of moves is a schedule.

**Sending and ending.** A result to be sent waits for room in the channel. If the receiver is gone
it is dropped and the task ends; a task also ends once it has sent a failure. Whoever receives from
a task that has ended gets what is still in the channel and then learns that no more will come. What
is in the channel to that task is lost.
-/

namespace HopSampler

/-- Where the sampling task is. -/
inductive SamplingTask where
  /-- About to sample the batch of an index. -/
  | next (index : Nat)
  /-- With the result for that batch. -/
  | sending (index : Nat) (result : Except Error SamplingOutput)
  | ended

/-- Where the assembling task is. -/
inductive AssemblingTask where
  /-- Waiting for a result. -/
  | waiting
  /-- With a result that was received. -/
  | assembling (result : Except Error SamplingOutput)
  /-- With the batch made of it. -/
  | sending (batch : Except Error Batch)
  | ended

namespace SamplingTask

/-- Whether nothing will be sent any more. -/
def hasEnded : SamplingTask → Bool
  | ended => true
  | _ => false

/-- Where the task is after it has sent a result. -/
def afterSending (index : Nat) : Except Error SamplingOutput → SamplingTask
  | .ok _ => next (index + 1)
  | .error _ => ended

end SamplingTask

/-- Whether nothing will be sent, or received, any more. -/
def AssemblingTask.hasEnded : AssemblingTask → Bool
  | ended => true
  | _ => false

/-- The tasks, the channels behind them, and the consumer. -/
structure Stream where
  sampling : SamplingTask := .next 0
  /-- What was sampled and is to be received by the assembling task. -/
  sampled : List (Except Error SamplingOutput) := []
  assembling : AssemblingTask := .waiting
  /-- What was assembled and is to be received by the consumer. -/
  assembled : List (Except Error Batch) := []
  /-- What the consumer has received. -/
  received : List (Except Error Batch) := []
  /-- Whether the consumer has gone. -/
  hungUp : Bool := false

namespace Stream

/-- The assembling task ends; what it has not received is lost. -/
def endAssembling (s : Stream) : Stream := { s with assembling := .ended, sampled := [] }

/-- Whether the consumer is told that no more will come. -/
def closed (s : Stream) : Bool := s.assembling.hasEnded && s.assembled.isEmpty

/-- A batch is sent to the consumer. -/
def send (s : Stream) (batch : Except Error Batch) : Stream :=
  let s := { s with assembled := s.assembled ++ [batch], assembling := .waiting }
  match batch with
  | .ok _ => s
  | .error _ => s.endAssembling

/-- The consumer receives a batch. -/
def receive (s : Stream) : Option Stream :=
  match s.assembled with
  | batch :: rest => some { s with assembled := rest, received := s.received ++ [batch] }
  | [] => none

/-- The consumer goes; what it has not received is lost. -/
def hangUp (s : Stream) : Option Stream :=
  if s.hungUp then none else some { s with hungUp := true, assembled := [] }

end Stream

/-- Who makes a step. -/
inductive Move where
  | sampling
  | assembling
  | receive
  | hangUp

namespace Pipeline

/-- A step of the sampling task. -/
def stepSampling (p : Pipeline) (epoch : UInt64) (s : Stream) : Option Stream :=
  match s.sampling with
  | .next index =>
    match (p.loader.plan epoch)[index]? with
    | some positions =>
      let answer := p.loader.sampleAt positions (p.loader.batchSeed epoch index.toUInt64)
      some { s with sampling := .sending index answer.output }
    | none => some { s with sampling := .ended }
  | .sending index result =>
    if s.assembling.hasEnded then some { s with sampling := .ended }
    else if s.sampled.length < p.capacity then
      some { s with sampled := s.sampled ++ [result], sampling := .afterSending index result }
    else none
  | .ended => none

/-- A step of the assembling task. -/
def stepAssembling (p : Pipeline) (s : Stream) : Option Stream :=
  match s.assembling with
  | .waiting =>
    match s.sampled with
    | result :: rest => some { s with sampled := rest, assembling := .assembling result }
    | [] => if s.sampling.hasEnded then some s.endAssembling else none
  | .assembling result =>
    some { s with assembling := .sending (result.bind p.assembler.assemble) }
  | .sending batch =>
    if s.hungUp then some s.endAssembling
    else if s.assembled.length < p.capacity then some (s.send batch)
    else none
  | .ended => none

/-- What a move leads to, if it can be made. -/
def step (p : Pipeline) (epoch : UInt64) (s : Stream) : Move → Option Stream
  | .sampling => p.stepSampling epoch s
  | .assembling => p.stepAssembling s
  | .receive => s.receive
  | .hangUp => s.hangUp

/-- The stream of an epoch after the moves of a schedule. -/
def after (p : Pipeline) (epoch : UInt64) (moves : List Move) : Option Stream :=
  moves.foldlM (p.step epoch) {}

end Pipeline

end HopSampler
