import HopSampler.Loading.Stream
import HopSampler.Proofs.Batches
import HopSampler.Proofs.Requests

/-!
# The stream of an epoch

Whatever the schedule, the batches of an epoch are under way in plan order: those received, those in
the channel to the consumer, the one being assembled, those in the channel to the assembling task,
the one being sampled, and those still to be sampled. Read as one list, this `flow` is cut after its
first failure to the same list at all times, since every step only passes a result on
(`Agrees.step`). A task that ends after a failure drops what comes after it, which is cut off
anyway.

**What is received is the beginning of that list** (`after_delivers`), and the whole of it where
nothing can move any more: with room for one result in each channel there is no other way to get
stuck. The channels never hold more than they have room for (`bounded_of_after`), and as every move
uses something up, a schedule cannot go on for ever (`length_le_of_after`). Hence a consumer who
waits is delivered the whole in the end (`exists_settled`).
-/

namespace HopSampler

/-! ### Cutting at a failure -/

section Cut

variable {α : Type} {xs ys : List (Except Error α)}

/-- A success at the beginning is kept. -/
theorem cutAtFailure_append (h : ∀ x ∈ xs, ∃ a, x = .ok a) (ys : List (Except Error α)) :
    cutAtFailure (xs ++ ys) = xs ++ cutAtFailure ys := by
  induction xs with
  | nil => rfl
  | cons x xs ih =>
    obtain ⟨a, rfl⟩ := h x List.mem_cons_self
    rw [List.cons_append, cutAtFailure, ih fun y hy ↦ h y (List.mem_cons_of_mem _ hy),
      List.cons_append]

/-- What comes after a failure is cut off. -/
theorem cutAtFailure_append_error (xs ys : List (Except Error α)) (e : Error) :
    cutAtFailure (xs ++ .error e :: ys) = cutAtFailure (xs ++ [.error e]) := by
  induction xs with
  | nil => rfl
  | cons x xs ih =>
    cases x with
    | error e' => rfl
    | ok a => simp only [List.cons_append, cutAtFailure, ih]

/-- Cutting leaves the beginning as it is. -/
theorem cutAtFailure_isBeginning (xs : List (Except Error α)) : cutAtFailure xs <+: xs := by
  induction xs with
  | nil => exact List.nil_prefix
  | cons x xs ih =>
    cases x with
    | error e => exact ⟨xs, rfl⟩
    | ok a => exact (List.prefix_cons_inj _).2 ih

end Cut

/-! ### What a step does -/

namespace Pipeline

variable {p : Pipeline} {epoch : UInt64} {s s' : Stream}

/-- The results of sampling, batch by batch. -/
def outputs (p : Pipeline) (epoch : UInt64) : List (Except Error SamplingOutput) :=
  (p.loader.answers epoch).map (·.output)

theorem getElem?_outputs (p : Pipeline) (epoch : UInt64) (index : Nat) :
    (p.outputs epoch)[index]? = ((p.loader.plan epoch)[index]?).map fun positions ↦
      (p.loader.sampleAt positions (p.loader.batchSeed epoch index.toUInt64)).output := by
  rw [outputs, Loader.answers, List.getElem?_map, List.getElem?_map, List.getElem?_zipIdx,
    Option.map_map, Option.map_map]
  simp only [Nat.zero_add]
  rfl

theorem results_eq (p : Pipeline) (epoch : UInt64) :
    p.results epoch = (p.outputs epoch).map (·.bind p.assembler.assemble) := by
  rw [results, outputs, List.map_map]
  rfl

/-- The sampling task samples, finds the plan at its end, finds its receiver gone, or sends. -/
theorem stepSampling_cases (h : p.stepSampling epoch s = some s') :
    (∃ index result, s.sampling = .next index ∧ (p.outputs epoch)[index]? = some result ∧
      s' = { s with sampling := .sending index result }) ∨
    (∃ index, s.sampling = .next index ∧ (p.outputs epoch)[index]? = none ∧
      s' = { s with sampling := .ended }) ∨
    (∃ index result, s.sampling = .sending index result ∧ s.assembling.hasEnded = true ∧
      s' = { s with sampling := .ended }) ∨
    ∃ index result, s.sampling = .sending index result ∧ s.assembling.hasEnded = false ∧
      s.sampled.length < p.capacity ∧
      s' = { s with sampled := s.sampled ++ [result], sampling := .afterSending index result } := by
  rw [stepSampling] at h
  split at h
  · next index hnext =>
    split at h
    · next positions hplan =>
      cases h
      exact .inl ⟨index, _, hnext, by rw [getElem?_outputs, hplan]; rfl, rfl⟩
    · next hplan =>
      cases h
      exact .inr (.inl ⟨index, hnext, by rw [getElem?_outputs, hplan]; rfl, rfl⟩)
  · next index result hsending =>
    split at h
    · next hended =>
      cases h
      exact .inr (.inr (.inl ⟨index, result, hsending, hended, rfl⟩))
    · next hgoing =>
      split at h
      · next hroom =>
        cases h
        exact .inr (.inr (.inr ⟨index, result, hsending, eq_false_of_ne_true hgoing, hroom, rfl⟩))
      · cases h
  · cases h

/-- The assembling task receives, finds its channel closed, assembles, finds the consumer gone, or
sends. -/
theorem stepAssembling_cases (h : p.stepAssembling s = some s') :
    (∃ result rest, s.assembling = .waiting ∧ s.sampled = result :: rest ∧
      s' = { s with sampled := rest, assembling := .assembling result }) ∨
    (s.assembling = .waiting ∧ s.sampled = [] ∧ s.sampling = .ended ∧ s' = s.endAssembling) ∨
    (∃ result, s.assembling = .assembling result ∧
      s' = { s with assembling := .sending (result.bind p.assembler.assemble) }) ∨
    (∃ batch, s.assembling = .sending batch ∧ s.hungUp = true ∧ s' = s.endAssembling) ∨
    ∃ batch, s.assembling = .sending batch ∧ s.hungUp = false ∧ s.assembled.length < p.capacity ∧
      s' = s.send batch := by
  rw [stepAssembling] at h
  split at h
  · next hwaiting =>
    split at h
    · next result rest hsampled =>
      cases h
      exact .inl ⟨result, rest, hwaiting, hsampled, rfl⟩
    · next hsampled =>
      split at h
      · next hended =>
        cases h
        refine .inr (.inl ⟨hwaiting, hsampled, ?_, rfl⟩)
        cases hsampling : s.sampling <;> simp [hsampling, SamplingTask.hasEnded] at hended ⊢
      · cases h
  · next result hassembling =>
    cases h
    exact .inr (.inr (.inl ⟨result, hassembling, rfl⟩))
  · next batch hsending =>
    split at h
    · next hhungUp =>
      cases h
      exact .inr (.inr (.inr (.inl ⟨batch, hsending, hhungUp, rfl⟩)))
    · next hthere =>
      split at h
      · next hroom =>
        cases h
        exact .inr (.inr (.inr (.inr
          ⟨batch, hsending, eq_false_of_ne_true hthere, hroom, rfl⟩)))
      · cases h
  · cases h

/-! ### The flow of results -/

end Pipeline

/-- What the sampling task has to send. -/
def SamplingTask.pending (p : Pipeline) (epoch : UInt64) : SamplingTask → List (Except Error Batch)
  | next index => (p.results epoch).drop index
  | sending index result =>
    result.bind p.assembler.assemble :: (p.results epoch).drop (index + 1)
  | ended => []

/-- What the assembling task has to send, of what it has received. -/
def AssemblingTask.pending (p : Pipeline) : AssemblingTask → List (Except Error Batch)
  | waiting => []
  | assembling result => [result.bind p.assembler.assemble]
  | sending batch => [batch]
  | ended => []

namespace Pipeline

variable {p : Pipeline} {epoch : UInt64} {s s' : Stream}

/-- What is yet to come to the consumer's channel. -/
def upstream (p : Pipeline) (epoch : UInt64) (s : Stream) : List (Except Error Batch) :=
  s.assembling.pending p ++ s.sampled.map (·.bind p.assembler.assemble) ++
    s.sampling.pending p epoch

/-- Whatever is under way and whatever has come, in order. -/
def flow (p : Pipeline) (epoch : UInt64) (s : Stream) : List (Except Error Batch) :=
  s.received ++ s.assembled ++ p.upstream epoch s

theorem drop_results_of_output {index : Nat} {result : Except Error SamplingOutput}
    (h : (p.outputs epoch)[index]? = some result) :
    (p.results epoch).drop index =
      result.bind p.assembler.assemble :: (p.results epoch).drop (index + 1) := by
  have hat : (p.results epoch)[index]? = some (result.bind p.assembler.assemble) := by
    rw [results_eq, List.getElem?_map, h, Option.map_some]
  obtain ⟨hlt, hget⟩ := List.getElem?_eq_some_iff.1 hat
  rw [List.drop_eq_getElem_cons hlt, hget]

theorem drop_results_of_none {index : Nat} (h : (p.outputs epoch)[index]? = none) :
    (p.results epoch).drop index = [] := by
  rw [results_eq, List.drop_eq_nil_iff, List.length_map]
  exact List.getElem?_eq_none_iff.1 h

/-- A step of the sampling task passes a result on. -/
theorem cutAtFailure_flow_sampling (h : p.stepSampling epoch s = some s')
    (hgoing : s.assembling.hasEnded = false) :
    cutAtFailure (p.flow epoch s') = cutAtFailure (p.flow epoch s) := by
  rcases stepSampling_cases h with ⟨index, result, hnext, houtput, rfl⟩ |
    ⟨index, hnext, hnone, rfl⟩ | ⟨index, result, hsending, hended, rfl⟩ |
    ⟨index, result, hsending, -, -, rfl⟩
  · simp only [flow, upstream, hnext, SamplingTask.pending, drop_results_of_output houtput]
  · simp only [flow, upstream, hnext, SamplingTask.pending, drop_results_of_none hnone]
  · exact nomatch hended.symm.trans hgoing
  · cases result with
    | ok out =>
      simp only [flow, upstream, hsending, SamplingTask.afterSending, SamplingTask.pending,
        List.map_append, List.map_cons, List.map_nil, List.append_assoc, List.cons_append,
        List.nil_append]
    | error e =>
      -- what was still to be sampled is cut off by the failure
      simp only [flow, upstream, hsending, SamplingTask.afterSending, SamplingTask.pending,
        List.map_append, List.map_cons, List.map_nil, List.append_nil, ← List.append_assoc]
      exact (cutAtFailure_append_error _ _ e).symm

/-- The state of the stream agrees with the reference. -/
structure Agrees (p : Pipeline) (epoch : UInt64) (s : Stream) : Prop where
  /-- As long as there is someone to assemble and to receive, all is on its way. -/
  going : s.assembling.hasEnded = false → s.hungUp = false →
    (∀ r ∈ s.received ++ s.assembled, ∃ b, r = .ok b) ∧
      cutAtFailure (p.flow epoch s) = p.run epoch
  /-- After that all has come, as far as the channel. -/
  ended : s.assembling.hasEnded = true → s.hungUp = false →
    s.received ++ s.assembled = p.run epoch
  /-- Nothing is kept for a consumer who has gone. -/
  lost : s.hungUp = true → s.assembled = []
  inOrder : s.received <+: p.run epoch

theorem agrees_start (p : Pipeline) (epoch : UInt64) : p.Agrees epoch {} :=
  ⟨fun _ _ ↦ ⟨nofun, rfl⟩, nofun, nofun, List.nil_prefix⟩

/-- What has come, as far as the channel, is in order. -/
theorem Agrees.received_append (hs : p.Agrees epoch s) (hthere : s.hungUp = false) :
    s.received ++ s.assembled <+: p.run epoch := by
  cases hended : s.assembling.hasEnded with
  | false =>
    obtain ⟨hok, hflow⟩ := hs.going hended hthere
    rw [← hflow, flow, cutAtFailure_append hok]
    exact List.prefix_append ..
  | true => exact hs.ended hended hthere ▸ List.prefix_rfl

theorem Agrees.stepSampling (hs : p.Agrees epoch s) (h : p.stepSampling epoch s = some s') :
    p.Agrees epoch s' := by
  obtain ⟨hassembling, hassembled, hreceived, hhungUp⟩ : s'.assembling = s.assembling ∧
      s'.assembled = s.assembled ∧ s'.received = s.received ∧ s'.hungUp = s.hungUp := by
    rcases stepSampling_cases h with ⟨_, _, -, -, rfl⟩ | ⟨_, -, -, rfl⟩ | ⟨_, _, -, -, rfl⟩ |
      ⟨_, _, -, -, -, rfl⟩ <;> exact ⟨rfl, rfl, rfl, rfl⟩
  refine ⟨fun hgoing hthere ↦ ?_, ?_, ?_, hreceived ▸ hs.inOrder⟩
  · rw [hassembling] at hgoing
    obtain ⟨hok, hflow⟩ := hs.going hgoing (hhungUp ▸ hthere)
    rw [hreceived, hassembled, cutAtFailure_flow_sampling h hgoing]
    exact ⟨hok, hflow⟩
  · rw [hassembling, hassembled, hreceived, hhungUp]
    exact hs.ended
  · rw [hassembled, hhungUp]
    exact hs.lost

theorem Agrees.stepAssembling (hs : p.Agrees epoch s) (h : p.stepAssembling s = some s') :
    p.Agrees epoch s' := by
  rcases stepAssembling_cases h with ⟨result, rest, hwaiting, hsampled, rfl⟩ |
    ⟨hwaiting, hsampled, hsampling, rfl⟩ | ⟨result, hassembling, rfl⟩ |
    ⟨batch, hsending, hhungUp, rfl⟩ | ⟨batch, hsending, hthere, -, rfl⟩
  · have hflow : p.flow epoch { s with sampled := rest, assembling := .assembling result } =
        p.flow epoch s := by
      simp only [flow, upstream, hwaiting, hsampled, AssemblingTask.pending, List.map_cons,
        List.nil_append, List.cons_append]
    refine ⟨fun _ hthere ↦ ?_, nofun, hs.lost, hs.inOrder⟩
    rw [hflow]
    exact hs.going (by rw [hwaiting]; rfl) hthere
  · -- with both tasks at their end nothing is under way
    refine ⟨nofun, fun _ hthere ↦ ?_, hs.lost, hs.inOrder⟩
    obtain ⟨hok, hflow⟩ := hs.going (by rw [hwaiting]; rfl) hthere
    rw [flow, upstream, hwaiting, hsampled, hsampling, cutAtFailure_append hok] at hflow
    simpa [AssemblingTask.pending, SamplingTask.pending, cutAtFailure, Stream.endAssembling]
      using hflow
  · have hflow : p.flow epoch
        { s with assembling := .sending (result.bind p.assembler.assemble) } = p.flow epoch s := by
      simp only [flow, upstream, hassembling, AssemblingTask.pending]
    refine ⟨fun _ hthere ↦ ?_, nofun, hs.lost, hs.inOrder⟩
    rw [hflow]
    exact hs.going (by rw [hassembling]; rfl) hthere
  · exact ⟨fun _ hthere ↦ (nomatch hhungUp.symm.trans hthere),
      fun _ hthere ↦ (nomatch hhungUp.symm.trans hthere), hs.lost, hs.inOrder⟩
  · obtain ⟨hok, hflow⟩ := hs.going (by rw [hsending]; rfl) hthere
    have hupstream : p.upstream epoch s = batch ::
        (s.sampled.map (·.bind p.assembler.assemble) ++ s.sampling.pending p epoch) := by
      simp only [upstream, hsending, AssemblingTask.pending, List.cons_append, List.nil_append]
    rw [flow, hupstream] at hflow
    cases batch with
    | ok b =>
      refine ⟨fun _ _ ↦ ⟨?_, ?_⟩, nofun, fun hgone ↦ (nomatch hgone.symm.trans hthere), hs.inOrder⟩
      · simp only [Stream.send, ← List.append_assoc, List.forall_mem_append,
          List.forall_mem_singleton]
        exact ⟨List.forall_mem_append.1 hok, b, rfl⟩
      · rw [← hflow]
        simp only [flow, upstream, Stream.send, AssemblingTask.pending, List.append_assoc,
          List.nil_append, List.singleton_append]
    | error e =>
      refine ⟨nofun, fun _ _ ↦ ?_, fun hgone ↦ (nomatch hgone.symm.trans hthere), hs.inOrder⟩
      rw [cutAtFailure_append hok] at hflow
      simpa [Stream.send, Stream.endAssembling, cutAtFailure, ← List.append_assoc] using hflow

theorem Agrees.receive (hs : p.Agrees epoch s) (h : s.receive = some s') : p.Agrees epoch s' := by
  rw [Stream.receive] at h
  split at h
  · next batch rest hassembled =>
    cases h
    have hthere : s.hungUp = false := eq_false_of_ne_true fun hgone ↦
      nomatch (hs.lost hgone).symm.trans hassembled
    have hmoved : s.received ++ [batch] ++ rest = s.received ++ s.assembled := by
      rw [hassembled, List.append_assoc, List.singleton_append]
    refine ⟨fun hgoing _ ↦ ?_, fun hended _ ↦ ?_, fun hgone ↦ (nomatch hgone.symm.trans hthere), ?_⟩
    · have hflow : p.flow epoch { s with assembled := rest, received := s.received ++ [batch] } =
          p.flow epoch s := by
        simp only [flow, hmoved]
        rfl
      rw [hflow, hmoved]
      exact hs.going hgoing hthere
    · rw [hmoved]
      exact hs.ended hended hthere
    · have hbeginning := hs.received_append hthere
      rw [← hmoved] at hbeginning
      exact (List.prefix_append _ rest).trans hbeginning
  · cases h

theorem Agrees.hangUp (hs : p.Agrees epoch s) (h : s.hangUp = some s') : p.Agrees epoch s' := by
  rw [Stream.hangUp] at h
  split at h
  · cases h
  · cases h
    exact ⟨nofun, nofun, fun _ ↦ rfl, hs.inOrder⟩

/-- Every step keeps to the reference. -/
theorem Agrees.step (hs : p.Agrees epoch s) {move : Move} (h : p.step epoch s move = some s') :
    p.Agrees epoch s' := by
  cases move with
  | sampling => exact hs.stepSampling h
  | assembling => exact hs.stepAssembling h
  | receive => exact hs.receive h
  | hangUp => exact hs.hangUp h

/-- What is true at the start and kept by every step is true after every schedule. -/
theorem after_induction {P : Stream → Prop} (hstart : P {})
    (hstep : ∀ s s' move, P s → p.step epoch s move = some s' → P s') {moves : List Move}
    (h : p.after epoch moves = some s) : P s := by
  rw [after] at h
  generalize ({} : Stream) = start at h hstart
  induction moves generalizing start with
  | nil =>
    cases h
    exact hstart
  | cons move moves ih =>
    rw [List.foldlM_cons] at h
    obtain ⟨next, hnext, hrest⟩ := Option.bind_eq_some_iff.1 h
    exact ih next hrest (hstep start next move hstart hnext)

theorem agrees_of_after {moves : List Move} (h : p.after epoch moves = some s) :
    p.Agrees epoch s :=
  after_induction (p.agrees_start epoch) (fun _ _ _ hs hstep ↦ hs.step hstep) h

/-! ### Room in the channels -/

/-- No channel holds more than it has room for. -/
structure Bounded (p : Pipeline) (s : Stream) : Prop where
  sampled : s.sampled.length ≤ p.capacity
  assembled : s.assembled.length ≤ p.capacity

/-- A step puts something into a channel only where there is room. -/
theorem Bounded.step (hs : p.Bounded s) {move : Move} (h : p.step epoch s move = some s') :
    p.Bounded s' := by
  cases move with
  | sampling =>
    rcases stepSampling_cases h with ⟨_, _, -, -, rfl⟩ | ⟨_, -, -, rfl⟩ | ⟨_, _, -, -, rfl⟩ |
      ⟨_, result, -, -, hroom, rfl⟩
    · exact ⟨hs.sampled, hs.assembled⟩
    · exact ⟨hs.sampled, hs.assembled⟩
    · exact ⟨hs.sampled, hs.assembled⟩
    · refine ⟨?_, hs.assembled⟩
      rw [List.length_append, List.length_singleton]
      exact hroom
  | assembling =>
    have hnone : ([] : List (Except Error SamplingOutput)).length ≤ p.capacity := Nat.zero_le _
    rcases stepAssembling_cases h with ⟨result, rest, -, hsampled, rfl⟩ | ⟨-, -, -, rfl⟩ |
      ⟨result, -, rfl⟩ | ⟨batch, -, -, rfl⟩ | ⟨batch, -, -, hroom, rfl⟩
    · have hlength : rest.length + 1 ≤ p.capacity := by
        rw [← List.length_cons (a := result), ← hsampled]
        exact hs.sampled
      exact ⟨Nat.le_of_succ_le hlength, hs.assembled⟩
    · exact ⟨hnone, hs.assembled⟩
    · exact ⟨hs.sampled, hs.assembled⟩
    · exact ⟨hnone, hs.assembled⟩
    · have hlength : (s.assembled ++ [batch]).length ≤ p.capacity := by
        rw [List.length_append, List.length_singleton]
        exact hroom
      cases batch with
      | ok b => exact ⟨hs.sampled, hlength⟩
      | error e => exact ⟨hnone, hlength⟩
  | receive =>
    simp only [Pipeline.step, Stream.receive] at h
    split at h
    · next batch rest hassembled =>
      cases h
      have hlength : rest.length + 1 ≤ p.capacity := by
        rw [← List.length_cons (a := batch), ← hassembled]
        exact hs.assembled
      exact ⟨hs.sampled, Nat.le_of_succ_le hlength⟩
    · cases h
  | hangUp =>
    simp only [Pipeline.step, Stream.hangUp] at h
    split at h
    · cases h
    · cases h
      exact ⟨hs.sampled, Nat.zero_le _⟩

/-- **The channels never overflow**, whatever the schedule. -/
theorem bounded_of_after {moves : List Move} (h : p.after epoch moves = some s) : p.Bounded s :=
  after_induction ⟨Nat.zero_le _, Nat.zero_le _⟩ (fun _ _ _ hs hstep ↦ hs.step hstep) h

/-! ### Getting stuck -/

theorem capacity_pos (p : Pipeline) : 0 < p.capacity :=
  Nat.lt_of_lt_of_le Nat.one_pos (Nat.le_max_right ..)

/-- The assembling task waits only for the sampling task and for the consumer. -/
theorem assembling_of_stuck (h : p.stepAssembling s = none) (hthere : s.hungUp = false)
    (hempty : s.assembled = []) :
    s.assembling = .ended ∨
      s.assembling = .waiting ∧ s.sampled = [] ∧ s.sampling.hasEnded = false := by
  have hroom : s.assembled.length < p.capacity := by
    rw [hempty]
    exact p.capacity_pos
  rw [stepAssembling] at h
  cases hassembling : s.assembling with
  | ended => exact .inl rfl
  | assembling result => simp [hassembling] at h
  | sending batch => simp [hassembling, hthere, hroom] at h
  | waiting =>
    cases hsampled : s.sampled with
    | cons result rest => simp [hassembling, hsampled] at h
    | nil => exact .inr ⟨rfl, rfl, by simpa [hassembling, hsampled] using h⟩

/-- The sampling task waits only for room. -/
theorem sampling_of_stuck (h : p.stepSampling epoch s = none) :
    s.sampling.hasEnded = true ∨ p.capacity ≤ s.sampled.length := by
  rw [stepSampling] at h
  split at h
  · split at h <;> cases h
  · split at h
    · cases h
    · split at h
      · cases h
      · next hfull => exact .inr (Nat.le_of_not_lt hfull)
  · next hended =>
    rw [hended]
    exact .inl rfl

/-- **With nothing to receive, the tasks get stuck only at their end.** -/
theorem ended_of_stuck (hsampling : p.stepSampling epoch s = none)
    (hassembling : p.stepAssembling s = none) (hthere : s.hungUp = false)
    (hempty : s.assembled = []) : s.assembling = .ended := by
  rcases assembling_of_stuck hassembling hthere hempty with hended | ⟨-, hsampled, hgoing⟩
  · exact hended
  · rcases sampling_of_stuck hsampling with hended | hfull
    · exact nomatch hended.symm.trans hgoing
    · rw [hsampled] at hfull
      exact absurd p.capacity_pos (Nat.not_lt.2 hfull)

/-! ### Coming to an end -/

end Pipeline

/-- How many moves may still come from what the sampling task has before it, out of `batches`. -/
def SamplingTask.budget (batches : Nat) : SamplingTask → Nat
  | next index => 6 * (batches - index) + 1
  | sending index _ => 6 * (batches - (index + 1)) + 6
  | ended => 0

/-- How many may come from what the assembling task has in hand. -/
def AssemblingTask.budget : AssemblingTask → Nat
  | waiting => 1
  | assembling _ => 4
  | sending _ => 3
  | ended => 0

/-- A bound for the moves that may still come. -/
def Stream.budget (batches : Nat) (s : Stream) : Nat :=
  s.sampling.budget batches + 4 * s.sampled.length + s.assembling.budget + s.assembled.length +
    (!s.hungUp).toNat

namespace Pipeline

variable {p : Pipeline} {epoch : UInt64} {s s' : Stream}

/-- Every move uses something up. -/
theorem budget_lt_of_step {move : Move} (h : p.step epoch s move = some s') :
    s'.budget (p.outputs epoch).length < s.budget (p.outputs epoch).length := by
  cases move with
  | sampling =>
    rcases stepSampling_cases h with ⟨index, result, hnext, houtput, rfl⟩ |
      ⟨index, hnext, -, rfl⟩ | ⟨index, result, hsending, -, rfl⟩ |
      ⟨index, result, hsending, -, -, rfl⟩
    · have hlt := (List.getElem?_eq_some_iff.1 houtput).1
      simp only [Stream.budget, hnext, SamplingTask.budget]
      omega
    · simp only [Stream.budget, hnext, SamplingTask.budget]
      omega
    · simp only [Stream.budget, hsending, SamplingTask.budget]
      omega
    · have hafter : (SamplingTask.afterSending index result).budget (p.outputs epoch).length ≤
          6 * ((p.outputs epoch).length - (index + 1)) + 1 := by
        cases result with
        | ok out => exact Nat.le_refl _
        | error e => exact Nat.zero_le _
      have hbefore : s.sampling.budget (p.outputs epoch).length =
          6 * ((p.outputs epoch).length - (index + 1)) + 6 := by
        rw [hsending]
        rfl
      simp only [Stream.budget, hbefore, List.length_append, List.length_singleton]
      omega
  | assembling =>
    rcases stepAssembling_cases h with ⟨result, rest, hwaiting, hsampled, rfl⟩ |
      ⟨hwaiting, hsampled, -, rfl⟩ | ⟨result, hassembling, rfl⟩ |
      ⟨batch, hsending, -, rfl⟩ | ⟨batch, hsending, -, -, rfl⟩
    · simp only [Stream.budget, hwaiting, hsampled, AssemblingTask.budget, List.length_cons]
      omega
    · simp only [Stream.budget, hwaiting, hsampled, Stream.endAssembling, AssemblingTask.budget]
      omega
    · simp only [Stream.budget, hassembling, AssemblingTask.budget]
      omega
    · simp only [Stream.budget, hsending, Stream.endAssembling, AssemblingTask.budget,
        List.length_nil]
      omega
    · cases batch with
      | ok b =>
        simp only [Stream.budget, hsending, Stream.send, AssemblingTask.budget, List.length_append,
          List.length_singleton]
        omega
      | error e =>
        simp only [Stream.budget, hsending, Stream.send, Stream.endAssembling,
          AssemblingTask.budget, List.length_append, List.length_singleton, List.length_nil]
        omega
  | receive =>
    simp only [step, Stream.receive] at h
    split at h
    · next batch rest hassembled =>
      cases h
      simp only [Stream.budget, hassembled, List.length_cons]
      omega
    · cases h
  | hangUp =>
    simp only [step, Stream.hangUp] at h
    split at h
    · cases h
    · next hthere =>
      cases h
      rw [Bool.not_eq_true] at hthere
      simp only [Stream.budget, hthere, Bool.not_true, Bool.not_false, Bool.toNat_true,
        Bool.toNat_false, List.length_nil]
      omega

/-- **No schedule goes on for ever**: there are at most six moves for every batch and three more. -/
theorem length_le_of_after {moves : List Move} (h : p.after epoch moves = some s) :
    moves.length ≤ 6 * (p.loader.plan epoch).length + 3 := by
  have hspent : ∀ start : Stream, moves.foldlM (p.step epoch) start = some s →
      moves.length ≤ start.budget (p.outputs epoch).length := by
    clear h
    induction moves with
    | nil => exact fun _ _ ↦ Nat.zero_le _
    | cons move moves ih =>
      intro start h
      rw [List.foldlM_cons] at h
      obtain ⟨next, hstep, hrest⟩ := Option.bind_eq_some_iff.1 h
      exact (ih next hrest).trans_lt (budget_lt_of_step hstep)
  have hlength : (p.outputs epoch).length = (p.loader.plan epoch).length := by
    rw [outputs, Loader.answers, List.length_map, List.length_map, List.length_zipIdx]
  have hstart := hspent {} h
  rw [hlength] at hstart
  simpa [Stream.budget, SamplingTask.budget, AssemblingTask.budget, Nat.add_assoc] using hstart

/-! ### Going on to the end -/

/-- Only the consumer goes away. -/
theorem hungUp_of_step {move : Move} (h : p.step epoch s move = some s') (hmove : move ≠ .hangUp) :
    s'.hungUp = s.hungUp := by
  cases move with
  | sampling =>
    rcases stepSampling_cases h with ⟨_, _, -, -, rfl⟩ | ⟨_, -, -, rfl⟩ | ⟨_, _, -, -, rfl⟩ |
      ⟨_, _, -, -, -, rfl⟩ <;> rfl
  | assembling =>
    rcases stepAssembling_cases h with ⟨_, _, -, -, rfl⟩ | ⟨-, -, -, rfl⟩ | ⟨_, -, rfl⟩ |
      ⟨_, -, -, rfl⟩ | ⟨batch, -, -, -, rfl⟩
    case inr.inr.inr.inr => cases batch <;> rfl
    all_goals rfl
  | receive =>
    simp only [step, Stream.receive] at h
    split at h <;> cases h
    rfl
  | hangUp => exact absurd rfl hmove

/-- Neither task can move, and there is nothing to receive. -/
structure Settled (p : Pipeline) (epoch : UInt64) (s : Stream) : Prop where
  sampling : p.stepSampling epoch s = none
  assembling : p.stepAssembling s = none
  assembled : s.assembled = []

/-- Where a stream is not settled, something other than hanging up can be done. -/
theorem exists_step_of_not_settled (h : ¬p.Settled epoch s) :
    ∃ move s', move ≠ .hangUp ∧ p.step epoch s move = some s' := by
  rcases hsampling : p.stepSampling epoch s with - | s'
  · rcases hassembling : p.stepAssembling s with - | s'
    · rcases hassembled : s.assembled with - | ⟨batch, rest⟩
      · exact absurd ⟨hsampling, hassembling, hassembled⟩ h
      · have hreceive : s.receive =
            some { s with assembled := rest, received := s.received ++ [batch] } := by
          rw [Stream.receive, hassembled]
        exact ⟨.receive, _, nofun, hreceive⟩
    · exact ⟨.assembling, s', nofun, hassembling⟩
  · exact ⟨.sampling, s', nofun, hsampling⟩

/-- **Every schedule goes on to the end**, where the consumer stays. -/
theorem exists_settled {moves : List Move} (h : p.after epoch moves = some s)
    (hthere : s.hungUp = false) :
    ∃ more s', p.after epoch (moves ++ more) = some s' ∧ s'.hungUp = false ∧
      p.Settled epoch s' := by
  induction hbudget : s.budget (p.outputs epoch).length using Nat.strong_induction_on
    generalizing s moves with
  | h budget ih =>
    by_cases hsettled : p.Settled epoch s
    · exact ⟨[], s, by rwa [List.append_nil], hthere, hsettled⟩
    · obtain ⟨move, next, hmove, hstep⟩ := exists_step_of_not_settled hsettled
      have hnext : p.after epoch (moves ++ [move]) = some next := by
        rw [after, List.foldlM_append]
        refine Option.bind_eq_some_iff.2 ⟨s, h, ?_⟩
        rw [List.foldlM_cons, hstep]
        rfl
      obtain ⟨more, s', hafter, hend⟩ := ih _ (hbudget ▸ budget_lt_of_step hstep) hnext
        ((hungUp_of_step hstep hmove).trans hthere) rfl
      exact ⟨move :: more, s', by rwa [List.append_assoc] at hafter, hend⟩

/-! ### What is received -/

/-- What the consumer gets, in the state of the stream after a schedule. -/
structure Delivers (p : Pipeline) (epoch : UInt64) (moves : List Move) (s : Stream) : Prop where
  /-- It is the beginning of the reference: nothing is lost, repeated or out of order. -/
  inOrder : s.received <+: p.run epoch
  /-- Where no task can move and there is nothing to receive, it is the whole, and no more is to
  come. -/
  complete : s.hungUp = false → p.Settled epoch s → s.received = p.run epoch ∧ s.closed = true
  /-- If all batches can be sampled, they are batches of these samples. -/
  samples : ∀ outs, p.loader.epochOutputs epoch = .ok outs → ∀ (i : Nat) (b : Batch),
    s.received[i]? = some (.ok b) → outs[i]? = some b.sample
  /-- No channel holds more than it has room for. -/
  bounded : p.Bounded s
  /-- The schedule has at most six moves for every batch and three more. -/
  ends : moves.length ≤ 6 * (p.loader.plan epoch).length + 3
  /-- A consumer who stays can wait for the end: with further moves there is nothing left to do. -/
  finishes : s.hungUp = false → ∃ more s', p.after epoch (moves ++ more) = some s' ∧
    s'.hungUp = false ∧ p.Settled epoch s'

/-- The batches of samples carry them. -/
theorem sample_of_results {outs : List SamplingOutput}
    (h : p.loader.epochOutputs epoch = .ok outs) {i : Nat} {b : Batch}
    (hi : (p.results epoch)[i]? = some (.ok b)) : outs[i]? = some b.sample := by
  have houtputs : p.outputs epoch = outs.map .ok := mapM_eq_ok_iff.1 h
  rw [results_eq, houtputs, List.getElem?_map, List.getElem?_map, Option.map_map,
    Option.map_eq_some_iff] at hi
  obtain ⟨out, hout, hbatch⟩ := hi
  rw [hout, (Assembler.aligned_of_assemble hbatch).sample]

/-- **The consumer receives the reference, whatever the schedule.** -/
theorem after_delivers {moves : List Move} (h : p.after epoch moves = some s) :
    p.Delivers epoch moves s := by
  have hs := agrees_of_after h
  refine ⟨hs.inOrder, fun hthere hsettled ↦ ?_, fun outs houts i b hi ↦ ?_, bounded_of_after h,
    length_le_of_after h, exists_settled h⟩
  · have hempty := hsettled.assembled
    have hended := ended_of_stuck hsettled.sampling hsettled.assembling hthere hempty
    have hall := hs.ended (by rw [hended]; rfl) hthere
    rw [hempty, List.append_nil] at hall
    exact ⟨hall, by rw [Stream.closed, hended, hempty]; rfl⟩
  · obtain ⟨hlt, hb⟩ := List.getElem?_eq_some_iff.1 hi
    have hbeginning := hs.inOrder.trans (cutAtFailure_isBeginning (p.results epoch))
    exact sample_of_results houts (hb ▸ List.prefix_iff_getElem?.1 hbeginning i hlt)

/-- The small sampler over its two users, a batch for each and room for one. -/
def small : Pipeline :=
  .make ⟨.small .traversal, .node ⟨⟨"user"⟩, [0, 1]⟩, { batchSize := 1, prefetch := 1 }⟩ .plain

/-- The first batch gets through while the second is being sampled. -/
def smallSchedule : List Move :=
  [.sampling, .sampling, .assembling, .assembling, .assembling, .receive]

theorem exists_after_small : ∃ s, small.after 0 smallSchedule = some s ∧ s.hungUp = false := by
  obtain ⟨s, hs, batch, hsending, hthere, hempty⟩ :
      ∃ s, small.after 0 (smallSchedule.take 4) = some s ∧
        ∃ batch, s.assembling = .sending batch ∧ s.hungUp = false ∧ s.assembled = [] :=
    ⟨_, rfl, _, rfl, rfl, rfl⟩
  have hsend : small.stepAssembling s = some (s.send batch) := by
    simp [stepAssembling, hsending, hthere, hempty, capacity_pos]
  obtain ⟨s', hs', hstays⟩ : ∃ s', (s.send batch).receive = some s' ∧ s'.hungUp = false := by
    cases batch <;> simp [Stream.send, Stream.endAssembling, Stream.receive, hempty, hthere]
  have hsplit : smallSchedule = smallSchedule.take 4 ++ [.assembling, .receive] := rfl
  refine ⟨s', ?_, hstays⟩
  rw [hsplit, after, List.foldlM_append]
  refine Option.bind_eq_some_iff.2 ⟨s, hs, Option.bind_eq_some_iff.2 ⟨_, hsend, ?_⟩⟩
  exact Option.bind_eq_some_iff.2 ⟨s', hs', rfl⟩

/-- The small pipeline goes on from there until all is delivered. -/
theorem after_delivers_small :
    ∃ start, small.after 0 smallSchedule = some start ∧ small.Delivers 0 smallSchedule start ∧
      ∃ more s, small.after 0 (smallSchedule ++ more) = some s ∧
        small.Delivers 0 (smallSchedule ++ more) s ∧ s.hungUp = false ∧ small.Settled 0 s ∧
        s.received = small.run 0 ∧ s.closed = true := by
  obtain ⟨start, hstart, hthere⟩ := exists_after_small
  obtain ⟨more, s, hs, hstays, hsettled⟩ := exists_settled hstart hthere
  have hdelivers := after_delivers hs
  exact ⟨start, hstart, after_delivers hstart, more, s, hs, hdelivers, hstays, hsettled,
    hdelivers.complete hstays hsettled⟩

end Pipeline

end HopSampler
