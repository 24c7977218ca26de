import HopSampler.Proofs.Requests

/-!
# Whatever fails, fails early

A request is checked before anything is sampled: the lists against each other, the seeds against the
graph, the negatives against the configuration and the number of destinations
(`Sampler.validate`). Behind these checks there are further ones, on the row of every node that is
left, on the place of every seed and on the block of negatives. On a well-formed graph none of them
is ever reached by a request that passed the first (`Sampler.answer_failsEarly`): the answer is an
error exactly if validation is, with the same error, and it counts no negatives.

The one thing that validation leaves open is whether a block of triplets is too large to be
addressed. `Request.Fits` says that it is not.
-/

namespace HopSampler

/-- Negatives of a triplet request, and the candidates for those of one pair, can be counted in a
signed word. -/
def Request.Fits : Request → Prop
  | .node _ => True
  | .edge r => ∀ n, r.negatives = some n → n.mode = .triplet →
      r.rows.length * n.amount.toNat ≤ Sampler.greatestBlock ∧
        5 * n.amount.toNat ≤ Sampler.greatestBlock

namespace Sampler

/-! ### Validity -/

/-- What is checked of a request before anything is sampled. -/
def validate (s : Sampler) : Request → Except Error Unit
  | .node r => s.checkNodes r
  | .edge r => do
    let topology ← s.checkPairs r
    match r.negatives with
    | none => .ok ()
    | some n => do
      let targets ← s.graph.numNodes r.type.target
      let attempts ← s.config.negativeAttempts n
      discard (NegativeSampler.make topology targets attempts)

/-- A request for pairs is one that can be answered. -/
structure ValidPairs (s : Sampler) (r : EdgeRequest) : Prop where
  lengths : r.rows.length = r.cols.length
  labels : ∀ labels, r.labels = some labels → labels.length = r.rows.length
  /-- Triplets have a negative. -/
  amount : ∀ n, r.negatives = some n → n.mode = .triplet → n.amount ≠ 0
  /-- Binary negatives bring labels of their own. -/
  unlabelled : ∀ n, r.negatives = some n → n.mode = .binary → r.labels = none
  type : ∃ topology, s.graph.topology r.type = .ok topology
  rows : ∀ id ∈ r.rows, s.graph.HasNode r.type.source id
  cols : ∀ id ∈ r.cols, s.graph.HasNode r.type.target id
  enabled : r.negatives.isSome → s.config.withNegatives
  /-- There is a destination to draw. -/
  targets : r.negatives.isSome → ∃ count, s.graph.numNodes r.type.target = .ok count ∧ count ≠ 0

/-- A request is one that can be answered. -/
def Valid (s : Sampler) : Request → Prop
  | .node r => s.AcceptsNodes r
  | .edge r => s.ValidPairs r

variable {s : Sampler} {r : Request}

/-- The candidates for the negatives of a pair can be counted in a word. -/
theorem exists_negativeAttempts {r : EdgeRequest} (hr : (Request.edge r).Fits) {n : NegativeSampling}
    (hn : r.negatives = some n) : ∃ attempts, s.config.negativeAttempts n = .ok attempts := by
  rw [SamplerConfig.negativeAttempts]
  rcases s.config.maxNegativeAttempts with - | attempts
  · have hfits : 5 * max n.perPositive.toNat 1 < UInt64.size := by
      rcases hmode : n.mode with - | -
      · simp only [NegativeSampling.perPositive, hmode]
        decide
      · obtain ⟨-, hcandidates⟩ := hr n hn hmode
        have hblock : max greatestBlock 5 < UInt64.size := by decide
        simp only [NegativeSampling.perPositive, hmode]
        omega
    exact ⟨_, checked_eq_ok_iff.2 (toNat_toUInt64 hfits)⟩
  · exact ⟨attempts, rfl⟩

/-- A valid request is accepted if its negatives can be laid out. -/
theorem accepts_iff_valid (hr : r.Fits) : s.Accepts r ↔ s.Valid r := by
  cases r with
  | node r => exact Iff.rfl
  | edge r =>
    constructor
    · intro h
      have hnegatives : r.negatives.isSome → ∃ n, s.AcceptsNegatives r n := by
        intro hsome
        obtain ⟨n, hn⟩ := Option.isSome_iff_exists.1 hsome
        exact ⟨n, h.negatives n hn⟩
      exact {
        lengths := h.lengths
        labels := h.labels
        amount := fun n hn ↦ (h.negatives n hn).amount
        unlabelled := fun n hn ↦ (h.negatives n hn).unlabelled
        type := h.type
        rows := h.rows
        cols := h.cols
        enabled := fun hsome ↦ (hnegatives hsome).elim fun _ hn ↦ hn.enabled
        targets := fun hsome ↦ (hnegatives hsome).elim fun _ hn ↦ hn.targets }
    · intro h
      refine ⟨h.lengths, h.labels, h.type, h.rows, h.cols, fun n hn ↦ ?_⟩
      have hsome : r.negatives.isSome := by rw [hn]; rfl
      refine ⟨h.enabled hsome, h.amount n hn, h.unlabelled n hn, h.targets hsome,
        exists_negativeAttempts hr hn, fun hmode ↦ ?_⟩
      -- without pairs the width of the block counts, and it is below that of the candidates
      obtain ⟨hpairs, hcandidates⟩ := hr n hn hmode
      rcases Nat.eq_zero_or_pos r.rows.length with hnone | hpos
      · rw [hnone, Nat.max_eq_right (Nat.zero_le 1), Nat.one_mul]
        omega
      · rwa [Nat.max_eq_left hpos]

/-- Validation passes the valid requests. -/
theorem validate_eq_ok_iff (hr : r.Fits) : s.validate r = .ok () ↔ s.Valid r := by
  cases r with
  | node r => exact checkNodes_eq_ok_iff
  | edge r =>
    simp only [validate, bind_eq_ok_iff, checkPairs_eq_ok_iff, EdgeRequest.validate_eq_ok_iff]
    constructor
    · rintro ⟨topology, ⟨⟨⟨hlengths, hlabels⟩, hnegatives⟩, htop, hrows, hcols, henabled⟩, hdraw⟩
      refine ⟨hlengths, hlabels, fun n hn ↦ (hnegatives n hn).1, fun n hn ↦ (hnegatives n hn).2,
        ⟨topology, htop⟩, hrows, hcols, henabled, fun hsome ↦ ?_⟩
      obtain ⟨n, hn⟩ := Option.isSome_iff_exists.1 hsome
      simp only [hn] at hdraw
      obtain ⟨count, hcount, hdraw⟩ := bind_eq_ok_iff.1 hdraw
      obtain ⟨attempts, -, hmake⟩ := bind_eq_ok_iff.1 hdraw
      refine ⟨count, hcount, fun hzero ↦ ?_⟩
      rw [NegativeSampler.make, if_pos hzero] at hmake
      cases hmake
    · intro h
      obtain ⟨topology, htop⟩ := h.type
      refine ⟨topology, ⟨⟨⟨h.lengths, h.labels⟩, fun n hn ↦ ⟨h.amount n hn, h.unlabelled n hn⟩⟩, htop,
        h.rows, h.cols, h.enabled⟩, ?_⟩
      rcases hneg : r.negatives with - | n
      · rfl
      · obtain ⟨count, hcount, hpos⟩ := h.targets (by rw [hneg]; rfl)
        obtain ⟨attempts, hattempts⟩ := exists_negativeAttempts (s := s) hr hneg
        refine bind_eq_ok_iff.2 ⟨count, hcount, bind_eq_ok_iff.2 ⟨attempts, hattempts, ?_⟩⟩
        rw [NegativeSampler.make, if_neg hpos]
        rfl

/-! ### Rejection -/

/-- **What fails validation is rejected for it**, before a negative is counted. -/
theorem answer_of_validate_eq_error {e : Error} (h : s.validate r = .error e) (seed : UInt64) :
    s.answer r seed = ⟨.error e, .zero⟩ := by
  cases r with
  | node r =>
    have hcheck : s.checkNodes r = .error e := h
    show (⟨s.sampleNodes r seed, .zero⟩ : Answer) = _
    rw [sampleNodes, hcheck]
    rfl
  | edge r =>
    show s.samplePairs r seed = _
    rw [samplePairs]
    rcases bind_eq_error_iff.1 h with hcheck | ⟨topology, hcheck, hdraw⟩
    · rw [hcheck]
    · -- the checks pass, so it is the destinations or the number of candidates
      rcases hneg : r.negatives with - | n
      · simp only [hneg] at hdraw
        cases hdraw
      · simp only [hneg] at hdraw
        have hnegatives : s.negatives r topology seed = .error e := by
          simp only [negatives, hneg]
          rcases bind_eq_error_iff.1 hdraw with hcount | ⟨count, hcount, hdraw⟩
          · exact bind_eq_error_iff.2 (.inl hcount)
          refine bind_eq_error_iff.2 (.inr ⟨count, hcount, ?_⟩)
          rcases bind_eq_error_iff.1 hdraw with hattempts | ⟨attempts, hattempts, hmake⟩
          · exact bind_eq_error_iff.2 (.inl hattempts)
          · have hmake := discard_eq_error_iff.1 hmake
            exact bind_eq_error_iff.2 (.inr ⟨attempts, hattempts, bind_eq_error_iff.2 (.inl hmake)⟩)
        rw [hcheck]
        simp only [hnegatives]

/-- Whatever can fail about a request fails before anything is sampled. -/
structure FailsEarly (s : Sampler) (r : Request) (seed : UInt64) : Prop where
  /-- The request is answered with an output exactly if it is valid. -/
  output_iff : (∃ o, (s.answer r seed).output = .ok o) ↔ s.Valid r
  /-- An error of the answer is one of validation. -/
  error_iff : ∀ e, (s.answer r seed).output = .error e ↔ s.validate r = .error e
  /-- Past validation every node that is left has a row, every seed has a place, and the negatives
  can be laid out. -/
  sampled : s.Valid r → ∃ x metadata, Expansion.run (s.rules seed) (s.seeds r seed) = .ok x ∧
    s.metadataOf r seed x.rosters = .ok metadata
  /-- A rejected request counts no negatives. -/
  uncounted : ∀ e, (s.answer r seed).output = .error e → (s.answer r seed).tally = .zero

/-- **Requests fail at validation only**, on a well-formed graph. -/
theorem answer_failsEarly (hg : s.graph.WellFormed) (hr : r.Fits) (seed : UInt64) :
    s.FailsEarly r seed := by
  have houtput : (∃ o, (s.answer r seed).output = .ok o) ↔ s.Valid r :=
    (accepts_iff_output_eq_ok hg seed).symm.trans (accepts_iff_valid hr)
  have herror : ∀ e, (s.answer r seed).output = .error e → s.validate r = .error e := by
    intro e he
    rcases hvalidate : s.validate r with e' | ⟨⟩
    · rw [answer_of_validate_eq_error hvalidate seed] at he
      cases he
      rfl
    · obtain ⟨o, ho⟩ := houtput.2 ((validate_eq_ok_iff hr).1 hvalidate)
      rw [ho] at he
      cases he
  refine ⟨houtput, fun e ↦ ⟨herror e, fun h ↦ ?_⟩, fun h ↦ ?_, fun e he ↦ ?_⟩
  · rw [answer_of_validate_eq_error h seed]
  · have haccepts := (accepts_iff_valid hr).2 h
    obtain ⟨last, -, -, hrun, -⟩ := exists_stage hg haccepts seed
    obtain ⟨metadata, hmeta⟩ := exists_metadata haccepts
      (Expansion.prefix_stage (s.rules seed) (s.seeds r seed) (Nat.zero_le last))
    exact ⟨_, metadata, hrun, hmeta⟩
  · rw [answer_of_validate_eq_error (herror e he) seed]

theorem smallTriplets_fits : (Request.edge smallTriplets).Fits := by
  rintro _ ⟨⟩ -
  decide

theorem answer_failsEarly_small :
    Graph.small.WellFormed ∧ (Request.edge smallTriplets).Fits ∧
      (small .traversal).FailsEarly (.edge smallTriplets) 7 :=
  ⟨Graph.small_wellFormed, smallTriplets_fits,
    answer_failsEarly (s := small .traversal) Graph.small_wellFormed smallTriplets_fits 7⟩

end Sampler

end HopSampler
