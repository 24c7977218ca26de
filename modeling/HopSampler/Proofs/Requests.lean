import HopSampler.Proofs.Checks
import HopSampler.Proofs.NegativeDraws
import HopSampler.Proofs.Stages
import HopSampler.Sampling.Sampler

/-!
# Accepted requests

Which requests a sampler accepts, as conditions on the request, the configuration and the graph
(`Sampler.Accepts`), and what an accepted request is answered with. On a well-formed graph nothing
can fail after acceptance: the seeds are nodes of the graph, the walk is one of its stages, and the
answer presents that stage (`exists_stage`). The layout enters only in the presentation, so one
walk serves both. Conversely whatever is answered with an output was accepted
(`accepts_iff_output_eq_ok`).
-/

namespace HopSampler

/-! ### Acceptance -/

namespace Sampler

/-- A request for nodes is accepted: its type is registered and its seeds are nodes of the type. -/
structure AcceptsNodes (s : Sampler) (r : NodeRequest) : Prop where
  type : s.graph.hasNodeType r.type
  ids : ∀ id ∈ r.ids, s.graph.HasNode r.type id

/-- Negatives of a request are accepted. -/
structure AcceptsNegatives (s : Sampler) (r : EdgeRequest) (n : NegativeSampling) : Prop where
  enabled : s.config.withNegatives
  /-- Triplets have a negative. -/
  amount : n.mode = .triplet → n.amount ≠ 0
  /-- Binary negatives bring labels of their own. -/
  unlabelled : n.mode = .binary → r.labels = none
  /-- There is a destination to draw. -/
  targets : ∃ count, s.graph.numNodes r.type.target = .ok count ∧ count ≠ 0
  /-- A word holds the number of candidates. -/
  attempts : ∃ attempts, s.config.negativeAttempts n = .ok attempts
  /-- A block of triplets can be laid out. -/
  fits : n.mode = .triplet → max r.rows.length 1 * n.amount.toNat ≤ greatestBlock

/-- A request for pairs is accepted. -/
structure AcceptsPairs (s : Sampler) (r : EdgeRequest) : Prop where
  lengths : r.rows.length = r.cols.length
  labels : ∀ labels, r.labels = some labels → labels.length = r.rows.length
  type : ∃ topology, s.graph.topology r.type = .ok topology
  rows : ∀ id ∈ r.rows, s.graph.HasNode r.type.source id
  cols : ∀ id ∈ r.cols, s.graph.HasNode r.type.target id
  negatives : ∀ n, r.negatives = some n → s.AcceptsNegatives r n

/-- A request is accepted. -/
def Accepts (s : Sampler) : Request → Prop
  | .node r => s.AcceptsNodes r
  | .edge r => s.AcceptsPairs r

/-- The same sampler with its edges listed in another way. -/
def withLayout (s : Sampler) (layout : EdgeLayout) : Sampler :=
  { s with config := { s.config with layout } }

theorem Accepts.withLayout {s : Sampler} {r : Request} (h : s.Accepts r) (layout : EdgeLayout) :
    (s.withLayout layout).Accepts r := by
  cases r with
  | node r => exact ⟨h.type, h.ids⟩
  | edge r =>
    exact ⟨h.lengths, h.labels, h.type, h.rows, h.cols, fun n hn ↦
      have hneg := h.negatives n hn
      ⟨hneg.enabled, hneg.amount, hneg.unlabelled, hneg.targets, hneg.attempts, hneg.fits⟩⟩

end Sampler

/-! ### The checks -/

theorem Graph.checkNode_eq_ok_iff {g : Graph} {t : NodeType} {id : Id} :
    g.checkNode t id = .ok () ↔ g.HasNode t id := by
  simp only [checkNode, bind_eq_ok_iff, ite_ok_eq_ok_iff, and_true, HasNode]

theorem EdgeRequest.checkLengths_eq_ok_iff {r : EdgeRequest} :
    r.checkLengths = .ok () ↔ r.rows.length = r.cols.length ∧
      ∀ labels, r.labels = some labels → labels.length = r.rows.length := by
  rw [checkLengths, ite_error_eq_ok_iff, not_not]
  refine and_congr_right fun _ ↦ ?_
  cases r.labels <;> simp

theorem EdgeRequest.checkNegatives_eq_ok_iff {r : EdgeRequest} :
    r.checkNegatives = .ok () ↔ ∀ n, r.negatives = some n →
      (n.mode = .triplet → n.amount ≠ 0) ∧ (n.mode = .binary → r.labels = none) := by
  rw [checkNegatives]
  cases r.negatives with
  | none => simp
  | some n =>
    simp only [NegativeSampling.validate, check_bind_eq_ok_iff, ite_error_eq_ok_iff, and_true,
      not_and, Option.some.injEq, forall_eq']
    simp

theorem EdgeRequest.validate_eq_ok_iff {r : EdgeRequest} :
    r.validate = .ok () ↔
      (r.rows.length = r.cols.length ∧
        ∀ labels, r.labels = some labels → labels.length = r.rows.length) ∧
      ∀ n, r.negatives = some n →
        (n.mode = .triplet → n.amount ≠ 0) ∧ (n.mode = .binary → r.labels = none) := by
  rw [validate, check_bind_eq_ok_iff, checkLengths_eq_ok_iff, checkNegatives_eq_ok_iff]

namespace Sampler

variable {s : Sampler}

theorem checkNodes_eq_ok_iff {r : NodeRequest} : s.checkNodes r = .ok () ↔ s.AcceptsNodes r := by
  simp only [checkNodes, ite_ok_eq_ok_iff, forM_eq_ok_iff, Graph.checkNode_eq_ok_iff]
  exact ⟨fun ⟨htype, hids⟩ ↦ ⟨htype, hids⟩, fun h ↦ ⟨h.type, h.ids⟩⟩

theorem checkPairs_eq_ok_iff {r : EdgeRequest} {topology : Topology} :
    s.checkPairs r = .ok topology ↔ r.validate = .ok () ∧ s.graph.topology r.type = .ok topology ∧
      (∀ id ∈ r.rows, s.graph.HasNode r.type.source id) ∧
      (∀ id ∈ r.cols, s.graph.HasNode r.type.target id) ∧
      (r.negatives.isSome → s.config.withNegatives) := by
  rw [checkPairs, check_bind_eq_ok_iff, bind_eq_ok_iff]
  simp only [check_bind_eq_ok_iff, ite_error_eq_ok_iff, forM_eq_ok_iff, Graph.checkNode_eq_ok_iff,
    not_and, not_not, Except.ok.injEq]
  constructor
  · rintro ⟨hvalid, found, htop, hrows, hcols, henabled, rfl⟩
    exact ⟨hvalid, htop, hrows, hcols, henabled⟩
  · rintro ⟨hvalid, htop, hrows, hcols, henabled⟩
    exact ⟨hvalid, topology, htop, hrows, hcols, henabled, rfl⟩

theorem checkPairs_eq_ok {r : EdgeRequest} (h : s.AcceptsPairs r) {topology : Topology}
    (htop : s.graph.topology r.type = .ok topology) : s.checkPairs r = .ok topology := by
  have hvalid : r.validate = .ok () :=
    EdgeRequest.validate_eq_ok_iff.2 ⟨⟨h.lengths, h.labels⟩, fun n hn ↦
      ⟨(h.negatives n hn).amount, (h.negatives n hn).unlabelled⟩⟩
  refine checkPairs_eq_ok_iff.2 ⟨hvalid, htop, h.rows, h.cols, fun hsome ↦ ?_⟩
  obtain ⟨n, hn⟩ := Option.isSome_iff_exists.1 hsome
  exact (h.negatives n hn).enabled

theorem checkBlock_eq_ok_iff {pairs size held : Nat} :
    checkBlock pairs size held = .ok () ↔
      max pairs 1 * size ≤ greatestBlock ∧ held = pairs * size := by
  rw [checkBlock, ite_error_eq_ok_iff, ite_error_eq_ok_iff, not_lt, not_not]
  simp

/-! ### Seeds and metadata -/

variable (s)

/-- The negatives drawn for a request; none where they cannot be drawn. -/
def negativeIds (r : EdgeRequest) (seed : UInt64) : List Id :=
  match s.graph.topology r.type with
  | .error _ => []
  | .ok topology =>
    match s.negatives r topology seed with
    | .error _ => []
    | .ok negatives => negatives.map (·.id)

/-- The nodes met before the first hop. -/
def seeds (r : Request) (seed : UInt64) : Rosters :=
  match r with
  | .node r => Rosters.claimAll .empty r.type r.ids
  | .edge r => pairSeeds r (s.negativeIds r seed)

/-- The seeds of one type, in the order in which the request lists them. -/
def seedIds (r : Request) (seed : UInt64) (t : NodeType) : List Id :=
  match r with
  | .node r => if r.type = t then r.ids else []
  | .edge r => (if r.type.source = t then r.rows else []) ++
      if r.type.target = t then r.cols ++ s.negativeIds r seed else []

/-- What is said of the seeds in the output, given the rosters at the end. -/
def metadataOf (r : Request) (seed : UInt64) (rosters : Rosters) : Except Error Metadata :=
  match r with
  | .node _ => .ok .node
  | .edge r => pairMetadata r (s.negativeIds r seed) rosters

variable {s}

/-- The seeds of a type are met in order. -/
theorem roster_seeds (r : Request) (seed : UInt64) (t : NodeType) :
    (s.seeds r seed).roster t = Roster.empty.claimAll (s.seedIds r seed t) := by
  have hempty : Rosters.roster .empty t = Roster.empty := rfl
  cases r with
  | node r =>
    rw [seeds, seedIds, Rosters.roster_claimAll, hempty]
    split <;> rfl
  | edge r =>
    rw [seeds, seedIds, pairSeeds, Rosters.roster_claimAll, Rosters.roster_claimAll, hempty]
    by_cases hsource : r.type.source = t <;> by_cases htarget : r.type.target = t <;>
      simp [hsource, htarget, Roster.claimAll_append]

theorem mem_roster_seeds_iff {r : Request} {seed : UInt64} {t : NodeType} {id : Id} :
    id ∈ ((s.seeds r seed).roster t).ids.toList ↔ id ∈ s.seedIds r seed t := by
  rw [roster_seeds, Roster.mem_claimAll]
  exact or_iff_right List.not_mem_nil

/-- The negatives of a request are drawn from its own stream, where there is a destination to
draw. -/
theorem negatives_eq_ok {r : EdgeRequest} {n : NegativeSampling} (hneg : r.negatives = some n)
    {topology : Topology} {count : UInt64} (hcount : s.graph.numNodes r.type.target = .ok count)
    (hpos : count ≠ 0) {attempts : UInt64}
    (hattempts : s.config.negativeAttempts n = .ok attempts) {seed : UInt64} :
    s.negatives r topology seed =
      .ok ((⟨topology, count, max attempts.toNat 1⟩ : NegativeSampler).drawForPairs
        n.perPositive.toNat (r.rows.zip r.cols) (Random.stream seed [negativeStream])).1 := by
  have hmake : NegativeSampler.make topology count attempts =
      .ok ⟨topology, count, max attempts.toNat 1⟩ := by
    rw [NegativeSampler.make, if_neg hpos]
  simp only [negatives, hneg]
  exact bind_eq_ok_iff.2 ⟨count, hcount, bind_eq_ok_iff.2 ⟨attempts, hattempts,
    bind_eq_ok_iff.2 ⟨_, hmake, rfl⟩⟩⟩

/-- The negatives of an accepted request can be drawn, and are destinations of it. -/
theorem exists_negatives {r : EdgeRequest} (h : s.AcceptsPairs r) (topology : Topology)
    (seed : UInt64) : ∃ negatives, s.negatives r topology seed = .ok negatives ∧
      ∀ n ∈ negatives, s.graph.HasNode r.type.target n.id := by
  rcases hneg : r.negatives with - | n
  · exact ⟨[], by rw [negatives, hneg], by simp⟩
  · obtain ⟨count, hcount, hpos⟩ := (h.negatives n hneg).targets
    obtain ⟨attempts, hattempts⟩ := (h.negatives n hneg).attempts
    refine ⟨_, negatives_eq_ok hneg hcount hpos hattempts, ?_⟩
    refine NegativeSampler.drawForPairs_of_forall _ (p := s.graph.HasNode r.type.target) hpos
      (fun id hid ↦ ⟨count, hcount, hid⟩) (fun pair hpair ↦ ?_) _ _
    exact h.cols _ (List.of_mem_zip hpair).2

/-- **An accepted request is sampled**: nothing stands between it and the walk. -/
theorem output_eq_sampleFrom {r : Request} (h : s.Accepts r) (seed : UInt64) :
    (s.answer r seed).output = s.sampleFrom seed (s.seeds r seed) (s.metadataOf r seed) := by
  cases r with
  | node r =>
    show s.sampleNodes r seed = _
    rw [sampleNodes, checkNodes_eq_ok_iff.2 h]
    rfl
  | edge r =>
    obtain ⟨topology, htop⟩ := h.type
    obtain ⟨negatives, hneg, -⟩ := exists_negatives h topology seed
    have hids : s.negativeIds r seed = negatives.map (·.id) := by
      simp only [negativeIds, htop, hneg]
    show (s.samplePairs r seed).output = _
    rw [samplePairs, checkPairs_eq_ok h htop]
    simp only [hneg, ← hids]
    rfl

/-- The negatives of an accepted request are destinations of it. -/
theorem hasNode_of_mem_negativeIds {r : EdgeRequest} (h : s.AcceptsPairs r) {seed : UInt64} {id : Id}
    (hid : id ∈ s.negativeIds r seed) : s.graph.HasNode r.type.target id := by
  obtain ⟨topology, htop⟩ := h.type
  obtain ⟨negatives, hneg, hnodes⟩ := exists_negatives h topology seed
  simp only [negativeIds, htop, hneg] at hid
  obtain ⟨n, hn, rfl⟩ := List.mem_map.1 hid
  exact hnodes n hn

theorem inRange_claimAll {g : Graph} {rosters : Rosters} {t : NodeType} {ids : List Id}
    (h : Expansion.InRange g rosters) (hids : ∀ id ∈ ids, g.HasNode t id) :
    Expansion.InRange g (rosters.claimAll t ids) := by
  intro u id hid
  rw [Rosters.roster_claimAll] at hid
  split at hid
  · next heq =>
    rcases Roster.mem_claimAll.1 hid with hid | hid
    · exact h u id hid
    · exact heq ▸ hids id hid
  · exact h u id hid

/-- The seeds of an accepted request are nodes of the graph. -/
theorem inRange_seeds {r : Request} (h : s.Accepts r) (seed : UInt64) :
    Expansion.InRange s.graph (s.seeds r seed) := by
  have hempty : Expansion.InRange s.graph .empty := fun t id hid ↦ absurd hid List.not_mem_nil
  cases r with
  | node r => exact inRange_claimAll hempty h.ids
  | edge r =>
    refine inRange_claimAll (inRange_claimAll hempty h.rows) fun id hid ↦ ?_
    rcases List.mem_append.1 hid with hid | hid
    · exact h.cols id hid
    · exact hasNode_of_mem_negativeIds h hid

/-- There are as many negatives as the request asks for. -/
theorem length_negativeIds {r : EdgeRequest} (h : s.AcceptsPairs r) {n : NegativeSampling}
    (hneg : r.negatives = some n) (seed : UInt64) :
    (s.negativeIds r seed).length = r.rows.length * n.perPositive.toNat := by
  obtain ⟨topology, htop⟩ := h.type
  obtain ⟨count, hcount, hpos⟩ := (h.negatives n hneg).targets
  obtain ⟨attempts, hattempts⟩ := (h.negatives n hneg).attempts
  have hzip : (r.rows.zip r.cols).length = r.rows.length := by
    rw [List.length_zip, ← h.lengths, Nat.min_self]
  simp only [negativeIds, htop, negatives_eq_ok hneg hcount hpos hattempts, List.length_map,
    NegativeSampler.length_drawForPairs, hzip]

/-- Seeds that were met have places. -/
theorem placesOf_seeds {r : Request} {seed : UInt64} {rosters : Rosters}
    (hmet : (s.seeds r seed).Prefix rosters) {t : NodeType} {ids : List Id}
    (hids : ∀ id ∈ ids, id ∈ s.seedIds r seed t) :
    rosters.placesOf t ids = .ok (ids.map (rosters.roster t).placeOf) := by
  refine Expansion.mapM_eq_ok fun id hid ↦ ?_
  have hin := (hmet t).subset (mem_roster_seeds_iff.2 (hids id hid))
  rw [Roster.place?_eq_some_iff.2 (Roster.getElem?_placeOf hin)]

/-- Where the pairs and their negatives are, once they were met. -/
theorem pairMetadata_seeds {r : EdgeRequest} {seed : UInt64} {rosters : Rosters}
    (hmet : (s.seeds (.edge r) seed).Prefix rosters) :
    pairMetadata r (s.negativeIds r seed) rosters =
      layOut r (r.rows.map (rosters.roster r.type.source).placeOf)
        (r.cols.map (rosters.roster r.type.target).placeOf)
        ((s.negativeIds r seed).map (rosters.roster r.type.target).placeOf) := by
  have hrows : ∀ id ∈ r.rows, id ∈ s.seedIds (.edge r) seed r.type.source := by
    intro id hid
    simp [seedIds, hid]
  have hcols : ∀ id ∈ r.cols, id ∈ s.seedIds (.edge r) seed r.type.target := by
    intro id hid
    simp [seedIds, hid]
  have hdrawn : ∀ id ∈ s.negativeIds r seed, id ∈ s.seedIds (.edge r) seed r.type.target := by
    intro id hid
    simp [seedIds, hid]
  rw [pairMetadata, placesOf_seeds hmet hrows, placesOf_seeds hmet hcols, placesOf_seeds hmet hdrawn]
  rfl

/-- The metadata of an accepted request can be laid out, once its seeds were met. -/
theorem exists_metadata {r : Request} (h : s.Accepts r) {seed : UInt64} {rosters : Rosters}
    (hmet : (s.seeds r seed).Prefix rosters) :
    ∃ metadata, s.metadataOf r seed rosters = .ok metadata := by
  cases r with
  | node r => exact ⟨.node, rfl⟩
  | edge r =>
    rw [metadataOf, pairMetadata_seeds hmet, layOut]
    rcases hneg : r.negatives with - | n
    · exact ⟨_, rfl⟩
    · rcases hmode : n.mode <;> simp only [hmode]
      · exact ⟨_, rfl⟩
      · have hfits := (h.negatives n hneg).fits hmode
        have hlength := length_negativeIds h hneg seed
        simp only [NegativeSampling.perPositive, hmode] at hlength
        refine ⟨_, check_bind_eq_ok_iff.2 ⟨checkBlock_eq_ok_iff.2 ?_, rfl⟩⟩
        rw [List.length_map, List.length_map]
        exact ⟨hfits, hlength⟩

/-! ### The answer -/

/-- **The answer to an accepted request presents what the walk ended with**, whichever way the edges
are listed. -/
theorem output_eq_present {r : Request} (h : s.Accepts r) {seed : UInt64} {x : Expansion}
    (hrun : Expansion.run (s.rules seed) (s.seeds r seed) = .ok x) {metadata : Metadata}
    (hmeta : s.metadataOf r seed x.rosters = .ok metadata) (layout : EdgeLayout) :
    ((s.withLayout layout).answer r seed).output =
      .ok (x.present layout s.config.withEdge s.config.budgets.numHops metadata) := by
  rw [output_eq_sampleFrom (h.withLayout layout), sampleFrom, bind_eq_ok_iff]
  refine ⟨x, ?_, bind_eq_ok_iff.2 ⟨metadata, ?_, rfl⟩⟩
  · cases r <;> exact hrun
  · cases r <;> exact hmeta

/-- **An accepted request is answered with a stage of its walk**, the last one or the first with
nobody to go on from, whichever way the edges are listed. -/
theorem exists_stage {r : Request} (hg : s.graph.WellFormed) (h : s.Accepts r) (seed : UInt64) :
    ∃ last ≤ s.config.budgets.numHops,
      (last = s.config.budgets.numHops ∨
        (Expansion.stage (s.rules seed) (s.seeds r seed) last).frontier = []) ∧
      Expansion.run (s.rules seed) (s.seeds r seed) =
        .ok (Expansion.stage (s.rules seed) (s.seeds r seed) last) ∧
      ∃ metadata, ∀ layout, ((s.withLayout layout).answer r seed).output =
        .ok ((Expansion.stage (s.rules seed) (s.seeds r seed) last).present layout
          s.config.withEdge s.config.budgets.numHops metadata) := by
  have hrules : (s.rules seed).graph.WellFormed := hg
  obtain ⟨last, hle, hstop, hrun⟩ := Expansion.run_eq_stage hrules (inRange_seeds h seed)
  obtain ⟨metadata, hmeta⟩ :=
    exists_metadata h (Expansion.prefix_stage (s.rules seed) (s.seeds r seed) (Nat.zero_le last))
  exact ⟨last, hle, hstop, hrun, metadata, output_eq_present h hrun hmeta⟩

/-- What a request for pairs went through before it was answered. -/
theorem acceptsPairs_of_output_eq_ok {r : EdgeRequest} {seed : UInt64} {o : SamplingOutput}
    (h : (s.samplePairs r seed).output = .ok o) : s.AcceptsPairs r := by
  rw [samplePairs] at h
  split at h
  · cases h
  · next topology hcheck =>
    obtain ⟨hvalid, htop, hrows, hcols, henabled⟩ := checkPairs_eq_ok_iff.1 hcheck
    obtain ⟨⟨hlengths, hlabels⟩, hnegatives⟩ := EdgeRequest.validate_eq_ok_iff.1 hvalid
    split at h
    · cases h
    · next negatives hdrawn =>
      obtain ⟨x, -, h⟩ := bind_eq_ok_iff.1 h
      obtain ⟨metadata, hmeta, -⟩ := bind_eq_ok_iff.1 h
      refine ⟨hlengths, hlabels, ⟨topology, htop⟩, hrows, hcols, fun n hn ↦ ?_⟩
      obtain ⟨hamount, hunlabelled⟩ := hnegatives n hn
      -- the draws need a destination and a number of candidates
      simp only [Sampler.negatives, hn] at hdrawn
      obtain ⟨count, hcount, hdrawn⟩ := bind_eq_ok_iff.1 hdrawn
      obtain ⟨attempts, hattempts, hdrawn⟩ := bind_eq_ok_iff.1 hdrawn
      obtain ⟨sampler, hmake, -⟩ := bind_eq_ok_iff.1 hdrawn
      rw [NegativeSampler.make, ite_error_eq_ok_iff] at hmake
      refine ⟨henabled (by rw [hn]; rfl), hamount, hunlabelled, ⟨count, hcount, hmake.1⟩,
        ⟨attempts, hattempts⟩, fun hmode ↦ ?_⟩
      · -- the metadata needs a block of them
        obtain ⟨sources, hsources, hmeta⟩ := bind_eq_ok_iff.1 hmeta
        obtain ⟨positives, -, hmeta⟩ := bind_eq_ok_iff.1 hmeta
        obtain ⟨drawn, -, hmeta⟩ := bind_eq_ok_iff.1 hmeta
        simp only [layOut, hn, hmode, check_bind_eq_ok_iff, checkBlock_eq_ok_iff] at hmeta
        rw [← length_of_mapM_eq_ok hsources]
        exact hmeta.1.1

/-- **A request is accepted exactly if it is answered with an output.** -/
theorem accepts_iff_output_eq_ok {r : Request} (hg : s.graph.WellFormed) (seed : UInt64) :
    s.Accepts r ↔ ∃ o, (s.answer r seed).output = .ok o := by
  constructor
  · intro h
    obtain ⟨last, -, -, -, metadata, houtput⟩ := exists_stage hg h seed
    exact ⟨_, houtput s.config.layout⟩
  · rintro ⟨o, ho⟩
    cases r with
    | node r => exact checkNodes_eq_ok_iff.1 (check_bind_eq_ok_iff.1 ho).1
    | edge r => exact acceptsPairs_of_output_eq_ok ho

end Sampler

/-! ### A small sampler -/

/-- Two users, who see items, and three items, which go with items. -/
def Graph.small : Graph where
  nodeCounts := ⟨[(⟨"item"⟩, 3), (⟨"user"⟩, 2)], by decide⟩
  topologies := ⟨[(⟨⟨"item"⟩, "with", ⟨"item"⟩⟩, ⟨#[#[⟨1, 0⟩, ⟨2, 1⟩], #[], #[⟨0, 2⟩]], .zeroCopy⟩),
    (⟨⟨"user"⟩, "sees", ⟨"item"⟩⟩, ⟨#[#[⟨0, 0⟩, ⟨1, 1⟩], #[⟨1, 2⟩]], .zeroCopy⟩)], by decide⟩

theorem Graph.small_wellFormed : Graph.small.WellFormed := by decide

namespace Sampler

/-- Two hops over the small graph, in the given layout. -/
def small (layout : EdgeLayout) : Sampler where
  graph := .small
  config := { budgets := .uniform [2, 1], withEdge := true, withNegatives := true, layout }

/-- Two pairs that were seen, with a negative each. -/
def smallRequest : Request :=
  .edge { type := ⟨⟨"user"⟩, "sees", ⟨"item"⟩⟩, rows := [0, 1], cols := [0, 1],
          negatives := some ⟨.binary, 1⟩ }

theorem small_accepts (layout : EdgeLayout) : (small layout).Accepts smallRequest where
  lengths := rfl
  labels := nofun
  type := ⟨_, rfl⟩
  rows := by
    show ∀ id ∈ [0, 1], Graph.small.HasNode ⟨"user"⟩ id
    exact List.forall_mem_cons.2 ⟨by decide, List.forall_mem_singleton.2 (by decide)⟩
  cols := by
    show ∀ id ∈ [0, 1], Graph.small.HasNode ⟨"item"⟩ id
    exact List.forall_mem_cons.2 ⟨by decide, List.forall_mem_singleton.2 (by decide)⟩
  negatives := by
    rintro _ ⟨⟩
    exact ⟨rfl, nofun, fun _ ↦ rfl, ⟨3, rfl, by decide⟩, ⟨5, rfl⟩, nofun⟩

/-- The same pairs, with two negatives each. -/
def smallTriplets : EdgeRequest where
  type := ⟨⟨"user"⟩, "sees", ⟨"item"⟩⟩
  rows := [0, 1]
  cols := [0, 1]
  negatives := some ⟨.triplet, 2⟩

theorem smallTriplets_accepts (layout : EdgeLayout) :
    (small layout).Accepts (.edge smallTriplets) where
  lengths := rfl
  labels := nofun
  type := ⟨_, rfl⟩
  rows := (show (small layout).AcceptsPairs _ from small_accepts layout).rows
  cols := (show (small layout).AcceptsPairs _ from small_accepts layout).cols
  negatives := by
    rintro _ ⟨⟩
    exact ⟨rfl, fun _ ↦ by decide, nofun, ⟨3, rfl, by decide⟩, ⟨10, rfl⟩, fun _ ↦ by decide⟩

end Sampler

end HopSampler
