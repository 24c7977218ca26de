import HopSampler.Proofs.Distance
import HopSampler.Proofs.LastStage

/-!
# Budgets that take every edge

A walk whose budgets are no smaller than the degrees, and that draws without replacement, chooses
nothing: every arc is followed (`Rules.Full.picked_eq`). It is then a breadth-first search over all
node types at once, and its output is described without it: the segment of a step are the nodes at
that distance from the seeds, and the edges are all that leave a node at a smaller distance than the
number of hops (`SamplingOutput.ExactNeighborhood`). Randomness is left to the negatives alone.

What is met by step `s` are the nodes reached in at most `s` edges (`mem_metAt_iff_reachedIn`). In
one direction the induction is on the hops, in the other on the edges: a hop goes on from new nodes
only, but a node that was met has been new once, so whatever one more edge leads to is met by the
next hop at the latest (`mem_metAt_of_mem_arcsOf`).
-/

namespace HopSampler

/-! ### What an output shows -/

/-- An output is the neighbourhood of seeds up to a distance. -/
structure SamplingOutput.ExactNeighborhood (o : SamplingOutput) (g : Graph)
    (seedIds : NodeType → List Id) (c : SamplerConfig) : Prop where
  /-- A step adds the nodes at its distance. -/
  segments : ∀ t, ∀ step ≤ c.budgets.numHops, ∀ node,
    node ∈ o.segment t step ↔ g.AtDistance seedIds step t node
  /-- Every edge that leaves a node in reach is recorded, once. -/
  edges : c.layout = .traversal → ∀ e, ((o.linksOf .traversal e).map (o.record? e)).Perm
    ((g.entriesWithin seedIds c.budgets.numHops e).map
      fun entry ↦ some (entry.2.record c.withEdge entry.1))

namespace Expansion

/-! ### Nothing to choose -/

/-- Every edge is followed where a hop comes to its source. -/
structure Rules.Full (rules : Rules) : Prop where
  replace : rules.replace = false
  covers : ∀ hop < rules.budgets.numHops, ∀ e topology, rules.graph.topology e = .ok topology →
    topology.maxDegree ≤ rules.budgets.budget e hop

variable {rules : Rules} {seeds : Rosters} (hfull : rules.Full)
include hfull

/-- **Every arc of a node is followed.** -/
theorem Rules.Full.picked_eq {hop : Nat} (hhop : hop < rules.budgets.numHops) {e : EdgeType}
    {topology : Topology} (htop : rules.graph.topology e = .ok topology) (node : Id) :
    rules.picked hop e topology node = topology.arcsOf node := by
  have hdegree := Nat.le_trans (topology.length_arcsOf_le node) (hfull.covers hop hhop e topology htop)
  rw [Topology.arcsOf, Array.length_toList] at hdegree
  rw [Rules.picked, chooseArcs, hfull.replace, dif_pos hdegree]
  split
  · next hnone => rw [Topology.arcsOf, Array.size_eq_zero_iff.1 hnone]
  · rfl

/-- An edge type without a budget has no edges. -/
theorem Rules.Full.arcsOf_eq_nil {hop : Nat} (hhop : hop < rules.budgets.numHops) {e : EdgeType}
    {topology : Topology} (htop : rules.graph.topology e = .ok topology)
    (hbudget : rules.budgets.budget e hop = 0) (node : Id) : topology.arcsOf node = [] := by
  have hdegree := Nat.le_trans (topology.length_arcsOf_le node) (hfull.covers hop hhop e topology htop)
  exact List.length_eq_zero_iff.1 (by omega)

/-! ### What is met -/

/-- **A hop meets whatever an edge from its front leads to.** -/
theorem mem_metBy_iff_of_full {s : Nat} (hs : s < rules.budgets.numHops) {t : NodeType} {node : Id} :
    node ∈ metBy rules s t (tasksAt rules seeds s) ↔
      ∃ e topology source, ∃ arc ∈ topology.arcsOf source, rules.graph.topology e = .ok topology ∧
        e.target = t ∧ arc.target = node ∧ source ∈ (frontAt rules seeds s e.source).ids := by
  rw [mem_metBy_iff]
  constructor
  · rintro ⟨task, htask, htarget, hnode⟩
    obtain ⟨hfront, -, htop, -⟩ := (mem_tasksAt_iff rules seeds).1 htask
    obtain ⟨arcs, harcs, arc, harc, rfl⟩ := mem_targetsOf_iff.1 hnode
    obtain ⟨source, hsource, rfl⟩ := List.mem_map.1 harcs
    rw [hfull.picked_eq hs htop] at harc
    exact ⟨task.type, task.topology, source, arc, harc, htop, htarget, rfl, hfront ▸ hsource⟩
  · rintro ⟨e, topology, source, arc, harc, htop, htarget, rfl, hsource⟩
    have hbudget : rules.budgets.budget e s ≠ 0 := by
      intro hzero
      rw [hfull.arcsOf_eq_nil hs htop hzero] at harc
      exact List.not_mem_nil harc
    have htask : ⟨frontAt rules seeds s e.source, e, topology⟩ ∈ tasksAt rules seeds s :=
      (mem_tasksAt_iff rules seeds).2 ⟨rfl, List.ne_nil_of_mem hsource, htop, hbudget⟩
    refine ⟨_, htask, htarget, mem_targetsOf_iff.2 ⟨_, List.mem_map_of_mem hsource, arc, ?_, rfl⟩⟩
    rwa [hfull.picked_eq hs htop]

/-- **One more edge from a node that was met leads to a node that the next hop has met**: whichever
hop went on from it did so along every edge. -/
theorem mem_metAt_of_mem_arcsOf {s : Nat} (hs : s < rules.budgets.numHops) {e : EdgeType}
    {topology : Topology} (htop : rules.graph.topology e = .ok topology) {source : Id}
    (hsource : source ∈ metAt rules seeds s e.source) {arc : Arc}
    (harc : arc ∈ topology.arcsOf source) : arc.target ∈ metAt rules seeds (s + 1) e.target := by
  rw [← flatMap_frontAt, List.mem_flatMap] at hsource
  obtain ⟨hop, hhop, hsource⟩ := hsource
  have hle : hop < s + 1 := List.mem_range.1 hhop
  have hmet : arc.target ∈ metAt rules seeds (hop + 1) e.target :=
    (mem_metAt_succ rules seeds).2 (.inr ((mem_metBy_iff_of_full hfull (by omega)).2
      ⟨e, topology, source, arc, harc, htop, rfl, rfl, hsource⟩))
  exact (metAt_mono rules seeds hle e.target).subset hmet

section Distance

variable (hg : rules.graph.WellFormed) {seedIds : NodeType → List Id}
  (hseeds : ∀ t id, id ∈ (seeds.roster t).ids.toList ↔ id ∈ seedIds t)
include hg hseeds

theorem exists_reachedIn_of_mem_metAt {s : Nat} (hs : s ≤ rules.budgets.numHops) {t : NodeType}
    {node : Id} (h : node ∈ metAt rules seeds s t) :
    ∃ k ≤ s, rules.graph.ReachedIn seedIds k t node := by
  induction s generalizing t node with
  | zero => exact ⟨0, Nat.le_refl 0, (hseeds t node).1 h⟩
  | succ s ih =>
    rcases (mem_metAt_succ rules seeds).1 h with hold | hmet
    · obtain ⟨k, hk, hreached⟩ := ih (Nat.le_of_lt hs) hold
      exact ⟨k, by omega, hreached⟩
    · obtain ⟨e, topology, source, arc, harc, htop, htarget, hnode, hsource⟩ :=
        (mem_metBy_iff_of_full hfull hs).1 hmet
      obtain ⟨k, hk, hreached⟩ := ih (Nat.le_of_lt hs) (List.mem_of_mem_drop hsource)
      exact ⟨k + 1, by omega, (Graph.reachedIn_succ_iff hg).2
        ⟨e, topology, source, arc, harc, htop, htarget, hnode, hreached⟩⟩

theorem mem_metAt_of_reachedIn {k : Nat} (hk : k ≤ rules.budgets.numHops) {t : NodeType} {node : Id}
    (h : rules.graph.ReachedIn seedIds k t node) : node ∈ metAt rules seeds k t := by
  induction k generalizing t node with
  | zero => exact (hseeds t node).2 h
  | succ k ih =>
    obtain ⟨e, topology, source, arc, harc, htop, rfl, rfl, hreached⟩ :=
      (Graph.reachedIn_succ_iff hg).1 h
    exact mem_metAt_of_mem_arcsOf hfull hk htop (ih (Nat.le_of_lt hk) hreached) harc

/-- **What is met by a step is reached in at most as many edges.** -/
theorem mem_metAt_iff_reachedIn {s : Nat} (hs : s ≤ rules.budgets.numHops) {t : NodeType}
    {node : Id} : node ∈ metAt rules seeds s t ↔ ∃ k ≤ s, rules.graph.ReachedIn seedIds k t node := by
  constructor
  · exact exists_reachedIn_of_mem_metAt hfull hg hseeds hs
  · rintro ⟨k, hk, hreached⟩
    exact (metAt_mono rules seeds hk t).subset
      (mem_metAt_of_reachedIn hfull hg hseeds (Nat.le_trans hk hs) hreached)

/-- **What is new at a step is at its distance.** -/
theorem mem_frontAt_iff_atDistance {s : Nat} (hs : s ≤ rules.budgets.numHops) {t : NodeType}
    {node : Id} :
    node ∈ (frontAt rules seeds s t).ids ↔ rules.graph.AtDistance seedIds s t node := by
  have hmet : ∀ {i}, i ≤ rules.budgets.numHops →
      (node ∈ metAt rules seeds i t ↔ ∃ k ≤ i, rules.graph.ReachedIn seedIds k t node) :=
    fun hi ↦ mem_metAt_iff_reachedIn hfull hg hseeds hi
  rw [Graph.AtDistance]
  rcases s with - | s
  · have hfirst : (frontAt rules seeds 0 t).ids = metAt rules seeds 0 t := rfl
    rw [hfirst, hmet hs]
    simp
  · rw [mem_frontAt_succ_iff, hmet hs, hmet (Nat.le_of_lt hs)]
    constructor
    · rintro ⟨⟨k, hk, hreached⟩, hnew⟩
      have hfewer : ∀ k < s + 1, ¬rules.graph.ReachedIn seedIds k t node :=
        fun k hk hreached ↦ hnew ⟨k, by omega, hreached⟩
      obtain rfl : k = s + 1 := by
        by_contra hne
        exact hfewer k (by omega) hreached
      exact ⟨hreached, hfewer⟩
    · rintro ⟨hreached, hfewer⟩
      exact ⟨⟨s + 1, Nat.le_refl _, hreached⟩, fun ⟨k, hk, hearly⟩ ↦ hfewer k (by omega) hearly⟩

/-- The nodes that hops go on from are those in reach, each once. -/
theorem perm_fronts {e : EdgeType} {topology : Topology}
    (htop : rules.graph.topology e = .ok topology) (hin : InRange rules.graph seeds) :
    ((List.range rules.budgets.numHops).flatMap fun hop ↦
      (frontAt rules seeds hop e.source).ids).Perm
      (topology.nodes.filter fun node ↦
        ∃ d < rules.budgets.numHops, rules.graph.AtDistance seedIds d e.source node) := by
  have hnodup : ((List.range rules.budgets.numHops).flatMap fun hop ↦
      (frontAt rules seeds hop e.source).ids).Nodup := by
    rcases rules.budgets.numHops with - | n
    · exact .nil
    · rw [flatMap_frontAt]
      exact metAt_nodup ..
  refine (List.perm_ext_iff_of_nodup hnodup ((hg htop).nodes_nodup.filter _)).2 fun node ↦ ?_
  simp only [List.mem_flatMap, List.mem_range, List.mem_filter, decide_eq_true_eq]
  constructor
  · rintro ⟨hop, hhop, hnode⟩
    refine ⟨(hg htop).mem_nodes_iff.2 ?_, hop, hhop,
      (mem_frontAt_iff_atDistance hfull hg hseeds (Nat.le_of_lt hhop)).1 hnode⟩
    exact inRange_stage hg hin hop _ _ (List.mem_of_mem_drop hnode)
  · rintro ⟨-, hop, hhop, hnode⟩
    exact ⟨hop, hhop, (mem_frontAt_iff_atDistance hfull hg hseeds (Nat.le_of_lt hhop)).2 hnode⟩

end Distance

/-! ### What is recorded -/

section Output

variable {last : Nat} {withEdge : Bool} {metadata : Metadata} {o : SamplingOutput}
  (hlast : last ≤ rules.budgets.numHops)
  (hstop : last = rules.budgets.numHops ∨ (stage rules seeds last).frontier = [])
  (ho : o = (stage rules seeds last).present .traversal withEdge rules.budgets.numHops metadata)
include hlast hstop ho

/-- **A hop records the arcs of its front**, node by node. -/
theorem recordsAt_of_full {e : EdgeType} {topology : Topology}
    (htop : rules.graph.topology e = .ok topology) {hop : Nat} (hhop : hop < rules.budgets.numHops) :
    o.recordsAt e hop = (frontAt rules seeds hop e.source).ids.flatMap fun node ↦
      (topology.arcsOf node).map (Arc.record withEdge node) := by
  rcases Nat.lt_or_ge hop last with htaken | hlater
  · rw [recordsAt_stage hlast ho e htaken, filter_tasksAt htop]
    split
    · next hidle =>
      rw [List.flatMap_nil, eq_comm, List.flatMap_eq_nil_iff]
      intro node hnode
      rcases hidle with hids | hbudget
      · rw [hids] at hnode
        exact absurd hnode List.not_mem_nil
      · rw [hfull.arcsOf_eq_nil hhop htop hbudget, List.map_nil]
    · rw [List.flatMap_singleton, Task.records]
      refine List.flatMap_congr fun node _ ↦ ?_
      rw [hfull.picked_eq hhop htop]
  · have hnobody : (stage rules seeds last).frontier = [] := hstop.resolve_left (by omega)
    rw [recordsAt_eq_nil hlast ho fun hlt ↦ absurd hlt (Nat.not_lt.2 hlater),
      frontAt_of_frontier_nil rules seeds (frontier_eq_nil hnobody hlater), List.flatMap_nil]

variable (hg : rules.graph.WellFormed) {seedIds : NodeType → List Id}
  (hseeds : ∀ t id, id ∈ (seeds.roster t).ids.toList ↔ id ∈ seedIds t)
  (hin : InRange rules.graph seeds)
include hg hseeds hin

/-- **The edges recorded are those that leave a node in reach.** -/
theorem perm_records (e : EdgeType) :
    ((List.range rules.budgets.numHops).flatMap (o.recordsAt e)).Perm
      ((rules.graph.entriesWithin seedIds rules.budgets.numHops e).map
        fun entry ↦ entry.2.record withEdge entry.1) := by
  rcases htop : rules.graph.topology e with error | topology
  · have hrecords : ∀ hop, o.recordsAt e hop = [] := by
      refine fun hop ↦ recordsAt_eq_nil hlast ho ?_
      rintro - task htask rfl
      obtain ⟨-, -, htop', -⟩ := (mem_tasksAt_iff rules seeds).1 htask
      cases htop.symm.trans htop'
    simp [hrecords, Graph.entriesWithin, Graph.entries, htop]
  · have hrecords : (List.range rules.budgets.numHops).flatMap (o.recordsAt e) =
        ((List.range rules.budgets.numHops).flatMap fun hop ↦
          (frontAt rules seeds hop e.source).ids).flatMap fun node ↦
            (topology.arcsOf node).map (Arc.record withEdge node) := by
      rw [List.flatMap_assoc]
      exact List.flatMap_congr fun hop hhop ↦
        recordsAt_of_full hfull hlast hstop ho htop (List.mem_range.1 hhop)
    have hentries : (rules.graph.entriesWithin seedIds rules.budgets.numHops e).map
        (fun entry ↦ entry.2.record withEdge entry.1) =
        (topology.nodes.filter fun node ↦ ∃ d < rules.budgets.numHops,
          rules.graph.AtDistance seedIds d e.source node).flatMap fun node ↦
            (topology.arcsOf node).map (Arc.record withEdge node) := by
      rw [(hg htop).entriesWithin_eq htop, List.map_flatMap]
      refine List.flatMap_congr fun node _ ↦ ?_
      rw [List.map_map]
      rfl
    rw [hrecords, hentries]
    exact (perm_fronts hfull hg hseeds htop hin).flatMap_right _

end Output

/-! ### No randomness -/

/-- **A stage of a walk that takes every edge does not depend on the seed of the random
streams.** -/
theorem stage_withSeed (seed : UInt64) {s : Nat} (hs : s ≤ rules.budgets.numHops) :
    stage { rules with seed } seeds s = stage rules seeds s := by
  have hother : ({ rules with seed } : Rules).Full := ⟨hfull.replace, hfull.covers⟩
  have hgraph : ({ rules with seed } : Rules).graph = rules.graph := rfl
  refine stage_congr rules seeds hgraph (fun _ _ _ ↦ Iff.rfl) (fun hop hhop e topology node htop ↦ ?_)
    hs
  exact (hother.picked_eq hhop htop node).trans (hfull.picked_eq hhop htop node).symm

end Expansion

/-! ### Answers -/

/-- The negatives that a request asks for. -/
def Request.negatives : Request → Option NegativeSampling
  | .node _ => none
  | .edge r => r.negatives

namespace Sampler

variable {s : Sampler}

/-- Uniform budgets that cover all degrees take every edge. -/
theorem full_rules {budgets : List UInt64} (hbudgets : s.config.budgets = .uniform budgets)
    (hcover : ∀ b ∈ budgets, ∀ e topology, s.graph.topology e = .ok topology →
      topology.maxDegree ≤ b.toNat)
    (hreplace : s.config.replace = false) (seed : UInt64) : (s.rules seed).Full := by
  refine ⟨hreplace, fun hop hhop e topology htop ↦ ?_⟩
  show topology.maxDegree ≤ s.config.budgets.budget e hop
  have hlength : hop < budgets.length := by
    rw [rules, hbudgets] at hhop
    exact hhop
  rw [hbudgets, Budgets.budget, Budgets.hopsOf, List.getElem?_eq_getElem hlength, Option.getD_some]
  exact hcover _ (List.getElem_mem hlength) e topology htop

/-- Without negatives a seed only matters to the walk. -/
theorem negativeIds_eq_nil {r : EdgeRequest} (hneg : r.negatives = none) (seed : UInt64) :
    s.negativeIds r seed = [] := by
  rw [negativeIds]
  split
  · rfl
  · simp [negatives, hneg]

theorem output_eq_of_full (hg : s.graph.WellFormed) {r : Request} (h : s.Accepts r)
    (hneg : r.negatives = none) {seed : UInt64} (hfull : (s.rules seed).Full) (seed' : UInt64) :
    (s.answer r seed').output = (s.answer r seed).output := by
  have hseeds : s.seeds r seed' = s.seeds r seed := by
    cases r with
    | node r => rfl
    | edge r => rw [seeds, seeds, negativeIds_eq_nil hneg, negativeIds_eq_nil hneg]
  have hmeta : s.metadataOf r seed' = s.metadataOf r seed := by
    cases r with
    | node r => rfl
    | edge r =>
      funext rosters
      rw [metadataOf, metadataOf, negativeIds_eq_nil hneg, negativeIds_eq_nil hneg]
  have hstage : Expansion.stage (s.rules seed') (s.seeds r seed) s.config.budgets.numHops =
      Expansion.stage (s.rules seed) (s.seeds r seed) s.config.budgets.numHops :=
    Expansion.stage_withSeed hfull seed' (Nat.le_refl _)
  obtain ⟨metadata, hmetadata, houtput⟩ := exists_output hg h seed
  obtain ⟨metadata', hmetadata', houtput'⟩ := exists_output hg h seed'
  rw [hseeds, hmeta, hmetadata] at hmetadata'
  obtain rfl : metadata = metadata' := Except.ok.inj hmetadata'
  have houtput' := houtput' s.config.layout
  rw [hseeds, hstage] at houtput'
  exact houtput'.trans (houtput s.config.layout).symm

/-- **Full budgets give the exact neighbourhood.** With budgets that cover every degree and without
replacement, an accepted request on a well-formed graph is answered with the nodes at each distance
from its seeds and the edges that leave them; without negatives the answer is the same under every
seed. -/
theorem answer_exactNeighborhood (hg : s.graph.WellFormed) {budgets : List UInt64}
    (hbudgets : s.config.budgets = .uniform budgets)
    (hcover : ∀ b ∈ budgets, ∀ e topology, s.graph.topology e = .ok topology →
      topology.maxDegree ≤ b.toNat)
    (hreplace : s.config.replace = false) {r : Request} (h : s.Accepts r) (seed : UInt64) :
    ∃ o, (s.answer r seed).output = .ok o ∧
      o.ExactNeighborhood s.graph (s.seedIds r seed) s.config ∧
      (r.negatives = none → ∀ seed', (s.answer r seed').output = .ok o) := by
  obtain ⟨last, hlast, hstop, -, metadata, houtput⟩ := exists_stage hg h seed
  have hfull := full_rules hbudgets hcover hreplace seed
  have hrules : (s.rules seed).graph.WellFormed := hg
  have hseeds : ∀ t id, id ∈ ((s.seeds r seed).roster t).ids.toList ↔ id ∈ s.seedIds r seed t :=
    fun _ _ ↦ mem_roster_seeds_iff
  have hanswer := houtput s.config.layout
  refine ⟨_, hanswer, ⟨fun t step hstep node ↦ ?_, fun hlayout e ↦ ?_⟩, fun hneg seed' ↦ ?_⟩
  · rw [Expansion.segment_stage hlast hstop t hstep]
    exact Expansion.mem_frontAt_iff_atDistance hfull hrules hseeds hstep
  · rw [hlayout, Expansion.linksOf_record? hlast rfl]
    refine ((Expansion.perm_records hfull hlast hstop rfl hrules hseeds (inRange_seeds h seed)
      e).map some).trans ?_
    rw [List.map_map]
    exact .refl _
  · rw [output_eq_of_full hg h hneg hfull seed']
    exact hanswer

/-! ### A sampler that takes every edge -/

/-- Two hops over the small graph, each with room for all arcs. -/
def wide : Sampler where
  graph := .small
  config := { budgets := .uniform [2, 3], withEdge := true }

/-- A user, twice. -/
def wideRequest : Request := .node { type := ⟨"user"⟩, ids := [0, 0] }

theorem wide_covers : ∀ b ∈ [2, 3], ∀ e topology, wide.graph.topology e = .ok topology →
    topology.maxDegree ≤ UInt64.toNat b := by
  have hdegrees : ∀ entry ∈ Graph.small.topologies.entries, entry.2.maxDegree ≤ 2 := by decide
  have hbudgets : ∀ b ∈ [2, 3], 2 ≤ UInt64.toNat b :=
    List.forall_mem_cons.2 ⟨by decide, List.forall_mem_singleton.2 (by decide)⟩
  intro b hb e topology htop
  exact Nat.le_trans (hdegrees _ (Graph.topology_eq_ok_iff.1 htop)) (hbudgets b hb)

theorem wide_accepts : wide.Accepts wideRequest where
  type := rfl
  ids := by
    show ∀ id ∈ [0, 0], Graph.small.HasNode ⟨"user"⟩ id
    exact List.forall_mem_cons.2 ⟨by decide, List.forall_mem_singleton.2 (by decide)⟩

theorem answer_exactNeighborhood_wide :
    Graph.small.WellFormed ∧ wide.config.budgets = .uniform [2, 3] ∧
      (∀ b ∈ [2, 3], ∀ e topology, wide.graph.topology e = .ok topology →
        topology.maxDegree ≤ UInt64.toNat b) ∧
      wide.config.replace = false ∧ wide.Accepts wideRequest ∧
      ∃ o, (wide.answer wideRequest 7).output = .ok o ∧
        o.ExactNeighborhood .small (wide.seedIds wideRequest 7) wide.config ∧
        (wideRequest.negatives = none → ∀ seed', (wide.answer wideRequest seed').output = .ok o) :=
  ⟨Graph.small_wellFormed, rfl, wide_covers, rfl, wide_accepts,
    answer_exactNeighborhood (s := wide) Graph.small_wellFormed rfl wide_covers rfl wide_accepts 7⟩

-- item 2 goes with item 0, which the user sees
example : Graph.small.AtDistance (wide.seedIds wideRequest 7) 2 ⟨"item"⟩ 2 := by decide

end Sampler

end HopSampler
