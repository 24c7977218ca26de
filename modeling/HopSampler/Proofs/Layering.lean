import HopSampler.Proofs.Layers
import HopSampler.Proofs.Requests

/-!
# Outputs are cut into layers

The counts of an output cut its nodes into segments and its edges into slices, nothing left over.
The edges of a slice lead from the segment of their hop to at most the one after it, and that one is
met through them. A consumer that works layer by layer therefore sees every edge whose source it
has, and needs no edge for a node that it has not reached.

Counts are differences of marks. Marks never go down along a walk (`marksAscend_stage`), so no
difference is cut off at zero.
-/

namespace HopSampler

/-- The counts of an output cut it into layers that lead one to the next. -/
structure SamplingOutput.Layered (o : SamplingOutput) (layout : EdgeLayout) (hops : Nat) : Prop where
  nodeKeys : o.nodeCounts.keys = o.nodes.keys
  edgeKeys : o.edgeCounts.keys = o.edges.keys
  /-- Nodes are counted at the seeds and at every hop. -/
  nodeCounts : ∀ t ids, o.nodes.get? t = some ids →
    (o.nodeCountsAt t).length = hops + 1 ∧ (o.nodeCountsAt t).sum = ids.length
  /-- Edges are counted at every hop. -/
  edgeCounts : ∀ key index, o.edges.get? key = some index →
    (o.edgeCountsAt key).length = hops ∧ (o.edgeCountsAt key).sum = index.size
  /-- Every entry of an index is a link. -/
  links : ∀ key index, o.edges.get? key = some index → (index.links layout).length = index.size
  segments : ∀ t, (List.range (hops + 1)).flatMap (o.segment t) = o.nodesOf t
  slices : ∀ key, (List.range hops).flatMap (o.slice layout key) = o.linksOf layout key
  /-- A hop goes on from what the step before it met. -/
  source : ∀ key hop, ∀ link ∈ o.slice layout key hop,
    o.InSegment (layout.sourceType key) hop link.source
  /-- A hop leads to what has been met by its end. -/
  target : ∀ key hop, ∀ link ∈ o.slice layout key hop,
    ∃ step ≤ hop + 1, o.InSegment (layout.targetType key) step link.target
  /-- Whatever a hop meets first is led to by an edge of the hop. -/
  reached : ∀ t hop place, o.InSegment t (hop + 1) place →
    ∃ key, layout.targetType key = t ∧ ∃ link ∈ o.slice layout key hop, link.target = place

namespace Expansion

variable {rules : Rules} {seeds : Rosters} {last hops : Nat} {layout : EdgeLayout} {withEdge : Bool}
  {metadata : Metadata}

/-! ### Tiling -/

theorem sum_edgeCountsOf {x : Expansion} (h : x.InOrder hops) (key : EdgeType) :
    (x.edgeCountsOf layout hops key).sum = (x.stepsUnder layout key).length := by
  rw [edgeCountsOf_eq, stepsUnder_eq h, List.length_flatMap]

section Stage

variable (hlast : last ≤ hops)
include hlast

theorem sum_nodeCountsAt (t : NodeType) :
    (((stage rules seeds last).present layout withEdge hops metadata).nodeCountsAt t).sum =
      (metAt rules seeds last t).length := by
  set counts := ((stage rules seeds last).present layout withEdge hops metadata).nodeCountsAt t
    with hcounts
  have hwhole : (counts.take (max counts.length (last + 1))).sum =
      before rules seeds (min (max counts.length (last + 1)) (last + 1)) t :=
    sum_take_nodeCountsAt hlast _ t
  rw [List.take_of_length_le (Nat.le_max_left _ _), Nat.min_eq_right (Nat.le_max_right _ _)]
    at hwhole
  exact hwhole

/-- The segments of a type are its nodes. -/
theorem flatMap_segment (t : NodeType) :
    (List.range (hops + 1)).flatMap
      (((stage rules seeds last).present layout withEdge hops metadata).segment t) =
      ((stage rules seeds last).present layout withEdge hops metadata).nodesOf t := by
  have hall : before rules seeds (min (hops + 1) (last + 1)) t = (metAt rules seeds last t).length := by
    rw [Nat.min_eq_right (by omega)]
    rfl
  show (List.range (hops + 1)).flatMap (pieceAt _ · _) = _
  rw [flatMap_pieceAt, sum_take_nodeCountsAt hlast, hall, nodesOf_stage, List.take_length]

/-- The slices of a key are its links. -/
theorem flatMap_slice (key : EdgeType) :
    (List.range hops).flatMap
      (((stage rules seeds last).present layout withEdge hops metadata).slice layout key) =
      ((stage rules seeds last).present layout withEdge hops metadata).linksOf layout key := by
  have horder := inOrder_stage rules seeds hlast
  rw [linksOf_present, stepsUnder_eq horder, List.map_flatMap]
  exact List.flatMap_congr fun hop _ ↦ slice_present layout withEdge metadata horder key hop

/-! ### Layers -/

/-- **A stage is listed in layers.** -/
theorem layered_stage :
    ((stage rules seeds last).present layout withEdge hops metadata).Layered layout hops where
  nodeKeys := by simp [present]
  edgeKeys := by simp [present]
  nodeCounts t ids hids := by
    have hnodes := SortedMap.getD_of_get? hids []
    rw [present, SortedMap.get?_mapEntries, Option.map_eq_some_iff] at hids
    obtain ⟨roster, hroster, -⟩ := hids
    constructor
    · rw [nodeCountsAt_present _ _ _ _ _ hroster, nodeCountsOf, List.length_map, List.length_range]
    · have hids : metAt rules seeds last t = ids := by
        rw [← hnodes]
        exact (nodesOf_stage t).symm
      rw [sum_nodeCountsAt hlast, hids]
  edgeCounts key index hindex := by
    rw [present, get?_edges, Option.map_eq_some_iff] at hindex
    obtain ⟨block, hblock, rfl⟩ := hindex
    have hsome : (stage rules seeds last).blocksUnder layout key ≠ [] := by
      intro hnone
      rw [hnone] at hblock
      cases hblock
    rw [edgeCountsAt_present, if_neg hsome, listing_size,
      sum_edgeCountsOf (inOrder_stage rules seeds hlast)]
    exact ⟨by rw [edgeCountsOf, List.length_map, List.length_range], rfl⟩
  links key index hindex := by
    rw [present, get?_edges, Option.map_eq_some_iff] at hindex
    obtain ⟨block, -, rfl⟩ := hindex
    rw [links_listing, List.length_map, listing_size]
  segments := flatMap_segment hlast
  slices := flatMap_slice hlast
  source key hop link hlink := by
    obtain ⟨hhop, task, htask, rfl, step, hstep, rfl⟩ := (mem_slice_stage_iff hlast).1 hlink
    obtain ⟨node, -, arc, hfirst, hsource, -⟩ := exists_arc_of_mem_steps htask hstep
    have hmet : step.source < before rules seeds (hop + 1) task.type.source :=
      (List.getElem?_eq_some_iff.1 hsource).1
    rw [sourceType_listedUnder]
    exact (inSegment_stage_iff hlast).2 ⟨Nat.le_of_lt hhop, hfirst, hmet⟩
  target key hop link hlink := by
    obtain ⟨hhop, task, htask, rfl, step, hstep, rfl⟩ := (mem_slice_stage_iff hlast).1 hlink
    obtain ⟨node, -, arc, -, -, -, htarget, -⟩ := exists_arc_of_mem_steps htask hstep
    have hmet : step.target < before rules seeds (hop + 2) task.type.target :=
      (List.getElem?_eq_some_iff.1 htarget).1
    obtain ⟨first, hfirst, hplace⟩ := exists_step_of_lt_before rules seeds hmet
    rw [targetType_listedUnder]
    exact ⟨first, by omega, (inSegment_stage_iff hlast).2 ⟨by omega, hplace⟩⟩
  reached t hop place hplace := by
    obtain ⟨hhop, hnew, hmet⟩ := (inSegment_stage_iff hlast).1 hplace
    have hnode : (metAt rules seeds (hop + 1) t)[place]? =
        some (metAt rules seeds (hop + 1) t)[place] := List.getElem?_eq_getElem hmet
    obtain ⟨task, htask, rfl, step, hstep, rfl⟩ := exists_step_of_new hnew hnode
    refine ⟨listedUnder layout task.type, targetType_listedUnder layout task.type,
      step.link withEdge, ?_, rfl⟩
    exact (mem_slice_stage_iff hlast).2 ⟨hhop, task, htask, rfl, step, hstep, rfl⟩

end Stage

end Expansion

/-! ### Answers -/

/-- **Answers are layered**: on a well-formed graph an accepted request is answered with what a walk
met and followed, its marks never go down, and the counts cut the output into layers. -/
theorem Sampler.answer_layered {s : Sampler} (hg : s.graph.WellFormed) {r : Request}
    (h : s.Accepts r) (seed : UInt64) :
    ∃ x metadata, Expansion.run (s.rules seed) (s.seeds r seed) = .ok x ∧ x.MarksAscend ∧
      ∃ o, (s.answer r seed).output = .ok o ∧
        o = x.present s.config.layout s.config.withEdge s.config.budgets.numHops metadata ∧
        o.Layered s.config.layout s.config.budgets.numHops := by
  obtain ⟨last, hlast, -, hrun, metadata, houtput⟩ := exists_stage hg h seed
  exact ⟨_, metadata, hrun, Expansion.marksAscend_stage _ _ last, _, houtput s.config.layout, rfl,
    Expansion.layered_stage hlast⟩

theorem Sampler.answer_layered_small :
    Graph.small.WellFormed ∧ (small .messagePassing).Accepts smallRequest ∧
      ∃ x metadata, Expansion.run ((small .messagePassing).rules 7)
          ((small .messagePassing).seeds smallRequest 7) = .ok x ∧ x.MarksAscend ∧
        ∃ o, ((small .messagePassing).answer smallRequest 7).output = .ok o ∧
          o = x.present .messagePassing true 2 metadata ∧ o.Layered .messagePassing 2 :=
  ⟨Graph.small_wellFormed, small_accepts _,
    answer_layered (s := small .messagePassing) Graph.small_wellFormed (small_accepts _) 7⟩

end HopSampler
