import HopSampler.Proofs.Layers
import HopSampler.Proofs.Requests

/-!
# Listed edges are edges of the graph

An output names nodes by their places, and places are handed out while the walk is still going on.
Since a place keeps its node from then on (`metAt_mono`), an edge that was right when it was
followed is right in the output: mapped back through the nodes that are listed, it is an arc of the
graph under an edge type that is listed under its key (`isArcUnder_of_mem_linksOf`).
-/

namespace HopSampler

/-- Mapped back through the nodes of an output, a link under a key is an arc of an edge type. -/
def Link.IsArc (o : SamplingOutput) (g : Graph) (layout : EdgeLayout) (withEdge : Bool)
    (key e : EdgeType) (link : Link) : Prop :=
  ∃ source row, g.neighbors e source = .ok row ∧ ∃ arc ∈ row,
    (o.nodesOf (layout.sourceType key))[link.source]? = some source ∧
    (o.nodesOf (layout.targetType key))[link.target]? = some arc.target ∧
    link.edge = if withEdge then some arc.edge else none

/-- A link is an arc of an edge type that is listed under its key. -/
def Link.IsArcUnder (o : SamplingOutput) (g : Graph) (layout : EdgeLayout) (withEdge : Bool)
    (key : EdgeType) (link : Link) : Prop :=
  ∃ e, Expansion.listedUnder layout e = key ∧ link.IsArc o g layout withEdge key e

/-- An index under a key is in step with the nodes of an output and with the graph. -/
structure EdgeIndex.Faithful (o : SamplingOutput) (g : Graph) (layout : EdgeLayout)
    (withEdge : Bool) (key : EdgeType) (i : EdgeIndex) : Prop where
  /-- The parts are equally long. -/
  even : i.Even withEdge
  row_lt : ∀ place ∈ i.row, place < (o.nodesOf key.source).length
  col_lt : ∀ place ∈ i.col, place < (o.nodesOf key.target).length
  /-- Every entry is an arc of the graph. -/
  entries : ∀ k < i.size, ∃ link, (i.links layout)[k]? = some link ∧
    link.IsArcUnder o g layout withEdge key
  /-- Edges that are listed as they were followed are listed under the type followed. -/
  origin : layout = .traversal → i.origin = key

namespace Expansion

variable {rules : Rules} {seeds : Rosters} {last hops : Nat} {layout : EdgeLayout} {withEdge : Bool}
  {metadata : Metadata} {key : EdgeType}

/-! ### Links -/

section WellFormed

variable (hg : rules.graph.WellFormed) (hseeds : InRange rules.graph seeds) (hlast : last ≤ hops)
include hg hseeds hlast

/-- **A link is an arc of the graph**, however many nodes were met after it was followed. -/
theorem isArcUnder_of_mem_linksOf {link : Link}
    (hlink : link ∈
      ((stage rules seeds last).present layout withEdge hops metadata).linksOf layout key) :
    link.IsArcUnder ((stage rules seeds last).present layout withEdge hops metadata) rules.graph
      layout withEdge key := by
  obtain ⟨hop, hslice⟩ := (mem_linksOf_stage_iff hlast).1 hlink
  obtain ⟨hhop, task, htask, rfl, step, hstep, rfl⟩ := (mem_slice_stage_iff hlast).1 hslice
  obtain ⟨node, hfront, arc, -, hsource, harc, htarget, hedge⟩ :=
    exists_arc_of_mem_steps htask hstep
  obtain ⟨row, hrow⟩ := exists_row_of_mem_tasksAt hg htask (inRange_stage hg hseeds hop) hfront
  obtain ⟨-, -, htop, -⟩ := (mem_tasksAt_iff rules seeds).1 htask
  refine ⟨task.type, rfl, node, row, Graph.neighbors_eq_ok_iff.2 ⟨_, htop, hrow⟩, arc,
    mem_row_of_mem_picked hrow harc, ?_, ?_, ?_⟩
  · rw [sourceType_listedUnder, nodesOf_stage]
    exact getElem?_of_isPrefix (metAt_mono rules seeds (Nat.le_of_lt hhop) _) hsource
  · rw [targetType_listedUnder, nodesOf_stage]
    exact getElem?_of_isPrefix (metAt_mono rules seeds hhop _) htarget
  · rw [Step.link, hedge]

/-! ### Indices -/

/-- **An index of a stage is faithful.** -/
theorem faithful_stage {index : EdgeIndex}
    (hindex : ((stage rules seeds last).present layout withEdge hops metadata).edges.get? key =
      some index) :
    index.Faithful ((stage rules seeds last).present layout withEdge hops metadata) rules.graph
      layout withEdge key := by
  set o := (stage rules seeds last).present layout withEdge hops metadata with ho
  have hlinks : ∀ link ∈ index.links layout, link.IsArcUnder o rules.graph layout withEdge key := by
    intro link hlink
    refine isArcUnder_of_mem_linksOf hg hseeds hlast ?_
    rw [SamplingOutput.linksOf, ← ho, hindex]
    exact hlink
  rw [ho, present, get?_edges, Option.map_eq_some_iff] at hindex
  obtain ⟨block, hblock, rfl⟩ := hindex
  rw [links_listing, List.forall_mem_map] at hlinks
  -- the ends of every step are places of nodes
  have hsource : ∀ step ∈ (stage rules seeds last).stepsUnder layout key,
      step.source < (o.nodesOf (layout.sourceType key)).length := by
    intro step hstep
    obtain ⟨_, _, _, _, _, _, _, hplace, _⟩ := hlinks step hstep
    exact (List.getElem?_eq_some_iff.1 hplace).1
  have htarget : ∀ step ∈ (stage rules seeds last).stepsUnder layout key,
      step.target < (o.nodesOf (layout.targetType key)).length := by
    intro step hstep
    obtain ⟨_, _, _, _, _, _, _, _, hplace, _⟩ := hlinks step hstep
    exact (List.getElem?_eq_some_iff.1 hplace).1
  refine ⟨listing_even .., ?_, ?_, ?_, ?_⟩
  · cases layout with
    | traversal => exact List.forall_mem_map.2 hsource
    | messagePassing => exact List.forall_mem_map.2 htarget
  · cases layout with
    | traversal => exact List.forall_mem_map.2 htarget
    | messagePassing => exact List.forall_mem_map.2 hsource
  · intro k hk
    rw [listing_size] at hk
    have hstep := List.getElem_mem hk
    refine ⟨_, ?_, hlinks _ hstep⟩
    rw [links_listing, List.getElem?_map, List.getElem?_eq_getElem hk]
    rfl
  · rintro rfl
    have hmem := List.mem_of_mem_head? hblock
    rw [listing_origin]
    exact of_decide_eq_true (List.mem_filter.1 hmem).2

end WellFormed

end Expansion

/-! ### Answers -/

/-- **Every edge of an answer is an edge of the graph**: on a well-formed graph an accepted request
is answered, and every index of its output is faithful. -/
theorem Sampler.answer_faithful {s : Sampler} (hg : s.graph.WellFormed) {r : Request}
    (h : s.Accepts r) (seed : UInt64) : ∃ o, (s.answer r seed).output = .ok o ∧
      ∀ key index, o.edges.get? key = some index →
        index.Faithful o s.graph s.config.layout s.config.withEdge key := by
  obtain ⟨last, hlast, -, -, metadata, houtput⟩ := exists_stage hg h seed
  have hrules : (s.rules seed).graph.WellFormed := hg
  refine ⟨_, houtput s.config.layout, fun key index hindex ↦ ?_⟩
  exact Expansion.faithful_stage hrules (inRange_seeds h seed) hlast hindex

theorem Sampler.answer_faithful_small :
    Graph.small.WellFormed ∧ (small .messagePassing).Accepts smallRequest ∧
      ∃ o, ((small .messagePassing).answer smallRequest 7).output = .ok o ∧
        ∀ key index, o.edges.get? key = some index →
          index.Faithful o .small .messagePassing true key :=
  ⟨Graph.small_wellFormed, small_accepts _,
    answer_faithful (s := small .messagePassing) Graph.small_wellFormed (small_accepts _) 7⟩

end HopSampler
