import HopSampler.Proofs.LastStage

/-!
# Fewer hops

A configuration with its budgets cut to the first hops is sampled as the whole one, only not as far.
Both walks go through the same stages as long as both go on (`stage_cut`), since a hop looks at its
own budgets and at nothing later. What an output shows of a stage is read off by hops: so the output
of the cut configuration is a *prefix* of the other in every respect (`SamplingOutput.CutAt`), nodes
by segments and edges by slices.

A key can be listed without an edge, when nodes were there to go on from and none of them had one.
What decides whether a key is listed is therefore not an edge but a hop that comes by
(`SamplingOutput.Touches`), and the same reading is right for both outputs.
-/

namespace HopSampler

/-! ### Cut budgets -/

namespace Budgets

variable {b : Budgets} {k : Nat}

/-- The first `k` entries of every list. -/
def cut (k : Nat) : Budgets → Budgets
  | .uniform hops => .uniform (hops.take k)
  | .perEdgeType lists => .perEdgeType (lists.map fun (e, hops) ↦ (e, hops.take k))

theorem numHops_cut (h : k ≤ b.numHops) : (b.cut k).numHops = k := by
  cases b with
  | uniform hops => exact List.length_take_of_le h
  | perEdgeType lists =>
    cases lists with
    | nil => exact (Nat.le_zero.1 h).symm
    | cons first rest => exact List.length_take_of_le h

theorem edgeTypes_cut (k : Nat) (b : Budgets) : (b.cut k).edgeTypes = b.edgeTypes := by
  cases b with
  | uniform hops => rfl
  | perEdgeType lists =>
    rw [cut, edgeTypes, edgeTypes, List.map_map]
    rfl

theorem hopsOf_cut (k : Nat) (b : Budgets) (e : EdgeType) :
    (b.cut k).hopsOf e = (b.hopsOf e).take k := by
  cases b with
  | uniform hops => rfl
  | perEdgeType lists =>
    have hfind : (lists.map fun a ↦ (a.1, a.2.take k)).find? (·.1 = e) =
        (lists.find? (·.1 = e)).map fun a ↦ (a.1, a.2.take k) := by
      rw [List.find?_map]
      rfl
    rw [cut, hopsOf, hopsOf, hfind]
    cases lists.find? (·.1 = e) with
    | none => exact List.take_nil.symm
    | some found => rfl

/-- **Cutting changes no budget of the hops that are left.** -/
theorem budget_cut {hop : Nat} (hhop : hop < k) (e : EdgeType) :
    (b.cut k).budget e hop = b.budget e hop := by
  rw [budget, budget, hopsOf_cut, List.getElem?_take_of_lt hhop]

/-- What is left can be used. -/
theorem validate_cut (hpos : 0 < k) (hk : k ≤ b.numHops) (h : b.validate = .ok ()) :
    (b.cut k).validate = .ok () := by
  have hhops : (b.cut k).numHops ≠ 0 := by
    rw [numHops_cut hk]
    exact Nat.ne_of_gt hpos
  rw [validate.eq_def, ite_error_eq_ok_iff] at h
  rw [validate.eq_def, if_neg hhops]
  cases b with
  | uniform hops => rfl
  | perEdgeType lists =>
    have hlists : ∀ a ∈ lists, a.2.length = (perEdgeType lists).numHops := by
      rcases hfind : lists.find? (·.2.length ≠ (perEdgeType lists).numHops) with - | a
      · intro a ha
        simpa using List.find?_eq_none.1 hfind a ha
      · simp only [hfind] at h
        exact nomatch h.2
    have hnone : (lists.map fun a ↦ (a.1, a.2.take k)).find?
        (·.2.length ≠ (cut k (perEdgeType lists)).numHops) = none := by
      rw [List.find?_eq_none, List.forall_mem_map]
      intro a ha
      simp only [decide_eq_true_eq, not_not, ne_eq]
      rw [numHops_cut hk, List.length_take_of_le]
      exact hlists a ha ▸ hk
    simp only [cut] at hnone ⊢
    rw [hnone]

end Budgets

namespace Sampler

variable {s : Sampler} {k : Nat}

/-- The same sampler, for the first `k` hops. -/
def cutTo (s : Sampler) (k : Nat) : Sampler :=
  { s with config := { s.config with budgets := s.config.budgets.cut k } }

theorem make_cutTo (hpos : 0 < k) (hk : k ≤ s.config.budgets.numHops)
    (h : make s.graph s.config = .ok s) : make s.graph (s.cutTo k).config = .ok (s.cutTo k) := by
  rw [make, check_bind_eq_ok_iff, check_bind_eq_ok_iff] at h ⊢
  obtain ⟨hvalid, hlisted, -⟩ := h
  rw [SamplerConfig.validate, check_bind_eq_ok_iff] at hvalid ⊢
  refine ⟨⟨Budgets.validate_cut hpos hk hvalid.1, hvalid.2⟩, ?_, rfl⟩
  show (s.config.budgets.cut k).edgeTypes.forM _ = _
  rw [Budgets.edgeTypes_cut]
  exact hlisted

theorem Accepts.cutTo {r : Request} (h : s.Accepts r) (k : Nat) : (s.cutTo k).Accepts r := by
  cases r with
  | node r => exact ⟨h.type, h.ids⟩
  | edge r =>
    exact ⟨h.lengths, h.labels, h.type, h.rows, h.cols, fun n hn ↦
      have hneg := h.negatives n hn
      ⟨hneg.enabled, hneg.amount, hneg.unlabelled, hneg.targets, hneg.attempts, hneg.fits⟩⟩

end Sampler

/-! ### Prefixes of an output -/

/-- The first `n` edges of an index. -/
def EdgeIndex.take (i : EdgeIndex) (n : Nat) : EdgeIndex where
  row := i.row.take n
  col := i.col.take n
  edge := i.edge.map (·.take n)
  origin := i.origin

namespace SamplingOutput

/-- A hop comes by a key: an edge type that is listed under it has a budget, and the step before met
nodes to follow it from. -/
def Touches (o : SamplingOutput) (g : Graph) (c : SamplerConfig) (hop : Nat) (key : EdgeType) : Prop :=
  ∃ e ∈ g.edgeTypes, Expansion.listedUnder c.layout e = key ∧ c.budgets.budget e hop ≠ 0 ∧
    o.segment e.source hop ≠ []

/-- An output shows the first `k` hops of another, and nothing else. -/
structure CutAt (g : Graph) (c : SamplerConfig) (k : Nat) (o cut : SamplingOutput) : Prop where
  /-- The nodes of a type are its first segments. -/
  nodes : ∀ t, cut.nodesOf t = (List.range (k + 1)).flatMap (o.segment t)
  starts : ∀ t, cut.nodesOf t <+: o.nodesOf t
  /-- A type is listed when one of them has a node. -/
  nodeKeys : ∀ t, t ∈ cut.nodes.keys ↔ ∃ step ≤ k, o.segment t step ≠ []
  nodeCountKeys : cut.nodeCounts.keys = cut.nodes.keys
  nodeCounts : ∀ t ∈ cut.nodes.keys, cut.nodeCountsAt t = (o.nodeCountsAt t).take (k + 1)
  /-- Nothing is counted for a type that is not listed yet. -/
  unseen : ∀ t ∉ cut.nodes.keys, ((o.nodeCountsAt t).take (k + 1)).sum = 0
  /-- A key is listed when one of the first hops comes by it. -/
  edgeKeys : ∀ key, key ∈ cut.edges.keys ↔ ∃ hop < k, o.Touches g c hop key
  /-- The other output lists its keys by the same rule. -/
  touched : ∀ key, key ∈ o.edges.keys ↔ ∃ hop < c.budgets.numHops, o.Touches g c hop key
  /-- The edges of a key are its first slices, under the same origin. -/
  edges : ∀ key index, cut.edges.get? key = some index → ∃ whole, o.edges.get? key = some whole ∧
    index = whole.take ((o.edgeCountsAt key).take k).sum
  edgeCountKeys : cut.edgeCounts.keys = cut.edges.keys
  edgeCounts : ∀ key ∈ cut.edges.keys, cut.edgeCountsAt key = (o.edgeCountsAt key).take k
  /-- Nothing is counted for a key that is not listed yet. -/
  untouched : ∀ key ∉ cut.edges.keys, ((o.edgeCountsAt key).take k).sum = 0
  metadata : cut.metadata = o.metadata

end SamplingOutput

namespace Expansion

variable {rules : Rules} {seeds : Rosters} {k hops : Nat}

/-! ### The same stages -/

/-- **As long as both walks go on, they go through the same stages.** -/
theorem stage_cut (rules : Rules) (seeds : Rosters) {s : Nat} (hs : s ≤ k) :
    stage { rules with budgets := rules.budgets.cut k } seeds s = stage rules seeds s := by
  have hgraph : ({ rules with budgets := rules.budgets.cut k } : Rules).graph = rules.graph := rfl
  have hbudget (hop : Nat) (hhop : hop < k) (e : EdgeType) :
      (rules.budgets.cut k).budget e hop = rules.budgets.budget e hop := Budgets.budget_cut hhop e
  refine stage_congr rules seeds hgraph (fun hop hhop e ↦ ?_)
    (fun hop hhop e topology node _ ↦ ?_) hs
  · rw [hbudget hop hhop]
  · rw [Rules.picked, hbudget hop hhop]
    rfl

/-! ### What a stage shows of an earlier one -/

section Stage

variable (hk : k ≤ hops)
include hk

theorem blocks_stage_mono : (stage rules seeds k).blocks <+: (stage rules seeds hops).blocks := by
  induction hops, hk using Nat.le_induction with
  | base => exact List.prefix_refl _
  | succ hops _ ih =>
    rw [blocks_stage_succ]
    exact ih.trans (List.prefix_append _ _)

/-- The counts of the first steps do not change any more. -/
theorem nodeCountsOf_take (t : NodeType) : ((stage rules seeds hops).nodeCountsOf hops t).take (k + 1) =
    (stage rules seeds k).nodeCountsOf k t := by
  rw [nodeCountsOf_stage, nodeCountsOf_stage, ← List.map_take, List.take_range,
    Nat.min_eq_left (by omega)]
  refine List.map_congr_left fun s hs ↦ ?_
  have hs : s < k + 1 := List.mem_range.1 hs
  rw [Nat.min_eq_left (by omega), Nat.min_eq_left (by omega), Nat.min_eq_left (by omega),
    Nat.min_eq_left (by omega)]

variable (layout : EdgeLayout) (key : EdgeType)

theorem edgeCountsOf_take : ((stage rules seeds hops).edgeCountsOf layout hops key).take k =
    (stage rules seeds k).edgeCountsOf layout k key := by
  rw [edgeCountsOf_eq, edgeCountsOf_eq, ← List.map_take, List.take_range, Nat.min_eq_left hk]
  refine List.map_congr_left fun hop hhop ↦ ?_
  have hhop : hop < k := List.mem_range.1 hhop
  rw [stepsAt_stage hhop, stepsAt_stage (Nat.lt_of_lt_of_le hhop hk)]

/-- The steps of the first hops come first. -/
theorem stepsUnder_take : ((stage rules seeds hops).stepsUnder layout key).take
    (((stage rules seeds hops).edgeCountsOf layout hops key).take k).sum =
      (stage rules seeds k).stepsUnder layout key := by
  have hstarts : (stage rules seeds k).stepsUnder layout key <+:
      (stage rules seeds hops).stepsUnder layout key := by
    obtain ⟨later, hlater⟩ := (blocks_stage_mono hk).filter (listedUnder layout ·.type = key)
    rw [stepsUnder, stepsUnder, blocksUnder, blocksUnder, ← hlater, List.flatMap_append]
    exact List.prefix_append _ _
  have hlength : ((stage rules seeds k).edgeCountsOf layout k key).sum =
      ((stage rules seeds k).stepsUnder layout key).length :=
    sum_edgeCountsOf (inOrder_stage rules seeds (Nat.le_refl k)) key
  rw [edgeCountsOf_take hk, hlength]
  exact (List.prefix_iff_eq_take.1 hstarts).symm

/-- An index of the stage is the beginning of the index of a later one. -/
theorem get?_edges_take {withEdge : Bool} {index : EdgeIndex}
    (h : ((stage rules seeds k).edges layout withEdge).get? key = some index) :
    ∃ whole, ((stage rules seeds hops).edges layout withEdge).get? key = some whole ∧
      index = whole.take (((stage rules seeds hops).edgeCountsOf layout hops key).take k).sum := by
  rw [get?_edges, Option.map_eq_some_iff] at h
  obtain ⟨block, hblock, rfl⟩ := h
  obtain ⟨later, hlater⟩ := (blocks_stage_mono hk).filter (listedUnder layout ·.type = key)
  have hfirst : ((stage rules seeds hops).blocksUnder layout key).head? = some block := by
    rw [blocksUnder, ← hlater, List.head?_append]
    exact congrArg (Option.or · _) hblock
  refine ⟨_, by rw [get?_edges, hfirst, Option.map_some], ?_⟩
  rw [← stepsUnder_take hk layout key]
  cases layout <;> cases withEdge <;>
    simp only [listing, EdgeIndex.take, List.map_take, Option.map_some, Option.map_none,
      Bool.false_eq_true, ↓reduceIte]

end Stage

/-! ### Outputs -/

section Present

variable (rules) (withEdge : Bool) (metadata : Metadata)

/-- A key is listed when a hop comes by it. -/
theorem mem_keys_edges_iff_touches {c : SamplerConfig} {o : SamplingOutput} (hlast : k ≤ hops)
    (ho : o = (stage rules seeds hops).present c.layout withEdge hops metadata)
    (hbudgets : c.budgets = rules.budgets) (key : EdgeType) :
    key ∈ ((stage rules seeds k).edges c.layout withEdge).keys ↔
      ∃ hop < k, o.Touches rules.graph c hop key := by
  rw [mem_keys_edges_stage_iff]
  refine exists_congr fun hop ↦ and_congr_right fun hhop ↦ ?_
  have hsegment (t : NodeType) : o.segment t hop = (frontAt rules seeds hop t).ids := by
    rw [ho]
    exact segment_stage (Nat.le_refl hops) (.inl rfl) t (by omega)
  have hregistered (e : EdgeType) :
      e ∈ rules.graph.edgeTypes ↔ ∃ topology, rules.graph.topology e = .ok topology := by
    simp only [Graph.topology_eq_ok_iff, Graph.edgeTypes, SortedMap.keys, List.mem_map, Prod.exists,
      exists_and_right, exists_eq_right]
  simp only [SamplingOutput.Touches, hsegment, hregistered, hbudgets]
  constructor
  · rintro ⟨task, htask, rfl⟩
    obtain ⟨hids, htop, hbudget⟩ := exists_task_iff.1 ⟨task, htask, rfl⟩
    exact ⟨task.type, htop, rfl, hbudget, hids⟩
  · rintro ⟨e, htop, hkey, hbudget, hids⟩
    obtain ⟨task, htask, rfl⟩ := exists_task_iff.2 ⟨hids, htop, hbudget⟩
    exact ⟨task, htask, hkey⟩

/-- The first segments list what the first hops met. -/
theorem flatMap_segment_stage (hk : k ≤ hops) (layout : EdgeLayout) (t : NodeType) :
    (List.range (k + 1)).flatMap
      (((stage rules seeds hops).present layout withEdge hops metadata).segment t) =
        metAt rules seeds k t := by
  rw [← flatMap_frontAt]
  refine List.flatMap_congr fun step hstep ↦ ?_
  have hstep : step < k + 1 := List.mem_range.1 hstep
  exact segment_stage (Nat.le_refl hops) (.inl rfl) t (by omega)

/-- The nodes of a type are counted where there are any. -/
theorem nodeCountsAt_of_met (hseeds : seeds.NoneEmpty) (layout : EdgeLayout) {t : NodeType}
    (h : metAt rules seeds k t ≠ []) :
    ((stage rules seeds k).present layout withEdge k metadata).nodeCountsAt t =
      (stage rules seeds k).nodeCountsOf k t := by
  obtain ⟨roster, hroster⟩ := SortedMap.mem_keys_iff.1 ((mem_keys_stage_iff rules hseeds).2 h)
  exact nodeCountsAt_present _ _ _ _ _ hroster

theorem mem_keys_edges_iff_blocksUnder {x : Expansion} (layout : EdgeLayout) (key : EdgeType) :
    key ∈ (x.edges layout withEdge).keys ↔ x.blocksUnder layout key ≠ [] := by
  rw [mem_keys_edges_iff, blocksUnder, ne_eq, List.filter_eq_nil_iff]
  simp

/-- A key that is listed stays listed. -/
theorem blocksUnder_stage_ne_nil (hk : k ≤ hops) {layout : EdgeLayout} {key : EdgeType}
    (h : (stage rules seeds k).blocksUnder layout key ≠ []) :
    (stage rules seeds hops).blocksUnder layout key ≠ [] := by
  have hblocks : (stage rules seeds k).blocks <+: (stage rules seeds hops).blocks :=
    blocks_stage_mono hk
  obtain ⟨later, hlater⟩ := hblocks.filter (listedUnder layout ·.type = key)
  rw [blocksUnder, ← hlater]
  exact List.append_ne_nil_of_left_ne_nil h later

/-- **What an earlier stage shows is a prefix of what a later one shows.** -/
theorem cutAt_stage (hseeds : seeds.NoneEmpty) {c : SamplerConfig} (hbudgets : c.budgets = rules.budgets)
    (hhops : hops = c.budgets.numHops) (hk : k ≤ hops) :
    SamplingOutput.CutAt rules.graph c k
      ((stage rules seeds hops).present c.layout withEdge hops metadata)
      ((stage rules seeds k).present c.layout withEdge k metadata) := by
  set o := (stage rules seeds hops).present c.layout withEdge hops metadata with ho
  set cut := (stage rules seeds k).present c.layout withEdge k metadata with hcut
  have hnodes (t : NodeType) : cut.nodesOf t = metAt rules seeds k t := nodesOf_stage t
  have hsegments (t : NodeType) :
      (List.range (k + 1)).flatMap (o.segment t) = metAt rules seeds k t :=
    flatMap_segment_stage rules withEdge metadata hk c.layout t
  have hkeys (t : NodeType) : t ∈ cut.nodes.keys ↔ metAt rules seeds k t ≠ [] := by
    rw [← mem_keys_stage_iff rules hseeds]
    show t ∈ (SortedMap.mapEntries _ _).keys ↔ _
    rw [SortedMap.keys_mapEntries]
  have hlater {t : NodeType} (h : metAt rules seeds k t ≠ []) : metAt rules seeds hops t ≠ [] :=
    fun hnone ↦ h (List.prefix_nil.1 (hnone ▸ metAt_mono rules seeds hk t))
  exact {
    nodes := fun t ↦ (hnodes t).trans (hsegments t).symm
    starts := by
      intro t
      rw [hnodes, ho, nodesOf_stage]
      exact metAt_mono rules seeds hk t
    nodeKeys := by
      intro t
      rw [hkeys, ← hsegments, ne_eq, List.flatMap_eq_nil_iff]
      simp only [List.mem_range, Nat.lt_succ_iff, not_forall, exists_prop, ne_eq]
    nodeCountKeys := by simp [hcut, present]
    nodeCounts := by
      intro t ht
      have hmet := (hkeys t).1 ht
      rw [hcut, ho, nodeCountsAt_of_met rules withEdge metadata hseeds c.layout hmet,
        nodeCountsAt_of_met rules withEdge metadata hseeds c.layout (hlater hmet),
        nodeCountsOf_take hk]
    unseen := by
      intro t ht
      have hnone : metAt rules seeds k t = [] := not_not.1 fun hne ↦ ht ((hkeys t).2 hne)
      rw [ho, sum_take_nodeCountsAt (Nat.le_refl hops), Nat.min_eq_left (by omega)]
      exact congrArg List.length hnone
    edgeKeys := mem_keys_edges_iff_touches rules withEdge metadata hk ho hbudgets
    touched := by
      rw [← hhops]
      exact mem_keys_edges_iff_touches rules withEdge metadata (Nat.le_refl hops) ho hbudgets
    edges := by
      intro key index hindex
      obtain ⟨whole, hwhole, htake⟩ := get?_edges_take hk c.layout key hindex
      refine ⟨whole, hwhole, ?_⟩
      have hne : (stage rules seeds hops).blocksUnder c.layout key ≠ [] :=
        (mem_keys_edges_iff_blocksUnder withEdge c.layout key).1
          (SortedMap.mem_keys_iff.2 ⟨whole, hwhole⟩)
      rw [ho, edgeCountsAt_present, if_neg hne]
      exact htake
    edgeCountKeys := by simp [hcut, present]
    edgeCounts := by
      intro key hkey
      have hne : (stage rules seeds k).blocksUnder c.layout key ≠ [] :=
        (mem_keys_edges_iff_blocksUnder withEdge c.layout key).1 hkey
      have hne' : (stage rules seeds hops).blocksUnder c.layout key ≠ [] :=
        blocksUnder_stage_ne_nil rules hk hne
      rw [hcut, ho, edgeCountsAt_present, edgeCountsAt_present, if_neg hne, if_neg hne',
        edgeCountsOf_take hk]
    untouched := by
      intro key hkey
      have hnone : (stage rules seeds k).blocksUnder c.layout key = [] :=
        not_not.1 fun hne ↦ hkey ((mem_keys_edges_iff_blocksUnder withEdge c.layout key).2 hne)
      rw [ho, edgeCountsAt_present]
      split
      · simp
      · rw [edgeCountsOf_take hk, sum_edgeCountsOf (inOrder_stage rules seeds (Nat.le_refl k)),
          stepsUnder, hnone]
        rfl
    metadata := rfl }

end Present

end Expansion

/-! ### Answers -/

/-- **Fewer hops give a prefix.** On a well-formed graph an accepted request is answered, by a
sampler that is cut to some of its hops, with the first hops of the whole answer; and a sampler that
can be made can be cut. -/
theorem Sampler.answer_cutAt {s : Sampler} (hg : s.graph.WellFormed) {r : Request} (h : s.Accepts r)
    (seed : UInt64) {k : Nat} (hpos : 0 < k) (hk : k ≤ s.config.budgets.numHops) :
    (make s.graph s.config = .ok s → make s.graph (s.cutTo k).config = .ok (s.cutTo k)) ∧
      ∃ o cut, (s.answer r seed).output = .ok o ∧ ((s.cutTo k).answer r seed).output = .ok cut ∧
        o.CutAt s.graph s.config k cut := by
  obtain ⟨metadata, hmetadata, houtput⟩ := exists_output hg h seed
  have hgcut : (s.cutTo k).graph.WellFormed := hg
  obtain ⟨metadata', hmetadata', houtput'⟩ := exists_output hgcut (h.cutTo k) seed
  -- the seeds are the same, and so is what is said of them
  obtain rfl : metadata' = metadata := Except.ok.inj (hmetadata'.symm.trans hmetadata)
  have hhops : (s.cutTo k).config.budgets.numHops = k := Budgets.numHops_cut hk
  have hstage : Expansion.stage ((s.cutTo k).rules seed) ((s.cutTo k).seeds r seed) k =
      Expansion.stage (s.rules seed) (s.seeds r seed) k :=
    Expansion.stage_cut (s.rules seed) (s.seeds r seed) (Nat.le_refl k)
  have hcut := houtput' s.config.layout
  rw [hhops, hstage] at hcut
  exact ⟨make_cutTo hpos hk, _, _, houtput s.config.layout, hcut,
    Expansion.cutAt_stage (s.rules seed) s.config.withEdge metadata' (noneEmpty_seeds r seed) rfl rfl hk⟩

theorem Sampler.answer_cutAt_small :
    Graph.small.WellFormed ∧ (small .messagePassing).Accepts smallRequest ∧ 0 < 1 ∧
      1 ≤ (small .messagePassing).config.budgets.numHops ∧
      (make .small (small .messagePassing).config = .ok (small .messagePassing) →
        make .small ((small .messagePassing).cutTo 1).config =
          .ok ((small .messagePassing).cutTo 1)) ∧
      ∃ o cut, ((small .messagePassing).answer smallRequest 7).output = .ok o ∧
        (((small .messagePassing).cutTo 1).answer smallRequest 7).output = .ok cut ∧
        o.CutAt .small (small .messagePassing).config 1 cut :=
  ⟨Graph.small_wellFormed, small_accepts _, by decide, by decide,
    answer_cutAt (s := small .messagePassing) Graph.small_wellFormed (small_accepts _) 7 (by decide)
      (by decide)⟩

end HopSampler
