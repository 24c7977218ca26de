import HopSampler.Proofs.Fidelity
import HopSampler.Proofs.Reversal

/-!
# What the layout changes

One walk is presented in either layout. Nodes, counts of nodes and metadata do not depend on the
layout at all. The edges of a type are listed under that type itself in one layout and under its
reversal in the other, and *as long as no two types have one reversal* this moves every index as a
whole, with row and column exchanged.

Two types that are two marks apart do have one reversal (`EdgeType.reverse_eq_iff`). Where both are
followed, their edges end up in one index, and its origin can be right for one of them only. That is
the one way in which the layouts can differ, so the condition is exact (`moved_stage_iff`).
-/

namespace HopSampler

/-- The same edges, row and column exchanged. -/
def EdgeIndex.swap (i : EdgeIndex) : EdgeIndex := { i with row := i.col, col := i.row }

/-- The edges of one output are those of another, every index moved to a key of its own. -/
structure SamplingOutput.Moved (g : Graph) (withEdge : Bool) (o moved : SamplingOutput) : Prop where
  /-- No two types share a key. -/
  injective : ∀ e ∈ o.edges.keys, ∀ f ∈ o.edges.keys,
    Expansion.listedUnder .messagePassing e = Expansion.listedUnder .messagePassing f → e = f
  keys : ∀ key, key ∈ moved.edges.keys ↔
    ∃ e ∈ o.edges.keys, Expansion.listedUnder .messagePassing e = key
  edges : ∀ e index, o.edges.get? e = some index → index.origin = e ∧
    moved.edges.get? (Expansion.listedUnder .messagePassing e) = some index.swap
  countKeys : moved.edgeCounts.keys = moved.edges.keys
  counts : ∀ e counts, o.edgeCounts.get? e = some counts →
    moved.edgeCounts.get? (Expansion.listedUnder .messagePassing e) = some counts
  /-- What is listed under a key is of the type that the key's origin names. -/
  arcs : ∀ key index, moved.edges.get? key = some index → ∀ link ∈ index.links .messagePassing,
    link.IsArc moved g .messagePassing withEdge key index.origin

namespace Expansion

/-! ### Keys -/

/-- **When two types share a key**: if they are equal or, between different node types, two marks
apart. -/
theorem listedUnder_messagePassing_eq_iff {e f : EdgeType} :
    listedUnder .messagePassing e = listedUnder .messagePassing f ↔
      e = f ∨ ¬e.IsHomogeneous ∧ (e.Clash f ∨ f.Clash e) := by
  have hsame : listedUnder .messagePassing e = listedUnder .messagePassing f →
      (e.IsHomogeneous ↔ f.IsHomogeneous) := by
    intro h
    have hsource := congrArg (EdgeLayout.sourceType .messagePassing) h
    have htarget := congrArg (EdgeLayout.targetType .messagePassing) h
    rw [sourceType_listedUnder, sourceType_listedUnder] at hsource
    rw [targetType_listedUnder, targetType_listedUnder] at htarget
    rw [EdgeType.IsHomogeneous, EdgeType.IsHomogeneous, hsource, htarget]
  constructor
  · intro h
    have hiff := hsame h
    by_cases he : e.IsHomogeneous
    · rw [listedUnder, listedUnder, if_pos he, if_pos (hiff.1 he)] at h
      exact .inl h
    · rw [listedUnder, listedUnder, if_neg he, if_neg fun hf ↦ he (hiff.2 hf)] at h
      exact (EdgeType.reverse_eq_iff.1 h).imp_right fun hclash ↦ ⟨he, hclash⟩
  · rintro (rfl | ⟨he, hclash⟩)
    · rfl
    · have hf : ¬f.IsHomogeneous := by
        rw [EdgeType.IsHomogeneous] at he ⊢
        rcases hclash with h | h
        · rwa [h.source, h.target]
        · rwa [← h.source, ← h.target]
      rw [listedUnder, listedUnder, if_neg he, if_neg hf]
      exact EdgeType.reverse_eq_iff.2 (.inr hclash)

variable {x : Expansion} {withEdge : Bool}

theorem mem_keys_edges_iff {layout : EdgeLayout} {key : EdgeType} :
    key ∈ (x.edges layout withEdge).keys ↔
      ∃ block ∈ x.blocks, listedUnder layout block.type = key := by
  have hunder : (∃ block ∈ x.blocks, listedUnder layout block.type = key) ↔
      x.blocksUnder layout key ≠ [] := by
    rw [blocksUnder, ne_eq, List.filter_eq_nil_iff]
    simp
  rw [hunder, SortedMap.mem_keys_iff]
  simp only [get?_edges, Option.map_eq_some_iff]
  rcases x.blocksUnder layout key with - | ⟨block, rest⟩ <;> simp

/-! ### Moving an index -/

/-- No two of the types that were followed are listed under one key. -/
def KeysApart (x : Expansion) : Prop :=
  ∀ a ∈ x.blocks, ∀ b ∈ x.blocks,
    listedUnder .messagePassing a.type = listedUnder .messagePassing b.type → a.type = b.type

variable (h : x.KeysApart) {e : EdgeType}
include h

/-- Where keys are apart, the blocks listed under a key are those of one type. -/
theorem blocksUnder_messagePassing (he : ∃ block ∈ x.blocks, block.type = e) :
    x.blocksUnder .messagePassing (listedUnder .messagePassing e) = x.blocksUnder .traversal e := by
  obtain ⟨first, hfirst, rfl⟩ := he
  refine List.filter_congr fun block hblock ↦ decide_eq_decide.2 ⟨h block hblock first hfirst, ?_⟩
  intro htype
  have htype : block.type = first.type := htype
  rw [htype]

/-- **Where keys are apart, every index moves as a whole**, and so do its links. -/
theorem get?_edges_messagePassing {index : EdgeIndex}
    (hindex : (x.edges .traversal withEdge).get? e = some index) :
    (x.edges .messagePassing withEdge).get? (listedUnder .messagePassing e) = some index.swap ∧
      index.swap.links .messagePassing = index.links .traversal := by
  have he : ∃ block ∈ x.blocks, block.type = e :=
    mem_keys_edges_iff.1 (SortedMap.mem_keys_iff.2 ⟨index, hindex⟩)
  rw [get?_edges, Option.map_eq_some_iff] at hindex
  obtain ⟨block, hblock, rfl⟩ := hindex
  have hswap : ∀ block, (listing .traversal withEdge block).swap =
      listing .messagePassing withEdge block := fun _ ↦ rfl
  have hsteps : x.stepsUnder .messagePassing (listedUnder .messagePassing e) =
      x.stepsUnder .traversal e := by
    rw [stepsUnder, blocksUnder_messagePassing h he, stepsUnder]
  rw [hswap, get?_edges, blocksUnder_messagePassing h he, hblock, hsteps, links_listing,
    links_listing]
  exact ⟨rfl, rfl⟩

/-- Counts move along. -/
theorem edgeCountsOf_messagePassing (he : ∃ block ∈ x.blocks, block.type = e) (hops : Nat) :
    x.edgeCountsOf .messagePassing hops (listedUnder .messagePassing e) =
      x.edgeCountsOf .traversal hops e := by
  rw [edgeCountsOf_eq, edgeCountsOf_eq]
  refine List.map_congr_left fun hop _ ↦ ?_
  rw [stepsAt, stepsAt, blocksUnder_messagePassing h he]

omit h in
/-- **When keys are apart**: if no two types between different node types are two marks apart. -/
theorem keysApart_iff : x.KeysApart ↔ ∀ e ∈ (x.edges .traversal withEdge).keys,
    ∀ f ∈ (x.edges .traversal withEdge).keys, e.Clash f → e.IsHomogeneous := by
  simp only [mem_keys_edges_iff]
  constructor
  · rintro h _ ⟨a, ha, rfl⟩ _ ⟨b, hb, rfl⟩ hclash
    by_contra hne
    have hkeys := listedUnder_messagePassing_eq_iff.2 (.inr ⟨hne, .inl hclash⟩)
    exact hclash.ne (h a ha b hb hkeys)
  · intro h a ha b hb hkeys
    rcases listedUnder_messagePassing_eq_iff.1 hkeys with heq | ⟨hne, hclash | hclash⟩
    · exact heq
    · exact absurd (h _ ⟨a, ha, rfl⟩ _ ⟨b, hb, rfl⟩ hclash) hne
    · have hhomogeneous := h _ ⟨b, hb, rfl⟩ _ ⟨a, ha, rfl⟩ hclash
      rw [EdgeType.IsHomogeneous] at hne hhomogeneous
      rw [hclash.source, hclash.target] at hne
      exact absurd hhomogeneous hne

/-! ### Moving an output -/

omit h in
/-- **The layouts agree exactly where keys are apart.** -/
theorem moved_stage_iff {rules : Rules} {seeds : Rosters} {last hops : Nat} {metadata : Metadata}
    (hg : rules.graph.WellFormed) (hseeds : InRange rules.graph seeds) (hlast : last ≤ hops) :
    ((stage rules seeds last).present .traversal withEdge hops metadata).Moved rules.graph withEdge
        ((stage rules seeds last).present .messagePassing withEdge hops metadata) ↔
      (stage rules seeds last).KeysApart := by
  set x := stage rules seeds last with hx
  constructor
  · intro h a ha b hb
    exact h.injective _ (mem_keys_edges_iff.2 ⟨a, ha, rfl⟩) _ (mem_keys_edges_iff.2 ⟨b, hb, rfl⟩)
  · intro h
    have hkeys : ∀ key, key ∈ (x.edges .messagePassing withEdge).keys ↔
        ∃ e ∈ (x.edges .traversal withEdge).keys, listedUnder .messagePassing e = key := by
      intro key
      simp only [mem_keys_edges_iff]
      constructor
      · rintro ⟨block, hblock, hkey⟩
        exact ⟨_, ⟨block, hblock, rfl⟩, hkey⟩
      · rintro ⟨_, ⟨block, hblock, rfl⟩, hkey⟩
        exact ⟨block, hblock, hkey⟩
    have hfaithful : ∀ {e index}, (x.edges .traversal withEdge).get? e = some index →
        index.Faithful (x.present .traversal withEdge hops metadata) rules.graph .traversal withEdge
          e := fun hindex ↦ faithful_stage hg hseeds hlast hindex
    exact {
      injective := by
        intro e he f hf hef
        obtain ⟨a, ha, rfl⟩ := mem_keys_edges_iff.1 he
        obtain ⟨b, hb, rfl⟩ := mem_keys_edges_iff.1 hf
        exact h a ha b hb hef
      keys := hkeys
      edges := fun e index hindex ↦
        ⟨(hfaithful hindex).origin rfl, (get?_edges_messagePassing h hindex).1⟩
      countKeys := by simp [present]
      counts := by
        intro e counts hcounts
        rw [present, SortedMap.get?_mapEntries, Option.map_eq_some_iff] at hcounts
        obtain ⟨index, hindex, rfl⟩ := hcounts
        have he := mem_keys_edges_iff.1 (SortedMap.mem_keys_iff.2 ⟨index, hindex⟩)
        rw [present, SortedMap.get?_mapEntries, (get?_edges_messagePassing h hindex).1,
          Option.map_some, edgeCountsOf_messagePassing h he]
      arcs := by
        intro key moved hmoved link hlink
        obtain ⟨e, he, rfl⟩ := (hkeys key).1 (SortedMap.mem_keys_iff.2 ⟨moved, hmoved⟩)
        obtain ⟨index, hindex⟩ := SortedMap.mem_keys_iff.1 he
        obtain ⟨hswap, hlinks⟩ := get?_edges_messagePassing h hindex
        obtain rfl : moved = index.swap := Option.some.inj (hmoved.symm.trans hswap)
        have horigin : index.swap.origin = e := (hfaithful hindex).origin rfl
        have hold : link ∈ (x.present .traversal withEdge hops metadata).linksOf .traversal e := by
          rw [SamplingOutput.linksOf, present, hindex]
          rw [hlinks] at hlink
          exact hlink
        -- the same places of the same nodes, under the type that was followed
        obtain ⟨_, rfl, source, row, hrow, arc, harc, hsource, htarget, hedge⟩ :=
          isArcUnder_of_mem_linksOf hg hseeds hlast hold
        rw [horigin]
        refine ⟨source, row, hrow, arc, harc, ?_, ?_, hedge⟩
        · rw [sourceType_listedUnder]
          exact hsource
        · rw [targetType_listedUnder]
          exact htarget }

end Expansion

/-! ### Answers -/

/-- **Which answers are the same in either layout**: nodes, their counts and metadata always, and
the edges exactly if no two of the types that were followed between different node types are two
marks apart. -/
theorem Sampler.answer_moved_iff {s : Sampler} (hg : s.graph.WellFormed) {r : Request}
    (h : s.Accepts r) (seed : UInt64) :
    ∃ o moved, ((s.withLayout .traversal).answer r seed).output = .ok o ∧
      ((s.withLayout .messagePassing).answer r seed).output = .ok moved ∧
      moved.nodes = o.nodes ∧ moved.nodeCounts = o.nodeCounts ∧ moved.metadata = o.metadata ∧
      (o.Moved s.graph s.config.withEdge moved ↔
        ∀ e ∈ o.edges.keys, ∀ f ∈ o.edges.keys, e.Clash f → e.IsHomogeneous) := by
  obtain ⟨last, hlast, -, -, metadata, houtput⟩ := exists_stage hg h seed
  have hrules : (s.rules seed).graph.WellFormed := hg
  refine ⟨_, _, houtput .traversal, houtput .messagePassing, rfl, rfl, rfl, ?_⟩
  exact (Expansion.moved_stage_iff hrules (inRange_seeds h seed) hlast).trans
    Expansion.keysApart_iff

theorem Sampler.answer_moved_iff_small :
    Graph.small.WellFormed ∧ (small .traversal).Accepts smallRequest ∧
      ∃ o moved, ((small .traversal).answer smallRequest 7).output = .ok o ∧
        ((small .messagePassing).answer smallRequest 7).output = .ok moved ∧
        moved.nodes = o.nodes ∧ moved.nodeCounts = o.nodeCounts ∧ moved.metadata = o.metadata ∧
        (o.Moved .small true moved ↔
          ∀ e ∈ o.edges.keys, ∀ f ∈ o.edges.keys, e.Clash f → e.IsHomogeneous) :=
  ⟨Graph.small_wellFormed, small_accepts _,
    answer_moved_iff (s := small .traversal) Graph.small_wellFormed (small_accepts _) 7⟩

/-! ### Two marks apart -/

/-- A node that is left along two edge types, one of which is the other with two marks. -/
def Graph.marked : Graph where
  nodeCounts := ⟨[(⟨"a"⟩, 1), (⟨"b"⟩, 2)], by decide⟩
  topologies := ⟨[(⟨⟨"a"⟩, "rev_rev_x", ⟨"b"⟩⟩, ⟨#[#[⟨1, 20⟩]], .zeroCopy⟩),
    (⟨⟨"a"⟩, "x", ⟨"b"⟩⟩, ⟨#[#[⟨0, 10⟩]], .zeroCopy⟩)], by decide⟩

/-- One hop over the marked graph. -/
def Sampler.marked : Sampler := ⟨.marked, { budgets := .uniform [1], withEdge := true }⟩

/-- **The layouts can differ**: the edges of both types end up in one index. -/
theorem Sampler.exists_not_moved :
    ∃ o moved, (marked.answer (.node ⟨⟨"a"⟩, [0]⟩) 0).output = .ok o ∧
      ((marked.withLayout .messagePassing).answer (.node ⟨⟨"a"⟩, [0]⟩) 0).output = .ok moved ∧
      ¬o.Moved .marked true moved := by
  have hg : marked.graph.WellFormed := by show Graph.marked.WellFormed; decide
  have haccepts : marked.Accepts (.node ⟨⟨"a"⟩, [0]⟩) := by
    refine ⟨by decide, ?_⟩
    show ∀ id ∈ [0], Graph.marked.HasNode ⟨"a"⟩ id
    exact List.forall_mem_singleton.2 (by decide)
  obtain ⟨last, hlast, hstop, -, metadata, houtput⟩ := exists_stage hg haccepts 0
  refine ⟨_, _, houtput .traversal, houtput .messagePassing, fun hmoved ↦ ?_⟩
  set rules := marked.rules 0
  set seeds := marked.seeds (.node ⟨⟨"a"⟩, [0]⟩) 0
  have hids : (Expansion.frontAt rules seeds 0 ⟨"a"⟩).ids ≠ [] := by
    refine List.ne_nil_of_mem (a := 0) ?_
    show _ ∈ ((Rosters.claimAll .empty ⟨"a"⟩ [0]).roster ⟨"a"⟩).ids.toList
    rw [Rosters.roster_claimAll, if_pos rfl, Roster.mem_claimAll]
    exact .inr (List.mem_singleton.2 rfl)
  -- there is a node to go on from, so the hop is taken
  have hlt : 0 < last := by
    rcases hstop with rfl | hnobody
    · exact Nat.one_pos
    · refine Nat.pos_of_ne_zero ?_
      rintro rfl
      have hfront := (Expansion.mem_frontier_iff rules seeds).2 ⟨rfl, hids⟩
      rw [hnobody] at hfront
      exact absurd hfront List.not_mem_nil
  have hblock : ∀ e topology, e.source = ⟨"a"⟩ → Graph.marked.topology e = .ok topology →
      ∃ block ∈ (Expansion.stage rules seeds last).blocks, block.type = e := by
    intro e topology hsource htop
    have htask : ⟨Expansion.frontAt rules seeds 0 e.source, e, topology⟩ ∈
        Expansion.tasksAt rules seeds 0 :=
      (Expansion.mem_tasksAt_iff rules seeds).2
        ⟨rfl, by rw [hsource]; exact hids, htop, Nat.one_ne_zero⟩
    exact ⟨_, (Expansion.mem_blocks_stage_iff rules seeds).2 ⟨0, hlt, _, htask, rfl⟩, rfl⟩
  obtain ⟨first, hfirst, htype⟩ := hblock ⟨⟨"a"⟩, "rev_rev_x", ⟨"b"⟩⟩ _ rfl rfl
  obtain ⟨second, hsecond, htype'⟩ := hblock ⟨⟨"a"⟩, "x", ⟨"b"⟩⟩ _ rfl rfl
  have hgraph : rules.graph.WellFormed := hg
  have hapart := (Expansion.moved_stage_iff hgraph (inRange_seeds haccepts 0) hlast).1 hmoved
  have hsame := hapart first hfirst second hsecond (by rw [htype, htype']; decide)
  rw [htype, htype'] at hsame
  exact absurd hsame (by decide)

end HopSampler
