import HopSampler.Proofs.Layouts
import HopSampler.Proofs.Records

/-!
# Walks taken to the last hop

A run stops early when nobody is left to go on from. Stages after that differ from it in their marks
only (`stage_of_frontier_nil`), and what is presented does not look that far, so an answer presents
the stage of the *last* hop in every case (`Sampler.exists_output`). What is said of two answers can
then be said of two stages, without a word on where either run stopped.

The rest is what a stage lists, in terms of what its hops met and of their tasks: a node type is
listed when one of its nodes was met (`mem_keys_stage_iff`), a key when a task of one of its edge
types was taken (`mem_keys_edges_stage_iff`), and a slice reads as the records of those tasks
(`slice_recordIn?`), in either layout.
-/

namespace HopSampler

/-! ### Listed rosters are not empty -/

namespace Rosters

/-- A roster that is listed has a node. -/
def NoneEmpty (r : Rosters) : Prop := ∀ t roster, r.get? t = some roster → roster.ids.toList ≠ []

theorem noneEmpty_empty : NoneEmpty .empty := fun _ _ h ↦ nomatch h

theorem NoneEmpty.insert {r : Rosters} (h : r.NoneEmpty) {t : NodeType} {roster : Roster}
    (hroster : roster.ids.toList ≠ []) : NoneEmpty (r.insert t roster) := by
  intro u other hother
  rw [SortedMap.get?_insert] at hother
  split at hother
  · exact Option.some.inj hother ▸ hroster
  · exact h u other hother

theorem NoneEmpty.claimAll {r : Rosters} (h : r.NoneEmpty) (t : NodeType) (ids : List Id) :
    NoneEmpty (r.claimAll t ids) := by
  rw [Rosters.claimAll]
  split
  · exact h
  · next hids =>
    obtain ⟨id, hid⟩ := List.exists_mem_of_ne_nil ids hids
    exact h.insert (List.ne_nil_of_mem (Roster.mem_claimAll.2 (.inr hid)))

/-- The types that are listed are those of the nodes met. -/
theorem NoneEmpty.mem_keys_iff {r : Rosters} (h : r.NoneEmpty) {t : NodeType} :
    t ∈ r.keys ↔ (r.roster t).ids.toList ≠ [] := by
  rw [SortedMap.mem_keys_iff]
  constructor
  · rintro ⟨roster, hroster⟩
    rw [Rosters.roster, SortedMap.getD_of_get? hroster]
    exact h t roster hroster
  · intro hne
    rcases hroster : r.get? t with - | roster
    · rw [Rosters.roster, SortedMap.getD, hroster] at hne
      exact absurd rfl hne
    · exact ⟨roster, rfl⟩

end Rosters

namespace Expansion

theorem noneEmpty_follow {x : Expansion} (h : x.rosters.NoneEmpty) (hop : Nat) (e : EdgeType)
    (start : Nat) (picks : List (List Arc)) : (x.follow hop e start picks).rosters.NoneEmpty := by
  rw [rosters_follow]
  exact h.claimAll e.target (targetsOf picks)

section Stages

variable (rules : Rules) {seeds : Rosters}

theorem noneEmpty_stage (h : seeds.NoneEmpty) (s : Nat) : (stage rules seeds s).rosters.NoneEmpty := by
  have hperform (hop : Nat) (ts : List Task) (x : Expansion) (hx : x.rosters.NoneEmpty) :
      (ts.foldl (perform rules hop) x).rosters.NoneEmpty := by
    induction ts generalizing x with
    | nil => exact hx
    | cons task ts ih => exact ih _ (noneEmpty_follow hx _ _ _ _)
  induction s with
  | zero => exact h
  | succ s ih => exact hperform s _ _ ih

/-- **A node type is listed when one of its nodes was met.** -/
theorem mem_keys_stage_iff (h : seeds.NoneEmpty) {s : Nat} {t : NodeType} :
    t ∈ (stage rules seeds s).rosters.keys ↔ metAt rules seeds s t ≠ [] :=
  (noneEmpty_stage rules h s).mem_keys_iff

end Stages

/-! ### After the walk has ended -/

variable {rules : Rules} {seeds : Rosters}

/-- **Once nobody is left to go on from, nothing is met and nothing is followed.** -/
theorem stage_of_frontier_nil {last s : Nat} (hstop : (stage rules seeds last).frontier = [])
    (hs : last ≤ s) : (stage rules seeds s).rosters = (stage rules seeds last).rosters ∧
      (stage rules seeds s).blocks = (stage rules seeds last).blocks := by
  induction s, hs using Nat.le_induction with
  | base => exact ⟨rfl, rfl⟩
  | succ s hs ih =>
    have hidle : stage rules seeds (s + 1) = { stage rules seeds s with
        marks := (stage rules seeds s).marks ++ [(stage rules seeds s).rosters.sizes] } := by
      show advance rules s (stage rules seeds s) = _
      rw [advance, frontier_eq_nil hstop hs]
      rfl
    rw [hidle]
    exact ih

/-- **What is presented does not look past the end of a walk.** -/
theorem present_of_frontier_nil {last hops : Nat} (hlast : last ≤ hops)
    (hstop : (stage rules seeds last).frontier = []) (layout : EdgeLayout) (withEdge : Bool)
    (metadata : Metadata) :
    (stage rules seeds last).present layout withEdge hops metadata =
      (stage rules seeds hops).present layout withEdge hops metadata := by
  obtain ⟨hrosters, hblocks⟩ := stage_of_frontier_nil hstop hlast
  have hlater {i : Nat} (hi : last + 1 ≤ i) (t : NodeType) :
      before rules seeds i t = before rules seeds (last + 1) t := by
    obtain ⟨i, rfl⟩ : ∃ j, i = j + 1 := ⟨i - 1, by omega⟩
    rw [before, before, metAt, (stage_of_frontier_nil hstop (Nat.le_of_succ_le_succ hi)).1]
    rfl
  have hcounts (t : NodeType) : (stage rules seeds last).nodeCountsOf hops t =
      (stage rules seeds hops).nodeCountsOf hops t := by
    rw [nodeCountsOf_stage, nodeCountsOf_stage]
    refine List.map_congr_left fun s hs ↦ ?_
    have hs : s < hops + 1 := List.mem_range.1 hs
    rw [Nat.min_eq_left (b := hops + 1) (by omega), Nat.min_eq_left (b := hops + 1) (by omega)]
    by_cases hearly : s ≤ last
    · rw [Nat.min_eq_left (by omega), Nat.min_eq_left (by omega)]
    · have hnext := hlater (i := s + 1) (by omega) t
      have hthis := hlater (i := s) (by omega) t
      rw [Nat.min_eq_right (by omega), Nat.min_eq_right (by omega), hnext, hthis]
  have hedges : (stage rules seeds last).edges layout withEdge =
      (stage rules seeds hops).edges layout withEdge := by
    rw [edges, edges, hblocks]
  have hedgeCounts (key : EdgeType) : (stage rules seeds last).edgeCountsOf layout hops key =
      (stage rules seeds hops).edgeCountsOf layout hops key := by
    rw [edgeCountsOf, edgeCountsOf, hblocks]
  simp only [present, hrosters, hcounts, hedges, hedgeCounts]

/-! ### What a stage lists -/

/-- An edge type is followed at a hop when there is a node to go on from and a budget for it. -/
theorem exists_task_iff {s : Nat} {e : EdgeType} :
    (∃ task ∈ tasksAt rules seeds s, task.type = e) ↔ (frontAt rules seeds s e.source).ids ≠ [] ∧
      (∃ topology, rules.graph.topology e = .ok topology) ∧ rules.budgets.budget e s ≠ 0 := by
  simp only [mem_tasksAt_iff]
  constructor
  · rintro ⟨task, ⟨hfront, hids, htop, hbudget⟩, rfl⟩
    exact ⟨hfront ▸ hids, ⟨_, htop⟩, hbudget⟩
  · rintro ⟨hids, ⟨topology, htop⟩, hbudget⟩
    exact ⟨⟨frontAt rules seeds s e.source, e, topology⟩, ⟨rfl, hids, htop, hbudget⟩, rfl⟩

/-- After the last hop there is no segment. -/
theorem segment_eq_nil {last hops step : Nat} (hstep : hops < step) {layout : EdgeLayout}
    {withEdge : Bool} {metadata : Metadata} (t : NodeType) :
    ((stage rules seeds last).present layout withEdge hops metadata).segment t step = [] := by
  set counts := ((stage rules seeds last).present layout withEdge hops metadata).nodeCountsAt t
    with hcounts
  have hnone : counts[step]? = none := by
    refine List.getElem?_eq_none ?_
    rcases hroster : (stage rules seeds last).rosters.get? t with - | roster
    · rw [hcounts, nodeCountsAt_present_of_none _ _ _ _ _ hroster]
      exact Nat.zero_le _
    · rw [hcounts, nodeCountsAt_present _ _ _ _ _ hroster, nodeCountsOf, List.length_map,
        List.length_range]
      exact hstep
  rw [SamplingOutput.segment, pieceAt, ← hcounts, hnone]
  exact List.take_zero

/-- **A key is listed when a task of one of its edge types was taken.** -/
theorem mem_keys_edges_stage_iff {last : Nat} {layout : EdgeLayout} {withEdge : Bool}
    {key : EdgeType} : key ∈ ((stage rules seeds last).edges layout withEdge).keys ↔
      ∃ s < last, ∃ task ∈ tasksAt rules seeds s, listedUnder layout task.type = key := by
  rw [mem_keys_edges_iff]
  simp only [mem_blocks_stage_iff]
  constructor
  · rintro ⟨_, ⟨s, hs, task, htask, rfl⟩, hkey⟩
    exact ⟨s, hs, task, htask, hkey⟩
  · rintro ⟨s, hs, task, htask, hkey⟩
    exact ⟨_, ⟨s, hs, task, htask, rfl⟩, hkey⟩

end Expansion

/-! ### Records in either layout -/

namespace Expansion

variable {rules : Rules} {seeds : Rosters} {last hops : Nat} {layout : EdgeLayout} {withEdge : Bool}
  {metadata : Metadata}

/-- **A slice reads as what the tasks listed under its key recorded**, task by task. -/
theorem slice_recordIn? (hlast : last ≤ hops) {hop : Nat} (hhop : hop < last) (key : EdgeType) :
    (((stage rules seeds last).present layout withEdge hops metadata).slice layout key hop).map
        (((stage rules seeds last).present layout withEdge hops metadata).recordIn? layout key) =
      (((tasksAt rules seeds hop).filter (listedUnder layout ·.type = key)).flatMap
        (Task.records rules hop withEdge)).map some := by
  rw [slice_present layout withEdge metadata (inOrder_stage rules seeds hlast), stepsAt_stage hhop,
    List.map_flatMap, List.map_flatMap, List.map_flatMap]
  refine List.flatMap_congr fun task hmem ↦ ?_
  obtain ⟨htask, hkey⟩ := List.mem_filter.1 hmem
  rw [← show listedUnder layout task.type = key from of_decide_eq_true hkey]
  exact map_steps_recordIn? layout withEdge metadata hhop htask

end Expansion

/-! ### Answers -/

namespace Sampler

variable {s : Sampler}

theorem noneEmpty_seeds (r : Request) (seed : UInt64) : (s.seeds r seed).NoneEmpty := by
  cases r with
  | node r => exact Rosters.noneEmpty_empty.claimAll _ _
  | edge r => exact (Rosters.noneEmpty_empty.claimAll _ _).claimAll _ _

/-- What is said of the seeds does not depend on how far the walk went. -/
theorem metadataOf_eq_seeds {r : Request} {seed : UInt64} {rosters : Rosters}
    (hmet : (s.seeds r seed).Prefix rosters) :
    s.metadataOf r seed rosters = s.metadataOf r seed (s.seeds r seed) := by
  cases r with
  | node r => rfl
  | edge r =>
    -- a seed has the place it was given first
    have hplaces {t : NodeType} {ids : List Id} (hids : ∀ id ∈ ids, id ∈ s.seedIds (.edge r) seed t) :
        ids.map (rosters.roster t).placeOf =
          ids.map ((s.seeds (.edge r) seed).roster t).placeOf :=
      List.map_congr_left fun id hid ↦
        Roster.placeOf_eq_of_isPrefix (mem_roster_seeds_iff.2 (hids id hid)) (hmet t)
    have hrows : ∀ id ∈ r.rows, id ∈ s.seedIds (.edge r) seed r.type.source := by
      intro id hid
      simp [seedIds, hid]
    have htargets : ∀ id ∈ r.cols ++ s.negativeIds r seed,
        id ∈ s.seedIds (.edge r) seed r.type.target := by
      intro id hid
      rw [seedIds, if_pos rfl]
      exact List.mem_append_right _ hid
    rw [metadataOf, metadataOf, pairMetadata_seeds hmet, pairMetadata_seeds (Rosters.Prefix.refl _),
      hplaces hrows, hplaces fun id hid ↦ htargets id (List.mem_append_left _ hid),
      hplaces fun id hid ↦ htargets id (List.mem_append_right _ hid)]

/-- **An accepted request is answered with the stage of the last hop**, wherever the run stopped. -/
theorem exists_output {r : Request} (hg : s.graph.WellFormed) (h : s.Accepts r) (seed : UInt64) :
    ∃ metadata, s.metadataOf r seed (s.seeds r seed) = .ok metadata ∧
      ∀ layout, ((s.withLayout layout).answer r seed).output =
        .ok ((Expansion.stage (s.rules seed) (s.seeds r seed) s.config.budgets.numHops).present layout
          s.config.withEdge s.config.budgets.numHops metadata) := by
  have hrules : (s.rules seed).graph.WellFormed := hg
  obtain ⟨last, hle, hstop, hrun⟩ := Expansion.run_eq_stage hrules (inRange_seeds h seed)
  have hmet : (s.seeds r seed).Prefix (Expansion.stage (s.rules seed) (s.seeds r seed) last).rosters :=
    Expansion.prefix_stage (s.rules seed) (s.seeds r seed) (Nat.zero_le last)
  obtain ⟨metadata, hmeta⟩ := exists_metadata h hmet
  refine ⟨metadata, (metadataOf_eq_seeds hmet).symm.trans hmeta, fun layout ↦ ?_⟩
  rw [output_eq_present h hrun hmeta layout]
  rcases hstop with hall | hnobody
  · have hall : last = s.config.budgets.numHops := hall
    rw [hall]
  · exact congrArg Except.ok (Expansion.present_of_frontier_nil hle hnobody layout _ metadata)

end Sampler

end HopSampler
