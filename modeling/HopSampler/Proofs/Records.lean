import HopSampler.Proofs.FanOut
import HopSampler.Proofs.Layering

/-!
# Edges by the IDs of their ends

An output that lists edges as they were followed names both ends by places. Read back through its
own nodes a link becomes a `Record`, and a slice becomes what its task picked, node by node
(`slice_record?`): no link is lost on the way, and the order is kept. Segments are read likewise.
The segment of a step is the front that the next hop goes on from (`segment_stage`), and one after
another the fronts are all that was met (`flatMap_frontAt`).
-/

namespace HopSampler

/-- A sampled edge by the IDs of its ends. -/
structure Record where
  source : Id
  target : Id
  /-- Its own ID, where IDs are listed. -/
  edge : Option Id
  deriving DecidableEq

/-- The record of an arc. -/
def Arc.record (withEdge : Bool) (source : Id) (arc : Arc) : Record :=
  ⟨source, arc.target, if withEdge then some arc.edge else none⟩

/-- A list that reads as another without a loss is read as that one. -/
theorem filterMap_of_map_eq {α β : Type} {f : α → Option β} {xs : List α} {ys : List β}
    (h : xs.map f = ys.map some) : xs.filterMap f = ys := by
  have hid : xs.filterMap f = (xs.map f).filterMap id := by
    rw [List.filterMap_map]
    rfl
  rw [hid, h, List.filterMap_map]
  exact List.filterMap_some

namespace SamplingOutput

/-- The record of a link under a type, of an output that lists edges as they were followed. -/
def record? (o : SamplingOutput) (e : EdgeType) (link : Link) : Option Record :=
  match (o.nodesOf e.source)[link.source]?, (o.nodesOf e.target)[link.target]? with
  | some source, some target => some ⟨source, target, link.edge⟩
  | _, _ => none

/-- What a hop recorded under a type, in order. -/
def recordsAt (o : SamplingOutput) (e : EdgeType) (hop : Nat) : List Record :=
  (o.slice .traversal e hop).filterMap (o.record? e)

/-- The record of a link under a key, by the nodes that its ends are places of, in either layout. -/
def recordIn? (o : SamplingOutput) (layout : EdgeLayout) (key : EdgeType) (link : Link) :
    Option Record :=
  match (o.nodesOf (layout.sourceType key))[link.source]?,
    (o.nodesOf (layout.targetType key))[link.target]? with
  | some source, some target => some ⟨source, target, link.edge⟩
  | _, _ => none

theorem recordIn?_traversal (o : SamplingOutput) (e : EdgeType) :
    o.recordIn? .traversal e = o.record? e :=
  rfl

end SamplingOutput

namespace Expansion

variable {rules : Rules} {seeds : Rosters}

/-! ### What a task records -/

/-- The records of a task, node by node. -/
def Task.records (rules : Rules) (hop : Nat) (withEdge : Bool) (task : Task) : List Record :=
  task.front.ids.flatMap fun node ↦
    (rules.picked hop task.type task.topology node).map (Arc.record withEdge node)

/-- The targets recorded are those that are met. -/
theorem Task.map_target_records (rules : Rules) (hop : Nat) (withEdge : Bool) (task : Task) :
    (task.records rules hop withEdge).map (·.target) = targetsOf (task.picks rules hop) := by
  rw [records, targetsOf, picks, List.map_flatMap, List.map_flatten, List.map_map, List.flatMap_def]
  simp only [List.map_map]
  rfl

/-- A property of steps along arcs, listed node by node. -/
theorem map_stepsAlong {β : Type} {f : Step → β} {g : Id → Arc → β} {p : Id → List Arc}
    {r : Roster} {ids : List Id} {start : Nat}
    (h : ∀ i node, ids[i]? = some node → ∀ arc ∈ p node,
      f (stepAlong (start + i) r arc) = g node arc) :
    (stepsAlong start r (ids.map p)).map f = ids.flatMap fun node ↦ (p node).map (g node) := by
  induction ids generalizing start with
  | nil => rfl
  | cons node ids ih =>
    have hfirst : ((p node).map (stepAlong start r)).map f = (p node).map (g node) := by
      rw [List.map_map]
      exact List.map_congr_left fun arc harc ↦ h 0 node rfl arc harc
    have hrest := @ih (start + 1) fun i other hother arc harc ↦ by
      have hshift := h (i + 1) other hother arc harc
      rwa [Nat.add_comm i 1, ← Nat.add_assoc] at hshift
    rw [List.map_cons, stepsAlong, List.map_append, hfirst, hrest, List.flatMap_cons]

/-! ### Read off the output -/

/-- The steps of a task read as its records, through the nodes of any later stage. -/
theorem map_steps_recordIn? {last hops : Nat} (layout : EdgeLayout) (withEdge : Bool)
    (metadata : Metadata) {hop : Nat} (hhop : hop < last) {task : Task}
    (htask : task ∈ tasksAt rules seeds hop) :
    ((task.block rules hop (stage rules seeds (hop + 1)).rosters).steps.map (Step.link withEdge)).map
        (((stage rules seeds last).present layout withEdge hops metadata).recordIn? layout
          (listedUnder layout task.type)) =
      (task.records rules hop withEdge).map some := by
  have hfront := ((mem_tasksAt_iff rules seeds).1 htask).1
  rw [List.map_map, Task.records, List.map_flatMap]
  simp only [List.map_map]
  refine map_stepsAlong (g := fun node arc ↦ some (arc.record withEdge node)) ?_
  intro i node hnode arc harc
  have htarget := getElem?_target hhop htask (List.mem_of_getElem? hnode) harc
  rw [hfront, frontAt, List.getElem?_drop] at hnode
  have hsource : (metAt rules seeds last task.type.source)[task.front.start + i]? = some node := by
    rw [hfront]
    exact getElem?_of_isPrefix (metAt_mono rules seeds (Nat.le_of_lt hhop) _) hnode
  simp only [Function.comp, SamplingOutput.recordIn?, Step.link, stepAlong, nodesOf_stage,
    sourceType_listedUnder, targetType_listedUnder, hsource, htarget]
  rfl

section Traversal

variable {last hops : Nat} {withEdge : Bool} {metadata : Metadata} {o : SamplingOutput}
  (hlast : last ≤ hops)
  (ho : o = (stage rules seeds last).present .traversal withEdge hops metadata)
include hlast ho

/-- **A slice reads as what its task picked**, node by node. -/
theorem slice_record? {hop : Nat} (hhop : hop < last) {task : Task}
    (htask : task ∈ tasksAt rules seeds hop) :
    (o.slice .traversal task.type hop).map (o.record? task.type) =
      (task.records rules hop withEdge).map some := by
  subst ho
  rw [slice_present .traversal withEdge metadata (inOrder_stage rules seeds hlast),
    stepsAt_traversal hhop htask, ← SamplingOutput.recordIn?_traversal]
  exact map_steps_recordIn? .traversal withEdge metadata hhop htask

/-- Only tasks of hops that were taken fill a slice. -/
theorem exists_task_of_slice_ne_nil {e : EdgeType} {hop : Nat}
    (h : o.slice .traversal e hop ≠ []) :
    hop < last ∧ ∃ task ∈ tasksAt rules seeds hop, task.type = e := by
  subst ho
  obtain ⟨link, hlink⟩ := List.exists_mem_of_ne_nil _ h
  obtain ⟨hhop, task, htask, htype, -⟩ := (mem_slice_stage_iff hlast).1 hlink
  exact ⟨hhop, task, htask, htype⟩

/-- No link is lost in reading. -/
theorem slice_record?_eq_recordsAt (e : EdgeType) (hop : Nat) :
    (o.slice .traversal e hop).map (o.record? e) = (o.recordsAt e hop).map some := by
  by_cases hslice : o.slice .traversal e hop = []
  · rw [SamplingOutput.recordsAt, hslice]
    rfl
  · obtain ⟨hhop, task, htask, rfl⟩ := exists_task_of_slice_ne_nil hlast ho hslice
    have hread := slice_record? hlast ho hhop htask
    rw [hread, SamplingOutput.recordsAt, filterMap_of_map_eq hread]

/-- Without a task nothing is recorded. -/
theorem recordsAt_eq_nil {e : EdgeType} {hop : Nat}
    (h : hop < last → ∀ task ∈ tasksAt rules seeds hop, task.type ≠ e) : o.recordsAt e hop = [] := by
  have hslice : o.slice .traversal e hop = [] := by
    by_contra hne
    obtain ⟨hhop, task, htask, htype⟩ := exists_task_of_slice_ne_nil hlast ho hne
    exact h hhop task htask htype
  rw [SamplingOutput.recordsAt, hslice]
  rfl

/-- **What a hop records under a type is what its tasks of that type record.** -/
theorem recordsAt_stage (e : EdgeType) {hop : Nat} (hhop : hop < last) :
    o.recordsAt e hop =
      ((tasksAt rules seeds hop).filter (·.type = e)).flatMap (Task.records rules hop withEdge) := by
  by_cases hsome : ∃ task ∈ tasksAt rules seeds hop, task.type = e
  · obtain ⟨task, htask, rfl⟩ := hsome
    rw [SamplingOutput.recordsAt, filterMap_of_map_eq (slice_record? hlast ho hhop htask),
      filter_tasksAt_of_mem htask, List.flatMap_singleton]
  · have hnone : (tasksAt rules seeds hop).filter (·.type = e) = [] := by
      rw [List.filter_eq_nil_iff]
      exact fun task htask htype ↦ hsome ⟨task, htask, of_decide_eq_true htype⟩
    rw [recordsAt_eq_nil hlast ho fun _ task htask htype ↦ hsome ⟨task, htask, htype⟩, hnone,
      List.flatMap_nil]

/-- All links of a type read as what its hops record. -/
theorem linksOf_record? (e : EdgeType) :
    (o.linksOf .traversal e).map (o.record? e) =
      ((List.range hops).flatMap (o.recordsAt e)).map some := by
  have hslices : o.linksOf .traversal e = (List.range hops).flatMap (o.slice .traversal e) := by
    rw [ho]
    exact (flatMap_slice hlast e).symm
  rw [hslices, List.map_flatMap, List.map_flatMap]
  exact List.flatMap_congr fun hop _ ↦ slice_record?_eq_recordsAt hlast ho e hop

end Traversal

/-! ### Segments -/

/-- What a hop goes on from is what is new. -/
theorem metAt_append_frontAt (s : Nat) (t : NodeType) :
    metAt rules seeds s t ++ (frontAt rules seeds (s + 1) t).ids = metAt rules seeds (s + 1) t :=
  List.prefix_iff_eq_append.1 (metAt_mono rules seeds (Nat.le_succ s) t)

/-- **One after another the fronts are what was met.** -/
theorem flatMap_frontAt (s : Nat) (t : NodeType) :
    (List.range (s + 1)).flatMap (fun hop ↦ (frontAt rules seeds hop t).ids) =
      metAt rules seeds s t := by
  induction s with
  | zero => exact List.flatMap_singleton _ _
  | succ s ih =>
    rw [List.range_succ, List.flatMap_append, ih, List.flatMap_singleton, metAt_append_frontAt]

/-- A hop goes on from the nodes that were not met before. -/
theorem mem_frontAt_succ_iff {s : Nat} {t : NodeType} {node : Id} :
    node ∈ (frontAt rules seeds (s + 1) t).ids ↔
      node ∈ metAt rules seeds (s + 1) t ∧ node ∉ metAt rules seeds s t := by
  have hnodup := metAt_nodup rules seeds (s + 1) t
  rw [← metAt_append_frontAt] at hnodup ⊢
  rw [List.mem_append]
  constructor
  · intro hnode
    exact ⟨.inr hnode, fun hold ↦ List.disjoint_of_nodup_append hnodup hold hnode⟩
  · rintro ⟨hold | hnode, hnew⟩
    · exact absurd hold hnew
    · exact hnode

/-- Once nobody is new, nobody is new any more. -/
theorem frontier_eq_nil {last s : Nat} (hstop : (stage rules seeds last).frontier = [])
    (hs : last ≤ s) : (stage rules seeds s).frontier = [] := by
  induction s, hs using Nat.le_induction with
  | base => exact hstop
  | succ s _ ih =>
    have hidle : tasksAt rules seeds s = [] := by rw [tasksAt, tasks, ih, List.flatMap_nil]
    have hsame : ∀ t, metAt rules seeds (s + 1) t = metAt rules seeds s t := by
      intro t
      rw [metAt, roster_stage_succ, hidle]
      rfl
    rw [List.eq_nil_iff_forall_not_mem]
    intro front hfront
    obtain ⟨heq, hids⟩ := (mem_frontier_iff rules seeds).1 hfront
    obtain ⟨node, hnode⟩ := List.exists_mem_of_ne_nil _ hids
    rw [heq, mem_frontAt_succ_iff, hsame] at hnode
    exact hnode.2 hnode.1

/-- **The segment of a step is the front that the next hop goes on from**, also after the last hop
that was taken, if nobody was left. -/
theorem segment_stage {last hops : Nat} (hlast : last ≤ hops)
    (hstop : last = hops ∨ (stage rules seeds last).frontier = []) {layout : EdgeLayout}
    {withEdge : Bool} {metadata : Metadata} (t : NodeType) {s : Nat} (hs : s ≤ hops) :
    ((stage rules seeds last).present layout withEdge hops metadata).segment t s =
      (frontAt rules seeds s t).ids := by
  set counts := ((stage rules seeds last).present layout withEdge hops metadata).nodeCountsAt t
    with hcounts
  have hsum : ∀ k, (counts.take k).sum = before rules seeds (min k (last + 1)) t := fun k ↦ by
    rw [hcounts, sum_take_nodeCountsAt hlast]
  rw [SamplingOutput.segment, pieceAt, ← hcounts, nodesOf_stage]
  by_cases htaken : s ≤ last
  · have hstart : (counts.take s).sum = before rules seeds s t := by
      rw [hsum, Nat.min_eq_left (by omega)]
    have hend : (counts.take s).sum + counts[s]?.getD 0 = before rules seeds (s + 1) t := by
      rw [← sum_take_succ, hsum, Nat.min_eq_left (by omega)]
    have hmet : metAt rules seeds s t =
        (metAt rules seeds last t).take (before rules seeds (s + 1) t) :=
      List.prefix_iff_eq_take.1 (metAt_mono rules seeds htaken t)
    have hwidth : counts[s]?.getD 0 = before rules seeds (s + 1) t - before rules seeds s t := by
      omega
    rw [hstart, frontAt, hmet, List.drop_take, hwidth]
  · have hnobody : (stage rules seeds last).frontier = [] := hstop.resolve_left (by omega)
    have hlater := frontier_eq_nil hnobody (Nat.le_of_not_le htaken)
    rw [frontAt_of_frontier_nil rules seeds hlater, hsum, Nat.min_eq_right (by omega), before,
      List.drop_length, List.take_nil]

end Expansion

end HopSampler
