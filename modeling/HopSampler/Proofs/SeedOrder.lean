import HopSampler.Proofs.Neighborhood
import Mathlib.Data.List.Forall2

/-!
# The order of seeds

Two walks from the same seed nodes, met in different orders and as often as one likes, are compared
hop by hop. Rosters, fronts and places differ from the first hop on, but what is picked at a node
depends on the hop, the edge type and the node alone. So the walks stay `InStep`: at every hop they
have met the same nodes, and go on from the same nodes (`InStep.succ`). The tasks of a hop then come
in the same order, and each of them picks the same records in another order (`InStep.tasks`).

What is presented differs accordingly in the order of nodes and edges, and in nothing else
(`SamplingOutput.Rearranged`): the same types and keys are listed, with the same origins and the
same counts.
-/

namespace HopSampler

/-! ### Requests and outputs -/

/-- Two requests have the same seeds, in whatever order and however often. -/
inductive Request.SameSeeds : Request → Request → Prop where
  | node {r r' : NodeRequest} (type : r'.type = r.type) (ids : ∀ id, id ∈ r'.ids ↔ id ∈ r.ids) :
    SameSeeds (.node r) (.node r')
  | edge {r r' : EdgeRequest} (type : r'.type = r.type) (rows : ∀ id, id ∈ r'.rows ↔ id ∈ r.rows)
    (cols : ∀ id, id ∈ r'.cols ↔ id ∈ r.cols) (negatives : r.negatives = none)
    (negatives' : r'.negatives = none) : SameSeeds (.edge r) (.edge r')

/-- Two outputs show the same sample, but for the order of nodes and edges. -/
structure SamplingOutput.Rearranged (layout : EdgeLayout) (o o' : SamplingOutput) : Prop where
  nodeKeys : o'.nodes.keys = o.nodes.keys
  nodeCounts : o'.nodeCounts = o.nodeCounts
  /-- A step adds the same nodes. -/
  segments : ∀ t step, (o'.segment t step).Perm (o.segment t step)
  edgeKeys : o'.edges.keys = o.edges.keys
  edgeCounts : o'.edgeCounts = o.edgeCounts
  /-- An index names the same edge type. -/
  origins : ∀ key, (o'.edges.get? key).map (·.origin) = (o.edges.get? key).map (·.origin)
  /-- A hop records the same edges under a key, each of them as often; no link is lost in
  reading. -/
  records : ∀ key hop, ∃ recorded recorded' : List Record, recorded'.Perm recorded ∧
    (o.slice layout key hop).map (o.recordIn? layout key) = recorded.map some ∧
    (o'.slice layout key hop).map (o'.recordIn? layout key) = recorded'.map some

/-! ### Lists in step -/

section InStep

variable {α β : Type} {xs ys : List α}

/-- Lists that agree in one respect, position by position, are in step. -/
theorem forall₂_of_map_eq {f : α → β} (h : ys.map f = xs.map f) {R : α → α → Prop}
    (hR : ∀ a ∈ xs, ∀ b ∈ ys, f b = f a → R a b) : List.Forall₂ R xs ys := by
  induction xs generalizing ys with
  | nil =>
    obtain rfl := List.map_eq_nil_iff.1 h
    exact .nil
  | cons a xs ih =>
    obtain ⟨b, ys, rfl, hhead, htail⟩ := List.map_eq_cons_iff.1 h
    exact .cons (hR a List.mem_cons_self b List.mem_cons_self hhead)
      (ih htail fun a' ha' b' hb' ↦ hR a' (List.mem_cons_of_mem a ha') b' (List.mem_cons_of_mem b hb'))

/-- What the members of lists in step that pass a test come to, where each comes to the same up to
order. -/
theorem perm_flatMap_filter {R : α → α → Prop} (h : List.Forall₂ R xs ys) {p : α → Bool}
    (hp : ∀ a b, R a b → p b = p a) {f : α → List β} (hf : ∀ a b, R a b → (f b).Perm (f a)) :
    ((ys.filter p).flatMap f).Perm ((xs.filter p).flatMap f) := by
  induction h with
  | nil => exact .refl _
  | @cons a b _ _ hab _ ih =>
    rw [List.filter_cons, List.filter_cons, hp a b hab]
    split
    · rw [List.flatMap_cons, List.flatMap_cons]
      exact (hf a b hab).append ih
    · exact ih

end InStep

namespace Expansion

variable (rules : Rules) (seeds seeds' : Rosters)

/-! ### Two walks -/

/-- Two walks are in step at a hop. -/
structure InStep (s : Nat) : Prop where
  /-- They have met the same nodes. -/
  met : ∀ t, (metAt rules seeds' s t).Perm (metAt rules seeds s t)
  /-- They go on from the same nodes. -/
  front : ∀ t, (frontAt rules seeds' s t).ids.Perm (frontAt rules seeds s t).ids

/-- Two tasks differ in the order of nodes. -/
structure Task.Alike (task task' : Task) : Prop where
  type : task'.type = task.type
  topology : task'.topology = task.topology
  ids : task'.front.ids.Perm task.front.ids

variable {rules seeds seeds'} {s : Nat}

/-- **What is picked does not depend on the order of nodes.** -/
theorem Task.Alike.records {task task' : Task} (h : task.Alike task') (hop : Nat) (withEdge : Bool) :
    (task'.records rules hop withEdge).Perm (task.records rules hop withEdge) := by
  rw [Task.records, Task.records, h.type, h.topology]
  exact h.ids.flatMap_right _

theorem Task.Alike.targetsOf_picks {task task' : Task} (h : task.Alike task') (hop : Nat) :
    (targetsOf (task'.picks rules hop)).Perm (targetsOf (task.picks rules hop)) := by
  rw [← Task.map_target_records rules hop false, ← Task.map_target_records rules hop false]
  exact (h.records hop false).map _

/-- The tasks of a hop are determined by their edge types. -/
theorem InStep.alike (h : InStep rules seeds seeds' s) {task task' : Task}
    (htask : task ∈ tasksAt rules seeds s) (htask' : task' ∈ tasksAt rules seeds' s)
    (htype : task'.type = task.type) : task.Alike task' := by
  obtain ⟨hfront, -, htop, -⟩ := (mem_tasksAt_iff rules seeds).1 htask
  obtain ⟨hfront', -, htop', -⟩ := (mem_tasksAt_iff rules seeds').1 htask'
  rw [htype] at hfront' htop'
  refine ⟨htype, Except.ok.inj (htop'.symm.trans htop), ?_⟩
  rw [hfront, hfront']
  exact h.front _

/-- An edge type is followed in both walks or in neither. -/
theorem InStep.exists_task_iff (h : InStep rules seeds seeds' s) (e : EdgeType) :
    (∃ task ∈ tasksAt rules seeds' s, task.type = e) ↔
      ∃ task ∈ tasksAt rules seeds s, task.type = e := by
  have hids (t : NodeType) : (frontAt rules seeds' s t).ids ≠ [] ↔
      (frontAt rules seeds s t).ids ≠ [] := by
    rw [ne_eq, ne_eq, ← List.length_eq_zero_iff, ← List.length_eq_zero_iff, (h.front t).length_eq]
  rw [Expansion.exists_task_iff, Expansion.exists_task_iff, hids]

theorem InStep.types (h : InStep rules seeds seeds' s) :
    (tasksAt rules seeds' s).map (·.type) = (tasksAt rules seeds s).map (·.type) := by
  refine SortedMap.eq_of_ascending id (tasksAt_types_ascending rules seeds' s)
    (tasksAt_types_ascending rules seeds s) fun e ↦ ?_
  rw [List.mem_map, List.mem_map]
  exact h.exists_task_iff e

/-- **The tasks of a hop come in the same order**, and differ in the order of their nodes. -/
theorem InStep.tasks (h : InStep rules seeds seeds' s) :
    List.Forall₂ Task.Alike (tasksAt rules seeds s) (tasksAt rules seeds' s) :=
  forall₂_of_map_eq h.types fun _ htask _ htask' htype ↦ h.alike htask htask' htype

theorem InStep.metBy (h : InStep rules seeds seeds' s) (t : NodeType) :
    (metBy rules s t (tasksAt rules seeds' s)).Perm (metBy rules s t (tasksAt rules seeds s)) :=
  perm_flatMap_filter h.tasks (fun _ _ halike ↦ by rw [halike.type])
    fun _ _ halike ↦ halike.targetsOf_picks s

/-- **Walks in step stay in step.** -/
theorem InStep.succ (h : InStep rules seeds seeds' s) : InStep rules seeds seeds' (s + 1) := by
  have hmem (t : NodeType) (id : Id) :
      id ∈ metAt rules seeds' (s + 1) t ↔ id ∈ metAt rules seeds (s + 1) t := by
    rw [mem_metAt_succ, mem_metAt_succ, (h.met t).mem_iff, (h.metBy t).mem_iff]
  refine ⟨fun t ↦ ?_, fun t ↦ ?_⟩
  · exact (List.perm_ext_iff_of_nodup (metAt_nodup ..) (metAt_nodup ..)).2 (hmem t)
  · have hnodup (seeds : Rosters) : (frontAt rules seeds (s + 1) t).ids.Nodup :=
      (metAt_nodup rules seeds (s + 1) t).sublist (List.drop_sublist _ _)
    refine (List.perm_ext_iff_of_nodup (hnodup seeds') (hnodup seeds)).2 fun id ↦ ?_
    rw [mem_frontAt_succ_iff, mem_frontAt_succ_iff, hmem, (h.met t).mem_iff]

/-- **Walks from the same seeds are in step at every hop.** -/
theorem inStep_of_seeds
    (h : ∀ t id, id ∈ (seeds'.roster t).ids.toList ↔ id ∈ (seeds.roster t).ids.toList) (s : Nat) :
    InStep rules seeds seeds' s := by
  induction s with
  | zero =>
    have hperm (t : NodeType) : (metAt rules seeds' 0 t).Perm (metAt rules seeds 0 t) :=
      (List.perm_ext_iff_of_nodup (metAt_nodup ..) (metAt_nodup ..)).2 (h t)
    exact ⟨hperm, hperm⟩
  | succ s ih => exact ih.succ

/-! ### What is presented -/

section Present

variable (h : ∀ s, InStep rules seeds seeds' s)
include h

theorem before_eq_of_inStep (s : Nat) (t : NodeType) :
    before rules seeds' s t = before rules seeds s t := by
  cases s with
  | zero => rfl
  | succ s => exact ((h s).met t).length_eq

theorem map_type_blocks_of_inStep (last : Nat) :
    (stage rules seeds' last).blocks.map (·.type) = (stage rules seeds last).blocks.map (·.type) := by
  induction last with
  | zero => rfl
  | succ last ih =>
    rw [blocks_stage_succ, blocks_stage_succ, List.map_append, List.map_append, ih, List.map_map,
      List.map_map]
    exact congrArg _ (h last).types

/-- The first block under a key is of the same edge type. -/
theorem origin_of_inStep (last : Nat) (layout : EdgeLayout) (withEdge : Bool) (key : EdgeType) :
    (((stage rules seeds' last).edges layout withEdge).get? key).map (·.origin) =
      (((stage rules seeds last).edges layout withEdge).get? key).map (·.origin) := by
  have horigin (x : Expansion) : ((x.edges layout withEdge).get? key).map (·.origin) =
      ((x.blocks.map (·.type)).filter (listedUnder layout · = key)).head? := by
    rw [get?_edges, Option.map_map, List.filter_map, List.head?_map]
    exact congrArg (Option.map · _) (funext fun block ↦ listing_origin ..)
  rw [horigin, horigin, map_type_blocks_of_inStep h]

variable (hops : Nat) (layout : EdgeLayout) (withEdge : Bool) (metadata metadata' : Metadata)

/-- What a hop recorded under a key, in one walk and in the other. -/
theorem records_of_inStep (key : EdgeType) (hop : Nat) :
    ∃ recorded recorded' : List Record, recorded'.Perm recorded ∧
      (((stage rules seeds hops).present layout withEdge hops metadata).slice layout key hop).map
        (((stage rules seeds hops).present layout withEdge hops metadata).recordIn? layout key) =
          recorded.map some ∧
      (((stage rules seeds' hops).present layout withEdge hops metadata').slice layout key hop).map
        (((stage rules seeds' hops).present layout withEdge hops metadata').recordIn? layout key) =
          recorded'.map some := by
  by_cases hhop : hop < hops
  · refine ⟨_, _, perm_flatMap_filter (h hop).tasks (fun _ _ halike ↦ by rw [halike.type])
      fun _ _ halike ↦ halike.records hop withEdge, slice_recordIn? (Nat.le_refl hops) hhop key,
      slice_recordIn? (Nat.le_refl hops) hhop key⟩
  · -- nothing is recorded after the last hop
    have hnone (seeds : Rosters) (metadata : Metadata) :
        ((stage rules seeds hops).present layout withEdge hops metadata).slice layout key hop = [] :=
      List.eq_nil_iff_forall_not_mem.2 fun _ hlink ↦
        hhop ((mem_slice_stage_iff (Nat.le_refl hops)).1 hlink).1
    exact ⟨[], [], .refl _, by rw [hnone]; rfl, by rw [hnone]; rfl⟩

theorem keys_rosters_of_inStep (hseeds : seeds.NoneEmpty) (hseeds' : seeds'.NoneEmpty) :
    (stage rules seeds' hops).rosters.keys = (stage rules seeds hops).rosters.keys := by
  have hmet (t : NodeType) : metAt rules seeds' hops t ≠ [] ↔ metAt rules seeds hops t ≠ [] := by
    rw [ne_eq, ne_eq, ← List.length_eq_zero_iff, ← List.length_eq_zero_iff,
      ((h hops).met t).length_eq]
  refine SortedMap.eq_of_ascending id (SortedMap.keys_ascending _)
    (SortedMap.keys_ascending _) fun t ↦ ?_
  rw [mem_keys_stage_iff rules hseeds', mem_keys_stage_iff rules hseeds, hmet]

theorem nodeCountsOf_of_inStep (t : NodeType) : (stage rules seeds' hops).nodeCountsOf hops t =
    (stage rules seeds hops).nodeCountsOf hops t := by
  rw [nodeCountsOf_stage, nodeCountsOf_stage]
  simp only [before_eq_of_inStep h]

/-- A key with an origin is listed, so the keys follow the origins. -/
theorem keys_edges_of_inStep : ((stage rules seeds' hops).edges layout withEdge).keys =
    ((stage rules seeds hops).edges layout withEdge).keys := by
  refine SortedMap.eq_of_ascending id (SortedMap.keys_ascending _)
    (SortedMap.keys_ascending _) fun key ↦ ?_
  have hlisted := congrArg Option.isSome (origin_of_inStep h hops layout withEdge key)
  rw [Option.isSome_map, Option.isSome_map] at hlisted
  rw [SortedMap.mem_keys_iff, SortedMap.mem_keys_iff, ← Option.isSome_iff_exists,
    ← Option.isSome_iff_exists, hlisted]

/-- As many links are counted at a hop as there are records of it. -/
theorem edgeCountsOf_of_inStep (key : EdgeType) :
    (stage rules seeds' hops).edgeCountsOf layout hops key =
      (stage rules seeds hops).edgeCountsOf layout hops key := by
  rw [edgeCountsOf_eq, edgeCountsOf_eq]
  refine List.map_congr_left fun hop _ ↦ ?_
  obtain ⟨recorded, recorded', hperm, hread, hread'⟩ :=
    records_of_inStep h hops layout false .node .node key hop
  have hlength := congrArg List.length hread
  have hlength' := congrArg List.length hread'
  rw [slice_present _ _ _ (inOrder_stage _ _ (Nat.le_refl hops)), List.length_map, List.length_map,
    List.length_map] at hlength hlength'
  rw [hlength, hlength', hperm.length_eq]

/-- **Walks in step are presented alike.** -/
theorem rearranged_of_inStep (hseeds : seeds.NoneEmpty) (hseeds' : seeds'.NoneEmpty) :
    SamplingOutput.Rearranged layout ((stage rules seeds hops).present layout withEdge hops metadata)
      ((stage rules seeds' hops).present layout withEdge hops metadata') := by
  have hkeys := keys_rosters_of_inStep h hops hseeds hseeds'
  have hedgeKeys := keys_edges_of_inStep h hops layout withEdge
  exact {
    nodeKeys := by
      show (SortedMap.mapEntries _ _).keys = (SortedMap.mapEntries _ _).keys
      rw [SortedMap.keys_mapEntries, SortedMap.keys_mapEntries, hkeys]
    nodeCounts := SortedMap.mapEntries_congr_keys hkeys fun t _ ↦ nodeCountsOf_of_inStep h hops t
    segments := by
      intro t step
      by_cases hstep : step ≤ hops
      · rw [segment_stage (Nat.le_refl hops) (.inl rfl) t hstep,
          segment_stage (Nat.le_refl hops) (.inl rfl) t hstep]
        exact (h step).front t
      · rw [segment_eq_nil (Nat.lt_of_not_le hstep), segment_eq_nil (Nat.lt_of_not_le hstep)]
    edgeKeys := hedgeKeys
    edgeCounts := SortedMap.mapEntries_congr_keys hedgeKeys fun key _ ↦
      edgeCountsOf_of_inStep h hops layout key
    origins := origin_of_inStep h hops layout withEdge
    records := records_of_inStep h hops layout withEdge metadata metadata' }

end Present

end Expansion

/-! ### Answers -/

namespace Sampler

variable {s : Sampler}

/-- The same seeds are met, whatever their order. -/
theorem mem_seeds_iff_of_sameSeeds {r r' : Request} (h : r.SameSeeds r') (seed : UInt64)
    (t : NodeType) (id : Id) : id ∈ ((s.seeds r' seed).roster t).ids.toList ↔
      id ∈ ((s.seeds r seed).roster t).ids.toList := by
  rw [mem_roster_seeds_iff, mem_roster_seeds_iff]
  cases h with
  | node htype hids =>
    rw [seedIds, seedIds, htype]
    split
    · exact hids id
    · rfl
  | edge htype hrows hcols hneg hneg' =>
    simp only [seedIds, htype, negativeIds_eq_nil hneg, negativeIds_eq_nil hneg', List.append_nil,
      List.mem_append]
    refine or_congr ?_ ?_
    · split
      · exact hrows id
      · rfl
    · split
      · exact hcols id
      · rfl

/-- **The order of seeds does not matter.** On a well-formed graph two accepted requests for the
same seeds, without negatives, are answered under one seed with outputs that differ in the order of
nodes and edges only. -/
theorem answer_rearranged (hg : s.graph.WellFormed) {r r' : Request} (hsame : r.SameSeeds r')
    (h : s.Accepts r) (h' : s.Accepts r') (seed : UInt64) :
    ∃ o o', (s.answer r seed).output = .ok o ∧ (s.answer r' seed).output = .ok o' ∧
      o.Rearranged s.config.layout o' := by
  obtain ⟨metadata, -, houtput⟩ := exists_output hg h seed
  obtain ⟨metadata', -, houtput'⟩ := exists_output hg h' seed
  have hstep : ∀ hop, Expansion.InStep (s.rules seed) (s.seeds r seed) (s.seeds r' seed) hop :=
    Expansion.inStep_of_seeds (mem_seeds_iff_of_sameSeeds hsame seed)
  exact ⟨_, _, houtput s.config.layout, houtput' s.config.layout,
    Expansion.rearranged_of_inStep hstep _ _ _ _ _ (noneEmpty_seeds r seed)
      (noneEmpty_seeds r' seed)⟩

/-- Two users and two items, in two pairs and in three. -/
def smallPairs : EdgeRequest where
  type := ⟨⟨"user"⟩, "sees", ⟨"item"⟩⟩
  rows := [0, 1]
  cols := [0, 1]

@[inherit_doc smallPairs]
def smallPairsAgain : EdgeRequest := { smallPairs with rows := [1, 0, 1], cols := [0, 0, 1] }

theorem smallPairs_sameSeeds : Request.SameSeeds (.edge smallPairs) (.edge smallPairsAgain) :=
  .edge rfl (by simp [smallPairs, smallPairsAgain, or_comm]) (by simp [smallPairs, smallPairsAgain]) rfl
    rfl

theorem smallPairs_accepts (layout : EdgeLayout) : (small layout).Accepts (.edge smallPairs) where
  lengths := rfl
  labels := nofun
  type := ⟨_, rfl⟩
  rows := (show (small layout).AcceptsPairs _ from small_accepts layout).rows
  cols := (show (small layout).AcceptsPairs _ from small_accepts layout).cols
  negatives := nofun

theorem smallPairsAgain_accepts (layout : EdgeLayout) :
    (small layout).Accepts (.edge smallPairsAgain) where
  lengths := rfl
  labels := nofun
  type := ⟨_, rfl⟩
  rows id hid := (show (small layout).AcceptsPairs _ from smallPairs_accepts layout).rows id <| by
    simp only [smallPairs, smallPairsAgain, List.mem_cons] at hid ⊢
    grind
  cols id hid := (show (small layout).AcceptsPairs _ from smallPairs_accepts layout).cols id <| by
    simp only [smallPairs, smallPairsAgain, List.mem_cons] at hid ⊢
    grind
  negatives := nofun

theorem answer_rearranged_small :
    Graph.small.WellFormed ∧ Request.SameSeeds (.edge smallPairs) (.edge smallPairsAgain) ∧
      (small .messagePassing).Accepts (.edge smallPairs) ∧
      (small .messagePassing).Accepts (.edge smallPairsAgain) ∧
      ∃ o o', ((small .messagePassing).answer (.edge smallPairs) 7).output = .ok o ∧
        ((small .messagePassing).answer (.edge smallPairsAgain) 7).output = .ok o' ∧
        o.Rearranged .messagePassing o' :=
  ⟨Graph.small_wellFormed, smallPairs_sameSeeds, smallPairs_accepts _, smallPairsAgain_accepts _,
    answer_rearranged (s := small .messagePassing) Graph.small_wellFormed smallPairs_sameSeeds
      (smallPairs_accepts _) (smallPairsAgain_accepts _) 7⟩

end Sampler

end HopSampler
