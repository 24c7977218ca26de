import HopSampler.Proofs.Listing
import HopSampler.Proofs.Stages

/-!
# The layers of a walk

The blocks of a stage belong to its hops (`mem_blocks_stage_iff`), and each step of a block at hop
`s` leads from a node that step `s` met first to a node that is met by step `s + 1` at the latest
(`exists_arc_of_mem_steps`). Conversely whatever step `s + 1` meets first is led to
(`exists_step_of_new`). The counts of a stage have `before` as their prefix sums
(`sum_take_nodeCountsAt`), so all of this can be read off the output (`inSegment_stage_iff`,
`mem_slice_stage_iff`).
-/

namespace HopSampler.Expansion

variable (rules : Rules) (seeds : Rosters)

/-! ### Blocks of a stage -/

/-- The blocks of a stage: one for each task of each of its hops. -/
theorem mem_blocks_stage_iff {last : Nat} {block : Block} :
    block ∈ (stage rules seeds last).blocks ↔ ∃ s < last, ∃ task ∈ tasksAt rules seeds s,
      block = task.block rules s (stage rules seeds (s + 1)).rosters := by
  induction last with
  | zero => simp [stage, ofSeeds]
  | succ last ih =>
    rw [blocks_stage_succ, List.mem_append, ih, List.mem_map]
    constructor
    · rintro (⟨s, hs, task, htask, rfl⟩ | ⟨task, htask, rfl⟩)
      · exact ⟨s, by omega, task, htask, rfl⟩
      · exact ⟨last, by omega, task, htask, rfl⟩
    · rintro ⟨s, hs, task, htask, rfl⟩
      rcases Nat.lt_succ_iff_lt_or_eq.1 hs with hs | rfl
      · exact .inl ⟨s, hs, task, htask, rfl⟩
      · exact .inr ⟨task, htask, rfl⟩

theorem inOrder_stage {last hops : Nat} (h : last ≤ hops) :
    (stage rules seeds last).InOrder hops := by
  constructor
  · clear h
    induction last with
    | zero => exact .nil
    | succ last ih =>
      rw [blocks_stage_succ, List.pairwise_append]
      refine ⟨ih, ?_, ?_⟩
      · rw [List.pairwise_map]
        exact List.pairwise_of_forall fun _ _ ↦ Nat.le_refl last
      · intro a ha b hb
        obtain ⟨s, hs, task, -, rfl⟩ := (mem_blocks_stage_iff rules seeds).1 ha
        obtain ⟨other, -, rfl⟩ := List.mem_map.1 hb
        exact Nat.le_of_lt hs
  · intro block hblock
    obtain ⟨s, hs, task, -, rfl⟩ := (mem_blocks_stage_iff rules seeds).1 hblock
    exact Nat.lt_of_lt_of_le hs h

/-! ### Steps and nodes -/

variable {rules seeds}

/-- What a task follows from a node is met by the end of the hop. -/
theorem target_mem_metAt {s : Nat} {task : Task} (htask : task ∈ tasksAt rules seeds s) {node : Id}
    (hnode : node ∈ task.front.ids) {arc : Arc}
    (harc : arc ∈ rules.picked s task.type task.topology node) :
    arc.target ∈ metAt rules seeds (s + 1) task.type.target := by
  refine (mem_metAt_succ rules seeds).2 (.inr (mem_metBy_iff.2 ⟨task, htask, rfl, ?_⟩))
  exact mem_targetsOf_iff.2 ⟨_, List.mem_map_of_mem hnode, arc, harc, rfl⟩

/-- What a task follows stands at its place from the end of the hop on. -/
theorem getElem?_target {s last : Nat} (hs : s < last) {task : Task}
    (htask : task ∈ tasksAt rules seeds s) {node : Id} (hnode : node ∈ task.front.ids) {arc : Arc}
    (harc : arc ∈ rules.picked s task.type task.topology node) :
    (metAt rules seeds last task.type.target)[
      ((stage rules seeds (s + 1)).rosters.roster task.type.target).placeOf arc.target]? =
      some arc.target := by
  have hthen : (metAt rules seeds (s + 1) task.type.target)[
      ((stage rules seeds (s + 1)).rosters.roster task.type.target).placeOf arc.target]? =
      some arc.target := Roster.getElem?_placeOf (target_mem_metAt htask hnode harc)
  exact getElem?_of_isPrefix (metAt_mono rules seeds hs task.type.target) hthen

/-- **A step leads along an arc**, from a node that was just met to a node that is then met. -/
theorem exists_arc_of_mem_steps {s : Nat} {task : Task} (htask : task ∈ tasksAt rules seeds s)
    {step : Step} (hstep : step ∈ (task.block rules s (stage rules seeds (s + 1)).rosters).steps) :
    ∃ node ∈ task.front.ids, ∃ arc, before rules seeds s task.type.source ≤ step.source ∧
      (metAt rules seeds s task.type.source)[step.source]? = some node ∧
      arc ∈ rules.picked s task.type task.topology node ∧
      (metAt rules seeds (s + 1) task.type.target)[step.target]? = some arc.target ∧
      step.edge = arc.edge := by
  obtain ⟨i, arcs, hi, arc, harc, rfl⟩ := mem_stepsAlong_iff.1 hstep
  rw [Task.picks, List.getElem?_map, Option.map_eq_some_iff] at hi
  obtain ⟨node, hnode, rfl⟩ := hi
  have hmem := List.mem_of_getElem? hnode
  have hfront := ((mem_tasksAt_iff rules seeds).1 htask).1
  have htarget := getElem?_target (Nat.lt_succ_self s) htask hmem harc
  rw [hfront, frontAt, List.getElem?_drop] at hnode
  refine ⟨node, hmem, arc, ?_, ?_, harc, htarget, rfl⟩
  · rw [hfront]
    exact Nat.le_add_right _ i
  · rw [stepAlong, hfront]
    exact hnode

/-- **Whatever a hop meets first is led to.** -/
theorem exists_step_of_new {s : Nat} {t : NodeType} {place : Nat} {id : Id}
    (hnew : before rules seeds (s + 1) t ≤ place)
    (hid : (metAt rules seeds (s + 1) t)[place]? = some id) :
    ∃ task ∈ tasksAt rules seeds s, task.type.target = t ∧
      ∃ step ∈ (task.block rules s (stage rules seeds (s + 1)).rosters).steps,
        step.target = place := by
  have hfresh : id ∉ metAt rules seeds s t := by
    intro hold
    obtain ⟨early, hearly⟩ := List.mem_iff_getElem?.1 hold
    have hlt : early < before rules seeds (s + 1) t := (List.getElem?_eq_some_iff.1 hearly).1
    -- an old node stands at its old place, and only there
    have hsame : (metAt rules seeds (s + 1) t)[early]? = some id :=
      getElem?_of_isPrefix (metAt_mono rules seeds (Nat.le_succ s) t) hearly
    have hplaces : early = place :=
      (Roster.placeOf_of_getElem? hsame).symm.trans (Roster.placeOf_of_getElem? hid)
    omega
  rcases (mem_metAt_succ rules seeds).1 (List.mem_of_getElem? hid) with hold | hmet
  · exact absurd hold hfresh
  · obtain ⟨task, htask, rfl, htarget⟩ := mem_metBy_iff.1 hmet
    obtain ⟨arcs, harcs, arc, harc, rfl⟩ := mem_targetsOf_iff.1 htarget
    obtain ⟨i, hi⟩ := List.mem_iff_getElem?.1 harcs
    exact ⟨task, htask, rfl, _, mem_stepsAlong_iff.2 ⟨i, arcs, hi, arc, harc, rfl⟩,
      Roster.placeOf_of_getElem? hid⟩

/-! ### Counts and segments -/

variable (rules seeds)

/-- Whatever was met before a step was met by one of the steps before it. -/
theorem exists_step_of_lt_before {n place : Nat} {t : NodeType}
    (h : place < before rules seeds n t) :
    ∃ s < n, before rules seeds s t ≤ place ∧ place < before rules seeds (s + 1) t := by
  induction n with
  | zero => exact absurd h (Nat.not_lt_zero _)
  | succ n ih =>
    by_cases hlate : before rules seeds n t ≤ place
    · exact ⟨n, Nat.lt_succ_self n, hlate, h⟩
    · obtain ⟨s, hs, hplace⟩ := ih (Nat.lt_of_not_le hlate)
      exact ⟨s, Nat.lt_succ_of_lt hs, hplace⟩

/-- Marks never go down, so each difference of marks is what a step added. -/
def MarksAscend (x : Expansion) : Prop :=
  ∀ i a b, x.marks[i]? = some a → x.marks[i + 1]? = some b → ∀ t, a.getD t 0 ≤ b.getD t 0

theorem getElem?_marks_stage {last i : Nat} (hi : i ≤ last) :
    (stage rules seeds last).marks[i]? = some (stage rules seeds i).rosters.sizes := by
  rw [marks_stage, List.getElem?_map, List.getElem?_range (by omega), Option.map_some]

theorem marksAscend_stage (last : Nat) : (stage rules seeds last).MarksAscend := by
  intro i a b ha hb t
  have hi : i + 1 < (stage rules seeds last).marks.length :=
    (List.getElem?_eq_some_iff.1 hb).1
  rw [marks_stage, List.length_map, List.length_range] at hi
  rw [getElem?_marks_stage rules seeds (by omega), Option.some.injEq] at ha hb
  rw [← ha, ← hb, Rosters.getD_sizes, Rosters.getD_sizes]
  exact (prefix_stage rules seeds (Nat.le_succ i)).size_le t

/-- The count of a step is the difference of what was met before the next step and before it. After
the last hop nothing more is met. -/
theorem nodeCountsOf_stage (last hops : Nat) (t : NodeType) :
    (stage rules seeds last).nodeCountsOf hops t = (List.range (hops + 1)).map fun s ↦
      before rules seeds (min (s + 1) (last + 1)) t - before rules seeds (min s (last + 1)) t := by
  have hsize : ∀ i, (stage rules seeds i).rosters.sizes.getD t 0 = before rules seeds (i + 1) t := by
    intro i
    rw [Rosters.getD_sizes, ← Roster.length_ids]
    rfl
  refine List.map_congr_left fun s _ ↦ ?_
  by_cases hs : s ≤ last
  · simp only [getElem?_marks_stage rules seeds hs, hsize]
    rw [Nat.min_eq_left (by omega), Nat.min_eq_left (by omega)]
    cases s with
    | zero => rfl
    | succ s =>
      simp only [Nat.add_sub_cancel, getElem?_marks_stage rules seeds (show s ≤ last by omega)]
      simp [hsize]
  · have hnone : (stage rules seeds last).marks[s]? = none := by
      rw [List.getElem?_eq_none_iff, marks_stage, List.length_map, List.length_range]
      omega
    simp only [hnone]
    rw [Nat.min_eq_right (by omega), Nat.min_eq_right (by omega), Nat.sub_self]

/-- Differences add up to the whole. -/
theorem sum_take_differences {f : Nat → Nat} (hf : ∀ {i j}, i ≤ j → f i ≤ f j) {n k : Nat}
    (hk : k ≤ n) : (((List.range n).map fun s ↦ f (s + 1) - f s).take k).sum = f k - f 0 := by
  induction k with
  | zero => simp
  | succ k ih =>
    have hlast : ((List.range n).map fun s ↦ f (s + 1) - f s)[k]? = some (f (k + 1) - f k) := by
      rw [List.getElem?_map, List.getElem?_range (by omega), Option.map_some]
    have hfirst : f 0 ≤ f k := hf (Nat.zero_le k)
    have hnext : f k ≤ f (k + 1) := hf (Nat.le_succ k)
    rw [List.take_add_one, hlast, List.sum_append, ih (by omega), Option.toList_some,
      List.sum_singleton]
    omega

theorem sum_take_nodeCountsOf {last hops k : Nat} (hk : k ≤ hops + 1) (t : NodeType) :
    (((stage rules seeds last).nodeCountsOf hops t).take k).sum =
      before rules seeds (min k (last + 1)) t := by
  have hmono : ∀ {i j : Nat}, i ≤ j → before rules seeds (min i (last + 1)) t ≤
      before rules seeds (min j (last + 1)) t :=
    fun hij ↦ before_mono rules seeds (by omega) t
  rw [nodeCountsOf_stage,
    sum_take_differences (f := fun i ↦ before rules seeds (min i (last + 1)) t) hmono hk]
  rfl

/-! ### Read off the output -/

section Present

variable {rules seeds}
variable {last hops : Nat} (hlast : last ≤ hops) {layout : EdgeLayout} {withEdge : Bool}
  {metadata : Metadata}

theorem nodesOf_stage (t : NodeType) :
    ((stage rules seeds last).present layout withEdge hops metadata).nodesOf t =
      metAt rules seeds last t :=
  nodesOf_present ..

include hlast

/-- **What the counts of a type add up to**: the nodes met before a step, and all of them from the
last hop that was taken on. -/
theorem sum_take_nodeCountsAt (k : Nat) (t : NodeType) :
    ((((stage rules seeds last).present layout withEdge hops metadata).nodeCountsAt t).take k).sum =
      before rules seeds (min k (last + 1)) t := by
  rcases hroster : (stage rules seeds last).rosters.get? t with - | roster
  · -- nobody of the type was met
    have hnone : metAt rules seeds last t = [] := by
      rw [metAt, Rosters.roster, SortedMap.getD, hroster]
      rfl
    have hzero : before rules seeds (last + 1) t = 0 := List.length_eq_zero_iff.2 hnone
    have hle := before_mono rules seeds (Nat.min_le_right k (last + 1)) t
    rw [nodeCountsAt_present_of_none _ _ _ _ _ hroster, List.take_nil, List.sum_nil]
    omega
  · rw [nodeCountsAt_present _ _ _ _ _ hroster]
    by_cases hk : k ≤ hops + 1
    · exact sum_take_nodeCountsOf rules seeds hk t
    · have hwhole : (((stage rules seeds last).nodeCountsOf hops t).take (hops + 1)).sum =
          before rules seeds (min (hops + 1) (last + 1)) t :=
        sum_take_nodeCountsOf rules seeds (Nat.le_refl (hops + 1)) t
      have hlength : ((stage rules seeds last).nodeCountsOf hops t).length = hops + 1 := by
        rw [nodeCountsOf, List.length_map, List.length_range]
      rw [List.take_of_length_le (by omega)] at hwhole ⊢
      rw [hwhole, Nat.min_eq_right (by omega), Nat.min_eq_right (by omega)]

/-- **A place is in the segment of the step that met its node.** -/
theorem inSegment_stage_iff {t : NodeType} {s place : Nat} :
    ((stage rules seeds last).present layout withEdge hops metadata).InSegment t s place ↔
      s ≤ last ∧ before rules seeds s t ≤ place ∧ place < before rules seeds (s + 1) t := by
  rw [SamplingOutput.InSegment, sum_take_nodeCountsAt hlast, sum_take_nodeCountsAt hlast]
  by_cases hs : s ≤ last
  · rw [Nat.min_eq_left (by omega), Nat.min_eq_left (by omega)]
    exact ⟨fun h ↦ ⟨hs, h⟩, fun h ↦ h.2⟩
  · rw [Nat.min_eq_right (by omega), Nat.min_eq_right (by omega)]
    omega

/-- **A slice holds the steps of its hop**, task by task. -/
theorem mem_slice_stage_iff {key : EdgeType} {hop : Nat} {link : Link} :
    link ∈ ((stage rules seeds last).present layout withEdge hops metadata).slice layout key hop ↔
      hop < last ∧ ∃ task ∈ tasksAt rules seeds hop, listedUnder layout task.type = key ∧
        ∃ step ∈ (task.block rules hop (stage rules seeds (hop + 1)).rosters).steps,
          step.link withEdge = link := by
  rw [slice_present layout withEdge metadata (inOrder_stage rules seeds hlast), List.mem_map]
  simp only [mem_stepsAt_iff, mem_blocks_stage_iff]
  constructor
  · rintro ⟨step, ⟨_, ⟨s, hs, task, htask, rfl⟩, hkey, rfl, hstep⟩, rfl⟩
    exact ⟨hs, task, htask, hkey, step, hstep, rfl⟩
  · rintro ⟨hs, task, htask, hkey, step, hstep, rfl⟩
    exact ⟨step, ⟨_, ⟨hop, hs, task, htask, rfl⟩, hkey, rfl, hstep⟩, rfl⟩

/-- The links under a key are those of its slices. -/
theorem mem_linksOf_stage_iff {key : EdgeType} {link : Link} :
    link ∈ ((stage rules seeds last).present layout withEdge hops metadata).linksOf layout key ↔
      ∃ hop, link ∈
        ((stage rules seeds last).present layout withEdge hops metadata).slice layout key hop := by
  have horder := inOrder_stage rules seeds hlast
  simp only [linksOf_present, stepsUnder_eq horder, slice_present layout withEdge metadata horder,
    List.mem_map, List.mem_flatMap, List.mem_range]
  constructor
  · rintro ⟨step, ⟨hop, -, hstep⟩, rfl⟩
    exact ⟨hop, step, hstep, rfl⟩
  · rintro ⟨hop, step, hstep, rfl⟩
    obtain ⟨block, hblock, -, rfl, -⟩ := mem_stepsAt_iff.1 hstep
    exact ⟨step, ⟨block.hop, horder.2 block hblock, hstep⟩, rfl⟩

end Present

end HopSampler.Expansion
