import HopSampler.Proofs.Choosing
import HopSampler.Proofs.KeptFrontiers
import HopSampler.Proofs.Tasks
import Mathlib.Data.Nat.Init

/-!
# Stages of a walk

`stage rules seeds s` is the walk after `s` hops, none of which can fail. On a well-formed graph,
from seeds that are nodes of it, a run *is* one of its stages (`run_eq_stage`): the last one, or the
first whose frontier is empty. What holds of a run is therefore proved along the stages.

Stages only grow, so `before s t`, the number of nodes of type `t` met before step `s`, is fixed
once step `s` is reached, and it is all that the marks record (`marks_stage`) and all that a
frontier depends on (`mem_frontier_iff`).
-/

namespace HopSampler.Expansion

/-- The walk after one more hop. -/
def advance (rules : Rules) (hop : Nat) (x : Expansion) : Expansion :=
  let y := (tasks rules hop x.frontier).foldl (perform rules hop) x
  { y with marks := y.marks ++ [y.rosters.sizes] }

/-- The walk after a number of hops. -/
def stage (rules : Rules) (seeds : Rosters) : Nat → Expansion
  | 0 => ofSeeds seeds
  | s + 1 => advance rules s (stage rules seeds s)

/-- Every node in the rosters is a node of a graph. -/
def InRange (g : Graph) (rosters : Rosters) : Prop :=
  ∀ t, ∀ id ∈ (rosters.roster t).ids.toList, g.HasNode t id

section Stages

variable (rules : Rules) (seeds : Rosters)

/-- The nodes of a type met by the seeds and the first `s` hops. -/
def metAt (s : Nat) (t : NodeType) : List Id :=
  ((stage rules seeds s).rosters.roster t).ids.toList

/-- The number of nodes of a type met before a step: before hop `s - 1` for `s > 0`, and before the
seeds for `s = 0`. -/
def before (s : Nat) (t : NodeType) : Nat :=
  match s with
  | 0 => 0
  | s + 1 => (metAt rules seeds s t).length

/-- The tasks of a hop. -/
def tasksAt (s : Nat) : List Task := tasks rules s (stage rules seeds s).frontier

/-- The nodes of a type that a hop goes on from. -/
def frontAt (s : Nat) (t : NodeType) : Front :=
  ⟨t, before rules seeds s t, (metAt rules seeds s t).drop (before rules seeds s t)⟩

/-! ### From one stage to the next -/

theorem roster_stage_succ (s : Nat) (t : NodeType) :
    (stage rules seeds (s + 1)).rosters.roster t =
      ((stage rules seeds s).rosters.roster t).claimAll
        (metBy rules s t (tasksAt rules seeds s)) :=
  roster_foldl_perform rules s (stage rules seeds s) _ t

theorem blocks_stage_succ (s : Nat) :
    (stage rules seeds (s + 1)).blocks = (stage rules seeds s).blocks ++
      (tasksAt rules seeds s).map (Task.block rules s (stage rules seeds (s + 1)).rosters) :=
  blocks_foldl_perform rules s (stage rules seeds s) _

theorem marks_stage_succ (s : Nat) :
    (stage rules seeds (s + 1)).marks =
      (stage rules seeds s).marks ++ [(stage rules seeds (s + 1)).rosters.sizes] := by
  show ((tasksAt rules seeds s).foldl (perform rules s) (stage rules seeds s)).marks ++ _ = _
  rw [marks_foldl_perform]
  rfl

/-- **The marks are the sizes at each stage.** -/
theorem marks_stage (s : Nat) :
    (stage rules seeds s).marks =
      (List.range (s + 1)).map fun i ↦ (stage rules seeds i).rosters.sizes := by
  induction s with
  | zero => rfl
  | succ s ih => rw [marks_stage_succ, ih, List.range_succ (n := s + 1), List.map_append]; rfl

/-- **A stage depends on what its hops pick, and on nothing else that a walk goes by.** -/
theorem stage_congr {rules' : Rules} (hgraph : rules'.graph = rules.graph) {hops : Nat}
    (hbudget : ∀ hop < hops, ∀ e,
      rules'.budgets.budget e hop = 0 ↔ rules.budgets.budget e hop = 0)
    (hpicked : ∀ hop < hops, ∀ e topology node, rules.graph.topology e = .ok topology →
      rules'.picked hop e topology node = rules.picked hop e topology node) {s : Nat}
    (hs : s ≤ hops) : stage rules' seeds s = stage rules seeds s := by
  induction s with
  | zero => rfl
  | succ s ih =>
    have htasks : tasks rules' s = tasks rules s := by
      funext frontier
      refine List.flatMap_congr fun front _ ↦ ?_
      rw [frontTasks, frontTasks, hgraph]
      exact congrArg _ (List.filter_congr fun typed _ ↦
        decide_eq_decide.2 (not_congr (hbudget s hs typed.1)))
    have hperform (x : Expansion) : ∀ task ∈ tasks rules s (stage rules seeds s).frontier,
        perform rules' s x task = perform rules s x task := by
      intro task htask
      obtain ⟨-, htop, -⟩ := mem_tasks_iff.1 htask
      have hpicks : task.picks rules' s = task.picks rules s :=
        List.map_congr_left fun node _ ↦ hpicked s hs task.type task.topology node htop
      rw [perform, hpicks, perform]
    have hfold : (tasks rules s (stage rules seeds s).frontier).foldl (perform rules' s)
        (stage rules seeds s) =
        (tasks rules s (stage rules seeds s).frontier).foldl (perform rules s)
          (stage rules seeds s) := List.foldl_ext _ _ _ hperform
    rw [stage, ih (Nat.le_of_lt hs), advance, htasks, hfold]
    rfl

/-! ### Stages only grow -/

theorem prefix_stage {i j : Nat} (h : i ≤ j) :
    (stage rules seeds i).rosters.Prefix (stage rules seeds j).rosters := by
  induction j, h using Nat.le_induction with
  | base => exact Rosters.Prefix.refl _
  | succ j _ ih => exact ih.trans (prefix_foldl_perform rules j _ _)

theorem metAt_mono {i j : Nat} (h : i ≤ j) (t : NodeType) :
    metAt rules seeds i t <+: metAt rules seeds j t :=
  prefix_stage rules seeds h t

theorem metAt_nodup (s : Nat) (t : NodeType) : (metAt rules seeds s t).Nodup :=
  Roster.ids_nodup _

theorem before_mono {i j : Nat} (h : i ≤ j) (t : NodeType) :
    before rules seeds i t ≤ before rules seeds j t := by
  cases i with
  | zero => exact Nat.zero_le _
  | succ i =>
    cases j with
    | zero => omega
    | succ j => exact (metAt_mono rules seeds (Nat.le_of_succ_le_succ h) t).length_le

/-- A node is met by the next hop if it was met before or if a task leads to it. -/
theorem mem_metAt_succ {s : Nat} {t : NodeType} {id : Id} :
    id ∈ metAt rules seeds (s + 1) t ↔
      id ∈ metAt rules seeds s t ∨ id ∈ metBy rules s t (tasksAt rules seeds s) := by
  rw [metAt, roster_stage_succ, Roster.mem_claimAll]
  rfl

/-! ### Frontiers -/

/-- The last mark of a stage but one counts what was met before its last step. -/
theorem getD_mark (s : Nat) (t : NodeType) :
    (((stage rules seeds s).marks.dropLast.getLast?).getD .empty).getD t 0 =
      before rules seeds s t := by
  cases s with
  | zero => rfl
  | succ s =>
    rw [marks_stage_succ, List.dropLast_concat, marks_stage, List.range_succ, List.map_append,
      List.map_singleton, List.getLast?_concat, Option.getD_some, Rosters.getD_sizes,
      ← Roster.length_ids]
    rfl

/-- The frontier lists the fronts that are not empty, in type order. -/
theorem frontier_stage (s : Nat) :
    (stage rules seeds s).frontier =
      ((stage rules seeds s).rosters.keys.map (frontAt rules seeds s)).filter (·.ids ≠ []) := by
  rw [frontier, frontierSince, SortedMap.keys, List.map_map]
  refine congrArg _ (List.map_congr_left fun entry hentry ↦ ?_)
  have hroster : (stage rules seeds s).rosters.roster entry.1 = entry.2 :=
    SortedMap.getD_of_get? (SortedMap.get?_eq_some_iff.2 hentry) _
  simp only [getD_mark, Function.comp, frontAt, metAt, Roster.since, hroster]

/-- **A hop goes on from what the step before it met, type by type.** -/
theorem mem_frontier_iff {s : Nat} {front : Front} :
    front ∈ (stage rules seeds s).frontier ↔
      front = frontAt rules seeds s front.type ∧ front.ids ≠ [] := by
  simp only [frontier_stage, List.mem_filter, List.mem_map, decide_eq_true_eq]
  constructor
  · rintro ⟨⟨t, -, rfl⟩, hids⟩
    exact ⟨rfl, hids⟩
  · rintro ⟨hfront, hids⟩
    refine ⟨⟨front.type, ?_, hfront.symm⟩, hids⟩
    -- a type with a node has a roster
    by_contra hkey
    have hnone : (stage rules seeds s).rosters.get? front.type = none := by
      rw [Option.eq_none_iff_forall_ne_some]
      exact fun roster hroster ↦ hkey (SortedMap.mem_keys_iff.2 ⟨roster, hroster⟩)
    have hmet : metAt rules seeds s front.type = [] := by
      rw [metAt, Rosters.roster, SortedMap.getD, hnone]
      rfl
    rw [hfront, frontAt, hmet, List.drop_nil] at hids
    exact hids rfl

theorem frontier_types_ascending (s : Nat) :
    ((stage rules seeds s).frontier.map (·.type)).Pairwise Tag.Before := by
  have hsub : ((stage rules seeds s).frontier.map (·.type)).Sublist
      (((stage rules seeds s).rosters.keys.map (frontAt rules seeds s)).map (·.type)) := by
    rw [frontier_stage]
    exact List.filter_sublist.map _
  have hkeys : (((stage rules seeds s).rosters.keys.map (frontAt rules seeds s)).map (·.type)) =
      (stage rules seeds s).rosters.keys := by
    rw [List.map_map]
    exact List.map_id _
  rw [hkeys] at hsub
  exact (stage rules seeds s).rosters.keys_ascending.sublist hsub

/-- **A hop follows edge types in their order**, and none of them twice. -/
theorem tasksAt_types_ascending (s : Nat) :
    ((tasksAt rules seeds s).map (·.type)).Pairwise Tag.Before :=
  tasks_types_ascending (frontier_types_ascending rules seeds s)

/-- **What the tasks of a hop are**: every edge type with a budget, from the nodes of its source
type that the step before met. -/
theorem mem_tasksAt_iff {s : Nat} {task : Task} :
    task ∈ tasksAt rules seeds s ↔
      task.front = frontAt rules seeds s task.type.source ∧ task.front.ids ≠ [] ∧
        rules.graph.topology task.type = .ok task.topology ∧
        rules.budgets.budget task.type s ≠ 0 := by
  rw [tasksAt, mem_tasks_iff, mem_frontier_iff]
  constructor
  · rintro ⟨⟨hfront, hids⟩, htop, hsource, hbudget⟩
    exact ⟨by rw [hsource]; exact hfront, hids, htop, hbudget⟩
  · rintro ⟨hfront, hids, htop, hbudget⟩
    have hsource : task.type.source = task.front.type := by rw [hfront]; rfl
    exact ⟨⟨by rw [← hsource]; exact hfront, hids⟩, htop, hsource, hbudget⟩

/-- An empty frontier has no front with a node. -/
theorem frontAt_of_frontier_nil {s : Nat} (h : (stage rules seeds s).frontier = []) (t : NodeType) :
    (frontAt rules seeds s t).ids = [] := by
  by_contra hids
  have hmem : frontAt rules seeds s t ∈ (stage rules seeds s).frontier :=
    (mem_frontier_iff rules seeds).2 ⟨rfl, hids⟩
  rw [h] at hmem
  exact List.not_mem_nil hmem

end Stages

/-! ### Runs are stages -/

/-- What a task follows is an arc of the node's row. -/
theorem mem_row_of_mem_picked {rules : Rules} {hop : Nat} {e : EdgeType} {topology : Topology}
    {node : Id} {row : Array Arc} (hrow : topology.neighbors? node = some row) {arc : Arc}
    (harc : arc ∈ rules.picked hop e topology node) : arc ∈ row := by
  rw [Rules.picked, hrow] at harc
  exact mem_of_mem_chooseArcs harc

section WellFormed

variable {rules : Rules} {seeds : Rosters} (hg : rules.graph.WellFormed)
include hg

/-- Nodes that a hop goes on from have a row under every edge type of the hop. -/
theorem exists_row_of_mem_tasksAt {s : Nat} {task : Task} (htask : task ∈ tasksAt rules seeds s)
    (hin : InRange rules.graph (stage rules seeds s).rosters) {node : Id}
    (hnode : node ∈ task.front.ids) : ∃ row, task.topology.neighbors? node = some row := by
  obtain ⟨hfront, -, htop, -⟩ := (mem_tasksAt_iff rules seeds).1 htask
  rw [hfront] at hnode
  exact (hg htop).exists_row (hin _ _ (List.mem_of_mem_drop hnode))

variable (hseeds : InRange rules.graph seeds)
include hseeds

/-- **Only nodes of the graph are met.** -/
theorem inRange_stage (s : Nat) : InRange rules.graph (stage rules seeds s).rosters := by
  induction s with
  | zero => exact hseeds
  | succ s ih =>
    intro t id hid
    rcases (mem_metAt_succ rules seeds).1 hid with hid | hid
    · exact ih t id hid
    · obtain ⟨task, htask, rfl, htarget⟩ := mem_metBy_iff.1 hid
      obtain ⟨arcs, harcs, arc, harc, rfl⟩ := mem_targetsOf_iff.1 htarget
      obtain ⟨node, hnode, rfl⟩ := List.mem_map.1 harcs
      obtain ⟨row, hrow⟩ := exists_row_of_mem_tasksAt hg htask ih hnode
      obtain ⟨-, -, htop, -⟩ := (mem_tasksAt_iff rules seeds).1 htask
      exact (hg htop).hasNode_target hrow (mem_row_of_mem_picked hrow harc)

/-- A hop leads from one stage to the next. -/
theorem expandHop_stage (s : Nat) :
    expandHop rules s (stage rules seeds s) (stage rules seeds s).frontier =
      .ok (stage rules seeds (s + 1)) := by
  have hnodes : ∀ front ∈ (stage rules seeds s).frontier, ∀ id ∈ front.ids,
      rules.graph.HasNode front.type id := by
    intro front hfront id hid
    obtain ⟨heq, -⟩ := (mem_frontier_iff rules seeds).1 hfront
    rw [heq] at hid
    exact inRange_stage hg hseeds s _ _ (List.mem_of_mem_drop hid)
  rw [expandHop, foldlM_expandFront hg _ hnodes]
  rfl

/-- From a stage on, the walk goes to a later stage. -/
theorem expandFrom_stage (s remaining : Nat) :
    ∃ last, s ≤ last ∧ last ≤ s + remaining ∧
      (last = s + remaining ∨ (stage rules seeds last).frontier = []) ∧
      expandFrom rules s (stage rules seeds s) remaining = .ok (stage rules seeds last) := by
  induction remaining generalizing s with
  | zero => exact ⟨s, Nat.le_refl s, Nat.le_refl s, .inl rfl, rfl⟩
  | succ remaining ih =>
    rcases hfront : (stage rules seeds s).frontier with - | ⟨front, rest⟩
    · refine ⟨s, Nat.le_refl s, Nat.le_add_right s _, .inr hfront, ?_⟩
      rw [expandFrom, hfront]
    · obtain ⟨last, hle, hlast, hstop, hrun⟩ := ih (s + 1)
      refine ⟨last, by omega, by omega, hstop.imp_left (by omega), ?_⟩
      have hhop := expandHop_stage hg hseeds s
      rw [hfront] at hhop
      rw [expandFrom, hfront]
      simp only [hhop]
      exact hrun

/-- **A run never fails, and is a stage**: the last one, or the first with nobody to go on from. -/
theorem run_eq_stage :
    ∃ last ≤ rules.budgets.numHops,
      (last = rules.budgets.numHops ∨ (stage rules seeds last).frontier = []) ∧
        run rules seeds = .ok (stage rules seeds last) := by
  obtain ⟨last, -, hle, hstop, hrun⟩ := expandFrom_stage hg hseeds 0 rules.budgets.numHops
  rw [Nat.zero_add] at hle hstop
  exact ⟨last, hle, hstop, (run_eq_expandFrom rules seeds).trans hrun⟩

end WellFormed

end HopSampler.Expansion
