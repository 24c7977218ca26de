import HopSampler.Proofs.Following
import HopSampler.Proofs.WellFormed

/-!
# One hop, task by task

A hop follows one edge type after another, each from the frontier nodes of its source type. Such a
pair of front and edge type is a *task*. On a well-formed graph no node is without a row, so no task
fails, and the hop is the fold of its tasks (`foldlM_expandFront`). What the fold adds is again
two independent lists: the targets met, task by task (`roster_foldl_perform`), and one block of
steps for each task, read off the rosters at the end of the hop (`blocks_foldl_perform`).
-/

namespace HopSampler.Expansion

/-! ### Picks that cannot fail -/

/-- The arcs followed from a node; none where it has no row. -/
def Rules.picked (rules : Rules) (hop : Nat) (e : EdgeType) (topology : Topology) (node : Id) :
    List Arc :=
  chooseArcs ((topology.neighbors? node).getD #[]) (rules.budgets.budget e hop) rules.replace
    (Random.stream rules.seed [hop.toUInt64, (rules.ordinal e).toUInt64, node])

theorem Rules.pick_eq_ok {rules : Rules} {hop : Nat} {e : EdgeType} {topology : Topology}
    {node : Id} {row : Array Arc} (hrow : topology.neighbors? node = some row) :
    rules.pick hop e topology node = .ok (rules.picked hop e topology node) := by
  rw [pick, picked, hrow]
  rfl

/-- Steps that all succeed make a list that succeeds. -/
theorem mapM_eq_ok {α β ε : Type} {f : α → Except ε β} {g : α → β} {xs : List α}
    (h : ∀ a ∈ xs, f a = .ok (g a)) : xs.mapM f = .ok (xs.map g) := by
  induction xs with
  | nil => rfl
  | cons a xs ih =>
    rw [List.mapM_cons, h a List.mem_cons_self, ih fun b hb ↦ h b (List.mem_cons_of_mem a hb)]
    rfl

/-! ### Tasks -/

/-- An edge type to be followed from a front. -/
structure Task where
  front : Front
  type : EdgeType
  topology : Topology

namespace Task

/-- The arcs followed from each node of the front. -/
def picks (rules : Rules) (hop : Nat) (task : Task) : List (List Arc) :=
  task.front.ids.map (rules.picked hop task.type task.topology)

/-- The steps of a task, read off rosters. -/
def block (rules : Rules) (hop : Nat) (rosters : Rosters) (task : Task) : Block :=
  ⟨hop, task.type, stepsAlong task.front.start (rosters.roster task.type.target)
    (task.picks rules hop)⟩

end Task

/-- The edge types to be followed from a front: those that leave its type and have a budget. -/
def frontTasks (rules : Rules) (hop : Nat) (front : Front) : List Task :=
  ((rules.graph.edgeTypesFrom front.type).filter fun typed ↦
    rules.budgets.budget typed.1 hop ≠ 0).map fun typed ↦ ⟨front, typed.1, typed.2⟩

/-- The tasks of a hop, in order. -/
def tasks (rules : Rules) (hop : Nat) (frontier : List Front) : List Task :=
  frontier.flatMap (frontTasks rules hop)

/-- Follow the edge type of a task. -/
def perform (rules : Rules) (hop : Nat) (x : Expansion) (task : Task) : Expansion :=
  x.follow hop task.type task.front.start (task.picks rules hop)

/-- The nodes of a type that tasks meet. -/
def metBy (rules : Rules) (hop : Nat) (t : NodeType) (ts : List Task) : List Id :=
  (ts.filter (·.type.target = t)).flatMap fun task ↦ targetsOf (task.picks rules hop)

theorem mem_tasks_iff {rules : Rules} {hop : Nat} {frontier : List Front} {task : Task} :
    task ∈ tasks rules hop frontier ↔
      task.front ∈ frontier ∧ rules.graph.topology task.type = .ok task.topology ∧
        task.type.source = task.front.type ∧ rules.budgets.budget task.type hop ≠ 0 := by
  simp only [tasks, frontTasks, List.mem_flatMap, List.mem_map, List.mem_filter, Prod.exists,
    Graph.mem_edgeTypesFrom_iff, decide_eq_true_eq]
  constructor
  · rintro ⟨front, hfront, e, topology, ⟨⟨htop, hsource⟩, hbudget⟩, rfl⟩
    exact ⟨hfront, htop, hsource, hbudget⟩
  · rintro ⟨hfront, htop, hsource, hbudget⟩
    exact ⟨task.front, hfront, task.type, task.topology, ⟨⟨htop, hsource⟩, hbudget⟩, rfl⟩

theorem mem_metBy_iff {rules : Rules} {hop : Nat} {t : NodeType} {ts : List Task} {id : Id} :
    id ∈ metBy rules hop t ts ↔
      ∃ task ∈ ts, task.type.target = t ∧ id ∈ targetsOf (task.picks rules hop) := by
  simp only [metBy, List.mem_flatMap, List.mem_filter, decide_eq_true_eq, and_assoc]

/-- Edge types are in order of their source types first. -/
theorem before_of_source {e f : EdgeType} (h : Tag.Before e.source f.source) : Tag.Before e f := by
  have hname : e.source.name < f.source.name := by
    rcases List.cons_lt_cons_iff.1 h with hlt | ⟨-, hnil⟩
    · exact hlt
    · exact absurd hnil (List.lt_irrefl _)
  exact List.cons_lt_cons_iff.2 (.inl hname)

/-- Edge types are followed in their order, if fronts come in the order of their types. -/
theorem tasks_types_ascending {rules : Rules} {hop : Nat} {frontier : List Front}
    (h : (frontier.map (·.type)).Pairwise Tag.Before) :
    ((tasks rules hop frontier).map (·.type)).Pairwise Tag.Before := by
  induction frontier with
  | nil => exact .nil
  | cons front rest ih =>
    obtain ⟨hfirst, hrest⟩ := List.pairwise_cons.1 h
    rw [tasks, List.flatMap_cons, List.map_append, List.pairwise_append]
    refine ⟨?_, ih hrest, ?_⟩
    · -- edge types with one source are listed as the graph lists them
      rw [frontTasks, List.map_map, List.pairwise_map]
      exact rules.graph.topologies.ascending.sublist
        (List.filter_sublist.trans List.filter_sublist)
    · -- edge types of different fronts differ in their source
      intro e he f hf
      obtain ⟨task, htask, rfl⟩ := List.mem_map.1 he
      obtain ⟨other, hother, rfl⟩ := List.mem_map.1 hf
      have htask : task ∈ tasks rules hop [front] := by simpa [tasks] using htask
      obtain ⟨hfront, -, hsource, -⟩ := mem_tasks_iff.1 htask
      obtain ⟨hlater, -, hother, -⟩ := mem_tasks_iff.1 hother
      refine before_of_source ?_
      rw [hsource, hother, List.mem_singleton.1 hfront]
      exact hfirst _ (List.mem_map_of_mem hlater)

/-! ### A hop as the fold of its tasks -/

section WellFormed

variable {rules : Rules} {hop : Nat} (hg : rules.graph.WellFormed)
include hg

theorem expandType_eq_ok {front : Front} (x : Expansion) {e : EdgeType} {topology : Topology}
    (htop : rules.graph.topology e = .ok topology)
    (hnodes : ∀ id ∈ front.ids, rules.graph.HasNode e.source id) :
    expandType rules hop front x (e, topology) =
      .ok (if rules.budgets.budget e hop = 0 then x
        else perform rules hop x ⟨front, e, topology⟩) := by
  rw [expandType]
  split
  · rfl
  · have hpicks : front.ids.mapM (rules.pick hop e topology) =
        .ok (front.ids.map (rules.picked hop e topology)) := by
      refine mapM_eq_ok fun id hid ↦ ?_
      obtain ⟨row, hrow⟩ := (hg htop).exists_row (hnodes id hid)
      exact Rules.pick_eq_ok hrow
    rw [hpicks]
    rfl

theorem foldlM_expandType {front : Front} (x : Expansion)
    (hnodes : ∀ id ∈ front.ids, rules.graph.HasNode front.type id)
    {typed : List (EdgeType × Topology)}
    (h : ∀ a ∈ typed, rules.graph.topology a.1 = .ok a.2 ∧ a.1.source = front.type) :
    typed.foldlM (expandType rules hop front) x =
      .ok (((typed.filter fun a ↦ rules.budgets.budget a.1 hop ≠ 0).map
        fun a ↦ (⟨front, a.1, a.2⟩ : Task)).foldl (perform rules hop) x) := by
  induction typed generalizing x with
  | nil => rfl
  | cons a typed ih =>
    obtain ⟨htop, hsource⟩ := h a List.mem_cons_self
    rw [List.foldlM_cons, expandType_eq_ok hg x htop (hsource ▸ hnodes)]
    show typed.foldlM (expandType rules hop front) _ = _
    rw [ih _ fun b hb ↦ h b (List.mem_cons_of_mem a hb), List.filter_cons]
    by_cases hbudget : rules.budgets.budget a.1 hop = 0
    · simp [hbudget]
    · simp [hbudget]

theorem expandFront_eq_ok {front : Front} (x : Expansion)
    (hnodes : ∀ id ∈ front.ids, rules.graph.HasNode front.type id) :
    expandFront rules hop x front = .ok ((frontTasks rules hop front).foldl (perform rules hop) x) :=
  foldlM_expandType hg x hnodes fun _ ha ↦ Graph.mem_edgeTypesFrom_iff.1 ha

/-- **On a well-formed graph a hop is the fold of its tasks.** -/
theorem foldlM_expandFront (x : Expansion) {frontier : List Front}
    (hnodes : ∀ front ∈ frontier, ∀ id ∈ front.ids, rules.graph.HasNode front.type id) :
    frontier.foldlM (expandFront rules hop) x =
      .ok ((tasks rules hop frontier).foldl (perform rules hop) x) := by
  induction frontier generalizing x with
  | nil => rfl
  | cons front rest ih =>
    rw [List.foldlM_cons, expandFront_eq_ok hg x (hnodes front List.mem_cons_self), tasks,
      List.flatMap_cons, List.foldl_append]
    exact ih _ fun other hother ↦ hnodes other (List.mem_cons_of_mem front hother)

end WellFormed

/-! ### What the tasks of a hop add -/

variable (rules : Rules) (hop : Nat)

@[simp]
theorem marks_foldl_perform (x : Expansion) (ts : List Task) :
    (ts.foldl (perform rules hop) x).marks = x.marks := by
  induction ts generalizing x with
  | nil => rfl
  | cons task ts ih => exact ih _

/-- The rosters after tasks: what the tasks meet is met, task by task. -/
theorem roster_foldl_perform (x : Expansion) (ts : List Task) (t : NodeType) :
    (ts.foldl (perform rules hop) x).rosters.roster t =
      (x.rosters.roster t).claimAll (metBy rules hop t ts) := by
  induction ts generalizing x with
  | nil => rfl
  | cons task ts ih =>
    rw [List.foldl_cons, ih, perform, roster_follow, metBy, metBy, List.filter_cons]
    by_cases h : task.type.target = t
    · rw [if_pos h, if_pos (decide_eq_true h), List.flatMap_cons, Roster.claimAll_append]
    · rw [if_neg h, if_neg (by simpa using h)]

theorem prefix_foldl_perform (x : Expansion) (ts : List Task) :
    x.rosters.Prefix (ts.foldl (perform rules hop) x).rosters := by
  intro t
  rw [roster_foldl_perform]
  exact Roster.prefix_claimAll _ _

/-- **The blocks after tasks: one for each task, read off the rosters at the end.** -/
theorem blocks_foldl_perform (x : Expansion) (ts : List Task) :
    (ts.foldl (perform rules hop) x).blocks =
      x.blocks ++ ts.map (Task.block rules hop (ts.foldl (perform rules hop) x).rosters) := by
  induction ts generalizing x with
  | nil => simp
  | cons task ts ih =>
    set y := perform rules hop x task with hy
    have hmet : ∀ id ∈ targetsOf (task.picks rules hop),
        id ∈ (y.rosters.roster task.type.target).ids.toList := by
      intro id hid
      rw [hy, perform, roster_follow, if_pos rfl]
      exact Roster.mem_claimAll.2 (.inr hid)
    have hsteps := stepsAlong_eq_of_isPrefix task.front.start hmet
      (prefix_foldl_perform rules hop y ts task.type.target)
    rw [List.foldl_cons, ← hy, ih, List.map_cons, Task.block, hsteps, hy, perform, blocks_follow,
      List.append_assoc]
    rfl

end HopSampler.Expansion
