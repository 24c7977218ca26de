import HopSampler.Sampling.Expansion

/-!
# Frontiers read off rosters

Rosters only grow, so the nodes met in a step are those past the mark where the step began. A walk
can therefore do without keeping its frontier, and the nodes on a frontier stand in a row, from the
mark on. Here is the walk in this form: the state is the expansion alone, and places are counted
instead of looked up. It is what the theory reasons about; the walk that is run comes to the same
expansions (`run_eq_expandFrom`).
-/

namespace HopSampler.Expansion

/-- The walk that has met only the seeds. -/
def ofSeeds (rosters : Rosters) : Expansion := ⟨rosters, [rosters.sizes], []⟩

/-! ### The frontier -/

/-- Nodes of one type to go on from: the place of the first, and their IDs. -/
structure Front where
  type : NodeType
  start : Nat
  ids : List Id

/-- What was met since the mark, by type. -/
def frontierSince (rosters : Rosters) (mark : SortedMap NodeType Nat) : List Front :=
  (rosters.entries.map fun (t, roster) ↦
    let start := mark.getD t 0
    (⟨t, start, roster.since start⟩ : Front)).filter (·.ids ≠ [])

/-- The nodes met in the last step. -/
def frontier (x : Expansion) : List Front :=
  frontierSince x.rosters ((x.marks.dropLast.getLast?).getD .empty)

/-! ### Following one edge type -/

/-- Follow the arcs of one node. -/
def followNode (source : Nat) (r : Roster) (arcs : List Arc) : List Step × Roster :=
  match arcs with
  | [] => ([], r)
  | arc :: rest =>
    let (target, r) := r.claim arc.target
    let (steps, r) := followNode source r rest
    (⟨source, target, arc.edge⟩ :: steps, r)

/-- Follow the arcs of consecutive nodes, the first of which is at place `start`. -/
def followNodes (start : Nat) (r : Roster) (picks : List (List Arc)) : List Step × Roster :=
  match picks with
  | [] => ([], r)
  | arcs :: rest =>
    let (steps, r) := followNode start r arcs
    let (more, r) := followNodes (start + 1) r rest
    (steps ++ more, r)

/-- Follow an edge type from consecutive nodes. -/
def follow (x : Expansion) (hop : Nat) (e : EdgeType) (start : Nat) (picks : List (List Arc)) :
    Expansion :=
  let (steps, roster) := followNodes start (x.rosters.roster e.target) picks
  { x with
    rosters := if steps = [] then x.rosters else x.rosters.insert e.target roster
    blocks := x.blocks ++ [⟨hop, e, steps⟩] }

/-! ### The walk -/

/-- Follow one edge type from the frontier, unless it has no budget. -/
def expandType (rules : Rules) (hop : Nat) (front : Front) (x : Expansion)
    (typed : EdgeType × Topology) : Except Error Expansion :=
  let (e, topology) := typed
  if rules.budgets.budget e hop = 0 then .ok x
  else (x.follow hop e front.start ·) <$> front.ids.mapM (rules.pick hop e topology)

/-- Follow every edge type that leaves the nodes of one type. -/
def expandFront (rules : Rules) (hop : Nat) (x : Expansion) (front : Front) :
    Except Error Expansion :=
  (rules.graph.edgeTypesFrom front.type).foldlM (expandType rules hop front) x

/-- One hop from the given frontier, and the mark after it. -/
def expandHop (rules : Rules) (hop : Nat) (x : Expansion) (frontier : List Front) :
    Except Error Expansion :=
  (fun x ↦ { x with marks := x.marks ++ [x.rosters.sizes] }) <$>
    frontier.foldlM (expandFront rules hop) x

/-- Go on for `remaining` hops from the given one. -/
def expandFrom (rules : Rules) (hop : Nat) (x : Expansion) : Nat → Except Error Expansion
  | 0 => .ok x
  | remaining + 1 =>
    match x.frontier with
    | [] => .ok x
    | front :: rest => do
      let x ← expandHop rules hop x (front :: rest)
      expandFrom rules (hop + 1) x remaining

end HopSampler.Expansion
