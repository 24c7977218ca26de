import HopSampler.Proofs.Frontiers
import HopSampler.Proofs.Rosters

/-!
# Following edges, in closed form

Following arcs meets their targets one by one and hands out a place at each. Since places never
change, the steps that come out can be read off the roster at the *end*: a step is an arc with its
target replaced by the target's place (`stepAlong`). What one edge type adds to a walk is then two
independent things, the targets met (`roster_follow`) and the steps listed (`blocks_follow`), and
neither mentions the order in which places were handed out.
-/

namespace HopSampler.Expansion

/-! ### Steps read off a roster -/

/-- The step along an arc, from a place to the place of its target. -/
def stepAlong (source : Nat) (r : Roster) (arc : Arc) : Step :=
  ⟨source, r.placeOf arc.target, arc.edge⟩

/-- The steps along the arcs of consecutive nodes, the first of which is at place `start`. -/
def stepsAlong (start : Nat) (r : Roster) : List (List Arc) → List Step
  | [] => []
  | arcs :: rest => arcs.map (stepAlong start r) ++ stepsAlong (start + 1) r rest

/-- The nodes that arcs lead to. -/
def targetsOf (picks : List (List Arc)) : List Id := picks.flatten.map (·.target)

theorem mem_targetsOf_iff {picks : List (List Arc)} {id : Id} :
    id ∈ targetsOf picks ↔ ∃ arcs ∈ picks, ∃ arc ∈ arcs, arc.target = id := by
  simp only [targetsOf, List.mem_map, List.mem_flatten]
  constructor
  · rintro ⟨arc, ⟨arcs, harcs, harc⟩, rfl⟩
    exact ⟨arcs, harcs, arc, harc, rfl⟩
  · rintro ⟨arcs, harcs, arc, harc, rfl⟩
    exact ⟨arc, ⟨arcs, harcs, harc⟩, rfl⟩

theorem targetsOf_cons (arcs : List Arc) (rest : List (List Arc)) :
    targetsOf (arcs :: rest) = arcs.map (·.target) ++ targetsOf rest := by
  simp [targetsOf]

/-- A step comes from the arc of a node, whose place is counted from the first. -/
theorem mem_stepsAlong_iff {start : Nat} {r : Roster} {picks : List (List Arc)} {step : Step} :
    step ∈ stepsAlong start r picks ↔
      ∃ (i : Nat) (arcs : List Arc), picks[i]? = some arcs ∧
        ∃ arc ∈ arcs, step = stepAlong (start + i) r arc := by
  induction picks generalizing start with
  | nil => simp [stepsAlong]
  | cons first rest ih =>
    rw [stepsAlong, List.mem_append, List.mem_map, ih]
    constructor
    · rintro (⟨arc, harc, rfl⟩ | ⟨i, arcs, hi, arc, harc, rfl⟩)
      · exact ⟨0, first, rfl, arc, harc, rfl⟩
      · exact ⟨i + 1, arcs, by simpa using hi, arc, harc, by rw [Nat.add_assoc, Nat.add_comm 1]⟩
    · rintro ⟨i, arcs, hi, arc, harc, rfl⟩
      cases i with
      | zero =>
        obtain rfl : first = arcs := by simpa using hi
        exact .inl ⟨arc, harc, rfl⟩
      | succ i =>
        exact .inr ⟨i, arcs, by simpa using hi, arc, harc, by rw [Nat.add_assoc, Nat.add_comm 1]⟩

theorem length_stepsAlong (start : Nat) (r : Roster) (picks : List (List Arc)) :
    (stepsAlong start r picks).length = (targetsOf picks).length := by
  induction picks generalizing start with
  | nil => rfl
  | cons arcs rest ih => simp [stepsAlong, targetsOf_cons, ih]

/-- Steps can be read off any later roster. -/
theorem stepsAlong_eq_of_isPrefix (start : Nat) {r s : Roster} {picks : List (List Arc)}
    (hmet : ∀ id ∈ targetsOf picks, id ∈ r.ids.toList) (hstarts : r.ids.toList <+: s.ids.toList) :
    stepsAlong start s picks = stepsAlong start r picks := by
  induction picks generalizing start with
  | nil => rfl
  | cons arcs rest ih =>
    simp only [targetsOf_cons, List.mem_append, List.mem_map] at hmet
    have hfirst : arcs.map (stepAlong start s) = arcs.map (stepAlong start r) := by
      refine List.map_congr_left fun arc harc ↦ ?_
      have harc : arc.target ∈ r.ids.toList := hmet _ (.inl ⟨arc, harc, rfl⟩)
      rw [stepAlong, stepAlong, Roster.placeOf_eq_of_isPrefix harc hstarts]
    rw [stepsAlong, stepsAlong, hfirst, ih (start + 1) fun id hid ↦ hmet id (.inr hid)]

theorem followNode_snd (source : Nat) (r : Roster) (arcs : List Arc) :
    (followNode source r arcs).2 = r.claimAll (arcs.map (·.target)) := by
  induction arcs generalizing r with
  | nil => rfl
  | cons arc arcs ih => exact ih (r.claim arc.target).2

theorem followNode_fst (source : Nat) (r : Roster) (arcs : List Arc) :
    (followNode source r arcs).1 =
      arcs.map (stepAlong source (r.claimAll (arcs.map (·.target)))) := by
  induction arcs generalizing r with
  | nil => rfl
  | cons arc arcs ih =>
    -- the place handed out first is still the target's place at the end
    have hplace : (r.claim arc.target).1 =
        ((r.claim arc.target).2.claimAll (arcs.map (·.target))).placeOf arc.target := by
      rw [Roster.claim_place]
      exact (Roster.placeOf_eq_of_isPrefix (Roster.mem_claim.2 (.inr rfl))
        (Roster.prefix_claimAll _ _)).symm
    rw [List.map_cons, List.map_cons, Roster.claimAll_cons, stepAlong, ← hplace, ← ih]
    rfl

theorem followNodes_snd (start : Nat) (r : Roster) (picks : List (List Arc)) :
    (followNodes start r picks).2 = r.claimAll (targetsOf picks) := by
  induction picks generalizing start r with
  | nil => rfl
  | cons arcs rest ih =>
    rw [targetsOf_cons, Roster.claimAll_append, ← followNode_snd start]
    exact ih (start + 1) _

theorem followNodes_fst (start : Nat) (r : Roster) (picks : List (List Arc)) :
    (followNodes start r picks).1 = stepsAlong start (r.claimAll (targetsOf picks)) picks := by
  induction picks generalizing start r with
  | nil => rfl
  | cons arcs rest ih =>
    have hfirst : (followNode start r arcs).1 =
        arcs.map (stepAlong start (r.claimAll (targetsOf (arcs :: rest)))) := by
      rw [followNode_fst, targetsOf_cons, Roster.claimAll_append]
      refine List.map_congr_left fun arc harc ↦ ?_
      have hmet : arc.target ∈ (r.claimAll (arcs.map (·.target))).ids.toList :=
        Roster.mem_claimAll.2 (.inr (List.mem_map_of_mem harc))
      rw [stepAlong, stepAlong, Roster.placeOf_eq_of_isPrefix hmet (Roster.prefix_claimAll _ _)]
    have hrest : (followNodes (start + 1) (followNode start r arcs).2 rest).1 =
        stepsAlong (start + 1) (r.claimAll (targetsOf (arcs :: rest))) rest := by
      rw [ih, followNode_snd, ← Roster.claimAll_append, ← targetsOf_cons]
    show (followNode start r arcs).1 ++ (followNodes (start + 1) (followNode start r arcs).2 rest).1 = _
    rw [hfirst, hrest, stepsAlong]

/-! ### Following an edge type -/

/-- Nobody is met exactly if no step is taken. -/
theorem followNodes_fst_eq_nil_iff {start : Nat} {r : Roster} {picks : List (List Arc)} :
    (followNodes start r picks).1 = [] ↔ targetsOf picks = [] := by
  rw [followNodes_fst, ← List.length_eq_zero_iff, length_stepsAlong, List.length_eq_zero_iff]

/-- The targets of an edge type that is followed are met. -/
theorem rosters_follow (x : Expansion) (hop : Nat) (e : EdgeType) (start : Nat)
    (picks : List (List Arc)) :
    (x.follow hop e start picks).rosters = x.rosters.claimAll e.target (targetsOf picks) := by
  show (if (followNodes start (x.rosters.roster e.target) picks).1 = [] then x.rosters
    else x.rosters.insert e.target (followNodes start (x.rosters.roster e.target) picks).2) = _
  simp only [followNodes_fst_eq_nil_iff, followNodes_snd]
  rfl

/-- The rosters after an edge type was followed: its targets are met, and nothing else. -/
theorem roster_follow (x : Expansion) (hop : Nat) (e : EdgeType) (start : Nat)
    (picks : List (List Arc)) (t : NodeType) :
    (x.follow hop e start picks).rosters.roster t =
      if e.target = t then (x.rosters.roster t).claimAll (targetsOf picks)
      else x.rosters.roster t := by
  rw [rosters_follow, Rosters.roster_claimAll]

/-- The steps that following an edge type lists, read off the rosters after it. -/
theorem blocks_follow (x : Expansion) (hop : Nat) (e : EdgeType) (start : Nat)
    (picks : List (List Arc)) :
    (x.follow hop e start picks).blocks =
      x.blocks ++ [⟨hop, e, stepsAlong start
        ((x.follow hop e start picks).rosters.roster e.target) picks⟩] := by
  rw [roster_follow, if_pos rfl, ← followNodes_fst]
  rfl

end HopSampler.Expansion
