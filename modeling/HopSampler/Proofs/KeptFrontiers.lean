import HopSampler.Proofs.Checks
import HopSampler.Proofs.Following
import HopSampler.Proofs.WellFormed

/-!
# Kept frontiers

A walk keeps its frontier and looks places up. The step that matters is meeting one node: a node
that is new goes behind its roster and behind the frontier of its type, and any other node goes
nowhere. So **the kept frontier is what the rosters gained** since the hop began (`Gained.claim`),
and the nodes on it stand in a row, so that their places can be counted from the first.

Hence following from a kept frontier does what following from one that is read off does
(`follow_toExpansion`), hop by hop (`shows_expandHop`), and the walk that is run comes to the
expansion that the theory reasons about, or fails as it does (`run_eq_expandFrom`).
-/

namespace HopSampler

/-! ### What rosters gained -/

/-- The nodes that rosters gained over earlier ones, by type. -/
def Rosters.gained (rosters base : Rosters) : SortedMap NodeType (List Id) :=
  (rosters.mapEntries fun t roster ↦ roster.since (base.roster t).size).filter fun _ ids ↦ ids ≠ []

namespace Rosters

theorem entries_gained (r base : Rosters) :
    (r.gained base).entries =
      (r.entries.map fun entry ↦ (entry.1, entry.2.since (base.roster entry.1).size)).filter
        (·.2 ≠ []) := rfl

theorem get?_gained (r base : Rosters) (t : NodeType) :
    (r.gained base).get? t =
      if (r.roster t).since (base.roster t).size = [] then none
      else some ((r.roster t).since (base.roster t).size) := by
  refine Option.ext fun ids ↦ ?_
  rw [gained, SortedMap.get?_filter_eq_some_iff, SortedMap.get?_mapEntries, decide_eq_true_eq,
    Option.ite_none_left_eq_some]
  cases hroster : r.get? t with
  | none =>
    -- a type without a roster has gained nobody
    have hnone : r.roster t = .empty := by
      rw [roster, SortedMap.getD, hroster]
      rfl
    have hempty : Roster.empty.since (base.roster t).size = [] := List.drop_nil
    rw [hnone, hempty]
    exact ⟨fun h ↦ (Option.some_ne_none _ h.1.symm).elim, fun h ↦ absurd rfl h.1⟩
  | some found =>
    have hsome : r.roster t = found := SortedMap.getD_of_get? hroster _
    rw [hsome, Option.map_some, Option.some.injEq]
    exact ⟨fun h ↦ ⟨h.1 ▸ h.2, h.1⟩, fun h ↦ ⟨h.2, h.2 ▸ h.1⟩⟩

theorem getD_gained (r base : Rosters) (t : NodeType) :
    (r.gained base).getD t [] = (r.roster t).since (base.roster t).size := by
  rw [SortedMap.getD, get?_gained]
  split
  · next hnil => exact hnil.symm
  · rfl

/-- Only the rosters of types count. -/
theorem gained_congr {r s : Rosters} (base : Rosters) (h : ∀ t, r.roster t = s.roster t) :
    r.gained base = s.gained base := by
  refine SortedMap.ext_get? fun t ↦ ?_
  rw [get?_gained, get?_gained, h]

theorem gained_self (r : Rosters) : r.gained r = .empty := by
  refine SortedMap.ext_get? fun t ↦ ?_
  rw [get?_gained, if_pos, SortedMap.get?_empty]
  exact List.drop_eq_nil_of_le (Nat.le_of_eq (Roster.length_ids _))

end Rosters

namespace Walk

variable {w : Walk} {base : Rosters} {t : NodeType} {e : EdgeType}

/-- The frontier of a walk lists what its rosters gained over earlier ones. -/
structure Gained (w : Walk) (base : Rosters) : Prop where
  starts : base.Prefix w.rosters
  frontier_eq : w.frontier = w.rosters.gained base

/-- A new node is the last one gained. -/
theorem since_claim {r : Roster} {id : Id} (hnew : r.place? id = none) {start : Nat}
    (hstart : start ≤ r.size) : (r.claim id).2.since start = r.since start ++ [id] := by
  rw [Roster.since, (Roster.claim_of_place_none hnew).2, Array.toList_push]
  exact List.drop_append_of_le_length ((Roster.length_ids r).symm ▸ hstart)

theorem rosters_claim (w : Walk) (t : NodeType) (id : Id) :
    (w.claim t id).2.rosters = w.rosters.insert t ((w.rosters.roster t).claim id).2 := rfl

/-- **Meeting a node keeps the frontier in step with the rosters.** -/
theorem Gained.claim (h : w.Gained base) (t : NodeType) (id : Id) :
    (w.claim t id).2.Gained base := by
  set r := w.rosters.roster t with hr
  have hrosters := w.rosters_claim t id
  have hfrontier : (w.claim t id).2.frontier =
      if r.place? id = none then w.frontier.alter t [] (· ++ [id]) else w.frontier := rfl
  refine ⟨fun u ↦ ?_, ?_⟩
  · rw [hrosters, Rosters.roster_insert]
    split
    · next heq => exact (h.starts u).trans (heq ▸ r.prefix_claim id)
    · exact h.starts u
  · rw [hfrontier, hrosters, h.frontier_eq]
    split
    · next hnew =>
      have hsize : (base.roster t).size ≤ r.size := h.starts.size_le t
      refine SortedMap.ext_get? fun u ↦ ?_
      rw [SortedMap.alter, SortedMap.get?_insert, Rosters.getD_gained, Rosters.get?_gained,
        Rosters.get?_gained, Rosters.roster_insert, ← hr, ← since_claim hnew hsize]
      split
      · next heq =>
        subst heq
        rw [if_neg]
        rw [since_claim hnew hsize]
        exact List.append_ne_nil_of_right_ne_nil _ (List.cons_ne_nil id [])
      · rfl
    · next hold =>
      obtain ⟨place, hplace⟩ := Option.ne_none_iff_exists'.1 hold
      refine Rosters.gained_congr base fun u ↦ ?_
      rw [Rosters.roster_insert, Roster.claim_of_place hplace]
      split
      · next heq => rw [hr, heq]
      · rfl

/-! ### Meeting nodes one by one -/

/-- Meet a list of nodes. -/
def claimAll (w : Walk) (t : NodeType) (ids : List Id) : Walk :=
  ids.foldl (fun w id ↦ (w.claim t id).2) w

theorem claimAll_append (w : Walk) (t : NodeType) (ids more : List Id) :
    w.claimAll t (ids ++ more) = (w.claimAll t ids).claimAll t more := List.foldl_append

theorem rosters_claimAll (w : Walk) (t : NodeType) (ids : List Id) :
    (w.claimAll t ids).rosters = w.rosters.claimAll t ids := by
  induction ids generalizing w with
  | nil => exact (Rosters.claimAll_nil w.rosters t).symm
  | cons id ids ih =>
    rw [Rosters.claimAll_cons]
    exact ih (w.claim t id).2

theorem blocks_claimAll (w : Walk) (t : NodeType) (ids : List Id) :
    (w.claimAll t ids).blocks = w.blocks := by
  induction ids generalizing w with
  | nil => rfl
  | cons id ids ih => exact ih (w.claim t id).2

theorem marks_claimAll (w : Walk) (t : NodeType) (ids : List Id) :
    (w.claimAll t ids).marks = w.marks := by
  induction ids generalizing w with
  | nil => rfl
  | cons id ids ih => exact ih (w.claim t id).2

theorem Gained.claimAll (h : w.Gained base) (t : NodeType) (ids : List Id) :
    (w.claimAll t ids).Gained base := by
  induction ids generalizing w with
  | nil => exact h
  | cons id ids ih => exact ih (h.claim t id)

/-! ### Following from nodes in a row -/

theorem followNode_snd (w : Walk) (t : NodeType) (source : Nat) (arcs : List Arc) :
    (w.followNode t source arcs).2 = w.claimAll t (arcs.map (·.target)) := by
  induction arcs generalizing w with
  | nil => rfl
  | cons arc arcs ih => exact ih (w.claim t arc.target).2

theorem followNode_fst (w : Walk) (t : NodeType) (source : Nat) (arcs : List Arc) :
    (w.followNode t source arcs).1 =
      (Expansion.followNode source (w.rosters.roster t) arcs).1 := by
  induction arcs generalizing w with
  | nil => rfl
  | cons arc arcs ih =>
    have hroster : (w.claim t arc.target).2.rosters.roster t =
        ((w.rosters.roster t).claim arc.target).2 := by
      rw [rosters_claim, Rosters.roster_insert, if_pos rfl]
    have hrest := ih (w.claim t arc.target).2
    rw [hroster] at hrest
    exact congrArg (_ :: ·) hrest

/-- **The places of nodes in a row need not be looked up.** -/
theorem followNodes_zip {nodes : List Id} {picks : List (List Arc)} {start : Nat}
    (hlength : nodes.length = picks.length)
    (hnodes : nodes <+: (w.rosters.roster e.source).since start) :
    w.followNodes e (nodes.zip picks) =
      ((Expansion.followNodes start (w.rosters.roster e.target) picks).1,
        w.claimAll e.target (Expansion.targetsOf picks)) := by
  induction picks generalizing nodes start w with
  | nil =>
    rw [List.zip_nil_right]
    rfl
  | cons arcs picks ih =>
    obtain - | ⟨node, nodes⟩ := nodes
    · cases hlength
    obtain ⟨more, hmore⟩ := hnodes
    have hplace : (w.rosters.roster e.source).place? node = some start := by
      rw [Roster.place?_eq_some_iff, ← Nat.add_zero start, ← List.getElem?_drop]
      show ((w.rosters.roster e.source).since start)[0]? = some node
      rw [← hmore]
      rfl
    have hmet := w.rosters_claimAll e.target (arcs.map (·.target))
    have hrest : nodes <+:
        ((w.claimAll e.target (arcs.map (·.target))).rosters.roster e.source).since
          (start + 1) := by
      have hstarts := w.rosters.prefix_claimAll e.target (arcs.map (·.target)) e.source
      rw [hmet]
      refine List.IsPrefix.trans ⟨more, ?_⟩ (Roster.since_prefix hstarts (start + 1))
      exact (congrArg List.tail hmore).trans List.tail_drop
    have htarget : (w.claimAll e.target (arcs.map (·.target))).rosters.roster e.target =
        (w.rosters.roster e.target).claimAll (arcs.map (·.target)) := by
      rw [hmet, Rosters.roster_claimAll, if_pos rfl]
    have hlength : nodes.length = picks.length := Nat.succ.inj hlength
    rw [List.zip_cons_cons, followNodes, hplace]
    simp only [followNode_snd, followNode_fst, ih hlength hrest, htarget,
      ← Expansion.followNode_snd start, Expansion.targetsOf_cons, claimAll_append]
    rfl

theorem follow_zip {nodes : List Id} {picks : List (List Arc)} {start : Nat}
    (hlength : nodes.length = picks.length)
    (hnodes : nodes <+: (w.rosters.roster e.source).since start) (hop : Nat) :
    w.follow hop e (nodes.zip picks) =
      { w.claimAll e.target (Expansion.targetsOf picks) with
        blocks := w.blocks ++
          [⟨hop, e, (Expansion.followNodes start (w.rosters.roster e.target) picks).1⟩] } := by
  rw [Walk.follow, followNodes_zip hlength hnodes, ← blocks_claimAll w e.target]

/-- **Following from a kept frontier is following from one that is read off.** -/
theorem follow_toExpansion {nodes : List Id} {picks : List (List Arc)} {start : Nat}
    (hlength : nodes.length = picks.length)
    (hnodes : nodes <+: (w.rosters.roster e.source).since start) (hop : Nat) :
    (w.follow hop e (nodes.zip picks)).toExpansion = w.toExpansion.follow hop e start picks := by
  rw [follow_zip hlength hnodes]
  show (⟨(w.claimAll e.target (Expansion.targetsOf picks)).rosters,
    (w.claimAll e.target (Expansion.targetsOf picks)).marks, _⟩ : Expansion) = _
  rw [rosters_claimAll, marks_claimAll, ← w.toExpansion.rosters_follow hop e start picks]
  rfl

theorem Gained.follow (h : w.Gained base) {nodes : List Id} {picks : List (List Arc)} {start : Nat}
    (hlength : nodes.length = picks.length)
    (hnodes : nodes <+: (w.rosters.roster e.source).since start) (hop : Nat) :
    (w.follow hop e (nodes.zip picks)).Gained base := by
  rw [follow_zip hlength hnodes]
  have hgained := h.claimAll e.target (Expansion.targetsOf picks)
  exact ⟨hgained.starts, hgained.frontier_eq⟩

/-! ### Walks side by side -/

/-- A walk that is run and one whose frontiers are read off fail alike or come to one expansion, and
what is run then meets a condition. -/
structure Shows (p : Walk → Prop) (x : Except Error Walk) (y : Except Error Expansion) : Prop where
  same : (·.toExpansion) <$> x = y
  holds : ∀ w, x = .ok w → p w

section Shows

variable {p q : Walk → Prop} {x : Except Error Walk} {y : Except Error Expansion}

theorem Shows.ok (h : p w) : Shows p (.ok w) (.ok w.toExpansion) :=
  ⟨rfl, fun _ heq ↦ Except.ok.inj heq ▸ h⟩

theorem Shows.error (e : Error) : Shows p (.error e) (.error e) :=
  ⟨rfl, fun _ heq ↦ nomatch heq⟩

theorem Shows.bind {f : Walk → Except Error Walk} {g : Expansion → Except Error Expansion}
    (h : Shows p x y) (hstep : ∀ w, p w → Shows q (f w) (g w.toExpansion)) :
    Shows q (x >>= f) (y >>= g) := by
  obtain ⟨rfl, hp⟩ := h
  cases x with
  | error e => exact .error e
  | ok w => exact hstep w (hp w rfl)

theorem Shows.map {f : Walk → Walk} {g : Expansion → Expansion} (h : Shows p x y)
    (hstep : ∀ w, p w → (f w).toExpansion = g w.toExpansion ∧ q (f w)) :
    Shows q (f <$> x) (g <$> y) := by
  obtain ⟨rfl, hp⟩ := h
  cases x with
  | error e => exact .error e
  | ok w =>
    obtain ⟨hsame, hq⟩ := hstep w (hp w rfl)
    show Shows q (.ok (f w)) (.ok (g w.toExpansion))
    rw [← hsame]
    exact .ok hq

theorem shows_foldlM {α : Type} {f : Walk → α → Except Error Walk}
    {g : Expansion → α → Except Error Expansion} {as : List α}
    (hstep : ∀ a ∈ as, ∀ w, p w → Shows p (f w a) (g w.toExpansion a)) (hw : p w) :
    Shows p (as.foldlM f w) (as.foldlM g w.toExpansion) := by
  induction as generalizing w with
  | nil => exact .ok hw
  | cons a as ih =>
    rw [List.foldlM_cons, List.foldlM_cons]
    exact (hstep a List.mem_cons_self w hw).bind fun w hw ↦
      ih (fun b hb ↦ hstep b (List.mem_cons_of_mem a hb)) hw

end Shows

/-! ### One hop -/

open Expansion (Rules Front)

/-- A walk within a hop that began with given rosters and marks. -/
structure Hopping (base : Rosters) (marks : List (SortedMap NodeType Nat)) (w : Walk) : Prop where
  gained : w.Gained base
  marks_eq : w.marks = marks

/-- A front lists nodes in a row. -/
def InRow (base : Rosters) (front : Front) : Prop :=
  front.ids <+: (base.roster front.type).since front.start

variable {marks : List (SortedMap NodeType Nat)} {rules : Rules} {hop : Nat} {front : Front}

theorem shows_expandType (hrow : InRow base front) {typed : EdgeType × Topology}
    (hsource : typed.1.source = front.type) (hw : Hopping base marks w) :
    Shows (Hopping base marks) (expandType rules hop front.ids w typed)
      (Expansion.expandType rules hop front w.toExpansion typed) := by
  obtain ⟨e, topology⟩ := typed
  rw [expandType, Expansion.expandType]
  split
  · exact .ok hw
  · rcases hpicks : front.ids.mapM (rules.pick hop e topology) with err | picks
    · exact .error err
    · have hlength : front.ids.length = picks.length := (length_of_mapM_eq_ok hpicks).symm
      -- the nodes are in a row since the hop began, and rosters only grow
      have hnodes : front.ids <+: (w.rosters.roster e.source).since front.start := by
        rw [show e.source = front.type from hsource]
        exact hrow.trans (Roster.since_prefix (hw.gained.starts front.type) front.start)
      have hmarks : (w.follow hop e (front.ids.zip picks)).marks = marks := by
        rw [follow_zip hlength hnodes, ← hw.marks_eq]
        exact marks_claimAll w e.target _
      show Shows _ (.ok (w.follow hop e (front.ids.zip picks)))
        (.ok (w.toExpansion.follow hop e front.start picks))
      rw [← follow_toExpansion hlength hnodes]
      exact .ok ⟨hw.gained.follow hlength hnodes hop, hmarks⟩

theorem shows_expandNodes (hrow : InRow base front) (hw : Hopping base marks w) :
    Shows (Hopping base marks) (expandNodes rules hop w (front.type, front.ids))
      (Expansion.expandFront rules hop w.toExpansion front) :=
  shows_foldlM (fun _ htyped _ hv ↦
    shows_expandType hrow (Graph.mem_edgeTypesFrom_iff.1 htyped).2 hv) hw

/-! ### The walk -/

/-- A walk before a hop: its frontier lists what was gained over the rosters before the last step,
and its last marks are the sizes of these and of its own rosters. -/
structure Begins (base : Rosters) (w : Walk) : Prop where
  gained : w.Gained base
  mark_before : ∀ t, ((w.marks.dropLast.getLast?).getD .empty).getD t 0 = (base.roster t).size
  mark : w.marks.getLast? = some w.rosters.sizes

/-- Before the first hop the seeds are on the frontier. -/
theorem begins_ofSeeds (seeds : Rosters) : Begins .empty (ofSeeds seeds) where
  gained := ⟨fun _ ↦ List.nil_prefix, rfl⟩
  mark_before _ := rfl
  mark := rfl

/-- Seeds that are met one by one are all on the frontier. -/
theorem frontier_claimAll_ofSeeds (seeds : Rosters) (t : NodeType) (ids : List Id) :
    ((ofSeeds seeds).claimAll t ids).frontier = (ofSeeds (seeds.claimAll t ids)).frontier := by
  have hgained := (begins_ofSeeds seeds).gained.claimAll t ids
  rw [hgained.frontier_eq, (begins_ofSeeds (seeds.claimAll t ids)).gained.frontier_eq,
    rosters_claimAll]
  rfl

/-- The front of a frontier that is kept. -/
def frontOf (base : Rosters) (front : NodeType × List Id) : Front :=
  ⟨front.1, (base.roster front.1).size, front.2⟩

/-- The frontier that is kept, read off. -/
theorem Begins.frontier_eq (h : Begins base w) :
    w.toExpansion.frontier = w.frontier.entries.map (frontOf base) := by
  rw [Expansion.frontier, Expansion.frontierSince, h.gained.frontier_eq, Rosters.entries_gained,
    List.filter_map, List.filter_map, List.map_map]
  simp only [h.mark_before]
  rfl

theorem Begins.inRow (h : Begins base w) {front : NodeType × List Id}
    (hfront : front ∈ w.frontier.entries) : InRow w.rosters (frontOf base front) := by
  have hget := SortedMap.get?_eq_some_iff.2 hfront
  rw [h.gained.frontier_eq, Rosters.get?_gained, Option.ite_none_left_eq_some] at hget
  show front.2 <+: _
  rw [← Option.some.inj hget.2]
  exact List.prefix_refl _

/-- **A hop does the same from a kept frontier as from one that is read off.** -/
theorem shows_expandHop (h : Begins base w) :
    Shows (Begins w.rosters) (expandHop rules hop w)
      (Expansion.expandHop rules hop w.toExpansion w.toExpansion.frontier) := by
  have hstart : Hopping w.rosters w.marks { w with frontier := .empty } :=
    ⟨⟨Rosters.Prefix.refl w.rosters, (Rosters.gained_self w.rosters).symm⟩, rfl⟩
  have hfronts : Shows (Hopping w.rosters w.marks)
      (w.frontier.entries.foldlM (expandNodes rules hop) { w with frontier := .empty })
      (w.toExpansion.frontier.foldlM (Expansion.expandFront rules hop) w.toExpansion) := by
    rw [h.frontier_eq, List.foldlM_map]
    exact shows_foldlM (fun front hfront v hv ↦ shows_expandNodes (h.inRow hfront) hv) hstart
  refine hfronts.map fun v hv ↦ ⟨rfl, ⟨hv.gained.starts, hv.gained.frontier_eq⟩, fun t ↦ ?_, ?_⟩
  · rw [List.dropLast_concat, hv.marks_eq, h.mark, Option.getD_some, Rosters.getD_sizes]
  · exact List.getLast?_concat

theorem shows_expandFrom (h : Begins base w) (remaining : Nat) :
    Shows (fun _ ↦ True) (expandFrom rules hop w remaining)
      (Expansion.expandFrom rules hop w.toExpansion remaining) := by
  induction remaining generalizing hop w base with
  | zero => exact .ok trivial
  | succ remaining ih =>
    have hhop : Shows (Begins w.rosters) (expandHop rules hop w) _ := shows_expandHop h
    have hfrontier := h.frontier_eq
    rw [expandFrom, Expansion.expandFrom]
    split
    · next hnil =>
      rw [hnil, List.map_nil] at hfrontier
      rw [hfrontier]
      exact .ok trivial
    · next hne =>
      obtain ⟨front, rest, hcons⟩ := List.exists_cons_of_ne_nil hne
      rw [hcons, List.map_cons] at hfrontier
      rw [hfrontier] at hhop ⊢
      exact hhop.bind fun v hv ↦ ih hv

end Walk

/-- **A walk that keeps its frontiers comes to what one comes to that reads them off**, or fails as
it does. -/
theorem Expansion.run_eq_expandFrom (rules : Rules) (seeds : Rosters) :
    run rules seeds = expandFrom rules 0 (ofSeeds seeds) rules.budgets.numHops :=
  (Walk.shows_expandFrom (Walk.begins_ofSeeds seeds) rules.budgets.numHops).same

end HopSampler
