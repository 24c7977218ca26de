import HopSampler.Proofs.BackingTrees
import HopSampler.Proofs.Placements

/-!
# Look-ups over a backing that is not trusted

A table can be given a backing of its own for the cold rows, any tree of partitions over any leaves.
A look-up then depends on what the leaves answer that are asked for something, in the way a fetch of
the tree depends on it (`Backed.collects_cold`); the hot rows are there at once
(`Backed.exists_hot`).

So there is no partial answer. Whatever comes back was written row by row, each once, from the copy
of the hot rows and from blocks of the shape that was asked for; one missing block, and there is
none. A request that needs nothing of the backing is answered whatever state it is in
(`Plan.lookup_withstands`).
-/

namespace HopSampler.FeatureTable

variable {κ : Type} {t : FeatureTable} {ids : List Id} {rows : List Nat} {device : UInt64}

/-- How a look-up ends, under a deadline if there is one. -/
def outcome (t : FeatureTable) (ids : List Id) (device : UInt64) :
    Option Milliseconds → Except Error Matrix
  | none => (t.lookup ids device).result
  | some deadline => (t.lookupWithin ids device deadline).result

/-- The moment by which a result has to be there. -/
def limitOf (deadline : Option Milliseconds) : Option Nat := deadline.map (·.toNat)

theorem outcome_eq_ok_iff {deadline : Option Milliseconds} {m : Matrix} :
    t.outcome ids device deadline = .ok m ↔
      (t.lookup ids device).Gives (limitOf deadline) m := by
  rcases deadline with - | deadline
  · exact Delayed.gives_none_iff.symm
  · exact Delayed.within_gives_iff

/-- What the leaves of the backing are asked in a look-up. -/
def asks (t : FeatureTable) (b : Backing κ) (ids : List Id) : List (Backing.Ask κ) :=
  match t.rowsOf ids with
  | .ok rows => b.asks (t.coldPart rows)
  | .error _ => []

theorem asks_of_rowsOf (b : Backing κ) (hrows : t.rowsOf ids = .ok rows) :
    t.asks b ids = b.asks (t.coldPart rows) := by
  rw [asks, hrows]

/-- A leaf is asked for rows of its own. -/
theorem of_mem_asks {b : Backing κ} {a : Backing.Ask κ} (ha : a ∈ t.asks b ids) : a.request ≠ [] ∧
    ∃ height, (a.leaf, height) ∈ b.leaves ∧ ∀ row ∈ a.rows, row < height := by
  rw [asks] at ha
  split at ha
  · exact Backing.of_mem_asks ha
  · exact absurd ha List.not_mem_nil

/-- The table with its cold rows elsewhere. -/
def withCold (t : FeatureTable) (cold : RowSource) : FeatureTable := { t with cold }

/-- A look-up of registered IDs awaits its two parts. -/
theorem lookup_of_rowsOf (hrows : t.rowsOf ids = .ok rows) : t.lookup ids device =
    match (t.hotSource rows device).map (t.fetchPart · (t.hotPart rows)) with
    | .error e => .now (.error e)
    | .ok hot => (Delayed.both hot (t.fetchPart t.cold (t.coldPart rows))).map fun (hot, cold) ↦
        .scatter ids.length t.width [hot, cold] := by
  simp only [lookup, hrows]
  cases t.hotSource rows device <;> rfl

/-! ### The two parts -/

theorem hotPart_eq (t : FeatureTable) (rows : List Nat) :
    t.hotPart rows = Partitions.upTo t.hotRows (Partitions.numbered rows) := by
  rw [hotPart, Partitions.upTo, Partitions.numbered, List.filter_map, ← List.filterMap_eq_map,
    List.filterMap_filter]
  refine List.filterMap_congr fun a _ ↦ ?_
  obtain ⟨row, position⟩ := a
  simp

theorem coldPart_eq (t : FeatureTable) (rows : List Nat) :
    t.coldPart rows = Partitions.past t.hotRows (Partitions.numbered rows) := by
  rw [coldPart, Partitions.past, Partitions.numbered, List.filter_map, List.map_map,
    ← List.filterMap_eq_map, List.filterMap_filter]
  refine List.filterMap_congr fun a _ ↦ ?_
  obtain ⟨row, position⟩ := a
  rcases Nat.lt_or_ge row t.hotRows with hlt | hge
  · simp [hlt]
  · simp [Nat.not_lt.2 hge]

/-- Every position is in one of the parts, once. -/
theorem perm_parts (t : FeatureTable) (rows : List Nat) :
    ((t.hotPart rows).map (·.1) ++ (t.coldPart rows).map (·.1)).Perm (.range rows.length) := by
  rw [hotPart_eq, coldPart_eq, ← Partitions.map_fst_numbered]
  exact Partitions.perm_upTo_past ..

theorem shape_of_fetchPart {source : RowSource} {part : List (Nat × Nat)} {limit : Option Nat}
    {placed : List Nat × Matrix} (h : (t.fetchPart source part).Gives limit placed) :
    placed.1 = part.map (·.1) ∧ placed.2.height = placed.1.length ∧ placed.2.width = t.width := by
  rw [fetchPart_gives_iff] at h
  split at h
  · next hnil =>
    rw [h, hnil]
    exact ⟨rfl, rfl, rfl⟩
  · exact ⟨(RowSource.fetchPlaced_gives_iff.1 h).2, RowSource.shape_of_fetchPlaced h⟩

/-! ### Tables over a tree -/

/-- The table has copies of the hot rows on devices, and a tree for the cold ones. -/
structure Backed (t : FeatureTable) (data : Matrix) (b : Backing κ) (env : Backing.Env κ) : Prop
    extends t.Covers data where
  hot : ∀ device source, t.replicaFor device = .ok source →
    ∃ home, source = .device home (data.take t.hotRows)
  cold : t.cold = b.source t.width env
  numRows : b.numRows = data.height - t.hotRows

/-- What a look-up answers is complete: it has a row of the right width for every ID, and each was
written once, from the hot rows or from what a leaf answered in time. -/
structure Complete (t : FeatureTable) (data : Matrix) (b : Backing κ) (env : Backing.Env κ)
    (ids : List Id) (limit : Option Nat) (m : Matrix) : Prop where
  height : m.height = ids.length
  width : m.width = t.width
  once : ∃ rows hot blocks, t.rowsOf ids = .ok rows ∧
    (data.take t.hotRows).Selects ((t.hotPart rows).map (·.2)) hot ∧
      List.Forall₂ (fun a block ↦ (a.fetch t.width env).Gives limit block) (t.asks b ids) blocks ∧
        Matrix.Assembles (((t.hotPart rows).map (·.1), hot) :: blocks) m

namespace Backed

variable {data : Matrix} {b : Backing κ} {env : Backing.Env κ} {limit : Option Nat}

/-- The cold rows that are asked for are rows of the tree. -/
theorem lt_numRows (h : t.Backed data b env) (hrows : t.rowsOf ids = .ok rows) {q : Nat × Nat}
    (hq : q ∈ t.coldPart rows) : q.2 < b.numRows := by
  rw [h.numRows, ← Matrix.height_drop]
  exact (h.coldPart_inRange hrows hq).2

/-- The cold part of a look-up collects what the leaves are asked. -/
theorem collects_cold (h : t.Backed data b env) (hrows : t.rowsOf ids = .ok rows) :
    Collects limit ((t.asks b ids).map (Backing.Ask.fetch t.width env))
      (t.fetchPart t.cold (t.coldPart rows)) := by
  rw [asks_of_rowsOf b hrows, fetchPart, h.cold]
  split
  · next hnil =>
    rw [hnil, Backing.asks_nil]
    exact .nothing rfl
  · next hne => exact b.collects_fetchPlaced hne fun q hq ↦ h.lt_numRows hrows hq

/-- The hot rows are there at once. -/
theorem exists_hot (h : t.Backed data b env) {replica : RowSource}
    (hsource : t.hotSource rows device = .ok replica) :
    ∃ hot, (data.take t.hotRows).Selects ((t.hotPart rows).map (·.2)) hot ∧
      t.fetchPart replica (t.hotPart rows) = .now (.ok ((t.hotPart rows).map (·.1), hot)) := by
  rw [hotSource] at hsource
  rw [fetchPart]
  split
  · next hnil =>
    rw [hnil]
    exact ⟨.empty t.width, ⟨h.width, rfl⟩, rfl⟩
  · next hne =>
    rw [if_neg hne] at hsource
    obtain ⟨home, rfl⟩ := h.hot device replica hsource
    have hrange : ∀ place ∈ (t.hotPart rows).map (·.2), place < (data.take t.hotRows).height :=
      List.forall_mem_map.2 fun q hq ↦ (h.hotPart_inRange hq).2
    have hselects := Matrix.selects_gather hrange
    have hwidth : t.width = (data.take t.hotRows).width := h.width
    exact ⟨_, hselects, hwidth ▸ RowSource.fetchPlaced_held _ hselects⟩

/-- A look-up that gets to fetching awaits the cold part, with the hot one there. -/
theorem exists_lookup (h : t.Backed data b env) (hrows : t.rowsOf ids = .ok rows)
    {replica : RowSource} (hsource : t.hotSource rows device = .ok replica) :
    ∃ hot, (data.take t.hotRows).Selects ((t.hotPart rows).map (·.2)) hot ∧
      t.lookup ids device =
        (Delayed.both (.now (.ok ((t.hotPart rows).map (·.1), hot)))
          (t.fetchPart t.cold (t.coldPart rows))).map fun (hot, cold) ↦
            .scatter ids.length t.width [hot, cold] := by
  obtain ⟨hot, hselects, hnow⟩ := h.exists_hot hsource
  refine ⟨hot, hselects, ?_⟩
  simp only [lookup, hrows, hsource, hnow]

/-- **An answer is complete.** -/
theorem complete (h : t.Backed data b env) {m : Matrix} (hm : (t.lookup ids device).Gives limit m) :
    t.Complete data b env ids limit m := by
  obtain ⟨rows, replica, -, -, hrows, hsource, -⟩ := lookup_gives_iff.1 hm
  obtain ⟨hot, hselects, hlookup⟩ := h.exists_lookup hrows hsource
  obtain ⟨⟨placed, cold⟩, hboth, rfl⟩ := Delayed.map_gives_iff.1 (hlookup ▸ hm)
  obtain ⟨hhot, hcold⟩ := Delayed.both_gives_iff.1 hboth
  obtain rfl : ((t.hotPart rows).map (·.1), hot) = placed :=
    Except.ok.inj (Delayed.now_gives_iff.1 hhot)
  obtain ⟨hpositions, hheight, hwidth⟩ := shape_of_fetchPart hcold
  obtain ⟨blocks, hblocks, hwrites⟩ := (h.collects_cold hrows).comes cold hcold
  rw [List.forall₂_map_left_iff] at hblocks
  obtain ⟨hheight', hwidth'⟩ := Matrix.shape_scatter ids.length t.width
    [((t.hotPart rows).map (·.1), hot), cold]
  have hhotHeight : hot.height = ((t.hotPart rows).map (·.1)).length := by
    rw [hselects.height, List.length_map, List.length_map]
  have hhotWidth : hot.width = t.width := hselects.width.trans h.width.symm
  have hplaces : ([((t.hotPart rows).map (·.1), hot), cold].flatMap (·.1)).Perm
      (.range ids.length) := by
    rw [List.flatMap_cons, List.flatMap_singleton, hpositions, ← length_of_rowsOf hrows]
    exact t.perm_parts rows
  have hparts := Matrix.assembles_scatter
    (List.forall_mem_cons.2 ⟨hhotHeight, List.forall_mem_singleton.2 hheight⟩)
    (List.forall_mem_cons.2 ⟨hhotWidth, List.forall_mem_singleton.2 hwidth⟩) hplaces
  refine ⟨hheight', hwidth', rows, hot, blocks, hrows, hselects, hblocks,
    hparts.replace (fun placed hplaced ↦ ?_) hwrites⟩
  obtain ⟨a, -, hgives⟩ := exists_partner_of_mem hblocks.flip hplaced
  rw [hwidth']
  exact Backing.Ask.shape_of_fetch hgives

/-- Nothing comes where something that is needed does not. -/
theorem exists_gives_of_lookup (h : t.Backed data b env) {m : Matrix}
    (hm : (t.lookup ids device).Gives limit m) {a : Backing.Ask κ} (ha : a ∈ t.asks b ids) :
    ∃ block, (a.fetch t.width env).Gives limit block := by
  obtain ⟨rows, hot, blocks, -, -, hblocks, -⟩ := (h.complete hm).once
  obtain ⟨block, -, hblock⟩ := exists_partner_of_mem hblocks ha
  exact ⟨block, hblock⟩

/-- Where everything that is needed comes, there is an answer. -/
theorem exists_answer (h : t.Backed data b env) (hrows : t.rowsOf ids = .ok rows)
    {replica : RowSource} (hsource : t.hotSource rows device = .ok replica)
    (hall : ∀ a ∈ t.asks b ids, ∃ block, (a.fetch t.width env).Gives limit block) :
    ∃ m, (t.lookup ids device).Gives limit m := by
  obtain ⟨hot, -, hlookup⟩ := h.exists_lookup hrows hsource
  obtain ⟨cold, hcold⟩ := (h.collects_cold hrows).gives (List.forall_mem_map.2 hall)
  rw [hlookup]
  exact ⟨_, Delayed.map_gives_iff.2 ⟨(_, cold),
    Delayed.both_gives_iff.2 ⟨Delayed.now_gives_iff.2 rfl, hcold⟩, rfl⟩⟩

/-- And only what is needed makes it fail. -/
theorem exists_failsBy_of_lookup (h : t.Backed data b env) (hrows : t.rowsOf ids = .ok rows)
    {replica : RowSource} (hsource : t.hotSource rows device = .ok replica)
    (hfails : (t.lookup ids device).FailsBy limit) :
    ∃ a ∈ t.asks b ids, (a.fetch t.width env).FailsBy limit := by
  obtain ⟨hot, -, hlookup⟩ := h.exists_lookup hrows hsource
  rw [hlookup, Delayed.failsBy_map_iff] at hfails
  rcases hfails.of_both with hhot | hcold
  · exact absurd hhot.result.choose_spec nofun
  · obtain ⟨e, he, hfails⟩ := (h.collects_cold hrows).fails hcold
    obtain ⟨a, ha, rfl⟩ := List.mem_map.1 he
    exact ⟨a, ha, hfails⟩

/-- A leaf that is needed and spoilt leaves no answer. -/
theorem exists_error_of_spoilt (h : t.Backed data b env) {a : Backing.Ask κ} (ha : a ∈ t.asks b ids)
    (hspoilt : a.Spoilt t.width env) (deadline : Option Milliseconds) :
    ∃ e, t.outcome ids device deadline = .error e := by
  rcases hm : t.outcome ids device deadline with e | m
  · exact ⟨e, rfl⟩
  · obtain ⟨block, hblock⟩ := h.exists_gives_of_lookup (outcome_eq_ok_iff.1 hm) ha
    exact absurd hspoilt (Backing.Ask.exists_fetch_gives_iff.1 ⟨block, hblock⟩).1

/-- Where none is spoilt by then, one that is late makes the look-up miss its deadline. -/
theorem outcome_of_late (h : t.Backed data b env) (hrows : t.rowsOf ids = .ok rows)
    {replica : RowSource} (hsource : t.hotSource rows device = .ok replica) {deadline : Milliseconds}
    (hnone : ∀ a ∈ t.asks b ids, a.Spoilt t.width env →
      deadline.toNat < (env a.leaf a.rows).moment)
    {a : Backing.Ask κ} (ha : a ∈ t.asks b ids) (hlate : deadline.toNat < (env a.leaf a.rows).moment) :
    t.outcome ids device (some deadline) = .error (.timeout t.entity deadline) := by
  have hgives : ∀ m, ¬(t.lookup ids device).Gives (some deadline.toNat) m := by
    intro m hm
    have htime := (Backing.Ask.exists_fetch_gives_iff.1 (h.exists_gives_of_lookup hm ha)).2 _ rfl
    exact absurd htime (Nat.not_le.2 hlate)
  have hfails : ¬(t.lookup ids device).FailsBy (some deadline.toNat) := by
    intro hfails
    obtain ⟨a, ha, hfails⟩ := h.exists_failsBy_of_lookup hrows hsource hfails
    obtain ⟨hspoilt, htime⟩ := Backing.Ask.spoilt_of_failsBy hfails
    exact absurd (htime _ rfl) (Nat.not_le.2 (hnone a ha hspoilt))
  exact congrArg Delayed.result (Delayed.within_of_late hgives hfails)

/-- Where none is spoilt and none is late, there is an answer. -/
theorem exists_outcome (h : t.Backed data b env) (hrows : t.rowsOf ids = .ok rows)
    {replica : RowSource} (hsource : t.hotSource rows device = .ok replica)
    {deadline : Option Milliseconds}
    (hall : ∀ a ∈ t.asks b ids, ¬a.Spoilt t.width env ∧
      ∀ m ∈ limitOf deadline, (env a.leaf a.rows).moment ≤ m) :
    ∃ m, t.outcome ids device deadline = .ok m := by
  simp only [outcome_eq_ok_iff]
  exact h.exists_answer hrows hsource fun a ha ↦ Backing.Ask.exists_fetch_gives_iff.2 (hall a ha)

/-- What is not asked has no part in a look-up. -/
theorem lookup_congr (h : t.Backed data b env) {env' : Backing.Env κ}
    (hasked : ∀ a ∈ t.asks b ids, env' a.leaf a.rows = env a.leaf a.rows) :
    (t.withCold (b.source t.width env')).lookup ids device = t.lookup ids device := by
  set t' := t.withCold (b.source t.width env') with ht'
  rcases hrows : t.rowsOf ids with e | rows
  · have hrows' : t'.rowsOf ids = .error e := hrows
    rw [lookup, lookup, hrows, hrows']
  have hrows' : t'.rowsOf ids = .ok rows := hrows
  rw [asks_of_rowsOf b hrows] at hasked
  have hcold : t'.fetchPart t'.cold (t'.coldPart rows) = t.fetchPart t.cold (t.coldPart rows) := by
    show t.fetchPart (b.source t.width env') (t.coldPart rows) = _
    rw [fetchPart, fetchPart, h.cold]
    split
    · rfl
    · next hne => exact b.fetchPlaced_congr hne (fun q hq ↦ h.lt_numRows hrows hq) hasked
  -- without hot rows some source is named, but it is not asked
  have hhot : (t'.hotSource rows device).map (t'.fetchPart · (t'.hotPart rows)) =
      (t.hotSource rows device).map (t.fetchPart · (t.hotPart rows)) := by
    show (if t.hotPart rows = [] then .ok t'.cold else t.replicaFor device).map
      (t.fetchPart · (t.hotPart rows)) = _
    rw [hotSource]
    split
    · next hnil => simp only [hnil, Except.map, fetchPart, if_true]
    · rfl
  rw [lookup_of_rowsOf hrows, lookup_of_rowsOf hrows', hcold, hhot]
  rfl

end Backed

/-! ### What a look-up withstands -/

namespace Plan

variable {p : Plan} {made : FeatureTable} {b : Backing κ} {env : Backing.Env κ} {width : Nat}

theorem backed_of_build (hbuild : p.build = .ok made) (hcold : made.cold = b.source width env)
    (entity : Entity) : ({ made with entity } : FeatureTable).Backed p.data b env := by
  have hcovers := covers_of_build hbuild
  obtain ⟨hrows, hwidth⟩ := shape_of_build hbuild
  rw [hcold, Backing.numRows_source] at hrows
  obtain rfl : width = made.width := by
    rw [hcovers.width, ← hwidth, hcold, Backing.width_source]
  exact ⟨⟨hcovers.width, hcovers.hotRows, hcovers.registered⟩,
    fun _ _ hsource ↦ resident_of_build hbuild hsource, hcold, hrows⟩

/-- A look-up can succeed: every ID is registered, and the device has a copy if it needs one. -/
structure Grants (p : Plan) (ids : List Id) (device : UInt64) : Prop where
  registered : ∀ id ∈ ids, ∃ row, p.ids.get? id = some row
  reached : (∃ id ∈ ids, p.IsHot id) → p.Reaches device

theorem Grants.exists_hotSource (h : p.Grants ids device) (hbuild : p.build = .ok made)
    (entity : Entity) : ∃ rows replica,
      ({ made with entity } : FeatureTable).rowsOf ids = .ok rows ∧
        ({ made with entity } : FeatureTable).hotSource rows device = .ok replica := by
  obtain ⟨hids, hhotRows, -⟩ := fields_of_build hbuild
  set t : FeatureTable := { made with entity } with ht
  obtain ⟨rows, hrows⟩ : ∃ rows, t.rowsOf ids = .ok rows := exists_rowsOf (hids ▸ h.registered)
  by_cases hnil : t.hotPart rows = []
  · exact ⟨rows, t.cold, hrows, if_pos hnil⟩
  · obtain ⟨id, hid, row, hrow, hlt⟩ := (hotPart_ne_nil_iff hrows).1 hnil
    have hhot : p.IsHot id := ⟨row, hids ▸ hrow, hhotRows ▸ hlt⟩
    have hplaces := rowsOf_eq_ok_iff.1 hrows
    have hmade : made.rowsOf ids = .ok rows := rowsOf_eq_ok_iff.2 hplaces
    obtain ⟨source, hsource⟩ :=
      exists_replicaFor_of_build hbuild hmade hnil (h.reached ⟨id, hid, hhot⟩)
    exact ⟨rows, source, hrows, (if_neg hnil).trans hsource⟩

/-- What is known of a look-up, whatever the leaves of the backing do. -/
structure Withstands (p : Plan) (t : FeatureTable) (b : Backing κ) (env : Backing.Env κ)
    (ids : List Id) (device : UInt64) : Prop where
  /-- An answer is a whole matrix, each row written once. -/
  complete : ∀ deadline m, t.outcome ids device deadline = .ok m →
    t.Complete p.data b env ids (limitOf deadline) m
  /-- One leaf that is needed and fails, or answers in another shape, and there is no answer. -/
  failed : ∀ a ∈ t.asks b ids, a.Spoilt t.width env →
    ∀ deadline, ∃ e, t.outcome ids device deadline = .error e
  /-- If none does in time, but one is not there in time, it is the deadline that is missed. -/
  late : p.Grants ids device → ∀ deadline : Milliseconds,
    (∀ a ∈ t.asks b ids, a.Spoilt t.width env → deadline.toNat < (env a.leaf a.rows).moment) →
    (∃ a ∈ t.asks b ids, deadline.toNat < (env a.leaf a.rows).moment) →
    t.outcome ids device (some deadline) = .error (.timeout t.entity deadline)
  /-- If all are there in time and none is spoilt, there is an answer. -/
  answered : p.Grants ids device → ∀ deadline,
    (∀ a ∈ t.asks b ids, ¬a.Spoilt t.width env ∧
      ∀ m ∈ limitOf deadline, (env a.leaf a.rows).moment ≤ m) →
    ∃ m, t.outcome ids device deadline = .ok m
  /-- A leaf is asked only for rows of its own, and only if some of them are wanted. -/
  asked : ∀ a ∈ t.asks b ids, a.request ≠ [] ∧
    ∃ height, (a.leaf, height) ∈ b.leaves ∧ ∀ row ∈ a.rows, row < height
  /-- Every position with a cold row is asked of one leaf, and no other position of any. -/
  divided : ∀ rows, t.rowsOf ids = .ok rows →
    ((t.asks b ids).flatMap Backing.Ask.positions).Perm ((t.coldPart rows).map (·.1))
  /-- What other leaves do, or the same ones for other rows, makes no difference. -/
  unasked : ∀ env' : Backing.Env κ,
    (∀ a ∈ t.asks b ids, env' a.leaf a.rows = env a.leaf a.rows) →
    (t.withCold (b.source t.width env')).lookup ids device = t.lookup ids device
  /-- Hot rows need nothing of the backing. -/
  hot : p.Grants ids device → (∀ id ∈ ids, p.IsHot id) →
    t.asks b ids = [] ∧ ∀ deadline, ∃ m, t.outcome ids device deadline = .ok m

/-- A look-up of hot rows asks nothing of the backing. -/
theorem asks_eq_nil_of_hot (hbuild : p.build = .ok made) (entity : Entity)
    (hrows : ({ made with entity } : FeatureTable).rowsOf ids = .ok rows)
    (hhot : ∀ id ∈ ids, p.IsHot id) : ({ made with entity } : FeatureTable).asks b ids = [] := by
  obtain ⟨hids, hhotRows, -⟩ := fields_of_build hbuild
  have hnil : ({ made with entity } : FeatureTable).coldPart rows = [] := by
    refine coldPart_eq_nil hrows fun id hid ↦ ?_
    obtain ⟨row, hrow, hlt⟩ := hhot id hid
    exact ⟨row, hids ▸ hrow, hhotRows ▸ hlt⟩
  rw [asks_of_rowsOf b hrows, hnil, Backing.asks_nil]

/-- **No backing makes a look-up answer in part**, and none that is not needed keeps it from
answering. -/
theorem lookup_withstands (hbuild : p.build = .ok made) (hcold : made.cold = b.source width env)
    (entity : Entity) (ids : List Id) (device : UInt64) :
    p.Withstands { made with entity } b env ids device := by
  have h := backed_of_build hbuild hcold entity
  exact {
    complete := fun deadline m hm ↦ h.complete (outcome_eq_ok_iff.1 hm)
    failed := fun a ha hspoilt deadline ↦ h.exists_error_of_spoilt ha hspoilt deadline
    late := by
      rintro hgrants deadline hnone ⟨a, ha, hlate⟩
      obtain ⟨rows, replica, hrows, hsource⟩ := hgrants.exists_hotSource hbuild entity
      exact h.outcome_of_late hrows hsource hnone ha hlate
    answered := by
      intro hgrants deadline hall
      obtain ⟨rows, replica, hrows, hsource⟩ := hgrants.exists_hotSource hbuild entity
      exact h.exists_outcome hrows hsource hall
    asked := fun a ha ↦ of_mem_asks ha
    divided := by
      intro rows hrows
      rw [asks_of_rowsOf b hrows]
      exact Backing.perm_asks fun q hq ↦ h.lt_numRows hrows hq
    unasked := fun env' hasked ↦ h.lookup_congr hasked
    hot := by
      intro hgrants hhot
      obtain ⟨rows, replica, hrows, hsource⟩ := hgrants.exists_hotSource hbuild entity
      have hasks := asks_eq_nil_of_hot (b := b) hbuild entity hrows hhot
      exact ⟨hasks, fun deadline ↦ h.exists_outcome hrows hsource (by rw [hasks]; exact nofun)⟩ }

/-- The small plan, over a tree: a leaf for all cold rows, and one without rows below it. -/
def smallTree : Backing Bool :=
  .parts [.leaf true .zeroCopy (small.data.height - small.hotRows), .parts [.leaf false .zeroCopy 0]]

/-- One leaf is slow and one row short, the other fails. -/
def smallEnv : Backing.Env Bool
  | true, rows => ⟨40, .ok (.zeros (rows.length - 1) 2)⟩
  | false, _ => .now (.error (.config .noPartitions))

/-- The small plan, with its cold rows in the tree. -/
def smallOver : Plan := { small with coldSource := some (smallTree.source 2 smallEnv) }

theorem exists_build_smallOver :
    ∃ made, smallOver.build = .ok made ∧ made.cold = smallTree.source 2 smallEnv := by
  obtain ⟨t, hbuild⟩ := exists_build_small
  obtain ⟨hratio, hrows, hgroups, copies, hcopies, -⟩ := build_eq_ok_iff.1 hbuild
  have hnumRows : (smallTree.source 2 smallEnv).numRows = small.data.height - small.hotRows :=
    Backing.numRows_source _
  have hcold : smallOver.coldBacking = .ok (smallTree.source 2 smallEnv) :=
    (if_neg (not_not.2 hnumRows)).trans (if_neg (not_not.2 rfl))
  exact ⟨_, build_eq_ok_iff.2 ⟨hratio, hrows, hgroups, copies, hcopies, _, hcold, rfl⟩, rfl⟩

theorem lookup_withstands_small :
    ∃ made, smallOver.build = .ok made ∧ made.cold = smallTree.source 2 smallEnv ∧
      ∀ entity ids device,
        smallOver.Withstands { made with entity } smallTree smallEnv ids device := by
  obtain ⟨made, hbuild, hcold⟩ := exists_build_smallOver
  exact ⟨made, hbuild, hcold, fun entity ids device ↦
    lookup_withstands hbuild hcold entity ids device⟩

end Plan

end HopSampler.FeatureTable
