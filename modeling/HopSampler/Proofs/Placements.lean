import HopSampler.Proofs.Lookups
import Mathlib.Data.List.Induction

/-!
# Placement does not show

A plan says which rows a table has and where they are kept: how many are hot, which device groups
have a copy of them, what backs the cold ones. Only the first shows in the answer to a look-up. The
rest decides about one thing, whether a device that asks for a hot row is in some group.

Everything rests on `keeps_of_build`: whatever the plan, the sources of its table serve the two
parts of its data. Copies go by group ID and a later group may replace the copy of an earlier one;
all copies are the same, so the first group with the device in it decides (`Copies`).
-/

namespace HopSampler.FeatureTable

variable {t : FeatureTable} {ids : List Id} {rows : List Nat} {device : UInt64}

/-! ### Tables for a matrix -/

/-- The table is for the rows of `data`: every registered ID has a row there. -/
structure Covers (t : FeatureTable) (data : Matrix) : Prop where
  width : t.width = data.width
  hotRows : t.hotRows ≤ data.height
  registered : ∀ id row, t.ids.get? id = some row → row < data.height

namespace Covers

variable {data : Matrix}

theorem lt_of_rowsOf (h : t.Covers data) (hrows : t.rowsOf ids = .ok rows) {row : Nat}
    (hrow : row ∈ rows) : row < data.height := by
  have hmem : some row ∈ ids.map t.ids.get? :=
    rowsOf_eq_ok_iff.1 hrows ▸ List.mem_map_of_mem hrow
  obtain ⟨id, -, hid⟩ := List.mem_map.1 hmem
  exact h.registered id row hid

/-- The hot rows that are asked for are hot rows of the matrix. -/
theorem hotPart_inRange (h : t.Covers data) {q : Nat × Nat} (hq : q ∈ t.hotPart rows) :
    q.1 < rows.length ∧ q.2 < (data.take t.hotRows).height := by
  obtain ⟨hat, hlt⟩ := mem_hotPart_iff.1 hq
  refine ⟨(List.getElem?_eq_some_iff.1 hat).1, ?_⟩
  rwa [← Matrix.length_rows, Matrix.rows_take h.hotRows, List.length_take, Matrix.length_rows,
    Nat.min_eq_left h.hotRows]

/-- And the cold ones are cold rows of it. -/
theorem coldPart_inRange (h : t.Covers data) (hrows : t.rowsOf ids = .ok rows) {q : Nat × Nat}
    (hq : q ∈ t.coldPart rows) :
    q.1 < rows.length ∧ q.2 < (data.drop t.hotRows).height := by
  have hat := mem_coldPart_iff.1 hq
  have hlt := h.lt_of_rowsOf hrows (List.mem_of_getElem? hat)
  refine ⟨(List.getElem?_eq_some_iff.1 hat).1, ?_⟩
  rw [Matrix.height_drop]
  omega

end Covers

/-- The sources of the table serve the rows of `data`. -/
structure Keeps (t : FeatureTable) (data : Matrix) : Prop extends t.Covers data where
  hot : ∀ device source, t.replicaFor device = .ok source → source.Serves (data.take t.hotRows)
  cold : t.cold.Serves (data.drop t.hotRows)

namespace Keeps

variable {data : Matrix}

theorem holds (h : t.Keeps data) : t.Holds data :=
  ⟨h.width, h.hotRows, fun device source hsource ↦ (h.hot device source hsource).yields,
    h.cold.yields⟩

/-- A look-up succeeds where every ID is registered and the device has a copy, if it needs one. -/
theorem exists_lookup (h : t.Keeps data) (hrows : t.rowsOf ids = .ok rows)
    (hreplica : t.hotPart rows ≠ [] → ∃ source, t.replicaFor device = .ok source) :
    ∃ m, (t.lookup ids device).Gives none m := by
  obtain ⟨replica, hsource, hserves⟩ : ∃ replica, t.hotSource rows device = .ok replica ∧
      (t.hotPart rows ≠ [] → replica.Serves (data.take t.hotRows)) := by
    rw [hotSource]
    split
    · next hnil => exact ⟨t.cold, rfl, fun hne ↦ absurd hnil hne⟩
    · next hne =>
      obtain ⟨source, hsource⟩ := hreplica hne
      exact ⟨source, hsource, fun _ ↦ h.hot device source hsource⟩
  have hwidth : t.width = (data.take t.hotRows).width := h.width
  have hwidth' : t.width = (data.drop t.hotRows).width := h.width
  obtain ⟨hot, hhot⟩ := exists_fetchPart hwidth hserves fun q hq ↦ (h.hotPart_inRange hq).2
  obtain ⟨cold, hcold⟩ := exists_fetchPart hwidth' (fun _ ↦ h.cold) fun q hq ↦
    (h.coldPart_inRange hrows hq).2
  exact ⟨_, lookup_gives_iff.2 ⟨rows, replica, hot, cold, hrows, hsource, hhot, hcold, rfl⟩⟩

end Keeps

/-! ### Looking up without an answer -/

theorem lookup_of_unknown {id : Id} (h : ids.find? (fun id ↦ (t.ids.get? id).isNone) = some id) :
    (t.lookup ids device).result = .error (.unknownEntity t.entity id) := by
  simp only [lookup, rowsOf_eq_error h]
  rfl

theorem lookup_of_noReplica (hrows : t.rowsOf ids = .ok rows) (hhot : t.hotPart rows ≠ [])
    {e : Error} (hreplica : t.replicaFor device = .error e) :
    (t.lookup ids device).result = .error e := by
  have hsource : t.hotSource rows device = .error e := by rw [hotSource, if_neg hhot, hreplica]
  simp only [lookup, hrows, hsource]
  rfl

/-! ### Copies -/

theorem exists_copy_of_replicaFor {source : RowSource} (h : t.replicaFor device = .ok source) :
    ∃ id : UInt64, t.replicas[id]? = some source := by
  rw [replicaFor] at h
  split at h
  · next replica hreplica =>
    cases h
    obtain ⟨group, -, hcopy⟩ := Option.bind_eq_some_iff.1 hreplica
    exact ⟨group.groupId, hcopy⟩
  · cases h

theorem exists_replicaFor
    (hcopies : ∀ group ∈ t.groups, ∃ source, t.replicas[group.groupId]? = some source)
    (h : ∃ group ∈ t.groups, device ∈ group.deviceIds) :
    ∃ source, t.replicaFor device = .ok source := by
  obtain ⟨group, hgroup, hdevice⟩ := h
  obtain ⟨first, hfirst⟩ : ∃ first, t.groups.find? (·.contains device) = some first := by
    rw [← Option.isSome_iff_exists, List.find?_isSome]
    exact ⟨group, hgroup, decide_eq_true hdevice⟩
  obtain ⟨source, hsource⟩ := hcopies first (List.mem_of_find?_eq_some hfirst)
  exact ⟨source, by rw [replicaFor, hfirst, Option.bind_some, hsource]⟩

theorem replicaFor_eq_error (h : ¬∃ group ∈ t.groups, device ∈ group.deviceIds) :
    t.replicaFor device = .error (.noReplica device) := by
  have hnone : t.groups.find? (·.contains device) = none :=
    List.find?_eq_none.2 fun group hgroup hcontains ↦
      h ⟨group, hgroup, of_decide_eq_true hcontains⟩
  rw [replicaFor, hnone]
  rfl

namespace Plan

/-- Copies of the hot rows in the memory of devices, for all the groups. -/
structure Copies (hot : Matrix) (groups : List DeviceGroup)
    (copies : Std.HashMap UInt64 RowSource) : Prop where
  resident : ∀ (id : UInt64) (source : RowSource), copies[id]? = some source →
    ∃ home, source = .device home hot
  exists_copy : ∀ group ∈ groups, ∃ source, copies[group.groupId]? = some source

/-- Another group keeps the copies, but for one of its own ID. -/
theorem Copies.of_addCopy {hot : Matrix} {groups : List DeviceGroup} {group : DeviceGroup}
    {copies copies' : Std.HashMap UInt64 RowSource} (h : Copies hot groups copies)
    (hadd : addCopy hot copies group = .ok copies') : Copies hot (groups ++ [group]) copies' := by
  obtain ⟨home, rfl⟩ : ∃ home, copies' = copies.insert group.groupId (.device home hot) := by
    rw [addCopy] at hadd
    split at hadd
    · next home _ => exact ⟨home, (Except.ok.inj hadd).symm⟩
    · cases hadd
  constructor
  · intro id source hsource
    rw [Std.HashMap.getElem?_insert] at hsource
    split at hsource
    · exact ⟨home, (Option.some.inj hsource).symm⟩
    · exact h.resident id source hsource
  · intro other hother
    rw [Std.HashMap.getElem?_insert]
    split
    · exact ⟨_, rfl⟩
    · next hne =>
      rcases List.mem_append.1 hother with hmem | hmem
      · exact h.exists_copy other hmem
      · rw [List.mem_singleton.1 hmem] at hne
        exact absurd BEq.rfl hne

theorem copies_of_replicate {hot : Matrix} {groups : List DeviceGroup}
    {copies : Std.HashMap UInt64 RowSource} (h : replicate hot groups = .ok copies) :
    Copies hot groups copies := by
  rw [replicate] at h
  induction groups using List.reverseRecOn generalizing copies with
  | nil =>
    cases h
    exact ⟨by simp, by simp⟩
  | append_singleton groups group ih =>
    rw [List.foldlM_append] at h
    obtain ⟨made, hmade, hadd⟩ := bind_eq_ok_iff.1 h
    rw [List.foldlM_cons] at hadd
    obtain ⟨copies', hadd, hlast⟩ := bind_eq_ok_iff.1 hadd
    cases hlast
    exact (ih hmade).of_addCopy hadd

/-- Copies are made for groups with devices. -/
theorem exists_replicate (hot : Matrix) {groups : List DeviceGroup}
    (h : ∀ group ∈ groups, group.deviceIds ≠ []) : ∃ copies, replicate hot groups = .ok copies := by
  rw [replicate]
  generalize (∅ : Std.HashMap UInt64 RowSource) = made
  induction groups generalizing made with
  | nil => exact ⟨made, rfl⟩
  | cons group groups ih =>
    obtain ⟨home, others, hdevices⟩ := List.exists_cons_of_ne_nil (h group List.mem_cons_self)
    obtain ⟨copies, hcopies⟩ := ih (fun g hg ↦ h g (List.mem_cons_of_mem group hg))
      (made.insert group.groupId (.device home hot))
    refine ⟨copies, ?_⟩
    rw [List.foldlM_cons, addCopy, DeviceGroup.home?, hdevices]
    exact hcopies

/-! ### Tables made by a plan -/

theorem build_eq_ok_iff {p : Plan} : p.build = .ok t ↔
    checkRatio p.splitRatio = .ok () ∧ checkRows p.ids p.data.height = .ok () ∧
      ¬(0 < p.hotRows ∧ p.groups = []) ∧ ∃ copies, p.copies = .ok copies ∧
        ∃ cold, p.coldBacking = .ok cold ∧
          ⟨.table, p.ids, p.data.height, p.data.width, p.hotRows, p.groups, copies, cold⟩ = t := by
  rw [build, check_bind_eq_ok_iff, check_bind_eq_ok_iff, ite_error_eq_ok_iff, bind_eq_ok_iff]
  simp only [bind_eq_ok_iff, Except.ok.injEq]

variable {p : Plan}

theorem hotRows_le (p : Plan) : p.hotRows ≤ p.data.height := Nat.min_le_left _ _

/-- Registered rows are in range, once that was checked. -/
theorem lt_of_checkRows {ids : IdMap} {height : Nat} (h : checkRows ids height = .ok ()) {id : Id}
    {row : Nat} (hrow : ids.get? id = some row) : row < height := by
  have hmem : row ∈ ids.rows := IdMap.mem_rows_of_get? hrow
  rw [checkRows] at h
  split at h
  · next hnone =>
    rw [IdMap.maxRow?, List.max?_eq_none_iff] at hnone
    exact absurd (hnone ▸ hmem) List.not_mem_nil
  · next greatest hmax =>
    have hle : row ≤ greatest := (List.max?_le_iff hmax).1 (Nat.le_refl _) row hmem
    exact Nat.lt_of_le_of_lt hle (ite_ok_eq_ok_iff.1 h).1

/-- Under every placement the backing serves the cold rows. -/
theorem serves_coldBacking (hcold : p.coldSource = none) {cold : RowSource}
    (h : p.coldBacking = .ok cold) : cold.Serves (p.data.drop p.hotRows) := by
  simp only [coldBacking, hcold] at h
  split at h
  · cases h
    exact RowSource.serves_held _ _
  · cases h
    exact RowSource.serves_held _ _
  · next count _ =>
    rcases hsplit : Partitions.split (p.data.drop p.hotRows) count with e | parts
    · rw [hsplit] at h
      cases h
    · rw [hsplit] at h
      cases h
      obtain ⟨pieces, htiles⟩ := Partitions.exists_tiles_of_split hsplit
      exact htiles.serves_toSource

theorem covers_of_build (hbuild : p.build = .ok t) : t.Covers p.data := by
  obtain ⟨-, hchecked, -, copies, -, cold, -, rfl⟩ := build_eq_ok_iff.1 hbuild
  exact ⟨rfl, p.hotRows_le, fun id row hrow ↦ lt_of_checkRows hchecked hrow⟩

/-- Every copy is in the memory of some device. -/
theorem resident_of_build (hbuild : p.build = .ok t) {source : RowSource}
    (hsource : t.replicaFor device = .ok source) :
    ∃ home, source = .device home (p.data.take t.hotRows) := by
  obtain ⟨-, -, -, copies, hcopies, cold, -, rfl⟩ := build_eq_ok_iff.1 hbuild
  obtain ⟨id, hcopy⟩ := exists_copy_of_replicaFor hsource
  dsimp only at hcopy
  rw [Plan.copies] at hcopies
  split at hcopies
  · exact (copies_of_replicate hcopies).resident id source hcopy
  · cases hcopies
    rw [Std.HashMap.getElem?_empty] at hcopy
    cases hcopy

/-- The backing has the shape of the cold rows, also one that was given. -/
theorem shape_of_build (hbuild : p.build = .ok t) :
    t.cold.numRows = p.data.height - t.hotRows ∧ t.cold.width = p.data.width := by
  obtain ⟨-, -, -, copies, -, cold, hbacking, rfl⟩ := build_eq_ok_iff.1 hbuild
  dsimp only
  rcases hsource : p.coldSource with - | source
  · have hserves := serves_coldBacking hsource hbacking
    exact ⟨hserves.numRows.trans (Matrix.height_drop ..), hserves.width⟩
  · simp only [coldBacking, hsource, ite_error_eq_ok_iff, not_not, ne_eq] at hbacking
    obtain ⟨hrows, hwidth, hcold⟩ := hbacking
    obtain rfl : source = cold := Except.ok.inj hcold
    exact ⟨hrows, hwidth⟩

/-- **Whatever the plan, the sources of its table serve its data.** -/
theorem keeps_of_build (hcold : p.coldSource = none) (hbuild : p.build = .ok t) :
    t.Keeps p.data where
  toCovers := covers_of_build hbuild
  hot device source hsource := by
    obtain ⟨home, rfl⟩ := resident_of_build hbuild hsource
    exact RowSource.serves_held _ _
  cold := by
    obtain ⟨-, -, -, copies, -, cold, hbacking, rfl⟩ := build_eq_ok_iff.1 hbuild
    exact serves_coldBacking hcold hbacking

/-! ### What a look-up answers -/

/-- The row of an ID is hot. -/
def IsHot (p : Plan) (id : Id) : Prop := ∃ row, p.ids.get? id = some row ∧ row < p.hotRows

/-- Some group has the device in it. -/
def Reaches (p : Plan) (device : UInt64) : Prop := ∃ group ∈ p.groups, device ∈ group.deviceIds

/-- What is known of the answer to a look-up in a table that was made by the plan. -/
structure Answers (p : Plan) (t : FeatureTable) (ids : List Id) (device : UInt64) : Prop where
  /-- The first ID that is not registered decides. -/
  unknown : ∀ id, ids.find? (fun id ↦ (p.ids.get? id).isNone) = some id →
    (t.lookup ids device).result = .error (.unknownEntity t.entity id)
  /-- Else a device in no group cannot have hot rows. -/
  noReplica : (∀ id ∈ ids, ∃ row, p.ids.get? id = some row) → (∃ id ∈ ids, p.IsHot id) →
    ¬p.Reaches device → (t.lookup ids device).result = .error (.noReplica device)
  /-- Else there is the row of every ID, in order. -/
  complete : (∀ id ∈ ids, ∃ row, p.ids.get? id = some row) →
    ((∃ id ∈ ids, p.IsHot id) → p.Reaches device) →
    ∃ m, (t.lookup ids device).result = .ok m ∧ m.width = p.data.width ∧
      m.rows.toList.map some = ids.map (p.ids.rowIn? p.data)
  /-- Nothing is read out of the range of a copy or of the backing, or written out of the answer. -/
  inRange : ∀ rows, t.rowsOf ids = .ok rows →
    (∀ q ∈ t.hotPart rows, q.1 < ids.length ∧
      ∀ source, t.replicaFor device = .ok source → q.2 < source.numRows) ∧
    ∀ q ∈ t.coldPart rows, q.1 < ids.length ∧ q.2 < t.cold.numRows
  /-- Nor, where the backing is partitioned, out of the range of a partition. -/
  partsInRange : ∀ count parts, p.coldPlacement = .partitioned count →
    Partitions.split (p.data.drop p.hotRows) count = .ok parts → t.cold = parts.toSource ∧
      ∀ rows places, t.rowsOf ids = .ok rows →
        parts.locateAll ((t.coldPart rows).map (·.2)) = .ok places →
        ∀ q ∈ parts.requests places, ∀ r ∈ q.2,
          r.1 < (t.coldPart rows).length ∧ r.2 < q.1.numRows
  /-- A table that keeps the same rows in other places, asked from any device, has no other
  answer. -/
  agrees : ∀ (q : Plan) u device' m m', q.data = p.data → q.ids = p.ids → q.coldSource = none →
    q.build = .ok u → (t.lookup ids device).result = .ok m →
    (u.lookup ids device').result = .ok m' → m = m'

theorem fields_of_build (hbuild : p.build = .ok t) :
    t.ids = p.ids ∧ t.hotRows = p.hotRows ∧ t.groups = p.groups := by
  obtain ⟨-, -, -, copies, -, cold, -, rfl⟩ := build_eq_ok_iff.1 hbuild
  exact ⟨rfl, rfl, rfl⟩

/-- A look-up with hot rows needs a group with the device in it, and no more. -/
theorem exists_replicaFor_of_build (hbuild : p.build = .ok t) (hrows : t.rowsOf ids = .ok rows)
    (hhot : t.hotPart rows ≠ []) (hreaches : p.Reaches device) :
    ∃ source, t.replicaFor device = .ok source := by
  obtain ⟨-, -, -, copies, hcopies, cold, -, rfl⟩ := build_eq_ok_iff.1 hbuild
  obtain ⟨id, -, row, -, hlt⟩ := (hotPart_ne_nil_iff hrows).1 hhot
  rw [Plan.copies, if_pos (Nat.zero_lt_of_lt hlt)] at hcopies
  exact exists_replicaFor (copies_of_replicate hcopies).exists_copy hreaches

theorem cold_of_build (hcold : p.coldSource = none) (hbuild : p.build = .ok t) {count : UInt64}
    (hplacement : p.coldPlacement = .partitioned count) {parts : Partitions}
    (hsplit : Partitions.split (p.data.drop p.hotRows) count = .ok parts) :
    t.cold = parts.toSource := by
  obtain ⟨-, -, -, copies, -, cold, hbacking, rfl⟩ := build_eq_ok_iff.1 hbuild
  simp only [coldBacking, hcold, hplacement, hsplit] at hbacking
  exact (Except.ok.inj hbacking).symm

/-- **Placement does not show in a look-up**, other than in whether a device has a copy. -/
theorem lookup_answers (hcold : p.coldSource = none) (hbuild : p.build = .ok t) (ids : List Id)
    (device : UInt64) : p.Answers t ids device := by
  have hkeeps := keeps_of_build hcold hbuild
  obtain ⟨hids, hhotRows, hgroups⟩ := fields_of_build hbuild
  have hhot : ∀ {rows}, t.rowsOf ids = .ok rows →
      (t.hotPart rows ≠ [] ↔ ∃ id ∈ ids, p.IsHot id) := by
    intro rows hrows
    rw [hotPart_ne_nil_iff hrows, hids, hhotRows]
    rfl
  refine ⟨fun id hid ↦ lookup_of_unknown (hids ▸ hid), fun hall hsome hreaches ↦ ?_,
    fun hall hreaches ↦ ?_, fun rows hrows ↦ ⟨fun q hq ↦ ?_, fun q hq ↦ ?_⟩, ?_, ?_⟩
  · obtain ⟨rows, hrows⟩ := exists_rowsOf (hids ▸ hall)
    exact lookup_of_noReplica hrows ((hhot hrows).2 hsome)
      (replicaFor_eq_error (hgroups ▸ hreaches))
  · obtain ⟨rows, hrows⟩ := exists_rowsOf (hids ▸ hall)
    obtain ⟨m, hm⟩ := hkeeps.exists_lookup hrows fun hne ↦
      exists_replicaFor_of_build hbuild hrows hne (hreaches ((hhot hrows).1 hne))
    exact ⟨m, hm.result, hids ▸ hkeeps.holds.answer hm⟩
  · obtain ⟨hposition, hlt⟩ := hkeeps.hotPart_inRange hq
    exact ⟨length_of_rowsOf hrows ▸ hposition, fun source hsource ↦
      (hkeeps.hot device source hsource).numRows ▸ hlt⟩
  · obtain ⟨hposition, hlt⟩ := hkeeps.coldPart_inRange hrows hq
    exact ⟨length_of_rowsOf hrows ▸ hposition, hkeeps.cold.numRows ▸ hlt⟩
  · intro count parts hplacement hsplit
    obtain ⟨pieces, htiles⟩ := Partitions.exists_tiles_of_split hsplit
    refine ⟨cold_of_build hcold hbuild hplacement hsplit, fun rows places _ hplaces q hq r hr ↦ ?_⟩
    have hinRange := htiles.request_inRange hplaces hq hr
    rwa [List.length_map] at hinRange
  · intro q u device' m m' hdata hids' hcold' hbuild' hm hm'
    have hkeeps' : u.Keeps p.data := hdata ▸ keeps_of_build hcold' hbuild'
    have hsame : t.ids = u.ids := hids.trans (hids'.symm.trans (fields_of_build hbuild').1.symm)
    exact hkeeps.holds.eq_of_lookup hkeeps'.holds hsame hm hm'

/-- Three rows, the groups of one ID and with a device in common, the backing in two partitions. -/
def small : Plan where
  data := ⟨2, #[[1, 2], [3, 4], [5, 6]], by simp⟩
  ids := .ofDistinct [(10, 0), (11, 2), (12, 1)]
  splitRatio := 0.5
  groups := [⟨7, [0, 1]⟩, ⟨7, [1, 2]⟩]
  coldPlacement := .partitioned 2

theorem exists_build_small : ∃ t, small.build = .ok t := by
  obtain ⟨copies, hcopies⟩ : ∃ copies, small.copies = .ok copies := by
    rw [Plan.copies]
    split
    · exact exists_replicate _ (by decide)
    · exact ⟨∅, rfl⟩
  obtain ⟨parts, hparts⟩ :
      ∃ parts, Partitions.split (small.data.drop small.hotRows) 2 = .ok parts :=
    ⟨_, Partitions.split_eq_ok_iff.2 ⟨by decide, rfl⟩⟩
  have hcold : small.coldBacking = .ok parts.toSource := by
    rw [coldBacking]
    simp only [small] at hparts ⊢
    rw [hparts]
    rfl
  exact ⟨_, build_eq_ok_iff.2
    ⟨if_pos (by decide), rfl, by simp [small], copies, hcopies, _, hcold, rfl⟩⟩

theorem lookup_answers_small :
    ∃ t, small.coldSource = none ∧ small.build = .ok t ∧
      ∀ ids device, small.Answers t ids device := by
  obtain ⟨t, hbuild⟩ := exists_build_small
  exact ⟨t, rfl, hbuild, fun ids device ↦ lookup_answers rfl hbuild ids device⟩

end Plan

end HopSampler.FeatureTable
