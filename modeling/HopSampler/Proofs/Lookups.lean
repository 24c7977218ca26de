import HopSampler.Feature.Table
import HopSampler.Proofs.Backings

/-!
# Look-ups in feature tables

A look-up finds the row numbers of its IDs, splits them into hot and cold ones, and puts two blocks
back together. Each row number goes into one of the two parts, with its position (`mem_hotPart_iff`,
`mem_coldPart_iff`), so the blocks fill the answer.

**Two grades of trust.** A table `Holds` a matrix when its sources yield the hot and the cold rows
of it; then an answer, if there is one, is right (`Holds.selects`). A table that a plan makes from
its own data has sources that serve these rows, and then it is known when there is an answer
(`Keeps.exists_lookup`). Where the rows are kept does not show in it.
-/

namespace HopSampler

/-- The row of an ID, where the map says which row of the matrix that is. -/
def IdMap.rowIn? (m : IdMap) (data : Matrix) (id : Id) : Option Row :=
  (m.get? id).bind (data.rows[·]?)

namespace FeatureTable

variable {t : FeatureTable} {ids : List Id} {rows : List Nat} {device : UInt64}

/-! ### Row numbers -/

private theorem rowsOf_lookup (t : FeatureTable) (id : Id) :
    (match t.ids.get? id with
      | some row => .ok row
      | none => .error (.unknownEntity t.entity id) : Except Error Nat) =
      (t.ids.get? id).elim (.error (.unknownEntity t.entity id)) .ok := by
  cases t.ids.get? id <;> rfl

theorem rowsOf_eq_ok_iff : t.rowsOf ids = .ok rows ↔ ids.map t.ids.get? = rows.map some :=
  mapM_lookup_eq_ok_iff t.rowsOf_lookup

theorem exists_rowsOf (h : ∀ id ∈ ids, ∃ row, t.ids.get? id = some row) :
    ∃ rows, t.rowsOf ids = .ok rows :=
  exists_mapM_lookup_eq_ok t.rowsOf_lookup h

theorem rowsOf_eq_error {id : Id} (h : ids.find? (fun id ↦ (t.ids.get? id).isNone) = some id) :
    t.rowsOf ids = .error (.unknownEntity t.entity id) :=
  mapM_lookup_eq_error t.rowsOf_lookup h

theorem map_rowIn? (h : t.rowsOf ids = .ok rows) (data : Matrix) :
    ids.map (t.ids.rowIn? data) = rows.map (data.rows[·]?) := by
  have hrow : t.ids.rowIn? data = (Option.bind · (data.rows[·]?)) ∘ t.ids.get? := rfl
  rw [hrow, ← List.map_map, rowsOf_eq_ok_iff.1 h, List.map_map]
  rfl

theorem length_of_rowsOf (h : t.rowsOf ids = .ok rows) : rows.length = ids.length :=
  (List.length_map some).symm.trans ((congrArg List.length (rowsOf_eq_ok_iff.1 h)).symm.trans
    (List.length_map _))

/-! ### Hot and cold parts -/

theorem mem_hotPart_iff {q : Nat × Nat} :
    q ∈ t.hotPart rows ↔ rows[q.1]? = some q.2 ∧ q.2 < t.hotRows := by
  obtain ⟨position, row⟩ := q
  rw [hotPart, List.mem_filterMap]
  constructor
  · rintro ⟨⟨row', position'⟩, hmem, hq⟩
    have hat := List.mem_zipIdx_iff_getElem?.1 hmem
    dsimp only at hq
    split at hq
    · next hlt =>
      cases hq
      exact ⟨hat, hlt⟩
    · cases hq
  · rintro ⟨hat, hlt⟩
    exact ⟨(row, position), List.mem_zipIdx_iff_getElem?.2 hat, if_pos hlt⟩

theorem mem_coldPart_iff {q : Nat × Nat} :
    q ∈ t.coldPart rows ↔ rows[q.1]? = some (t.hotRows + q.2) := by
  obtain ⟨position, place⟩ := q
  rw [coldPart, List.mem_filterMap]
  constructor
  · rintro ⟨⟨row, position'⟩, hmem, hq⟩
    have hat := List.mem_zipIdx_iff_getElem?.1 hmem
    dsimp only at hq
    split at hq
    · cases hq
    · next hge =>
      cases hq
      dsimp only at hat ⊢
      rw [hat, Nat.add_sub_cancel' (Nat.le_of_not_lt hge)]
  · intro hat
    refine ⟨(t.hotRows + place, position), List.mem_zipIdx_iff_getElem?.2 hat, ?_⟩
    simp

/-- Every position is in one of the parts. -/
theorem mem_part {i row : Nat} (h : rows[i]? = some row) :
    i ∈ (t.hotPart rows).map (·.1) ∨ i ∈ (t.coldPart rows).map (·.1) := by
  rcases Nat.lt_or_ge row t.hotRows with hlt | hge
  · have hmem : (i, row) ∈ t.hotPart rows := mem_hotPart_iff.2 ⟨h, hlt⟩
    exact .inl (List.mem_map_of_mem hmem)
  · have hmem : (i, row - t.hotRows) ∈ t.coldPart rows :=
      mem_coldPart_iff.2 (by rw [h, Nat.add_sub_cancel' hge])
    exact .inr (List.mem_map_of_mem hmem)

/-- There are hot rows to ask for if the row of some ID is hot. -/
theorem hotPart_ne_nil_iff (h : t.rowsOf ids = .ok rows) :
    t.hotPart rows ≠ [] ↔ ∃ id ∈ ids, ∃ row, t.ids.get? id = some row ∧ row < t.hotRows := by
  have heq := rowsOf_eq_ok_iff.1 h
  constructor
  · intro hne
    obtain ⟨q, hq⟩ := List.exists_mem_of_ne_nil _ hne
    obtain ⟨hat, hlt⟩ := mem_hotPart_iff.1 hq
    have hmem : some q.2 ∈ ids.map t.ids.get? :=
      heq ▸ List.mem_map_of_mem (List.mem_of_getElem? hat)
    obtain ⟨id, hid, hrow⟩ := List.mem_map.1 hmem
    exact ⟨id, hid, q.2, hrow, hlt⟩
  · rintro ⟨id, hid, row, hrow, hlt⟩
    have hmem : some row ∈ rows.map some := heq ▸ List.mem_map.2 ⟨id, hid, hrow⟩
    obtain ⟨i, hi⟩ := List.mem_iff_getElem?.1
      ((List.mem_map_of_injective (Option.some_injective _)).1 hmem)
    exact List.ne_nil_of_mem (mem_hotPart_iff.2 ⟨hi, hlt⟩ : (i, _) ∈ t.hotPart rows)

/-- There are no cold rows to ask for if the row of every ID is hot. -/
theorem coldPart_eq_nil (h : t.rowsOf ids = .ok rows)
    (hhot : ∀ id ∈ ids, ∃ row, t.ids.get? id = some row ∧ row < t.hotRows) :
    t.coldPart rows = [] := by
  refine List.eq_nil_iff_forall_not_mem.2 fun q hq ↦ ?_
  have hmem : some (t.hotRows + q.2) ∈ ids.map t.ids.get? :=
    rowsOf_eq_ok_iff.1 h ▸ List.mem_map_of_mem (List.mem_of_getElem? (mem_coldPart_iff.1 hq))
  obtain ⟨id, hid, hcold⟩ := List.mem_map.1 hmem
  obtain ⟨row, hrow, hlt⟩ := hhot id hid
  obtain rfl : row = t.hotRows + q.2 := Option.some.inj (hrow.symm.trans hcold)
  exact absurd hlt (Nat.not_lt.2 (Nat.le_add_right ..))

/-! ### Fetching a part -/

theorem fetchPart_gives_iff {source : RowSource} {part : List (Nat × Nat)} {limit : Option Nat}
    {placed : List Nat × Matrix} : (t.fetchPart source part).Gives limit placed ↔
      if part = [] then placed = ([], .empty t.width)
      else (source.fetchPlaced t.width part).Gives limit placed := by
  rw [fetchPart]
  split
  · rw [Delayed.now_gives_iff, Except.ok.injEq, eq_comm]
  · rfl

/-- What is fetched for a part fills its positions. -/
theorem fills_of_fetchPart {source : RowSource} {part : List (Nat × Nat)} {piece : Matrix}
    {wanted : List Row} (hwidth : t.width = piece.width) (hyields : part ≠ [] → source.Yields piece)
    (hwanted : ∀ q ∈ part, wanted[q.1]? = piece.rows[q.2]?) {limit : Option Nat}
    {placed : List Nat × Matrix} (h : (t.fetchPart source part).Gives limit placed) :
    Matrix.Fills wanted t.width placed ∧ placed.1 = part.map (·.1) := by
  rw [fetchPart_gives_iff] at h
  split at h
  · next hnil =>
    rw [h, hnil]
    exact ⟨⟨rfl, rfl⟩, rfl⟩
  · next hne =>
    have hpositions := (RowSource.fetchPlaced_gives_iff.1 h).2
    rw [hwidth] at h ⊢
    exact ⟨(hyields hne).fills hwanted h, hpositions⟩

/-- And the rows that are fetched are in range. -/
theorem lt_of_fetchPart {source : RowSource} {part : List (Nat × Nat)} {piece : Matrix}
    (hwidth : t.width = piece.width) (hyields : source.Yields piece) {limit : Option Nat}
    {placed : List Nat × Matrix} (h : (t.fetchPart source part).Gives limit placed) {q : Nat × Nat}
    (hq : q ∈ part) : q.2 < piece.height := by
  rw [fetchPart_gives_iff, if_neg (List.ne_nil_of_mem hq), hwidth] at h
  have hblock := (RowSource.fetchPlaced_gives_iff.1 h).1
  exact (hyields _ _ hblock.result).lt (List.mem_map_of_mem hq)

/-- Where all rows are in range, a part is fetched. -/
theorem exists_fetchPart {source : RowSource} {part : List (Nat × Nat)} {piece : Matrix}
    (hwidth : t.width = piece.width) (hserves : part ≠ [] → source.Serves piece)
    (hrange : ∀ q ∈ part, q.2 < piece.height) :
    ∃ placed, (t.fetchPart source part).Gives none placed := by
  simp only [fetchPart_gives_iff]
  split
  · exact ⟨_, rfl⟩
  · next hne => exact hwidth ▸ (hserves hne).exists_fetchPlaced hrange

/-! ### The answer -/

/-- The sources of the table yield the rows of `data`. -/
structure Holds (t : FeatureTable) (data : Matrix) : Prop where
  width : t.width = data.width
  hotRows : t.hotRows ≤ data.height
  hot : ∀ device source, t.replicaFor device = .ok source → source.Yields (data.take t.hotRows)
  cold : t.cold.Yields (data.drop t.hotRows)

theorem lookup_gives_iff {limit : Option Nat} {m : Matrix} :
    (t.lookup ids device).Gives limit m ↔ ∃ rows replica hot cold, t.rowsOf ids = .ok rows ∧
      t.hotSource rows device = .ok replica ∧
        (t.fetchPart replica (t.hotPart rows)).Gives limit hot ∧
          (t.fetchPart t.cold (t.coldPart rows)).Gives limit cold ∧
            .scatter ids.length t.width [hot, cold] = m := by
  constructor
  · intro h
    rw [lookup] at h
    split at h
    · cases h.result
    · next rows hrows =>
      split at h
      · cases h.result
      · next replica hreplica =>
        obtain ⟨⟨hot, cold⟩, hboth, hm⟩ := Delayed.map_gives_iff.1 h
        obtain ⟨hhot, hcold⟩ := Delayed.both_gives_iff.1 hboth
        exact ⟨rows, replica, hot, cold, hrows, hreplica, hhot, hcold, hm⟩
  · rintro ⟨rows, replica, hot, cold, hrows, hreplica, hhot, hcold, hm⟩
    simp only [lookup, hrows, hreplica]
    exact Delayed.map_gives_iff.2 ⟨(hot, cold), Delayed.both_gives_iff.2 ⟨hhot, hcold⟩, hm⟩

/-- All IDs of a look-up that succeeds are registered. -/
theorem registered_of_lookup {limit : Option Nat} {m : Matrix}
    (h : (t.lookup ids device).Gives limit m) {id : Id} (hid : id ∈ ids) :
    ∃ row, t.ids.get? id = some row := by
  obtain ⟨rows, -, -, -, hrows, -⟩ := lookup_gives_iff.1 h
  have hmem : t.ids.get? id ∈ rows.map some :=
    rowsOf_eq_ok_iff.1 hrows ▸ List.mem_map_of_mem hid
  obtain ⟨row, -, hrow⟩ := List.mem_map.1 hmem
  exact ⟨row, hrow.symm⟩

/-- Two blocks that fill their parts are put together to the rows that were asked for. -/
theorem scatter_parts {data block : Matrix} (hselects : data.Selects rows block)
    {hot cold : List Nat × Matrix}
    (hhot : Matrix.Fills block.rows.toList data.width hot)
    (hhot' : hot.1 = (t.hotPart rows).map (·.1))
    (hcold : Matrix.Fills block.rows.toList data.width cold)
    (hcold' : cold.1 = (t.coldPart rows).map (·.1)) :
    .scatter rows.length data.width [hot, cold] = block := by
  have hlength : block.rows.toList.length = rows.length := block.length_rows.trans hselects.height
  have hall : ∀ i < block.rows.toList.length, ∃ placed ∈ [hot, cold], i ∈ placed.1 := by
    intro i hi
    rcases mem_part (List.getElem?_eq_getElem (hlength ▸ hi)) with hmem | hmem
    · exact ⟨hot, List.mem_cons_self, hhot' ▸ hmem⟩
    · exact ⟨cold, List.mem_cons_of_mem _ List.mem_cons_self, hcold' ▸ hmem⟩
  obtain ⟨hwidth, hrows⟩ :=
    Matrix.rows_scatter (List.forall_mem_cons.2 ⟨hhot, List.forall_mem_singleton.2 hcold⟩) hall
  rw [← hlength]
  exact Matrix.ext_rows (hwidth.trans hselects.width.symm) hrows

/-- The hot rows of a request are rows of the hot rows. -/
theorem wanted_hotPart {data block : Matrix} (hhot : t.hotRows ≤ data.height)
    (hselects : data.Selects rows block) {q : Nat × Nat} (hq : q ∈ t.hotPart rows) :
    block.rows.toList[q.1]? = (data.take t.hotRows).rows[q.2]? := by
  obtain ⟨hat, hlt⟩ := mem_hotPart_iff.1 hq
  rw [hselects.getElem?_of hat, Matrix.getElem?_take hhot hlt]

theorem wanted_coldPart {data block : Matrix} (hselects : data.Selects rows block) {q : Nat × Nat}
    (hq : q ∈ t.coldPart rows) :
    block.rows.toList[q.1]? = (data.drop t.hotRows).rows[q.2]? := by
  rw [hselects.getElem?_of (mem_coldPart_iff.1 hq), Matrix.getElem?_drop]

/-- **What a look-up answers is right**, in a table that holds a matrix. -/
theorem Holds.selects {data : Matrix} (h : t.Holds data) {limit : Option Nat} {m : Matrix}
    (hlookup : (t.lookup ids device).Gives limit m) :
    ∃ rows, t.rowsOf ids = .ok rows ∧ data.Selects rows m := by
  obtain ⟨rows, replica, hot, cold, hrows, hreplica, hhot, hcold, rfl⟩ := lookup_gives_iff.1 hlookup
  refine ⟨rows, hrows, ?_⟩
  have hwidth : t.width = (data.take t.hotRows).width := h.width
  have hwidth' : t.width = (data.drop t.hotRows).width := h.width
  have hyields : t.hotPart rows ≠ [] → replica.Yields (data.take t.hotRows) := fun hne ↦ by
    rw [hotSource, if_neg hne] at hreplica
    exact h.hot device replica hreplica
  -- a cold row that was fetched is in range, and a hot one is anyway
  have hrange : ∀ row ∈ rows, row < data.height := by
    intro row hrow
    obtain ⟨i, hi⟩ := List.mem_iff_getElem?.1 hrow
    rcases Nat.lt_or_ge row t.hotRows with hlt | hge
    · exact Nat.lt_of_lt_of_le hlt h.hotRows
    · have hmem : (i, row - t.hotRows) ∈ t.coldPart rows :=
        mem_coldPart_iff.2 (by rw [hi, Nat.add_sub_cancel' hge])
      have hlt := lt_of_fetchPart hwidth' h.cold hcold hmem
      rw [Matrix.height_drop] at hlt
      omega
  have hselects := Matrix.selects_gather hrange
  obtain ⟨hfills, hpositions⟩ := fills_of_fetchPart hwidth hyields
    (fun q hq ↦ wanted_hotPart h.hotRows hselects hq) hhot
  obtain ⟨hfills', hpositions'⟩ := fills_of_fetchPart hwidth' (fun _ ↦ h.cold)
    (fun q hq ↦ wanted_coldPart hselects hq) hcold
  rw [h.width] at hfills hfills'
  rw [← length_of_rowsOf hrows, h.width,
    scatter_parts hselects hfills hpositions hfills' hpositions']
  exact hselects

/-- The name of a table does not matter. -/
theorem Holds.withEntity {data : Matrix} (h : t.Holds data) (entity : Entity) :
    ({ t with entity } : FeatureTable).Holds data :=
  ⟨h.width, h.hotRows, h.hot, h.cold⟩

/-- The same in terms of IDs: the answer has the row of each, in order. -/
theorem Holds.answer {data : Matrix} (h : t.Holds data) {limit : Option Nat} {m : Matrix}
    (hlookup : (t.lookup ids device).Gives limit m) :
    m.width = data.width ∧ m.rows.toList.map some = ids.map (t.ids.rowIn? data) := by
  obtain ⟨rows, hrows, hselects⟩ := h.selects hlookup
  exact ⟨hselects.width, by rw [hselects.rows, map_rowIn? hrows]⟩

/-- Tables that hold the same rows for the same IDs do not answer differently. -/
theorem Holds.eq_of_lookup {data : Matrix} {t' : FeatureTable} {device' : UInt64} (h : t.Holds data)
    (h' : t'.Holds data) (hids : t.ids = t'.ids) {m m' : Matrix}
    (hm : (t.lookup ids device).result = .ok m) (hm' : (t'.lookup ids device').result = .ok m') :
    m = m' := by
  obtain ⟨hwidth, hrows⟩ := h.answer (Delayed.gives_none_iff.2 hm)
  obtain ⟨hwidth', hrows'⟩ := h'.answer (Delayed.gives_none_iff.2 hm')
  rw [← hids] at hrows'
  exact Matrix.ext_rows (hwidth.trans hwidth'.symm)
    (List.map_injective_iff.2 (Option.some_injective _) (hrows.trans hrows'.symm))

end FeatureTable

end HopSampler
