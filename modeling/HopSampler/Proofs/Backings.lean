import HopSampler.Feature.Source
import HopSampler.Proofs.Blocks
import HopSampler.Proofs.Chunks
import HopSampler.Proofs.Delays

/-!
# Backings

What a source answers is not trusted, so it is related to a matrix from outside. A source `Serves` a
matrix when every fetch is answered as by the rows in memory, failures included; it `Yields` a
matrix when its answers of the right shape are right, and may fail or be late as it likes.

**Partitions serve the whole.** Sources that serve pieces, laid end to end, serve the matrix that
the pieces make up (`Partitions.Tiles.serves_toSource`): a row is located in one piece (`Located`),
every request to a piece is in its range, and whatever is awaited first, the blocks fill the answer
position by position. Splitting a matrix makes such pieces (`Partitions.exists_tiles_of_split`).
-/

-- Sums start from the numeral, also where zero comes with more structure.
attribute [local instance (high)] Zero.ofOfNat0

namespace HopSampler

/-! ### Rows in memory -/

namespace RowSource

theorem gather_eq_ok_iff {data block : Matrix} {places : List Nat} :
    gather data places = .ok block ↔ data.Selects places block := by
  rw [gather]
  split
  · next place hfind =>
    have hpast : data.height ≤ place := of_decide_eq_true (List.find?_some hfind :)
    refine ⟨nofun, fun h ↦ absurd (h.lt (List.mem_of_find?_eq_some hfind)) (Nat.not_lt.2 hpast)⟩
  · next hfind =>
    have hrange : ∀ place ∈ places, place < data.height := fun place hplace ↦ by
      simpa using List.find?_eq_none.1 hfind place hplace
    have hselects := Matrix.selects_gather hrange
    exact ⟨fun h ↦ Except.ok.inj h ▸ hselects, fun h ↦ congrArg _ (hselects.eq h)⟩

/-! ### Sources against a matrix -/

/-- Every fetch is answered as by the rows of the matrix in memory. -/
structure Serves (source : RowSource) (data : Matrix) : Prop where
  numRows : source.numRows = data.height
  width : source.width = data.width
  fetch : ∀ places, (source.fetch places).result = gather data places

/-- Answers of the right shape are rows of the matrix. -/
def Yields (source : RowSource) (data : Matrix) : Prop :=
  ∀ places block, (source.fetchChecked data.width places).result = .ok block →
    data.Selects places block

theorem serves_held (placement : Placement) (data : Matrix) : (held placement data).Serves data :=
  ⟨rfl, rfl, fun _ ↦ rfl⟩

variable {source : RowSource} {data : Matrix}

theorem Serves.fetchChecked_eq_ok_iff (h : source.Serves data) {places : List Nat}
    {block : Matrix} : (source.fetchChecked data.width places).result = .ok block ↔
      data.Selects places block := by
  rw [← Delayed.gives_none_iff, fetchChecked, Delayed.check_gives_iff]
  simp only [Delayed.gives_none_iff, h.fetch, gather_eq_ok_iff, checkBlock, ite_ok_eq_ok_iff,
    Except.ok.injEq]
  constructor
  · rintro ⟨_, hselects, -, rfl⟩
    exact hselects
  · intro hselects
    exact ⟨block, hselects, ⟨hselects.height, hselects.width⟩, rfl⟩

theorem Serves.yields (h : source.Serves data) : source.Yields data :=
  fun _ _ ↦ h.fetchChecked_eq_ok_iff.1

/-! ### Rows wanted at positions -/

theorem fetchPlaced_gives_iff {width : Nat} {request : List (Nat × Nat)} {limit : Option Nat}
    {placed : List Nat × Matrix} : (source.fetchPlaced width request).Gives limit placed ↔
      (source.fetchChecked width (request.map (·.2))).Gives limit placed.2 ∧
        placed.1 = request.map (·.1) := by
  rw [fetchPlaced, Delayed.map_gives_iff]
  constructor
  · rintro ⟨block, hblock, rfl⟩
    exact ⟨hblock, rfl⟩
  · rintro ⟨hblock, hplaced⟩
    exact ⟨placed.2, hblock, Prod.ext hplaced.symm rfl⟩

/-- Rows in memory are there at once. -/
theorem fetchPlaced_held (placement : Placement) {request : List (Nat × Nat)} {block : Matrix}
    (h : data.Selects (request.map (·.2)) block) :
    (held placement data).fetchPlaced data.width request =
      .now (.ok (request.map (·.1), block)) := by
  have hgather : gather data (request.map (·.2)) = .ok block := gather_eq_ok_iff.2 h
  have hcheck : checkBlock (request.map (·.2)).length data.width block = .ok block :=
    if_pos ⟨h.height, h.width⟩
  simp only [fetchPlaced, fetchChecked, held, hgather, Delayed.map, Delayed.check, Delayed.now,
    Except.bind, hcheck]

/-- Rows that are in range are fetched. -/
theorem Serves.exists_fetchPlaced (h : source.Serves data) {request : List (Nat × Nat)}
    (hrange : ∀ q ∈ request, q.2 < data.height) :
    ∃ placed, (source.fetchPlaced data.width request).Gives none placed := by
  have hselects : data.Selects (request.map (·.2)) _ := Matrix.selects_gather fun place hplace ↦ by
    obtain ⟨q, hq, rfl⟩ := List.mem_map.1 hplace
    exact hrange q hq
  exact ⟨(request.map (·.1), _), fetchPlaced_gives_iff.2
    ⟨Delayed.gives_none_iff.2 (h.fetchChecked_eq_ok_iff.2 hselects), rfl⟩⟩

/-- And what is fetched fills the positions it is wanted at. -/
theorem Yields.fills (h : source.Yields data) {wanted : List Row} {request : List (Nat × Nat)}
    (hwanted : ∀ q ∈ request, wanted[q.1]? = data.rows[q.2]?) {limit : Option Nat}
    {placed : List Nat × Matrix}
    (hgives : (source.fetchPlaced data.width request).Gives limit placed) :
    Matrix.Fills wanted data.width placed := by
  obtain ⟨hblock, hpositions⟩ := fetchPlaced_gives_iff.1 hgives
  have hselects := h _ _ hblock.result
  refine ⟨hselects.width, ?_⟩
  rw [hselects.rows, hpositions, List.map_map, List.map_map]
  exact List.map_congr_left fun q hq ↦ (hwanted q hq).symm

end RowSource

/-! ### Partitions -/

namespace Partitions

/-- Sources that serve the pieces a matrix is made of. -/
structure Tiles (p : Partitions) (data : Matrix) (pieces : List Matrix) : Prop where
  width : p.width = data.width
  widths : ∀ piece ∈ pieces, piece.width = data.width
  rows : pieces.flatMap (·.rows.toList) = data.rows.toList
  serves : List.Forall₂ RowSource.Serves p.parts pieces

/-- A row of the pieces, taken together, is found in one of them. -/
def Located (pieces : List Matrix) (row : Nat) (place : Nat × Nat) : Prop :=
  ∃ piece, pieces[place.1]? = some piece ∧ place.2 < piece.height ∧
    piece.rows[place.2]? = (pieces.flatMap (·.rows.toList))[row]?

variable {parts : List RowSource} {pieces : List Matrix}

/-- The part that holds a row, counted from `first`, and the row's number there, part by part. -/
def locate? (first : Nat) : List RowSource → Nat → Option (Nat × Nat)
  | [], _ => none
  | part :: rest, row =>
    if row < part.numRows then some (first, row) else locate? (first + 1) rest (row - part.numRows)

theorem locate?_eq_none_iff {first row : Nat} :
    locate? first parts row = none ↔ (parts.map (·.numRows)).sum ≤ row := by
  induction parts generalizing first row with
  | nil => simp [locate?]
  | cons part parts ih =>
    rw [locate?, List.map_cons, List.sum_cons]
    split
    · next hlt => exact ⟨nofun, fun hle ↦ absurd hlt (by omega)⟩
    · next hge =>
      rw [ih]
      omega

/-- What is located is there. -/
theorem located_of_locate? (h : List.Forall₂ RowSource.Serves parts pieces) {first row : Nat}
    {place : Nat × Nat} (hloc : locate? first parts row = some place) :
    ∃ k, place.1 = first + k ∧ Located pieces row (k, place.2) := by
  induction h generalizing first row with
  | nil => cases hloc
  | @cons part piece parts pieces hpart _ ih =>
    rw [locate?, hpart.numRows] at hloc
    split at hloc
    · next hlt =>
      cases hloc
      refine ⟨0, rfl, piece, rfl, hlt, ?_⟩
      rw [List.flatMap_cons, List.getElem?_append_left (piece.length_rows ▸ hlt),
        Array.getElem?_toList]
    · next hge =>
      obtain ⟨k, hk, found, hfound, hlt, hrow⟩ := ih hloc
      refine ⟨k + 1, by omega, found, hfound, hlt, ?_⟩
      have hpast : piece.rows.toList.length ≤ row := piece.length_rows ▸ Nat.le_of_not_lt hge
      rw [hrow, List.flatMap_cons, List.getElem?_append_right hpast, Matrix.length_rows]

theorem mem_requestOf_iff {places : List (Nat × Nat)} {part : Nat} {q : Nat × Nat} :
    q ∈ requestOf places part ↔ places[q.1]? = some (part, q.2) := by
  obtain ⟨position, row⟩ := q
  rw [requestOf, List.mem_filterMap]
  constructor
  · rintro ⟨⟨⟨owner, row'⟩, position'⟩, hmem, hq⟩
    have hat := List.mem_zipIdx_iff_getElem?.1 hmem
    dsimp only at hq
    split at hq
    · next howner =>
      cases hq
      exact howner ▸ hat
    · cases hq
  · intro hat
    exact ⟨((part, row), position), List.mem_zipIdx_iff_getElem?.2 hat, if_pos rfl⟩

theorem mem_requests_iff {p : Partitions} {places : List (Nat × Nat)}
    {q : RowSource × List (Nat × Nat)} : q ∈ p.requests places ↔
      ∃ k, p.parts[k]? = some q.1 ∧ q.2 = requestOf places k ∧ q.2 ≠ [] := by
  obtain ⟨part, request⟩ := q
  rw [requests, List.mem_filterMap]
  constructor
  · rintro ⟨⟨part', k⟩, hmem, hq⟩
    have hat := List.mem_zipIdx_iff_getElem?.1 hmem
    dsimp only at hq
    split at hq
    · cases hq
    · next hne =>
      cases hq
      exact ⟨k, hat, rfl, hne⟩
  · rintro ⟨k, hat, hrequest, hne⟩
    refine ⟨(part, k), List.mem_zipIdx_iff_getElem?.2 hat, ?_⟩
    dsimp only at hrequest hne ⊢
    split
    · next hnil => exact absurd (hrequest.trans hnil) hne
    · rw [hrequest]

variable {p : Partitions} {data : Matrix}

theorem Tiles.numRows (h : p.Tiles data pieces) : p.numRows = data.height := by
  rw [Partitions.numRows, ← Matrix.length_rows, ← h.rows]
  have hserves := h.serves
  generalize p.parts = parts at hserves
  clear h
  induction hserves with
  | nil => rfl
  | @cons part piece parts pieces hpart _ ih =>
    rw [List.map_cons, List.sum_cons, ih, List.flatMap_cons, List.length_append, hpart.numRows,
      Matrix.length_rows]

/-- The last offset is the row after the last. -/
theorem getLast?_offsetsFrom (first : Nat) (parts : List RowSource) :
    (offsetsFrom first parts).getLast? = some (first + (parts.map (·.numRows)).sum) := by
  induction parts generalizing first with
  | nil => rfl
  | cons part rest ih =>
    obtain ⟨offset, more, hrest⟩ : ∃ offset more, offsetsFrom (first + part.numRows) rest =
        offset :: more := by cases rest <;> exact ⟨_, _, rfl⟩
    rw [offsetsFrom, hrest, List.getLast?_cons_cons, ← hrest, ih, List.map_cons, List.sum_cons,
      Nat.add_assoc]

/-- So there are as many rows as the last offset says. -/
theorem getLast?_offsets (p : Partitions) : p.offsets.getLast? = some p.numRows := by
  rw [offsets, getLast?_offsetsFrom, Nat.zero_add]
  rfl

/-- **A row is in the last part that starts at or before it**: offsets repeat where parts are empty,
and of equal ones the last counts. -/
theorem locate?_eq_offsets {first start row : Nat} (hstart : start ≤ row)
    (hrow : row < start + (parts.map (·.numRows)).sum) :
    ∃ k offset, ((offsetsFrom start parts).takeWhile (· ≤ row)).length = k + 1 ∧
      (offsetsFrom start parts)[k]? = some offset ∧ offset ≤ row ∧
      locate? first parts (row - start) = some (first + k, row - offset) := by
  induction parts generalizing first start with
  | nil => exact absurd hrow (by simp; omega)
  | cons part rest ih =>
    rw [List.map_cons, List.sum_cons] at hrow
    have htake : (offsetsFrom start (part :: rest)).takeWhile (· ≤ row) =
        start :: (offsetsFrom (start + part.numRows) rest).takeWhile (· ≤ row) :=
      List.takeWhile_cons_of_pos (decide_eq_true hstart)
    rw [htake, locate?]
    split
    · next hlt =>
      have hnext : (offsetsFrom (start + part.numRows) rest).takeWhile (· ≤ row) = [] := by
        cases rest <;> exact List.takeWhile_cons_of_neg (by simp; omega)
      exact ⟨0, start, by rw [hnext]; rfl, rfl, hstart, rfl⟩
    · next hge =>
      obtain ⟨k, offset, hlength, hoffset, hle, hloc⟩ :=
        @ih (first + 1) (start + part.numRows) (by omega) (by omega)
      refine ⟨k + 1, offset, by rw [List.length_cons, hlength], hoffset, hle, ?_⟩
      rw [Nat.sub_sub, hloc, Nat.add_assoc, Nat.add_comm 1 k]

/-- **The search in the offsets finds what going from part to part finds.** -/
theorem locate_eq (p : Partitions) (row : Nat) :
    p.locate row =
      (locate? 0 p.parts row).elim (.error (.input (.rowOutsideBacking row p.numRows))) .ok := by
  rw [locate]
  split
  · next hout =>
    rw [locate?_eq_none_iff.2 hout]
    rfl
  · next hin =>
    have hrow : row < 0 + (p.parts.map (·.numRows)).sum := by
      rw [Nat.zero_add]
      exact Nat.lt_of_not_le hin
    obtain ⟨k, offset, hlength, hoffset, -, hloc⟩ :=
      @locate?_eq_offsets p.parts 0 0 row (Nat.zero_le row) hrow
    rw [Nat.sub_zero, Nat.zero_add] at hloc
    have hgetD : (offsetsFrom 0 p.parts).getD k 0 = offset := by
      rw [List.getD_eq_getElem?_getD, hoffset, Option.getD_some]
    rw [hloc, offsets, hlength, Nat.add_sub_cancel]
    show Except.ok (k, row - (offsetsFrom 0 p.parts).getD k 0) = .ok (k, row - offset)
    rw [hgetD]

theorem locateAll_eq_ok_iff {rows : List Nat} {places : List (Nat × Nat)} :
    p.locateAll rows = .ok places ↔ rows.map (locate? 0 p.parts) = places.map some :=
  mapM_lookup_eq_ok_iff p.locate_eq

/-- Rows in range are located. -/
theorem exists_locateAll {rows : List Nat} (h : ∀ row ∈ rows, row < p.numRows) :
    ∃ places, p.locateAll rows = .ok places := by
  refine exists_mapM_lookup_eq_ok p.locate_eq fun row hrow ↦ ?_
  rw [← Option.ne_none_iff_exists', ne_eq, locate?_eq_none_iff]
  exact Nat.not_le.2 (h row hrow)

/-- Rows that are located are there. -/
theorem Tiles.located (h : p.Tiles data pieces) {rows : List Nat} {places : List (Nat × Nat)}
    (hplaces : p.locateAll rows = .ok places) : List.Forall₂ (Located pieces) rows places := by
  have heq := locateAll_eq_ok_iff.1 hplaces
  have hpairs : List.Forall₂ (fun row place ↦ locate? 0 p.parts row = some place) rows places :=
    List.forall₂_map_left_iff.1 (List.forall₂_map_right_iff.1
      ((congrFun₂ List.forall₂_eq_eq_eq _ _).mpr heq))
  refine hpairs.imp fun row place hloc ↦ ?_
  obtain ⟨k, hk, hlocated⟩ := located_of_locate? h.serves hloc
  obtain rfl : place.1 = k := hk.trans (Nat.zero_add k)
  exact hlocated

/-- The first row out of range decides. -/
theorem Tiles.locateAll_eq_error (h : p.Tiles data pieces) {rows : List Nat} {row : Nat}
    (hfind : rows.find? (data.height ≤ ·) = some row) :
    p.locateAll rows = .error (.input (.rowOutsideBacking row data.height)) := by
  have hmissing : (fun row ↦ (locate? 0 p.parts row).isNone) = (decide <| data.height ≤ ·) :=
    funext fun row ↦ by
      rw [Bool.eq_iff_iff, Option.isNone_iff_eq_none, locate?_eq_none_iff, decide_eq_true_iff,
        ← h.numRows]
      rfl
  rw [← hmissing] at hfind
  rw [← h.numRows]
  exact mapM_lookup_eq_error p.locate_eq hfind

/-- What is asked of a partition is asked for a row that is located there. -/
theorem located_of_mem_requestOf {rows : List Nat} {places : List (Nat × Nat)}
    (hlocated : List.Forall₂ (Located pieces) rows places) {k : Nat} {piece : Matrix}
    (hpiece : pieces[k]? = some piece) {q : Nat × Nat} (hq : q ∈ requestOf places k) :
    ∃ row, rows[q.1]? = some row ∧ q.2 < piece.height ∧
      piece.rows[q.2]? = (pieces.flatMap (·.rows.toList))[row]? := by
  obtain ⟨row, hrow, found, hfound, hlt, hat⟩ :=
    exists_partner (R := fun place row ↦ Located pieces row place) hlocated.flip
      (mem_requestOf_iff.1 hq)
  obtain rfl : piece = found := Option.some.inj (hpiece.symm.trans hfound)
  exact ⟨row, hrow, hlt, hat⟩

/-- Every request is answered. -/
theorem Tiles.exists_answer (h : p.Tiles data pieces) {rows : List Nat} {places : List (Nat × Nat)}
    (hlocated : List.Forall₂ (Located pieces) rows places) {block : Matrix}
    (hselects : data.Selects rows block) {q : RowSource × List (Nat × Nat)}
    (hq : q ∈ p.requests places) :
    (∃ placed, (q.1.fetchPlaced p.width q.2).Gives none placed) ∧
      ∀ placed, (q.1.fetchPlaced p.width q.2).Gives none placed →
        Matrix.Fills block.rows.toList p.width placed := by
  obtain ⟨k, hpart, hrequest, -⟩ := mem_requests_iff.1 hq
  obtain ⟨piece, hpiece, hserves⟩ := exists_partner h.serves hpart
  have hasked : ∀ r ∈ q.2, r.2 < piece.height ∧ block.rows.toList[r.1]? = piece.rows[r.2]? := by
    intro r hr
    obtain ⟨row, hrow, hlt, hat⟩ := located_of_mem_requestOf hlocated hpiece (hrequest ▸ hr)
    exact ⟨hlt, by rw [hselects.getElem?_of hrow, hat, h.rows, Array.getElem?_toList]⟩
  rw [h.width, ← h.widths piece (List.mem_of_getElem? hpiece)]
  exact ⟨hserves.exists_fetchPlaced fun r hr ↦ (hasked r hr).1, fun placed hgives ↦
    hserves.yields.fills (fun r hr ↦ (hasked r hr).2) hgives⟩

/-- Every position is in the request to the partition that holds its row. -/
theorem Tiles.exists_request (h : p.Tiles data pieces) {rows : List Nat} {places : List (Nat × Nat)}
    (hlocated : List.Forall₂ (Located pieces) rows places) {i : Nat} (hi : i < rows.length) :
    ∃ q ∈ p.requests places, i ∈ q.2.map (·.1) := by
  obtain ⟨place, hplace, piece, hpiece, -⟩ :=
    exists_partner hlocated (List.getElem?_eq_getElem hi)
  obtain ⟨part, hpart, -⟩ :=
    exists_partner (R := fun piece part ↦ RowSource.Serves part piece) h.serves.flip hpiece
  have hmem : (i, place.2) ∈ requestOf places place.1 := mem_requestOf_iff.2 hplace
  exact ⟨(part, requestOf places place.1),
    mem_requests_iff.2 ⟨_, hpart, rfl, List.ne_nil_of_mem hmem⟩, List.mem_map_of_mem hmem⟩

/-- What is asked of a partition is in its range. -/
theorem Tiles.request_inRange (h : p.Tiles data pieces) {rows : List Nat}
    {places : List (Nat × Nat)} (hplaces : p.locateAll rows = .ok places)
    {q : RowSource × List (Nat × Nat)} (hq : q ∈ p.requests places) {r : Nat × Nat} (hr : r ∈ q.2) :
    r.1 < rows.length ∧ r.2 < q.1.numRows := by
  obtain ⟨k, hpart, hrequest, -⟩ := mem_requests_iff.1 hq
  obtain ⟨piece, hpiece, hserves⟩ := exists_partner h.serves hpart
  obtain ⟨row, hrow, hlt, -⟩ :=
    located_of_mem_requestOf (h.located hplaces) hpiece (hrequest ▸ hr)
  exact ⟨(List.getElem?_eq_some_iff.1 hrow).1, hserves.numRows ▸ hlt⟩

/-- What the partitions answer to their requests. -/
def blocks (p : Partitions) (places : List (Nat × Nat)) : Delayed (List (List Nat × Matrix)) :=
  .all p.count ((p.requests places).map fun q ↦ q.1.fetchPlaced p.width q.2)

theorem Tiles.exists_blocks (h : p.Tiles data pieces) {rows : List Nat} {places : List (Nat × Nat)}
    (hlocated : List.Forall₂ (Located pieces) rows places) {block : Matrix}
    (hselects : data.Selects rows block) : ∃ blocks, (p.blocks places).Gives none blocks := by
  refine Delayed.exists_all_gives fun d hd ↦ ?_
  obtain ⟨q, hq, rfl⟩ := List.mem_map.1 hd
  exact (h.exists_answer hlocated hselects hq).1

/-- However the rows are spread, the answers of the partitions are put together to the block. -/
theorem Tiles.scatter_blocks (h : p.Tiles data pieces) {rows : List Nat} {places : List (Nat × Nat)}
    (hlocated : List.Forall₂ (Located pieces) rows places) {block : Matrix}
    (hselects : data.Selects rows block) {blocks : List (List Nat × Matrix)}
    (hblocks : (p.blocks places).Gives none blocks) :
    .scatter rows.length p.width blocks = block := by
  have hlength : block.rows.toList.length = rows.length := block.length_rows.trans hselects.height
  have hfills : ∀ placed ∈ blocks, Matrix.Fills block.rows.toList p.width placed := by
    intro placed hplaced
    obtain ⟨d, hd, hgives⟩ := hblocks.exists_member hplaced
    obtain ⟨q, hq, rfl⟩ := List.mem_map.1 hd
    exact (h.exists_answer hlocated hselects hq).2 placed hgives
  have hall : ∀ i < block.rows.toList.length, ∃ placed ∈ blocks, i ∈ placed.1 := by
    intro i hi
    obtain ⟨q, hq, hposition⟩ := h.exists_request hlocated (hlength ▸ hi)
    obtain ⟨placed, hplaced, hgives⟩ := hblocks.exists_part (List.mem_map_of_mem hq)
    exact ⟨placed, hplaced, (RowSource.fetchPlaced_gives_iff.1 hgives).2 ▸ hposition⟩
  obtain ⟨hwidth, hrows⟩ := Matrix.rows_scatter hfills hall
  rw [← hlength]
  exact Matrix.ext_rows (hwidth.trans (h.width.trans hselects.width.symm)) hrows

/-- **Partitions that serve the pieces serve the whole.** -/
theorem Tiles.serves_toSource (h : p.Tiles data pieces) : p.toSource.Serves data := by
  refine ⟨h.numRows, h.width, fun rows ↦ ?_⟩
  show (p.fetch rows).result = RowSource.gather data rows
  rcases hfind : rows.find? (data.height ≤ ·) with - | row
  · have hrange : ∀ row ∈ rows, row < data.height := fun row hrow ↦ by
      simpa using List.find?_eq_none.1 hfind row hrow
    obtain ⟨places, hplaces⟩ := exists_locateAll (p := p) (h.numRows ▸ hrange)
    have hlocated := h.located hplaces
    have hselects := Matrix.selects_gather hrange
    obtain ⟨blocks, hblocks⟩ := h.exists_blocks hlocated hselects
    rw [RowSource.gather_eq_ok_iff.2 hselects, fetch, hplaces, ← Delayed.gives_none_iff]
    exact Delayed.map_gives_iff.2 ⟨blocks, hblocks, h.scatter_blocks hlocated hselects hblocks⟩
  · rw [fetch, h.locateAll_eq_error hfind, RowSource.gather, hfind]
    rfl

/-! ### Splitting -/

/-- The chunks are large enough for all rows. -/
theorem le_count_mul_chunkSize {rows count : Nat} (h : 0 < count) :
    rows ≤ count * chunkSize rows count := by
  have hceil : rows ≤ count * ((rows + count - 1) / count) :=
    Nat.mul_comm count _ ▸ le_ceilDiv_mul h
  exact Nat.le_trans hceil (Nat.mul_le_mul_left count (Nat.le_max_left _ _))

/-- Any sources of one width are laid end to end, if there is one. -/
theorem ofParts_eq_ok_iff : ofParts parts = .ok p ↔
    parts ≠ [] ∧ p.parts = parts ∧ ∀ part ∈ parts, part.width = p.width := by
  cases parts with
  | nil => exact ⟨nofun, fun ⟨hne, _⟩ ↦ absurd rfl hne⟩
  | cons first rest =>
    rw [ofParts]
    split
    · next odd hfind =>
      have hodd : odd.width ≠ first.width := of_decide_eq_true (List.find?_some hfind :)
      refine ⟨nofun, fun ⟨_, _, hwidths⟩ ↦ absurd ?_ hodd⟩
      rw [hwidths odd (List.mem_of_find?_eq_some hfind), hwidths first List.mem_cons_self]
    · next hfind =>
      constructor
      · intro h
        cases h
        refine ⟨List.cons_ne_nil first rest, rfl, fun part hpart ↦ ?_⟩
        simpa using List.find?_eq_none.1 hfind part hpart
      · rintro ⟨-, hparts, hwidths⟩
        obtain ⟨width, parts⟩ := p
        obtain rfl : parts = first :: rest := hparts
        rw [hwidths first List.mem_cons_self]

/-- A piece that is cut to what is left lists what a full one does. -/
theorem rows_slice_min (data : Matrix) (start size : Nat) :
    (data.slice start (min size (data.height - start))).rows.toList =
      (data.rows.toList.drop start).take size := by
  have hleft : (data.rows.toList.drop start).length = data.height - start := by
    rw [List.length_drop, Matrix.length_rows]
  rw [Matrix.rows_slice, ← List.take_take, ← hleft, List.take_length]

theorem toNat_pos {count : UInt64} (h : count ≠ 0) : 0 < count.toNat :=
  UInt64.lt_iff_toNat_lt.1 (UInt64.pos_iff_ne_zero.2 h)

/-- Any positive number of partitions can be made, and just as many are. -/
theorem split_eq_ok_iff {count : UInt64} : split data count = .ok p ↔ count ≠ 0 ∧
    p = ⟨data.width, (List.range count.toNat).map fun k ↦
      .zeroCopy (data.slice (k * chunkSize data.height count.toNat)
        (min (chunkSize data.height count.toNat)
          (data.height - k * chunkSize data.height count.toNat)))⟩ := by
  rw [split, ite_error_eq_ok_iff, ofParts_eq_ok_iff]
  refine and_congr_right fun hcount ↦ ?_
  have hne : List.range count.toNat ≠ [] := fun hnil ↦
    Nat.ne_of_gt (toNat_pos hcount) (List.range_eq_nil.1 hnil)
  obtain ⟨width, parts⟩ := p
  rw [Partitions.mk.injEq, List.forall_mem_map]
  constructor
  · rintro ⟨-, hparts, hwidths⟩
    obtain ⟨k, hk⟩ := List.exists_mem_of_ne_nil _ hne
    exact ⟨(hwidths k hk).symm, hparts⟩
  · rintro ⟨rfl, rfl⟩
    exact ⟨fun hnil ↦ hne (List.map_eq_nil_iff.1 hnil), rfl, fun k _ ↦ rfl⟩

/-- **Splitting makes partitions that serve pieces of the matrix.** -/
theorem exists_tiles_of_split {count : UInt64} (h : split data count = .ok p) :
    ∃ pieces, p.Tiles data pieces := by
  obtain ⟨hcount, rfl⟩ := split_eq_ok_iff.1 h
  refine ⟨(List.range count.toNat).map fun k ↦ data.slice (k * chunkSize data.height count.toNat)
    (min (chunkSize data.height count.toNat)
      (data.height - k * chunkSize data.height count.toNat)), rfl, ?_, ?_, ?_⟩
  · intro piece hpiece
    obtain ⟨k, -, rfl⟩ := List.mem_map.1 hpiece
    rfl
  · have hall : data.rows.toList.length ≤ count.toNat * chunkSize data.height count.toNat :=
      data.length_rows ▸ le_count_mul_chunkSize (toNat_pos hcount)
    simp only [List.flatMap_map, rows_slice_min]
    rw [flatMap_pieces, List.take_of_length_le hall]
  · rw [List.forall₂_map_left_iff, List.forall₂_map_right_iff, List.forall₂_same]
    exact fun k _ ↦ RowSource.serves_held _ _

end Partitions

end HopSampler
