import HopSampler.Feature.Matrix
import Mathlib.Data.List.Basic
import Mathlib.Data.Option.Basic

/-!
# Blocks of rows

A fetch answers with a block: the rows of some matrix at the places that were asked for, in that
order. `Selects` says so of any block, and a matrix has one such block only (`Selects.eq`). Cutting
a matrix is described by what its pieces list (`rows_slice`).

**A scatter does not care how the rows were spread.** Blocks that hold, position by position, the
rows of one list, and that together take up every position, are put together to that list
(`rows_scatter`). Overlaps do no harm, as every write at a position is the right one.

Nothing need be known of the rows to say that a scatter is complete: where blocks have a row for
each of their places, and their places are all positions, each once, the writes are the rows of the
result (`assembles_scatter`).
-/

namespace HopSampler.Matrix

theorem ext_rows {m n : Matrix} (hwidth : m.width = n.width)
    (hrows : m.rows.toList = n.rows.toList) : m = n := by
  have hrows' : m.rows = n.rows := Array.toList_inj.1 hrows
  cases m
  cases n
  cases hwidth
  cases hrows'
  rfl

theorem length_rows (m : Matrix) : m.rows.toList.length = m.height := Array.length_toList

/-- A place in range has a row. -/
theorem exists_row {m : Matrix} {place : Nat} (h : place < m.height) :
    ∃ row, m.rows[place]? = some row :=
  ⟨_, Array.getElem?_eq_getElem h⟩

theorem lt_height {m : Matrix} {place : Nat} {row : Row} (h : m.rows[place]? = some row) :
    place < m.height :=
  (Array.getElem?_eq_some_iff.1 h).1

/-! ### Selections -/

/-- The block of the rows of `data` at the given places. -/
structure Selects (data : Matrix) (places : List Nat) (block : Matrix) : Prop where
  width : block.width = data.width
  rows : block.rows.toList.map some = places.map (data.rows[·]?)

namespace Selects

variable {data block : Matrix} {places : List Nat}

theorem height (h : data.Selects places block) : block.height = places.length := by
  have hlength := congrArg List.length h.rows
  rwa [List.length_map, List.length_map, length_rows] at hlength

/-- The places that were asked for are in range. -/
theorem lt (h : data.Selects places block) {place : Nat} (hmem : place ∈ places) :
    place < data.height := by
  have hrow : data.rows[place]? ∈ block.rows.toList.map some :=
    h.rows ▸ List.mem_map_of_mem hmem
  obtain ⟨row, -, hrow⟩ := List.mem_map.1 hrow
  exact lt_height hrow.symm

/-- The block has at a position what the matrix has at the place. -/
theorem getElem?_of (h : data.Selects places block) {i place : Nat}
    (hplace : places[i]? = some place) :
    block.rows.toList[i]? = data.rows[place]? := by
  have hat := congrArg (·[i]?) h.rows
  simp only [List.getElem?_map, hplace, Option.map_some] at hat
  obtain ⟨row, hrow, hsome⟩ := Option.map_eq_some_iff.1 hat
  exact hrow.trans hsome

/-- There is one such block. -/
theorem eq {block' : Matrix} (h : data.Selects places block) (h' : data.Selects places block') :
    block = block' :=
  ext_rows (h.width.trans h'.width.symm)
    (List.map_injective_iff.2 (Option.some_injective _) (h.rows.trans h'.rows.symm))

end Selects

theorem rows_gather (m : Matrix) (places : List Nat) :
    (m.gather places).rows.toList = places.filterMap (m.rows[·]?) :=
  rfl

/-- Gathering selects, where all places are in range. -/
theorem selects_gather {m : Matrix} {places : List Nat} (h : ∀ place ∈ places, place < m.height) :
    m.Selects places (m.gather places) := by
  refine ⟨rfl, ?_⟩
  rw [rows_gather]
  induction places with
  | nil => rfl
  | cons place places ih =>
    obtain ⟨row, hrow⟩ := exists_row (h place List.mem_cons_self)
    rw [List.filterMap_cons_some hrow, List.map_cons, List.map_cons, hrow,
      ih fun p hp ↦ h p (List.mem_cons_of_mem place hp)]

/-! ### Pieces -/

/-- What stands at the positions from `start` on is a piece of the list. -/
theorem filterMap_range'_getElem? {α : Type} (xs : List α) (start count : Nat) :
    (List.range' start count).filterMap (xs[·]?) = (xs.drop start).take count := by
  induction count generalizing start with
  | zero => rfl
  | succ count ih =>
    rw [List.range'_succ, List.filterMap_cons, ih]
    rcases hrow : xs[start]? with - | a
    · have hpast : xs.length ≤ start := List.getElem?_eq_none_iff.1 hrow
      rw [List.drop_eq_nil_of_le hpast, List.drop_eq_nil_of_le (Nat.le_succ_of_le hpast),
        List.take_nil, List.take_nil]
    · obtain ⟨hlt, rfl⟩ := List.getElem?_eq_some_iff.1 hrow
      rw [List.drop_eq_getElem_cons hlt, List.take_succ_cons]

/-- A slice lists a piece of the rows. -/
theorem rows_slice (m : Matrix) (start count : Nat) :
    (m.slice start count).rows.toList = (m.rows.toList.drop start).take count := by
  have hpiece := filterMap_range'_getElem? m.rows.toList start count
  simp only [Array.getElem?_toList] at hpiece
  rw [slice, rows_gather, hpiece]

theorem rows_take {m : Matrix} {count : Nat} (h : count ≤ m.height) :
    (m.take count).rows.toList = m.rows.toList.take count := by
  have hslice : m.take count = m.slice 0 count := by
    rw [take, slice, Nat.min_eq_left h, List.range_eq_range']
  rw [hslice, rows_slice, List.drop_zero]

theorem rows_drop (m : Matrix) (count : Nat) :
    (m.drop count).rows.toList = m.rows.toList.drop count := by
  have hslice : m.drop count = m.slice count (m.height - count) := rfl
  have hlength : (m.rows.toList.drop count).length ≤ m.height - count :=
    Nat.le_of_eq (by rw [List.length_drop, length_rows])
  rw [hslice, rows_slice, List.take_of_length_le hlength]

theorem height_drop (m : Matrix) (count : Nat) : (m.drop count).height = m.height - count := by
  rw [← length_rows, rows_drop, List.length_drop, length_rows]

theorem getElem?_take {m : Matrix} {count place : Nat} (h : count ≤ m.height)
    (hlt : place < count) : (m.take count).rows[place]? = m.rows[place]? := by
  rw [← Array.getElem?_toList, rows_take h, List.getElem?_take_of_lt hlt, Array.getElem?_toList]

theorem getElem?_drop (m : Matrix) (count place : Nat) :
    (m.drop count).rows[place]? = m.rows[count + place]? := by
  rw [← Array.getElem?_toList, rows_drop, List.getElem?_drop, Array.getElem?_toList]

/-! ### Scattering -/

theorem size_scatterRows (out : Array Row) (places : List Nat) (block : Matrix) :
    (scatterRows out places block).size = out.size := by
  rw [scatterRows]
  induction places.zip block.rows.toList generalizing out with
  | nil => rfl
  | cons p pairs ih => rw [List.foldl_cons, ih, Array.size_setIfInBounds]

theorem width_write (out : Matrix) (placed : List Nat × Matrix) :
    (out.write placed).width = out.width := by
  rw [write]
  split <;> rfl

theorem height_write (out : Matrix) (placed : List Nat × Matrix) :
    (out.write placed).height = out.height := by
  rw [write]
  split
  · exact size_scatterRows ..
  · rfl

/-- The shape of a scatter does not depend on the blocks. -/
theorem shape_scatter (height width : Nat) (blocks : List (List Nat × Matrix)) :
    (scatter height width blocks).height = height ∧
      (scatter height width blocks).width = width := by
  have hshape (out : Matrix) : (blocks.foldl write out).height = out.height ∧
      (blocks.foldl write out).width = out.width := by
    induction blocks generalizing out with
    | nil => exact ⟨rfl, rfl⟩
    | cons placed blocks ih =>
      obtain ⟨hheight, hwidth⟩ := ih (out.write placed)
      exact ⟨hheight.trans (height_write ..), hwidth.trans (width_write ..)⟩
  obtain ⟨hheight, hwidth⟩ := hshape (zeros height width)
  exact ⟨hheight.trans Array.size_replicate, hwidth⟩

/-- The block holds what is wanted at its positions. -/
structure Fills (wanted : List Row) (width : Nat) (placed : List Nat × Matrix) : Prop where
  width : placed.2.width = width
  rows : placed.2.rows.toList.map some = placed.1.map (wanted[·]?)

/-- Writing what is wanted leaves right what is right, and makes right what is written. -/
theorem foldl_set_wanted {wanted : List Row} {pairs : List (Nat × Row)}
    (hpairs : ∀ p ∈ pairs, wanted[p.1]? = some p.2) {out : Array Row}
    (hsize : out.size = wanted.length) :
    (pairs.foldl (fun out (place, row) ↦ out.setIfInBounds place row) out).size = wanted.length ∧
      ∀ i, out[i]? = wanted[i]? ∨ i ∈ pairs.map (·.1) →
        (pairs.foldl (fun out (place, row) ↦ out.setIfInBounds place row) out)[i]? =
          wanted[i]? := by
  induction pairs generalizing out with
  | nil => exact ⟨hsize, fun i hi ↦ hi.resolve_right List.not_mem_nil⟩
  | cons p pairs ih =>
    obtain ⟨place, row⟩ := p
    have hrow : wanted[place]? = some row := hpairs _ List.mem_cons_self
    have hplace : place < out.size := hsize ▸ (List.getElem?_eq_some_iff.1 hrow).1
    have hset : (out.setIfInBounds place row).size = wanted.length := by
      rw [Array.size_setIfInBounds, hsize]
    obtain ⟨hsize', hrest⟩ := ih (fun q hq ↦ hpairs q (List.mem_cons_of_mem _ hq)) hset
    refine ⟨hsize', fun i hi ↦ hrest i ?_⟩
    by_cases heq : place = i
    · subst heq
      left
      rw [Array.getElem?_setIfInBounds_self_of_lt hplace, hrow]
    · rcases hi with hi | hi
      · left
        rw [Array.getElem?_setIfInBounds_ne heq, hi]
      · exact .inr ((List.mem_cons.1 hi).resolve_left (Ne.symm heq))

/-- The same for one block. -/
theorem scatterRows_wanted {wanted : List Row} {width : Nat} {placed : List Nat × Matrix}
    (h : Fills wanted width placed) {out : Array Row} (hsize : out.size = wanted.length) :
    (scatterRows out placed.1 placed.2).size = wanted.length ∧
      ∀ i, out[i]? = wanted[i]? ∨ i ∈ placed.1 →
        (scatterRows out placed.1 placed.2)[i]? = wanted[i]? := by
  have hlength : placed.1.length = placed.2.rows.toList.length := by
    have hlength := congrArg List.length h.rows
    rw [List.length_map, List.length_map] at hlength
    exact hlength.symm
  have hpairs : ∀ p ∈ placed.1.zip placed.2.rows.toList, wanted[p.1]? = some p.2 := by
    intro p hp
    obtain ⟨i, hi⟩ := List.mem_iff_getElem?.1 hp
    obtain ⟨hplace, hrow⟩ := List.getElem?_zip_eq_some.1 hi
    have hat := congrArg (·[i]?) h.rows
    simp only [List.getElem?_map, hplace, hrow, Option.map_some, Option.some.injEq] at hat
    exact hat.symm
  have hfold := foldl_set_wanted hpairs hsize
  rwa [List.map_fst_zip (Nat.le_of_eq hlength)] at hfold

/-- Writing a block leaves right what is right, and makes its positions right. -/
theorem write_wanted {wanted : List Row} {width : Nat} {placed : List Nat × Matrix}
    (h : Fills wanted width placed) {out : Matrix} (hwidth : out.width = width)
    (hsize : out.rows.size = wanted.length) :
    (out.write placed).width = width ∧ (out.write placed).rows.size = wanted.length ∧
      ∀ i, out.rows[i]? = wanted[i]? ∨ i ∈ placed.1 →
        (out.write placed).rows[i]? = wanted[i]? := by
  rw [write, dif_pos (h.width.trans hwidth.symm)]
  exact ⟨hwidth, scatterRows_wanted h hsize⟩

/-- And so does writing several. -/
theorem foldl_write_wanted {wanted : List Row} {width : Nat} {blocks : List (List Nat × Matrix)}
    (h : ∀ placed ∈ blocks, Fills wanted width placed) {out : Matrix} (hwidth : out.width = width)
    (hsize : out.rows.size = wanted.length) :
    (blocks.foldl write out).width = width ∧ (blocks.foldl write out).rows.size = wanted.length ∧
      ∀ i, (out.rows[i]? = wanted[i]? ∨ ∃ placed ∈ blocks, i ∈ placed.1) →
        (blocks.foldl write out).rows[i]? = wanted[i]? := by
  induction blocks generalizing out with
  | nil =>
    exact ⟨hwidth, hsize, fun i hi ↦ hi.resolve_right fun ⟨_, hmem, _⟩ ↦ List.not_mem_nil hmem⟩
  | cons placed blocks ih =>
    obtain ⟨hwidth', hsize', hfirst⟩ := write_wanted (h placed List.mem_cons_self) hwidth hsize
    obtain ⟨hwidth'', hsize'', hrest⟩ :=
      ih (fun p hp ↦ h p (List.mem_cons_of_mem placed hp)) hwidth' hsize'
    refine ⟨hwidth'', hsize'', fun i hi ↦ hrest i ?_⟩
    rcases hi with hi | ⟨p, hp, hi⟩
    · exact .inl (hfirst i (.inl hi))
    · rcases List.mem_cons.1 hp with rfl | hp
      · exact .inl (hfirst i (.inr hi))
      · exact .inr ⟨p, hp, hi⟩

/-- **Blocks that fill every position of a list are put together to that list.** -/
theorem rows_scatter {wanted : List Row} {width : Nat} {blocks : List (List Nat × Matrix)}
    (hfills : ∀ placed ∈ blocks, Fills wanted width placed)
    (hall : ∀ i < wanted.length, ∃ placed ∈ blocks, i ∈ placed.1) :
    (scatter wanted.length width blocks).width = width ∧
      (scatter wanted.length width blocks).rows.toList = wanted := by
  have hzeros : (zeros wanted.length width).rows.size = wanted.length := Array.size_replicate
  obtain ⟨hwidth, hsize, hright⟩ := foldl_write_wanted hfills rfl hzeros
  refine ⟨hwidth, List.ext_getElem? fun i ↦ ?_⟩
  rw [Array.getElem?_toList]
  rcases Nat.lt_or_ge i wanted.length with hlt | hge
  · exact hright i (.inr (hall i hlt))
  · rw [List.getElem?_eq_none hge]
    exact Array.getElem?_eq_none (Nat.le_trans (Nat.le_of_eq hsize) hge)

/-! ### Exactly once -/

/-- What a block writes: a row at each place. -/
def writes (placed : List Nat × Matrix) : List (Nat × Row) := placed.1.zip placed.2.rows.toList

/-- A matrix is made of blocks of the right shape, and each of its rows was written exactly once. -/
structure Assembles (blocks : List (List Nat × Matrix)) (m : Matrix) : Prop where
  height : ∀ placed ∈ blocks, placed.2.height = placed.1.length
  width : ∀ placed ∈ blocks, placed.2.width = m.width
  /-- The writes of all blocks are the rows with their positions. -/
  once : (blocks.flatMap writes).Perm (writes (.range m.height, m))

theorem map_fst_writes {placed : List Nat × Matrix} (h : placed.2.height = placed.1.length) :
    (writes placed).map (·.1) = placed.1 :=
  List.map_fst_zip (Nat.le_of_eq (h.symm.trans placed.2.length_rows.symm))

theorem map_snd_writes {placed : List Nat × Matrix} (h : placed.2.height = placed.1.length) :
    (writes placed).map (·.2) = placed.2.rows.toList :=
  List.map_snd_zip (Nat.le_of_eq (placed.2.length_rows.trans h))

/-- A block holds what is wanted when it writes what is wanted. -/
theorem fills_of_writes {wanted : List Row} {placed : List Nat × Matrix}
    (hheight : placed.2.height = placed.1.length)
    (hwrites : ∀ p ∈ writes placed, wanted[p.1]? = some p.2) :
    Fills wanted placed.2.width placed := by
  refine ⟨rfl, ?_⟩
  calc placed.2.rows.toList.map some
      = (writes placed).map fun p ↦ some p.2 := by
        rw [← map_snd_writes hheight, List.map_map]
        rfl
    _ = (writes placed).map fun p ↦ wanted[p.1]? :=
        List.map_congr_left fun p hp ↦ (hwrites p hp).symm
    _ = ((writes placed).map (·.1)).map (wanted[·]?) := by
        rw [List.map_map]
        rfl
    _ = placed.1.map (wanted[·]?) := by rw [map_fst_writes hheight]

/-- Rows under different keys are the values of a function. -/
theorem exists_rowAt {pairs : List (Nat × Row)} (h : (pairs.map (·.1)).Nodup) :
    ∃ rowAt : Nat → Row, ∀ p ∈ pairs, rowAt p.1 = p.2 := by
  induction pairs with
  | nil => exact ⟨fun _ ↦ [], by simp⟩
  | cons p pairs ih =>
    obtain ⟨hnew, hnodup⟩ : p.1 ∉ pairs.map (·.1) ∧ (pairs.map (·.1)).Nodup := List.nodup_cons.1 h
    obtain ⟨rowAt, hrowAt⟩ := ih hnodup
    refine ⟨Function.update rowAt p.1 p.2, List.forall_mem_cons.2 ⟨Function.update_self .., ?_⟩⟩
    intro q hq
    have hmem : q.1 ∈ pairs.map (·.1) := List.mem_map_of_mem hq
    have hne : q.1 ≠ p.1 := fun heq ↦ hnew (heq ▸ hmem)
    rw [Function.update_of_ne hne, hrowAt q hq]

/-- **Blocks that have a row for every place, and every position for a place once, assemble the
matrix they are put together to.** -/
theorem assembles_scatter {height width : Nat} {blocks : List (List Nat × Matrix)}
    (hheight : ∀ placed ∈ blocks, placed.2.height = placed.1.length)
    (hwidth : ∀ placed ∈ blocks, placed.2.width = width)
    (honce : (blocks.flatMap (·.1)).Perm (List.range height)) :
    Assembles blocks (scatter height width blocks) := by
  have hplaces : (blocks.flatMap writes).map (·.1) = blocks.flatMap (·.1) := by
    rw [List.map_flatMap]
    exact List.flatMap_congr fun placed hplaced ↦ map_fst_writes (hheight placed hplaced)
  obtain ⟨rowAt, hrowAt⟩ := exists_rowAt (hplaces ▸ honce.nodup_iff.2 List.nodup_range)
  have hpairs : blocks.flatMap writes = (blocks.flatMap (·.1)).map fun i ↦ (i, rowAt i) := by
    rw [← hplaces, List.map_map]
    refine (List.map_id _).symm.trans (List.map_congr_left fun p hp ↦ ?_)
    exact Prod.ext rfl (hrowAt p hp).symm
  -- what is wanted at a position is the row that some block writes there
  set wanted := (List.range height).map rowAt with hwanted
  have hlength : wanted.length = height := by rw [hwanted, List.length_map, List.length_range]
  have hfills : ∀ placed ∈ blocks, Fills wanted width placed := by
    intro placed hplaced
    refine hwidth placed hplaced ▸ fills_of_writes (hheight placed hplaced) fun p hp ↦ ?_
    have hmem : p.1 ∈ placed.1 := (List.of_mem_zip hp).1
    have hlt : p.1 < height :=
      List.mem_range.1 (honce.mem_iff.1 (List.mem_flatMap.2 ⟨placed, hplaced, hmem⟩))
    rw [hwanted, List.getElem?_map, List.getElem?_range hlt, Option.map_some,
      hrowAt p (List.mem_flatMap.2 ⟨placed, hplaced, hp⟩)]
  have hall : ∀ i < wanted.length, ∃ placed ∈ blocks, i ∈ placed.1 := fun i hi ↦
    List.mem_flatMap.1 (honce.mem_iff.2 (List.mem_range.2 (hlength ▸ hi)))
  obtain ⟨hheight', hwidth'⟩ := shape_scatter height width blocks
  have hrows := (rows_scatter hfills hall).2
  rw [hlength] at hrows
  refine ⟨hheight, fun placed hplaced ↦ (hwidth placed hplaced).trans hwidth'.symm, ?_⟩
  rw [hpairs, writes, hheight', hrows, hwanted, ← List.map_prod_left_eq_zip]
  exact honce.map _

/-- A block can be replaced by blocks that write the same. -/
theorem Assembles.replace {first last : List Nat × Matrix} {blocks : List (List Nat × Matrix)}
    {m : Matrix} (h : Assembles [first, last] m)
    (hshape : ∀ placed ∈ blocks,
      placed.2.height = placed.1.length ∧ placed.2.width = m.width)
    (hwrites : (blocks.flatMap writes).Perm (writes last)) : Assembles (first :: blocks) m where
  height := List.forall_mem_cons.2
    ⟨h.height first List.mem_cons_self, fun placed hplaced ↦ (hshape placed hplaced).1⟩
  width := List.forall_mem_cons.2
    ⟨h.width first List.mem_cons_self, fun placed hplaced ↦ (hshape placed hplaced).2⟩
  once := by
    refine List.Perm.trans ?_ h.once
    rw [List.flatMap_cons, List.flatMap_cons, List.flatMap_singleton]
    exact hwrites.append_left _

end HopSampler.Matrix
