import HopSampler.Proofs.Searching

/-!
# Compressed rows are put in order in place

Rows lie one after the other in the same arrays, and a row that is out of order is sorted where it
lies. Everything rests on two facts about writing over part of an array: what is written is read
there (`extract_overwrite_self`), and a part that ends before it or begins behind it is as it was
(`extract_overwrite_of_disjoint`). Offsets never go down, so different rows are such parts, and
putting one row in order leaves all others as they are (`CompressedRows.row?_sortRow`).

By induction on the rows every row is put in order by itself (`CompressedRows.row?_sortRows`). Rows
in order stay as they are, so arrays that have been taken in can be taken in again. The rows of a
topology are another reading of the same arrays (`Topology.reads_ofCompressed`).
-/

-- Sums start from the numeral, also where zero comes with more structure.
attribute [local instance (high)] Zero.ofOfNat0

namespace HopSampler

/-! ### Writing over part of an array -/

section Overwrite

variable {α : Type} {xs : Array α} {start : Nat} {values : List α}

/-- A list written over part of an array is read there, and the rest is as it was. -/
theorem getElem?_overwrite (h : start + values.length ≤ xs.size) (k : Nat) :
    (overwrite xs start values h)[k]? =
      if start ≤ k ∧ k < start + values.length then values[k - start]? else xs[k]? := by
  induction values generalizing xs start with
  | nil => rw [overwrite, if_neg (by rw [List.length_nil]; omega)]
  | cons a rest ih =>
    rw [overwrite, ih, Array.getElem?_set, List.length_cons]
    rcases Nat.lt_trichotomy k start with hlt | rfl | hgt
    · rw [if_neg (by omega), if_neg (by omega), if_neg (by omega)]
    · rw [if_neg (by omega), if_pos rfl, if_pos (by omega), Nat.sub_self, List.getElem?_cons_zero]
    · have hsub : k - start = k - (start + 1) + 1 := by omega
      rw [hsub, List.getElem?_cons_succ, if_neg (Nat.ne_of_lt hgt)]
      exact if_congr (by omega) rfl rfl

/-- What is written is there. -/
theorem extract_overwrite_self (h : start + values.length ≤ xs.size) :
    (overwrite xs start values h).extract start (start + values.length) = values.toArray := by
  refine Array.ext_getElem? fun k ↦ ?_
  rw [Array.getElem?_extract, size_overwrite, Nat.min_eq_left h, Nat.add_sub_cancel_left,
    getElem?_overwrite, Nat.add_sub_cancel_left]
  refine Eq.trans ?_ List.getElem?_toArray.symm
  split
  · next hk => exact if_pos ⟨Nat.le_add_right start k, Nat.add_lt_add_left hk start⟩
  · next hk => exact (List.getElem?_eq_none (Nat.le_of_not_lt hk)).symm

/-- A part that ends before what is written, or begins behind it, is as it was. -/
theorem extract_overwrite_of_disjoint (h : start + values.length ≤ xs.size) {first last : Nat}
    (hapart : last ≤ start ∨ start + values.length ≤ first) :
    (overwrite xs start values h).extract first last = xs.extract first last := by
  refine Array.ext_getElem? fun k ↦ ?_
  rw [Array.getElem?_extract, Array.getElem?_extract, size_overwrite, getElem?_overwrite]
  refine ite_congr rfl (fun hk ↦ if_neg ?_) fun _ ↦ rfl
  omega

end Overwrite

namespace CompressedRows

variable {c : CompressedRows} {i : Nat}

/-! ### Rows as parts of one array of arcs -/

/-- Destinations and edge IDs as arcs. -/
def arcs (targets edges : Array Id) : Array Arc := Array.zipWith Arc.mk targets edges

/-- The arcs from one offset to the next. -/
def part? (offsets : Array Nat) (arcs : Array Arc) (i : Nat) : Option (Array Arc) :=
  match offsets[i]?, offsets[i + 1]? with
  | some start, some stop => some (arcs.extract start stop)
  | _, _ => none

section

variable {targets edges : Array Id} (h : edges.size = targets.size)
include h

theorem map_target_arcs : (arcs targets edges).map (·.target) = targets := by
  refine Array.ext ?_ fun k hk hk' ↦ ?_
  · rw [Array.size_map, arcs, Array.size_zipWith, h, Nat.min_self]
  · simp only [arcs, Array.getElem_map, Array.getElem_zipWith]

theorem map_edge_arcs : (arcs targets edges).map (·.edge) = edges := by
  refine Array.ext ?_ fun k hk hk' ↦ ?_
  · rw [Array.size_map, arcs, Array.size_zipWith, h, Nat.min_self]
  · simp only [arcs, Array.getElem_map, Array.getElem_zipWith]

end

theorem size_arcs (c : CompressedRows) : (arcs c.targets c.edges).size = c.targets.size := by
  rw [arcs, Array.size_zipWith, c.wellFormed.edges, Nat.min_self]

theorem part?_of_lt (h : i < c.numRows) (arcs : Array Arc) :
    part? c.offsets arcs i = some (arcs.extract (c.start i h) (c.stop i h)) := by
  have hstop := lt_of_lt_numRows h
  rw [part?, Array.getElem?_eq_getElem (Nat.lt_of_succ_lt hstop), Array.getElem?_eq_getElem hstop]
  rfl

theorem part?_of_le (h : c.numRows ≤ i) (arcs : Array Arc) : part? c.offsets arcs i = none := by
  have hstop : c.offsets[i + 1]? = none := Array.getElem?_eq_none (Nat.sub_le_iff_le_add.1 h)
  rw [part?, hstop]
  split <;> simp_all

/-- A row is the part of the arcs from its offset to the next. -/
theorem row_eq (h : i < c.numRows) :
    c.row i h = (arcs c.targets c.edges).extract (c.start i h) (c.stop i h) :=
  Array.extract_zipWith.symm

theorem row?_eq (c : CompressedRows) (i : Nat) :
    c.row? i = part? c.offsets (arcs c.targets c.edges) i := by
  rw [row?]
  split
  · next h => rw [part?_of_lt h, row_eq]
  · next h => rw [part?_of_le (Nat.le_of_not_lt h)]

theorem row?_eq_none_iff : c.row? i = none ↔ c.numRows ≤ i := by
  rw [row?]
  split
  · next h => exact iff_of_false nofun (Nat.not_le.2 h)
  · next h => exact iff_of_true rfl (Nat.le_of_not_lt h)

/-! ### One row in order -/

variable {row : List Arc}

theorem end_setRow (h : i < c.numRows) (hsize : row.length = (c.row i h).size) :
    c.start i h + row.length = c.stop i h := by
  rw [hsize, size_row]
  exact Nat.add_sub_cancel' (row_inRange h).1

theorem arcs_setRow (h : i < c.numRows) (hsize : row.length = (c.row i h).size)
    (hend : c.start i h + row.length ≤ (arcs c.targets c.edges).size) :
    arcs (c.setRow i h row hsize).targets (c.setRow i h row hsize).edges =
      overwrite (arcs c.targets c.edges) (c.start i h) row hend := by
  refine Array.ext_getElem? fun k ↦ ?_
  rw [getElem?_overwrite, arcs, arcs, Array.getElem?_zipWith, Array.getElem?_zipWith, setRow]
  dsimp only
  rw [getElem?_overwrite, getElem?_overwrite, List.length_map, List.length_map]
  by_cases hk : c.start i h ≤ k ∧ k < c.start i h + row.length
  · rw [if_pos hk, if_pos hk, if_pos hk, List.getElem?_map, List.getElem?_map]
    cases row[k - c.start i h]? <;> rfl
  · rw [if_neg hk, if_neg hk, if_neg hk]

/-- A row that comes later begins where the other ends, or behind it. -/
theorem stop_le_start {j : Nat} (hij : i < j) (hj : j < c.numRows) :
    c.stop i (Nat.lt_trans hij hj) ≤ c.start j hj :=
  c.wellFormed.offsets_le hij (Nat.lt_of_succ_lt (lt_of_lt_numRows hj))

/-- **Writing a row leaves all others as they are.** -/
theorem row?_setRow (h : i < c.numRows) (hsize : row.length = (c.row i h).size) (j : Nat) :
    (c.setRow i h row hsize).row? j = if i = j then some row.toArray else c.row? j := by
  have hend := end_setRow h hsize
  have harcs := arcs_setRow h hsize (by rw [hend, size_arcs]; exact (row_inRange h).2)
  rw [row?_eq, row?_eq, harcs]
  show part? c.offsets _ j = _
  rcases Nat.lt_or_ge j c.numRows with hj | hj
  · rw [part?_of_lt hj, part?_of_lt hj]
    split
    · next hij =>
      subst hij
      simp only [← hend, extract_overwrite_self]
    · next hne =>
      refine congrArg some (extract_overwrite_of_disjoint _ ?_)
      rw [hend]
      rcases Nat.lt_or_gt_of_ne hne with hlt | hgt
      · exact .inr (stop_le_start hlt hj)
      · exact .inl (stop_le_start hgt h)
  · rw [part?_of_le hj, part?_of_le hj, if_neg (Nat.ne_of_lt (Nat.lt_of_lt_of_le h hj))]

/-- A row in order of destination. -/
def settled (row : Array Arc) : Array Arc := (Topology.settle row.toList).toArray

/-- Only arcs move. -/
theorem kept_sortRow (c : CompressedRows) (i : Nat) :
    (c.sortRow i).offsets = c.offsets ∧ (c.sortRow i).placement = c.placement := by
  rw [sortRow]
  split
  · dsimp only
    split <;> exact ⟨rfl, rfl⟩
  · exact ⟨rfl, rfl⟩

/-- Putting one row in order leaves all others as they are. -/
theorem row?_sortRow (c : CompressedRows) (i j : Nat) :
    (c.sortRow i).row? j = if i = j then (c.row? j).map settled else c.row? j := by
  rw [sortRow]
  split
  · next h =>
    have hrow : c.row? i = some (c.row i h) := dif_pos h
    dsimp only
    split
    · next hasc =>
      split
      · next hij =>
        rw [← hij, hrow, Option.map_some, settled, Topology.settle, if_pos hasc]
      · rfl
    · next hasc =>
      rw [row?_setRow]
      refine ite_congr rfl (fun hij ↦ ?_) fun _ ↦ rfl
      rw [← hij, hrow, Option.map_some, settled, Topology.settle, if_neg hasc]
  · next h =>
    split
    · next hij =>
      rw [← hij, row?_eq_none_iff.2 (Nat.le_of_not_lt h), Option.map_none]
    · rfl

/-- A row in order is left as it is. -/
theorem sortRow_eq_self (h : ∀ row, c.row? i = some row →
    row.toList.Pairwise fun a b ↦ a.target ≤ b.target) : c.sortRow i = c := by
  rw [sortRow]
  split
  · next hi =>
    exact if_pos (isAscending_iff.2 (List.pairwise_map.2 (h _ (dif_pos hi))))
  · rfl

/-! ### All rows in order -/

/-- The first rows in order. -/
def sortFirst (c : CompressedRows) (n : Nat) : CompressedRows := (List.range n).foldl sortRow c

theorem sortFirst_succ (c : CompressedRows) (n : Nat) :
    c.sortFirst (n + 1) = (c.sortFirst n).sortRow n := by
  rw [sortFirst, List.range_succ, List.foldl_append]
  rfl

theorem kept_sortFirst (c : CompressedRows) (n : Nat) :
    (c.sortFirst n).offsets = c.offsets ∧ (c.sortFirst n).placement = c.placement := by
  induction n with
  | zero => exact ⟨rfl, rfl⟩
  | succ n ih =>
    obtain ⟨hoffsets, hplacement⟩ := kept_sortRow (c.sortFirst n) n
    rw [sortFirst_succ]
    exact ⟨hoffsets.trans ih.1, hplacement.trans ih.2⟩

/-- After `n` rows the first `n` are in order and the others as they were. -/
theorem row?_sortFirst (c : CompressedRows) (n j : Nat) :
    (c.sortFirst n).row? j = if j < n then (c.row? j).map settled else c.row? j := by
  induction n with
  | zero => rfl
  | succ n ih =>
    rw [sortFirst_succ, row?_sortRow, ih]
    rcases Nat.lt_trichotomy j n with hlt | rfl | hgt
    · rw [if_neg (Nat.ne_of_gt hlt), if_pos hlt, if_pos (Nat.lt_succ_of_lt hlt)]
    · rw [if_pos rfl, if_neg (Nat.lt_irrefl j), if_pos (Nat.lt_succ_self j)]
    · rw [if_neg (Nat.ne_of_lt hgt), if_neg (Nat.lt_asymm hgt), if_neg (by omega)]

/-- **Every row is put in order by itself.** -/
theorem row?_sortRows (c : CompressedRows) (j : Nat) :
    c.sortRows.row? j = (c.row? j).map settled := by
  show (c.sortFirst c.numRows).row? j = _
  rw [row?_sortFirst]
  split
  · rfl
  · next h => rw [row?_eq_none_iff.2 (Nat.le_of_not_lt h), Option.map_none]

/-- Where every row is in order, nothing changes. -/
theorem sortRows_eq_self (h : ∀ i row, c.row? i = some row →
    row.toList.Pairwise fun a b ↦ a.target ≤ b.target) : c.sortRows = c :=
  List.foldl_fixed' (fun i ↦ sortRow_eq_self (h i)) _

/-! ### Arrays that are taken in -/

variable {offsets : Array Nat} {targets edges : Array Id}

/-- Arrays are taken in exactly if they describe rows. -/
theorem make_eq_ok_iff : make offsets targets edges = .ok c ↔
    ∃ h : WellFormed offsets targets edges,
      sortRows ⟨offsets, targets, edges, .zeroCopy, h⟩ = c := by
  simp only [make, dite_ok_eq_ok_iff, Except.ok.injEq]
  constructor
  · rintro ⟨hfirst, hascending, hlast, hedges, hc⟩
    exact ⟨.of_checks hfirst hascending hlast hedges, hc⟩
  · rintro ⟨h, hc⟩
    have hlast : offsets.back?.getD 0 = targets.size := by rw [h.last, Option.getD_some]
    exact ⟨h.first, isAscending_iff.2 h.ascending, hlast, h.edges, hc⟩

/-- A row is another one put in order of destination. -/
structure Orders (row given : Array Arc) : Prop where
  perm : row.toList.Perm given.toList
  sorted : row.toList.Pairwise fun a b ↦ a.target ≤ b.target
  /-- A row that comes in order is kept as it is. -/
  kept : (given.toList.Pairwise fun a b ↦ a.target ≤ b.target) → row = given
  /-- In any other, edges to the same destination are in order of their IDs. -/
  ordered : ¬(given.toList.Pairwise fun a b ↦ a.target ≤ b.target) →
    row.toList.Pairwise fun a b ↦ a.target < b.target ∨ (a.target = b.target ∧ a.edge ≤ b.edge)

theorem orders_settled (given : Array Arc) : Orders (settled given) given := by
  have hasc : isAscending (given.toList.map (·.target)) = true ↔
      given.toList.Pairwise fun a b ↦ a.target ≤ b.target :=
    isAscending_iff.trans List.pairwise_map
  exact {
    perm := Topology.settle_perm given.toList
    sorted := Topology.settle_sorted given.toList
    kept := fun h ↦ by rw [settled, Topology.settle, if_pos (hasc.2 h)]
    ordered := fun h ↦ by
      rw [settled, Topology.settle, if_neg (mt hasc.1 h)]
      exact Topology.pairwise_mergeSort given.toList }

/-- The arcs of a node are read from within the arrays. -/
structure ReadsInRange (c : CompressedRows) : Prop where
  absent : ∀ node : Id, c.neighbors? node = none ↔ c.numRows ≤ node.toNat
  present : ∀ node : Id, node.toNat < c.numRows → ∃ start stop row,
    c.offsets[node.toNat]? = some start ∧ c.offsets[node.toNat + 1]? = some stop ∧
    start ≤ stop ∧ stop ≤ c.targets.size ∧ stop ≤ c.edges.size ∧
    c.neighbors? node = some row ∧
    row.map (·.target) = c.targets.extract start stop ∧
    row.map (·.edge) = c.edges.extract start stop

theorem readsInRange (c : CompressedRows) : c.ReadsInRange where
  absent node := row?_eq_none_iff
  present node h := by
    have hstop := lt_of_lt_numRows h
    have hrange := row_inRange h
    have hsize : (c.edges.extract (c.start node.toNat h) (c.stop node.toNat h)).size =
        (c.targets.extract (c.start node.toNat h) (c.stop node.toNat h)).size := by
      rw [Array.size_extract, Array.size_extract, c.wellFormed.edges]
    exact ⟨c.start node.toNat h, c.stop node.toNat h, c.row node.toNat h,
      Array.getElem?_eq_getElem (Nat.lt_of_succ_lt hstop), Array.getElem?_eq_getElem hstop,
      hrange.1, hrange.2, (row_inRange_edges h).2, dif_pos h, map_target_arcs hsize,
      map_edge_arcs hsize⟩

/-! ### Rows behind the others -/

/-- Behind the last row all offsets are the end of the arrays. -/
theorem getElem?_offsets_padTo (count : Nat) {j : Nat} (hj : c.numRows ≤ j) :
    (c.padTo count).offsets[j]? =
      if j ≤ max c.numRows count then some c.targets.size else none := by
  have hpos := c.wellFormed.size_pos
  have hnum : c.numRows = c.offsets.size - 1 := rfl
  show (c.offsets ++ Array.replicate (count - c.numRows) c.targets.size)[j]? = _
  rw [Array.getElem?_append, Array.getElem?_replicate]
  rcases Nat.lt_or_eq_of_le hj with hlt | rfl
  · rw [if_neg (by omega)]
    exact if_congr (by omega) rfl rfl
  · rw [if_pos (by omega), if_pos (Nat.le_max_left _ _)]
    exact c.wellFormed.getElem?_last

/-- Rows that are added are empty, and the others stay. -/
theorem row?_padTo (c : CompressedRows) (count i : Nat) : (c.padTo count).row? i =
    if i < c.numRows then c.row? i else if i < count then some #[] else none := by
  rw [row?_eq]
  show part? (c.padTo count).offsets (arcs c.targets c.edges) i = _
  rcases Nat.lt_or_ge i c.numRows with hi | hi
  · have hstop := lt_of_lt_numRows hi
    have hold : ∀ j < c.offsets.size, (c.padTo count).offsets[j]? = c.offsets[j]? :=
      fun j hj ↦ Array.getElem?_append_left hj
    rw [if_pos hi, row?_eq, part?, part?, hold i (Nat.lt_of_succ_lt hstop), hold (i + 1) hstop]
  · rw [if_neg (Nat.not_lt.2 hi), part?, getElem?_offsets_padTo count hi,
      getElem?_offsets_padTo count (Nat.le_succ_of_le hi)]
    by_cases hcount : i < count
    · rw [if_pos (by omega), if_pos (by omega), if_pos hcount]
      exact congrArg some (Array.extract_eq_empty_of_le (Nat.min_le_left _ _))
    · rw [if_neg (by omega : ¬i + 1 ≤ max c.numRows count), if_neg hcount]
      split <;> simp_all

end CompressedRows

/-! ### Rows in arrays of their own -/

namespace Topology

open CompressedRows

variable {c : CompressedRows} {i : Nat}

theorem getElem?_ofCompressed (c : CompressedRows) (i : Nat) :
    (ofCompressed c).rows[i]? = c.row? i := by
  show (Array.ofFn _)[i]? = _
  rw [Array.getElem?_ofFn]
  rfl

theorem take_succ_ofCompressed (h : i < c.numRows) : (ofCompressed c).rows.toList.take (i + 1) =
    (ofCompressed c).rows.toList.take i ++ [c.row i h] := by
  have hrow : (ofCompressed c).rows.toList[i]? = some (c.row i h) := by
    rw [Array.getElem?_toList, getElem?_ofCompressed]
    exact dif_pos h
  rw [List.take_add_one, hrow]
  rfl

/-- The first rows have as many arcs as lie before the next one. -/
theorem sum_take_ofCompressed (hi : i < c.offsets.size) :
    (((ofCompressed c).rows.toList.take i).map (·.size)).sum = c.offsets[i] := by
  induction i with
  | zero => exact (Array.getElem?_eq_some_iff.1 c.wellFormed.first).2.symm
  | succ i ih =>
    have h : i < c.numRows := Nat.lt_sub_of_add_lt hi
    have hrange := (row_inRange h).1
    rw [take_succ_ofCompressed h, List.map_append, List.sum_append, ih (Nat.lt_of_succ_lt hi),
      List.map_singleton, List.sum_singleton, size_row]
    exact Nat.add_sub_cancel' hrange

/-- The first rows have the arcs that lie before the next one. -/
theorem flatMap_take_ofCompressed (hi : i < c.offsets.size) :
    ((ofCompressed c).rows.toList.take i).flatMap (·.toList) =
      ((CompressedRows.arcs c.targets c.edges).extract 0 c.offsets[i]).toList := by
  induction i with
  | zero =>
    rw [(Array.getElem?_eq_some_iff.1 c.wellFormed.first).2, Array.extract_zero]
    rfl
  | succ i ih =>
    have h : i < c.numRows := Nat.lt_sub_of_add_lt hi
    rw [take_succ_ofCompressed h, List.flatMap_append, ih (Nat.lt_of_succ_lt hi),
      List.flatMap_singleton, row_eq, ← Array.toList_append]
    show (Array.extract _ 0 (c.start i h) ++ Array.extract _ (c.start i h) (c.stop i h)).toList = _
    rw [Array.extract_append_extract, Nat.zero_min, Nat.max_eq_right (row_inRange h).1]
    rfl

theorem getElem?_offsetsFrom (start : Nat) (sizes : List Nat) (k : Nat) :
    (offsetsFrom start sizes)[k]? =
      if k ≤ sizes.length then some (start + (sizes.take k).sum) else none := by
  induction sizes generalizing start k with
  | nil => cases k <;> rfl
  | cons n rest ih =>
    cases k with
    | zero => rfl
    | succ k =>
      rw [offsetsFrom, List.getElem?_cons_succ, ih, List.take_succ_cons, List.sum_cons,
        List.length_cons, Nat.add_assoc]
      exact if_congr Nat.succ_le_succ_iff.symm rfl rfl

/-- Rows say the same as three arrays. -/
structure Reads (t : Topology) (c : CompressedRows) : Prop where
  placement : t.placement = c.placement
  numNodes : t.numNodes = c.numRows
  neighbors : ∀ node, t.neighbors? node = c.neighbors? node
  offsets : t.offsets = c.offsets.toList
  targets : t.arcs.map (·.target) = c.targets.toList
  edges : t.arcs.map (·.edge) = c.edges.toList

theorem reads_ofCompressed (c : CompressedRows) : (ofCompressed c).Reads c := by
  have hsize : (ofCompressed c).rows.size = c.numRows := Array.size_ofFn
  have hpos := c.wellFormed.size_pos
  have hlast : c.numRows < c.offsets.size := Nat.sub_one_lt_of_lt hpos
  have hall : (ofCompressed c).arcs = (CompressedRows.arcs c.targets c.edges).toList := by
    have htake := flatMap_take_ofCompressed hlast
    have hend : c.offsets[c.numRows] = (CompressedRows.arcs c.targets c.edges).size :=
      (Array.getElem?_eq_some_iff.1 c.wellFormed.getElem?_last).2.trans (size_arcs c).symm
    rwa [hend, Array.extract_size, ← hsize, ← Array.length_toList, List.take_length] at htake
  exact {
    placement := rfl
    numNodes := hsize
    neighbors := fun node ↦ getElem?_ofCompressed c node.toNat
    offsets := by
      refine List.ext_getElem? fun k ↦ ?_
      rw [Topology.offsets, getElem?_offsetsFrom, List.length_map, Array.length_toList, hsize,
        Array.getElem?_toList]
      split
      · next hk =>
        have hk' : k < c.offsets.size := Nat.lt_of_le_of_lt hk hlast
        rw [← List.map_take, sum_take_ofCompressed hk', Nat.zero_add, Array.getElem?_eq_getElem hk']
      · next hk =>
        rw [Array.getElem?_eq_none (by rw [numRows] at hk; omega)]
    targets := by
      rw [hall, ← Array.toList_map, map_target_arcs c.wellFormed.edges]
    edges := by
      rw [hall, ← Array.toList_map, map_edge_arcs c.wellFormed.edges] }

theorem Reads.numEdges {t : Topology} (h : t.Reads c) : t.numEdges = c.targets.size := by
  rw [← Array.length_toList, ← h.targets, List.length_map, arcs, List.length_flatMap]
  rfl

/-- Rows added to the arrays are rows added to the topology. -/
theorem ofCompressed_padTo (c : CompressedRows) (count : Nat) :
    ofCompressed (c.padTo count) = (ofCompressed c).padTo count := by
  have hrows : (ofCompressed (c.padTo count)).rows = ((ofCompressed c).padTo count).rows := by
    refine Array.ext_getElem? fun i ↦ ?_
    have hsize : (ofCompressed c).rows.size = c.numRows := (reads_ofCompressed c).numNodes
    rw [getElem?_ofCompressed, row?_padTo, padTo, Array.getElem?_append, hsize,
      getElem?_ofCompressed, Array.getElem?_replicate]
    refine ite_congr rfl (fun _ ↦ rfl) fun hi ↦ if_congr ?_ rfl rfl
    omega
  exact congrArg (Topology.mk · c.placement) hrows

end Topology

/-! ### Taking arrays in settles their rows -/

namespace CompressedRows

variable {c : CompressedRows} {offsets : Array Nat} {targets edges : Array Id}

/-- Rows are those of three arrays, put in order. -/
structure Settles (c : CompressedRows) (offsets : Array Nat) (targets edges : Array Id) : Prop where
  /-- Every row begins and ends where it did. -/
  kept : c.offsets = offsets
  rows : ∀ i start stop : Nat, offsets[i]? = some start → offsets[i + 1]? = some stop →
    ∃ row, c.row? i = some row ∧ Orders row ((arcs targets edges).extract start stop)
  /-- No later look-up of a node reaches outside the arrays, and a topology has the same arcs. -/
  later : ∀ count placement, ((c.padTo count).withPlacement placement).ReadsInRange ∧
    (((Topology.ofCompressed c).padTo count).withPlacement placement).Reads
      ((c.padTo count).withPlacement placement)
  /-- The arrays, taken in again, stay as they are. -/
  again : make c.offsets c.targets c.edges = .ok c

theorem settles_of_make (hc : make offsets targets edges = .ok c) :
    c.Settles offsets targets edges := by
  obtain ⟨h, rfl⟩ := make_eq_ok_iff.1 hc
  set given : CompressedRows := ⟨offsets, targets, edges, .zeroCopy, h⟩ with hgiven
  obtain ⟨hoffsets, hplacement⟩ : given.sortRows.offsets = offsets ∧
      given.sortRows.placement = .zeroCopy := kept_sortFirst given given.numRows
  exact {
    kept := hoffsets
    rows := fun i start stop hstart hstop ↦ by
      have hrow : given.row? i = some ((arcs targets edges).extract start stop) := by
        rw [row?_eq, part?, hgiven, hstart, hstop]
      refine ⟨_, ?_, orders_settled _⟩
      rw [row?_sortRows, hrow, Option.map_some]
    later := fun count placement ↦ by
      refine ⟨readsInRange _, ?_⟩
      rw [← Topology.ofCompressed_padTo]
      exact Topology.reads_ofCompressed ((given.sortRows.padTo count).withPlacement placement)
    again := by
      refine make_eq_ok_iff.2 ⟨given.sortRows.wellFormed, ?_⟩
      rw [← hplacement]
      refine sortRows_eq_self fun i row hrow ↦ ?_
      rw [row?_sortRows] at hrow
      obtain ⟨raw, -, rfl⟩ := Option.map_eq_some_iff.1 hrow
      exact (orders_settled raw).sorted }

/-- **Three arrays are taken in exactly if they describe rows, and what is taken in are these rows,
each in order.** -/
theorem make_settles (offsets : Array Nat) (targets edges : Array Id) :
    ((∃ c, make offsets targets edges = .ok c) ↔ WellFormed offsets targets edges) ∧
      ∀ c, make offsets targets edges = .ok c → c.Settles offsets targets edges := by
  refine ⟨⟨fun ⟨c, hc⟩ ↦ ?_, fun h ↦ ⟨_, make_eq_ok_iff.2 ⟨h, rfl⟩⟩⟩, fun c ↦ settles_of_make⟩
  exact (make_eq_ok_iff.1 hc).1

end CompressedRows

namespace Topology

open CompressedRows

variable {offsets : List Nat} {targets edges : List Id} {t : Topology}

/-- Arrays that are taken in make a topology that is sorted. -/
theorem sorted_of_make {offsets : Array Nat} {targets edges : Array Id} {c : CompressedRows}
    (h : make offsets targets edges = .ok c) : (ofCompressed c).Sorted := by
  obtain ⟨hwf, rfl⟩ := make_eq_ok_iff.1 h
  intro row hrow
  obtain ⟨i, hi⟩ := Array.mem_iff_getElem?.1 hrow
  rw [getElem?_ofCompressed, row?_sortRows] at hi
  obtain ⟨raw, -, rfl⟩ := Option.map_eq_some_iff.1 hi
  exact (orders_settled raw).sorted

theorem sorted_of_ofArrays (h : ofArrays offsets targets edges = .ok t) : t.Sorted := by
  obtain ⟨c, hc, rfl⟩ := map_eq_ok_iff.1 h
  exact sorted_of_make hc

/-- **The arrays of a topology that was made from arrays make the same topology.** -/
theorem ofArrays_of_ofArrays (h : ofArrays offsets targets edges = .ok t) :
    ofArrays t.offsets (t.arcs.map (·.target)) (t.arcs.map (·.edge)) = .ok t := by
  obtain ⟨c, hc, rfl⟩ := map_eq_ok_iff.1 h
  have hreads := reads_ofCompressed c
  rw [ofArrays, hreads.offsets, hreads.targets, hreads.edges]
  exact map_eq_ok_iff.2 ⟨c, (settles_of_make hc).again, rfl⟩

end Topology

end HopSampler
