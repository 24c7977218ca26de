import HopSampler.Proofs.CompressedRows

/-!
# Edges find the places of their rows

Edges in any order are put into rows by counting. Once counts are added up in place, what stands for
a node is the number of edges that leave nodes before it (`CompressedRows.getElem?_addUp`), so rows
are ranges that lie one after the other and have room for just the edges of their sources.

Edges are then written one by one, each where the cursor of its row points. The invariant is that
what was written to a row so far is the arcs of its source in the order of the list, from the
beginning of the row up to its cursor (`CompressedRows.Fills`). One edge keeps it, because the
cursor of a row stays within the row as long as an edge of its source is to come, and different rows
share no places (`CompressedRows.Fills.put`). In the end every row is full, and the arrays describe
rows.
-/

namespace HopSampler.CompressedRows

/-! ### Where rows begin -/

/-- The number of edges that leave nodes before `v`. -/
def placesBefore (sources : List Id) (v : Nat) : Nat := sources.countP (·.toNat < v)

section Places

variable {sources : List Id} {count : Nat}

/-- A row ends where the next one begins. -/
theorem placesBefore_succ (sources : List Id) (v : Nat) :
    placesBefore sources (v + 1) = placesBefore sources v + sources.countP (·.toNat = v) := by
  induction sources with
  | nil => rfl
  | cons source sources ih =>
    simp only [placesBefore, List.countP_cons, decide_eq_true_eq] at ih ⊢
    rw [ih]
    rcases Nat.lt_trichotomy source.toNat v with hlt | heq | hgt
    · rw [if_pos (Nat.lt_succ_of_lt hlt), if_pos hlt, if_neg (Nat.ne_of_lt hlt)]
      omega
    · rw [if_pos (heq ▸ Nat.lt_succ_self _), if_neg (heq ▸ Nat.lt_irrefl _), if_pos heq]
      omega
    · rw [if_neg (by omega), if_neg (Nat.lt_asymm hgt), if_neg (Nat.ne_of_gt hgt)]
      omega

theorem placesBefore_mono (sources : List Id) {v w : Nat} (h : v ≤ w) :
    placesBefore sources v ≤ placesBefore sources w :=
  List.countP_mono_left fun _ _ hlt ↦
    decide_eq_true (Nat.lt_of_lt_of_le (of_decide_eq_true hlt) h)

theorem placesBefore_le (sources : List Id) (v : Nat) : placesBefore sources v ≤ sources.length :=
  List.countP_le_length

theorem placesBefore_eq_length (h : ∀ source ∈ sources, source.toNat < count) :
    placesBefore sources count = sources.length :=
  List.countP_eq_length.2 fun source hsource ↦ decide_eq_true (h source hsource)

/-- Each count is that of the node in front of its place. -/
theorem getElem?_countSources (count : Nat) (sources : List Id) (j : Nat) :
    (countSources count sources)[j]? =
      if j < count + 1 then some (sources.countP (·.toNat + 1 = j)) else none := by
  have hfold : ∀ counts : Array Nat,
      (sources.foldl (fun counts source ↦ counts.modify (source.toNat + 1) (· + 1)) counts)[j]? =
        counts[j]?.map (· + sources.countP (·.toNat + 1 = j)) := by
    induction sources with
    | nil => exact fun counts ↦ (Option.map_id' (x := counts[j]?)).symm
    | cons source sources ih =>
      intro counts
      rw [List.foldl_cons, ih, Array.getElem?_modify, List.countP_cons]
      by_cases h : source.toNat + 1 = j
      · simp only [h, if_true, decide_true, Option.map_map]
        exact congrArg (counts[j]?.map ·) (funext fun n ↦ Nat.add_right_comm n 1 _)
      · simp only [h, if_false, decide_false, Bool.false_eq_true, Nat.add_zero]
  rw [countSources, hfold, Array.getElem?_replicate]
  split
  · rw [Option.map_some, Nat.zero_add]
  · rfl

/-- After `n` additions the first `n` counts are added up and the others as they were. -/
theorem getElem?_foldl_addToNext {n : Nat} (hn : n ≤ count) (j : Nat) :
    ((List.range n).foldl addToNext (countSources count sources))[j]? =
      if j < count + 1 then
        some (if j ≤ n then placesBefore sources j else sources.countP (·.toNat + 1 = j))
      else none := by
  induction n generalizing j with
  | zero =>
    rw [List.range_zero, List.foldl_nil, getElem?_countSources]
    refine ite_congr rfl (fun _ ↦ congrArg some ?_) fun _ ↦ rfl
    split
    · next h =>
      obtain rfl := Nat.le_zero.1 h
      simp [placesBefore]
    · rfl
  | succ n ih =>
    have ih := ih (Nat.le_of_succ_le hn)
    have hnext : sources.countP (·.toNat + 1 = n + 1) = sources.countP (·.toNat = n) := by
      simp only [Nat.add_right_cancel_iff]
    rw [List.range_succ, List.foldl_append, List.foldl_cons, List.foldl_nil, addToNext]
    simp only [Array.getElem?_modify, ih]
    rw [if_pos (Nat.lt_succ_of_lt hn), if_pos (Nat.le_refl n), Option.getD_some]
    rcases Nat.lt_trichotomy j (n + 1) with hlt | rfl | hgt
    · rw [if_neg (Nat.ne_of_gt hlt), if_pos (Nat.le_of_lt_succ hlt), if_pos (Nat.le_of_lt hlt)]
    · simp only [if_true, if_pos (Nat.succ_lt_succ hn), if_neg (Nat.not_succ_le_self n),
        Nat.le_refl, hnext, Option.map_some]
      rw [placesBefore_succ, Nat.add_comm]
    · rw [if_neg (Nat.ne_of_lt hgt), if_neg (show ¬ j ≤ n by omega), if_neg (Nat.not_le.2 hgt)]

/-- **Counts that are added up say where each row begins.** -/
theorem getElem?_addUp (count : Nat) (sources : List Id) (j : Nat) :
    (addUp (countSources count sources))[j]? =
      if j < count + 1 then some (placesBefore sources j) else none := by
  have hsize : (countSources count sources).size - 1 = count := by
    have hlast := getElem?_countSources count sources count
    have hend := getElem?_countSources count sources (count + 1)
    rw [if_pos (Nat.lt_succ_self count)] at hlast
    rw [if_neg (Nat.lt_irrefl _)] at hend
    have hlt := (Array.getElem?_eq_some_iff.1 hlast).1
    have hle := Array.getElem?_eq_none_iff.1 hend
    omega
  rw [addUp, hsize, getElem?_foldl_addToNext (Nat.le_refl count)]
  exact ite_congr rfl (fun h ↦ by rw [if_pos (Nat.le_of_lt_succ h)]) fun _ ↦ rfl

theorem size_addUp (count : Nat) (sources : List Id) :
    (addUp (countSources count sources)).size = count + 1 := by
  have hlast := getElem?_addUp count sources count
  have hend := getElem?_addUp count sources (count + 1)
  rw [if_pos (Nat.lt_succ_self count)] at hlast
  rw [if_neg (Nat.lt_irrefl _)] at hend
  exact Nat.le_antisymm (Array.getElem?_eq_none_iff.1 hend) (Array.getElem?_eq_some_iff.1 hlast).1

/-- The places where rows begin describe rows of as many arcs as there are edges. -/
theorem wellFormed_addUp (h : ∀ source ∈ sources, source.toNat < count) {targets edges : Array Id}
    (htargets : targets.size = sources.length) (hedges : edges.size = sources.length) :
    WellFormed (addUp (countSources count sources)) targets edges where
  first := by
    rw [getElem?_addUp, if_pos (Nat.succ_pos count)]
    simp [placesBefore]
  ascending := by
    refine List.pairwise_iff_getElem.2 fun i j hi hj hij ↦ ?_
    rw [Array.length_toList, size_addUp] at hi hj
    have hat : ∀ k < count + 1, (addUp (countSources count sources)).toList[k]? =
        some (placesBefore sources k) := fun k hk ↦ by
      rw [Array.getElem?_toList, getElem?_addUp, if_pos hk]
    rw [(List.getElem?_eq_some_iff.1 (hat i hi)).2, (List.getElem?_eq_some_iff.1 (hat j hj)).2]
    exact placesBefore_mono sources (Nat.le_of_lt hij)
  last := by
    rw [Array.back?_eq_getElem?, size_addUp, Nat.add_sub_cancel, getElem?_addUp,
      if_pos (Nat.lt_succ_self count), placesBefore_eq_length h, htargets]
  edges := by rw [hedges, htargets]

end Places

/-! ### Edges by source -/

/-- The arc of an edge, where `v` is its source. -/
def arcOf? (v : Nat) (edge : Id × Arc) : Option Arc :=
  if edge.1.toNat = v then some edge.2 else none

/-- The arcs of a node, in the order in which they are listed. -/
def sourceArcs (edges : List (Id × Arc)) (v : Nat) : List Arc := edges.filterMap (arcOf? v)

/-- Where the row of a node begins. -/
def rowStart (edges : List (Id × Arc)) (v : Nat) : Nat := placesBefore (edges.map (·.1)) v

section Rows

variable {all done rest : List (Id × Arc)} {edge : Id × Arc}

theorem length_sourceArcs (edges : List (Id × Arc)) (v : Nat) :
    (sourceArcs edges v).length = (edges.map (·.1)).countP (·.toNat = v) := by
  induction edges with
  | nil => rfl
  | cons edge edges ih =>
    rw [sourceArcs, List.filterMap_cons, List.map_cons, List.countP_cons, ← ih, arcOf?]
    by_cases h : edge.1.toNat = v
    · rw [if_pos h, decide_eq_true h, if_pos rfl]
      rfl
    · rw [if_neg h, decide_eq_false h, if_neg Bool.false_ne_true]
      rfl

theorem rowStart_succ (edges : List (Id × Arc)) (v : Nat) :
    rowStart edges (v + 1) = rowStart edges v + (sourceArcs edges v).length := by
  rw [length_sourceArcs]
  exact placesBefore_succ _ v

/-- A row that comes later begins where the other ends, or behind it. -/
theorem rowEnd_le_rowStart (edges : List (Id × Arc)) {v w : Nat} (h : v < w) :
    rowStart edges v + (sourceArcs edges v).length ≤ rowStart edges w := by
  rw [← rowStart_succ]
  exact placesBefore_mono _ h

theorem rowEnd_le_length (edges : List (Id × Arc)) (v : Nat) :
    rowStart edges v + (sourceArcs edges v).length ≤ edges.length := by
  rw [← rowStart_succ, ← List.length_map (·.1)]
  exact placesBefore_le _ _

theorem sourceArcs_append (done rest : List (Id × Arc)) (v : Nat) :
    sourceArcs (done ++ rest) v = sourceArcs done v ++ sourceArcs rest v :=
  List.filterMap_append

theorem sourceArcs_singleton_self (edge : Id × Arc) :
    sourceArcs [edge] edge.1.toNat = [edge.2] := by
  rw [sourceArcs, List.filterMap_cons, arcOf?, if_pos rfl, List.filterMap_nil]

theorem sourceArcs_singleton_of_ne {source : Id} {v : Nat} (h : source.toNat ≠ v) (arc : Arc) :
    sourceArcs [(source, arc)] v = [] := by
  rw [sourceArcs, List.filterMap_cons, arcOf?, if_neg h, List.filterMap_nil]

/-- A row has room for every edge of its source that is still to come. -/
theorem length_sourceArcs_lt (hall : done ++ edge :: rest = all) :
    (sourceArcs done edge.1.toNat).length < (sourceArcs all edge.1.toNat).length := by
  rw [← hall, List.append_cons, sourceArcs_append, sourceArcs_append, sourceArcs_singleton_self,
    List.length_append, List.length_append, List.length_singleton]
  omega

theorem length_sourceArcs_le (hall : done ++ rest = all) (v : Nat) :
    (sourceArcs done v).length ≤ (sourceArcs all v).length := by
  rw [← hall, sourceArcs_append, List.length_append]
  exact Nat.le_add_right _ _

end Rows

/-! ### Writing edges -/

theorem arcs_setIfInBounds (targets edges : Array Id) (place : Nat) (arc : Arc) :
    arcs (targets.setIfInBounds place arc.target) (edges.setIfInBounds place arc.edge) =
      (arcs targets edges).setIfInBounds place arc := by
  refine Array.ext_getElem? fun k ↦ ?_
  rw [arcs, Array.getElem?_zipWith, Array.getElem?_setIfInBounds, Array.getElem?_setIfInBounds,
    Array.getElem?_setIfInBounds, arcs, Array.getElem?_zipWith, Array.size_zipWith]
  by_cases hplace : place = k
  · subst hplace
    by_cases ht : place < targets.size <;> by_cases he : place < edges.size <;>
      simp [ht, he, Nat.lt_min]
  · rw [if_neg hplace, if_neg hplace, if_neg hplace]

/-- What is written once some of all edges have been placed. -/
structure Fills (f : Filling) (count : Nat) (all done : List (Id × Arc)) : Prop where
  targets : f.targets.size = all.length
  edges : f.edges.size = all.length
  /-- The next free place of a row comes after the edges that were written to it. -/
  cursors : ∀ v, f.cursors[v]? =
    if v < count + 1 then some (rowStart all v + (sourceArcs done v).length) else none
  /-- These are the edges of its source, in the order of the list. -/
  rows : ∀ v k, k < (sourceArcs done v).length →
    (arcs f.targets f.edges)[rowStart all v + k]? = (sourceArcs done v)[k]?

section Filling

variable {f : Filling} {count : Nat} {all done rest : List (Id × Arc)} {edge : Id × Arc}

/-- **Placing one edge keeps what was written**, and adds its arc to the row of its source. -/
theorem Fills.put (h : Fills f count all done) (hall : done ++ edge :: rest = all)
    (hcount : edge.1.toNat < count) : Fills (f.put edge) count all (done ++ [edge]) := by
  obtain ⟨source, arc⟩ := edge
  have hroom := length_sourceArcs_lt hall
  have hcursor := h.cursors source.toNat
  rw [if_pos (Nat.lt_succ_of_lt hcount)] at hcursor
  simp only at hroom
  set place := rowStart all source.toNat + (sourceArcs done source.toNat).length with hplace
  have hwithin : place < all.length := by
    have hend := rowEnd_le_length all source.toNat
    omega
  have hput : f.put (source, arc) = ⟨f.cursors.modify source.toNat (· + 1),
      f.targets.setIfInBounds place arc.target, f.edges.setIfInBounds place arc.edge⟩ := by
    rw [Filling.put, hcursor, Option.getD_some]
  rw [hput]
  refine ⟨?_, ?_, fun v ↦ ?_, fun v k hk ↦ ?_⟩
  · rw [Array.size_setIfInBounds, h.targets]
  · rw [Array.size_setIfInBounds, h.edges]
  · rw [Array.getElem?_modify, h.cursors, sourceArcs_append, List.length_append]
    by_cases hv : source.toNat = v
    · subst hv
      rw [if_pos rfl, sourceArcs_singleton_self (source, arc), List.length_singleton]
      split <;> rfl
    · rw [if_neg hv, sourceArcs_singleton_of_ne hv]
      rfl
  · rw [arcs_setIfInBounds, Array.getElem?_setIfInBounds, sourceArcs_append]
    rw [sourceArcs_append, List.length_append] at hk
    by_cases hv : source.toNat = v
    · subst hv
      rw [sourceArcs_singleton_self (source, arc)] at hk ⊢
      rw [List.length_singleton] at hk
      rcases Nat.lt_or_eq_of_le (Nat.le_of_lt_succ hk) with hlt | heq
      · rw [if_neg (by omega), h.rows _ k hlt, List.getElem?_append_left hlt]
      · have hsize : (arcs f.targets f.edges).size = all.length := by
          rw [arcs, Array.size_zipWith, h.targets, h.edges, Nat.min_self]
        rw [heq, if_pos hplace, if_pos (hsize ▸ hwithin),
          List.getElem?_append_right (Nat.le_refl _), Nat.sub_self, List.getElem?_cons_zero]
    · rw [sourceArcs_singleton_of_ne hv] at hk ⊢
      rw [List.length_nil, Nat.add_zero] at hk
      rw [List.append_nil, if_neg, h.rows v k hk]
      -- rows lie apart, so another row is not written to
      have hle := length_sourceArcs_le hall v
      rcases Nat.lt_or_gt_of_ne hv with hlt | hgt
      · have happart := rowEnd_le_rowStart all hlt
        omega
      · have happart := rowEnd_le_rowStart all hgt
        omega

/-- Placing the edges that are left, one after the other. -/
theorem Fills.foldl_put (h : Fills f count all done) (hall : done ++ rest = all)
    (hcount : ∀ edge ∈ rest, edge.1.toNat < count) :
    Fills (rest.foldl Filling.put f) count all all := by
  induction rest generalizing f done with
  | nil =>
    rw [List.append_nil] at hall
    exact hall ▸ h
  | cons edge rest ih =>
    obtain ⟨hedge, hrest⟩ := List.forall_mem_cons.1 hcount
    exact ih (h.put hall hedge) (by rwa [List.append_assoc]) hrest

/-- Before any edge is placed the cursors are where the rows begin. -/
theorem fills_start (count : Nat) (all : List (Id × Arc)) :
    Fills ⟨addUp (countSources count (all.map (·.1))), .replicate all.length 0,
      .replicate all.length 0⟩ count all [] where
  targets := Array.size_replicate
  edges := Array.size_replicate
  cursors := getElem?_addUp count (all.map (·.1))
  rows _ _ hk := absurd hk (Nat.not_lt_zero _)

/-- A row that is full has the arcs of its node. -/
theorem Fills.extract_row (h : Fills f count all all) (v : Nat) :
    (arcs f.targets f.edges).extract (rowStart all v) (rowStart all (v + 1)) =
      (sourceArcs all v).toArray := by
  have hsize : (arcs f.targets f.edges).size = all.length := by
    rw [arcs, Array.size_zipWith, h.targets, h.edges, Nat.min_self]
  have hend := rowEnd_le_length all v
  refine Array.ext_getElem? fun k ↦ ?_
  refine Eq.trans ?_ List.getElem?_toArray.symm
  rw [Array.getElem?_extract, hsize, rowStart_succ, Nat.min_eq_left hend, Nat.add_sub_cancel_left]
  split
  · next hk => exact h.rows v k hk
  · next hk => exact (List.getElem?_eq_none (Nat.le_of_not_lt hk)).symm

end Filling

/-! ### The rows of listed edges -/

theorem lt_countOf {ids : List Id} {id : Id} (h : id ∈ ids) : id.toNat < countOf ids := by
  rcases hmax : ids.max? with - | m
  · exact absurd (List.max?_eq_none_iff.1 hmax) (List.ne_nil_of_mem h)
  · rw [countOf, hmax]
    exact Nat.lt_succ_of_le (UInt64.le_iff_toNat_le.1 ((List.max?_eq_some_iff.1 hmax).2 id h))

theorem countOf_eq {ids : List Id} {m : Id} (hm : m ∈ ids) (hle : ∀ id ∈ ids, id ≤ m) :
    countOf ids = m.toNat + 1 := by
  rw [countOf, List.max?_eq_some_iff.2 ⟨hm, hle⟩]

/-- Compressed rows hold edges by source. -/
structure Places (c : CompressedRows) (edges : List (Id × Arc)) : Prop where
  numRows : c.numRows = countOf (edges.map (·.1))
  numEdges : c.targets.size = edges.length
  /-- The row of a node has its arcs in the order of the list, then put in order of destination. -/
  row? : ∀ v < c.numRows, c.row? v = some (settled (sourceArcs edges v).toArray)

/-- **Edges in any order make rows**: the three arrays that are filled are taken in. -/
theorem exists_ofEdges_places (edges : List (Id × Arc)) :
    ∃ c, ofEdges edges = .ok c ∧ c.Places edges := by
  set sources := edges.map (·.1) with hsources
  have hcount : ∀ source ∈ sources, source.toNat < countOf sources := fun _ ↦ lt_countOf
  have hlength : sources.length = edges.length := List.length_map _
  have hfills := (fills_start (countOf sources) edges).foldl_put (List.nil_append edges)
    fun edge hedge ↦ hcount edge.1 (List.mem_map_of_mem hedge)
  have hwf := wellFormed_addUp hcount (hfills.targets.trans hlength.symm)
    (hfills.edges.trans hlength.symm)
  refine ⟨_, make_eq_ok_iff.2 ⟨hwf, rfl⟩, ?_⟩
  set given : CompressedRows := ⟨_, _, _, .zeroCopy, hwf⟩ with hgiven
  have hoffsets : given.sortRows.offsets = given.offsets :=
    (kept_sortFirst given given.numRows).1
  have hnum : given.sortRows.numRows = countOf sources := by
    rw [numRows, hoffsets, hgiven, size_addUp, Nat.add_sub_cancel]
  have hlast := given.sortRows.wellFormed.last
  rw [hoffsets, given.wellFormed.last, hgiven, hfills.targets] at hlast
  refine ⟨hnum, (Option.some.inj hlast).symm, fun v hv ↦ ?_⟩
  rw [hnum] at hv
  have hrow : given.row? v = some (sourceArcs edges v).toArray := by
    rw [row?_eq, part?, hgiven]
    simp only [getElem?_addUp]
    rw [if_pos (Nat.lt_succ_of_lt hv), if_pos (Nat.succ_lt_succ hv)]
    exact congrArg some (hfills.extract_row v)
  rw [row?_sortRows, hrow, Option.map_some]

theorem places_of_ofEdges {edges : List (Id × Arc)} {c : CompressedRows}
    (h : ofEdges edges = .ok c) : c.Places edges := by
  obtain ⟨c', hc', hplaces⟩ := exists_ofEdges_places edges
  exact Except.ok.inj (h.symm.trans hc') ▸ hplaces

end HopSampler.CompressedRows
