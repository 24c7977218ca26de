import HopSampler.Loading.Loader
import HopSampler.Proofs.Choosing
import HopSampler.Proofs.Chunks
import HopSampler.Proofs.Requests

/-!
# An epoch goes through the seeds once

The order of an epoch is a permutation of the positions, whatever the generator yields, since a
shuffle only swaps (`Random.shuffle_perm`). The batches are pieces of it of one size, so laid end to
end they are its beginning (`Loader.flatten_plan`), and that is all of it unless the incomplete last
batch is dropped.

**What holds of positions holds of seeds** (`AllBut.selectAt`). Selecting at positions goes element
by element, so the seeds of the batches, taken together, are the seeds at the positions of the plan.
The columns of a request for pairs are selected at the same positions and stay in step, as long as
they are equally long, which a loader checks when it is made.
-/

namespace HopSampler

/-! ### Shuffling -/

theorem Random.shuffleFrom_perm {α : Type} (items : Array α) (places : Nat) (g : Generator) :
    (shuffleFrom items places g).1.toList.Perm items.toList := by
  fun_induction shuffleFrom items places g with
  | case1 => exact .refl _
  | case2 => exact .refl _
  | case3 items i g j g' _ ih => exact ih.trans (swapIfInBounds_perm items (i + 1) j)

/-- **A shuffle loses and repeats nothing.** -/
theorem Random.shuffle_perm {α : Type} (items : List α) (g : Generator) :
    (shuffle items g).1.Perm items :=
  shuffleFrom_perm items.toArray items.length g

/-! ### Selecting at positions -/

section Select

variable {α β : Type} {items : List α} {positions : List Nat}

theorem selectAt_eq (items : List α) (positions : List Nat) :
    selectAt items positions = positions.filterMap (items[·]?) := by
  simp only [selectAt, List.getElem?_toArray]

theorem selectAt_append (items : List α) (first second : List Nat) :
    selectAt items (first ++ second) = selectAt items first ++ selectAt items second :=
  List.filterMap_append

/-- Selecting piece by piece is selecting at once. -/
theorem flatMap_selectAt (items : List α) (plan : List (List Nat)) :
    plan.flatMap (selectAt items) = selectAt items plan.flatten := by
  induction plan with
  | nil => rfl
  | cons batch plan ih => rw [List.flatMap_cons, List.flatten_cons, selectAt_append, ih]

/-- At positions in range there is an element each. -/
theorem length_selectAt (h : ∀ p ∈ positions, p < items.length) :
    (selectAt items positions).length = positions.length := by
  rw [selectAt_eq, List.filterMap_length_eq_length]
  intro p hp
  rw [List.getElem?_eq_getElem (h p hp)]
  rfl

theorem selectAt_map (f : α → β) (items : List α) (positions : List Nat) :
    selectAt (items.map f) positions = (selectAt items positions).map f := by
  simp only [selectAt_eq, List.map_filterMap, List.getElem?_map]

/-- Lists in step are selected in step. -/
theorem selectAt_zip {others : List β} (h : items.length = others.length)
    (positions : List Nat) : selectAt (items.zip others) positions =
      (selectAt items positions).zip (selectAt others positions) := by
  have hlen : (items.zip others).length = items.length := by
    rw [List.length_zip, ← h, Nat.min_self]
  simp only [selectAt_eq]
  induction positions with
  | nil => rfl
  | cons p positions ih =>
    by_cases hp : p < items.length
    · simp only [List.filterMap_cons, List.getElem?_eq_getElem hp,
        List.getElem?_eq_getElem (h ▸ hp : p < others.length),
        List.getElem?_eq_getElem (hlen.symm ▸ hp), List.getElem_zip, List.zip_cons_cons, ih]
    · have hpast : items.length ≤ p := Nat.le_of_not_lt hp
      simp only [List.filterMap_cons, List.getElem?_eq_none hpast,
        List.getElem?_eq_none (h ▸ hpast : others.length ≤ p),
        List.getElem?_eq_none (hlen.symm ▸ hpast), ih]

end Select

/-! ### All but some -/

/-- Some of a list, in any order, with `count` elements missing. -/
def AllBut {α : Type} (count : Nat) (all taken : List α) : Prop :=
  ∃ missing, missing.length = count ∧ (taken ++ missing).Perm all

theorem allBut_zero_iff {α : Type} {all taken : List α} :
    AllBut 0 all taken ↔ taken.Perm all := by
  constructor
  · rintro ⟨missing, hlen, hperm⟩
    rwa [List.length_eq_zero_iff.1 hlen, List.append_nil] at hperm
  · intro hperm
    exact ⟨[], rfl, by rwa [List.append_nil]⟩

/-- Selecting at all but some positions takes all but as many elements. -/
theorem AllBut.selectAt {α : Type} {items : List α} {positions : List Nat} {count : Nat}
    (h : AllBut count (List.range items.length) positions) :
    AllBut count items (selectAt items positions) := by
  obtain ⟨missing, rfl, hperm⟩ := h
  refine ⟨HopSampler.selectAt items missing, length_selectAt fun p hp ↦ ?_, ?_⟩
  · exact List.mem_range.1 (hperm.subset (List.mem_append_right positions hp))
  · rw [← selectAt_append, selectAt_eq]
    exact (hperm.filterMap _).trans (.of_eq (filterMap_range_getElem? items))

/-! ### The seeds of a request -/

/-- One seed, with all that a request says of it. -/
inductive Seed where
  | node (type : NodeType) (id : Id)
  | pair (type : EdgeType) (row col : Id) (label : Option Float32)

/-- The seeds of a request for nodes, in order. -/
def NodeRequest.listed (r : NodeRequest) : List Seed := r.ids.map (.node r.type)

/-- The seeds of a request for pairs, in order. -/
def EdgeRequest.listed (r : EdgeRequest) : List Seed :=
  match r.labels with
  | none => (r.rows.zip r.cols).map fun pair ↦ .pair r.type pair.1 pair.2 none
  | some labels =>
    ((r.rows.zip r.cols).zip labels).map fun labelled ↦
      .pair r.type labelled.1.1 labelled.1.2 (some labelled.2)

namespace Request

/-- The seeds of a request, in order. -/
def listed : Request → List Seed
  | .node r => r.listed
  | .edge r => r.listed

/-- A request that passes its own checks; a request for nodes has none. -/
def Valid : Request → Prop
  | .node _ => True
  | .edge r => r.validate = .ok ()

/-- A position at which every list of a request has an element. -/
def InRange : Request → Nat → Prop
  | .node r, p => p < r.ids.length
  | .edge r, p => p < r.rows.length ∧ p < r.cols.length ∧
      ∀ labels, r.labels = some labels → p < labels.length

end Request

namespace EdgeRequest

variable {r : EdgeRequest} (h : r.validate = .ok ())
include h

theorem length_listed : r.listed.length = r.size := by
  obtain ⟨⟨hcols, hlabels⟩, -⟩ := validate_eq_ok_iff.1 h
  rw [listed, size]
  cases hl : r.labels with
  | none => rw [List.length_map, List.length_zip, ← hcols, Nat.min_self]
  | some labels =>
    rw [List.length_map, List.length_zip, List.length_zip, ← hcols, hlabels labels hl,
      Nat.min_self, Nat.min_self]

/-- Pairs are selected with their labels. -/
theorem listed_select (positions : List Nat) :
    (r.select positions).listed = selectAt r.listed positions := by
  obtain ⟨⟨hcols, hlabels⟩, -⟩ := validate_eq_ok_iff.1 h
  cases hl : r.labels with
  | none =>
    simp only [listed, select, hl, Option.map_none]
    rw [selectAt_map, selectAt_zip hcols]
  | some labels =>
    have hpairs : (r.rows.zip r.cols).length = labels.length := by
      rw [List.length_zip, ← hcols, hlabels labels hl, Nat.min_self]
    simp only [listed, select, hl, Option.map_some]
    rw [selectAt_map, selectAt_zip hpairs, selectAt_zip hcols]

/-- Some of the pairs make a request that passes the same checks. -/
theorem validate_select {positions : List Nat} (hrange : ∀ p ∈ positions, p < r.size) :
    (r.select positions).validate = .ok () := by
  obtain ⟨⟨hcols, hlabels⟩, hnegatives⟩ := validate_eq_ok_iff.1 h
  have hrows : (selectAt r.rows positions).length = positions.length := length_selectAt hrange
  refine validate_eq_ok_iff.2 ⟨⟨?_, ?_⟩, ?_⟩
  · exact hrows.trans (length_selectAt fun p hp ↦ hcols ▸ hrange p hp).symm
  · intro selected hselected
    obtain ⟨labels, hl, rfl⟩ := Option.map_eq_some_iff.1 hselected
    refine (length_selectAt fun p hp ↦ ?_).trans hrows.symm
    rw [hlabels labels hl]
    exact hrange p hp
  · intro n hn
    obtain ⟨hamount, hbinary⟩ := hnegatives n hn
    exact ⟨hamount, fun hmode ↦ Option.map_eq_none_iff.2 (hbinary hmode)⟩

theorem inRange_of_lt {p : Nat} (hp : p < r.size) : (Request.edge r).InRange p := by
  obtain ⟨⟨hcols, hlabels⟩, -⟩ := validate_eq_ok_iff.1 h
  exact ⟨hp, hcols ▸ hp, fun labels hl ↦ hlabels labels hl ▸ hp⟩

end EdgeRequest

namespace Request

variable {r : Request} (h : r.Valid)
include h

theorem length_listed : r.listed.length = r.size := by
  cases r with
  | node r => exact List.length_map ..
  | edge r => exact EdgeRequest.length_listed h

theorem listed_select (positions : List Nat) :
    (r.select positions).listed = selectAt r.listed positions := by
  cases r with
  | node r => exact (selectAt_map ..).symm
  | edge r => exact EdgeRequest.listed_select h positions

theorem inRange_of_lt {p : Nat} (hp : p < r.size) : r.InRange p := by
  cases r with
  | node r => exact hp
  | edge r => exact EdgeRequest.inRange_of_lt h hp

theorem valid_select {positions : List Nat} (hrange : ∀ p ∈ positions, p < r.size) :
    (r.select positions).Valid := by
  cases r with
  | node r => trivial
  | edge r => exact EdgeRequest.validate_select h hrange

omit h in
theorem size_select {positions : List Nat} (hrange : ∀ p ∈ positions, p < r.size) :
    (r.select positions).size = positions.length := by
  cases r with
  | node r => exact length_selectAt hrange
  | edge r => exact length_selectAt hrange

end Request

/-! ### The plan of an epoch -/

namespace Loader

/-- A loader that was made. -/
def Made (l : Loader) : Prop :=
  (∃ sampler seeds config, ofNodes sampler seeds config = .ok l) ∨
    ∃ sampler seeds negatives config, ofPairs sampler seeds negatives config = .ok l

theorem made_iff {l : Loader} : l.Made ↔ l.config.batchSize ≠ 0 ∧ l.seeds.Valid := by
  simp only [Made, ofNodes, ofPairs, check_bind_eq_ok_iff, LoaderConfig.validate,
    ite_error_eq_ok_iff, Except.ok.injEq, and_true]
  constructor
  · rintro (⟨_, _, _, hsize, rfl⟩ | ⟨_, _, _, _, hsize, hvalid, rfl⟩)
    · exact ⟨hsize, trivial⟩
    · exact ⟨hsize, hvalid⟩
  · obtain ⟨sampler, seeds, config⟩ := l
    rintro ⟨hsize, hvalid⟩
    cases seeds with
    | node seeds => exact .inl ⟨sampler, seeds, config, hsize, rfl⟩
    | edge seeds => exact .inr ⟨sampler, seeds, none, config, hsize, hvalid, rfl⟩

/-- An epoch goes through the seeds once. -/
structure GoesThrough (l : Loader) (epoch : UInt64) : Prop where
  /-- There are as many batches as announced. -/
  length_plan : (l.plan epoch).length = l.numBatches
  /-- All batches are full but a last one, which has what is left over and may be dropped. -/
  sizes : (l.plan epoch).map (·.length) =
    List.replicate (l.numSeeds / l.config.batchSize.toNat) l.config.batchSize.toNat ++
      if l.config.dropLast ∨ l.numSeeds % l.config.batchSize.toNat = 0 then []
      else [l.numSeeds % l.config.batchSize.toNat]
  /-- No position is met twice. -/
  nodup : (l.plan epoch).flatten.Nodup
  /-- Every position is one of a seed. -/
  lt : ∀ p ∈ (l.plan epoch).flatten, p < l.numSeeds
  /-- Every list of the request has an element at every position. -/
  inRange : ∀ batch ∈ l.plan epoch, ∀ p ∈ batch, l.seeds.InRange p
  /-- A batch has as many seeds as positions. -/
  size : ∀ batch ∈ l.plan epoch, (l.seeds.select batch).size = batch.length
  /-- A batch is a request that passes its checks. -/
  valid : ∀ batch ∈ l.plan epoch, (l.seeds.select batch).Valid
  /-- If nothing is dropped, all positions are met. -/
  positions : l.config.dropLast = false → (l.plan epoch).flatten.Perm (List.range l.numSeeds)
  /-- And so are all seeds. -/
  seeds : l.config.dropLast = false →
    ((l.plan epoch).flatMap fun batch ↦ (l.seeds.select batch).listed).Perm l.seeds.listed
  /-- If the last batch is dropped, just the positions left over are missing. -/
  positions_dropped : l.config.dropLast = true →
    AllBut (l.numSeeds % l.config.batchSize.toNat) (List.range l.numSeeds) (l.plan epoch).flatten
  /-- And as many seeds. -/
  seeds_dropped : l.config.dropLast = true →
    AllBut (l.numSeeds % l.config.batchSize.toNat) l.seeds.listed
      ((l.plan epoch).flatMap fun batch ↦ (l.seeds.select batch).listed)

theorem order_perm (l : Loader) (epoch : UInt64) :
    (l.order epoch).Perm (List.range l.numSeeds) := by
  simp only [order]
  split
  · exact Random.shuffle_perm _ _
  · exact .refl _

theorem length_order (l : Loader) (epoch : UInt64) : (l.order epoch).length = l.numSeeds :=
  (l.order_perm epoch).length_eq.trans List.length_range

theorem flatten_plan (l : Loader) (epoch : UInt64) :
    (l.plan epoch).flatten = (l.order epoch).take (l.numBatches * l.batchSize) := by
  rw [plan, ← List.flatMap_def, flatMap_pieces]

/-- How many seeds an epoch leaves out. -/
def leftOut (l : Loader) : Nat := if l.config.dropLast then l.numSeeds % l.batchSize else 0

variable {l : Loader}

theorem batchSize_pos (l : Loader) : 0 < l.batchSize := Nat.le_max_right _ _

theorem batchSize_eq (h : l.config.batchSize ≠ 0) : l.batchSize = l.config.batchSize.toNat :=
  Nat.max_eq_left (UInt64.lt_iff_toNat_lt.1 (UInt64.pos_iff_ne_zero.2 h))

theorem numBatches_eq (l : Loader) : l.numBatches = l.numSeeds / l.batchSize +
    if l.config.dropLast ∨ l.numSeeds % l.batchSize = 0 then 0 else 1 := by
  rw [numBatches]
  cases l.config.dropLast with
  | true => rfl
  | false => simp only [Bool.false_eq_true, if_false, false_or, ceilDiv_eq l.batchSize_pos]

theorem map_length_plan (l : Loader) (epoch : UInt64) : (l.plan epoch).map (·.length) =
    List.replicate (l.numSeeds / l.batchSize) l.batchSize ++
      if l.config.dropLast ∨ l.numSeeds % l.batchSize = 0 then []
      else [l.numSeeds % l.batchSize] := by
  have hfull : ∀ k ∈ List.range (l.numSeeds / l.batchSize),
      (((l.order epoch).drop (k * l.batchSize)).take l.batchSize).length = l.batchSize := by
    intro k hk
    refine length_piece_of_lt ?_
    rw [length_order]
    exact List.mem_range.1 hk
  have hafter := length_piece_after l.batchSize_pos (l.order epoch)
  rw [length_order] at hafter
  have hreplicate : (List.range (l.numSeeds / l.batchSize)).map
      (fun k ↦ (((l.order epoch).drop (k * l.batchSize)).take l.batchSize).length) =
        List.replicate (l.numSeeds / l.batchSize) l.batchSize := by
    rw [List.map_congr_left hfull, List.map_const', List.length_range]
  rw [plan, List.map_map, numBatches_eq]
  show (List.range _).map
    (fun k ↦ (((l.order epoch).drop (k * l.batchSize)).take l.batchSize).length) = _
  split
  · rw [Nat.add_zero, hreplicate, List.append_nil]
  · rw [List.range_succ, List.map_append, hreplicate, List.map_singleton, hafter]

/-- **The positions of an epoch are all but those left out.** -/
theorem flatten_plan_allBut (l : Loader) (epoch : UInt64) :
    AllBut l.leftOut (List.range l.numSeeds) (l.plan epoch).flatten := by
  refine ⟨(l.order epoch).drop (l.numBatches * l.batchSize), ?_, ?_⟩
  · rw [List.length_drop, length_order, leftOut, numBatches]
    split
    · have hdiv := Nat.div_add_mod' l.numSeeds l.batchSize
      omega
    · exact Nat.sub_eq_zero_of_le (le_ceilDiv_mul l.batchSize_pos)
  · rw [flatten_plan, List.take_append_drop]
    exact l.order_perm epoch

theorem lt_of_mem_plan {epoch : UInt64} {batch : List Nat} (hbatch : batch ∈ l.plan epoch) {p : Nat}
    (hp : p ∈ batch) : p < l.numSeeds := by
  obtain ⟨missing, -, hperm⟩ := l.flatten_plan_allBut epoch
  have hflat := List.mem_append_left missing (List.mem_flatten.2 ⟨batch, hbatch, hp⟩)
  exact List.mem_range.1 (hperm.subset hflat)

/-- **And so are the seeds.** -/
theorem flatMap_listed_allBut (h : l.seeds.Valid) (epoch : UInt64) :
    AllBut l.leftOut l.seeds.listed
      ((l.plan epoch).flatMap fun batch ↦ (l.seeds.select batch).listed) := by
  have hpositions := l.flatten_plan_allBut epoch
  rw [numSeeds, ← Request.length_listed h] at hpositions
  simp only [Request.listed_select h, flatMap_selectAt]
  exact hpositions.selectAt

/-- **An epoch goes through the seeds once**, whatever the loader, the order and the epoch. -/
theorem goesThrough_of_made (h : l.Made) (epoch : UInt64) : l.GoesThrough epoch := by
  obtain ⟨hsize, hvalid⟩ := made_iff.1 h
  have hpositions := l.flatten_plan_allBut epoch
  have hseeds := flatMap_listed_allBut hvalid epoch
  have hrange : ∀ batch ∈ l.plan epoch, ∀ p ∈ batch, p < l.seeds.size :=
    fun batch hbatch p hp ↦ lt_of_mem_plan hbatch hp
  rw [leftOut, batchSize_eq hsize] at hpositions hseeds
  exact {
    length_plan := by rw [plan, List.length_map, List.length_range]
    sizes := batchSize_eq hsize ▸ l.map_length_plan epoch
    nodup := by
      obtain ⟨missing, -, hperm⟩ := hpositions
      exact (hperm.nodup_iff.2 List.nodup_range).sublist (List.sublist_append_left _ _)
    lt := fun p hp ↦ by
      obtain ⟨batch, hbatch, hp⟩ := List.mem_flatten.1 hp
      exact lt_of_mem_plan hbatch hp
    inRange := fun batch hbatch p hp ↦ Request.inRange_of_lt hvalid (hrange batch hbatch p hp)
    size := fun batch hbatch ↦ Request.size_select (hrange batch hbatch)
    valid := fun batch hbatch ↦ Request.valid_select hvalid (hrange batch hbatch)
    positions := fun hkept ↦ by simpa [hkept, allBut_zero_iff] using hpositions
    seeds := fun hkept ↦ by simpa [hkept, allBut_zero_iff] using hseeds
    positions_dropped := fun hdropped ↦ by simpa [hdropped] using hpositions
    seeds_dropped := fun hdropped ↦ by simpa [hdropped] using hseeds }

/-- Three labelled pairs, two by two in random order. -/
def small : Loader where
  sampler := .small .traversal
  seeds := .edge
    { type := ⟨⟨"user"⟩, "sees", ⟨"item"⟩⟩, rows := [0, 1, 1], cols := [0, 1, 2],
      labels := some [1, 0, 1], negatives := some ⟨.triplet, 2⟩ }
  config := { batchSize := 2, shuffle := true }

theorem small_made : small.Made := made_iff.2 ⟨by decide, rfl⟩

theorem goesThrough_of_made_small : small.Made ∧ small.GoesThrough 1 :=
  ⟨small_made, goesThrough_of_made small_made 1⟩

end Loader

end HopSampler
