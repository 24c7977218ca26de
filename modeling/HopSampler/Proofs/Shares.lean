import HopSampler.Proofs.Backings

/-!
# Shares of a request

A request is a list of row numbers, each with the position its row goes to. Parts that are laid end
to end divide it among them: what is below the height of the first part is its share, and the rest
is passed on with the height taken off. A part without a share is left out.

Nothing gets lost and nothing is asked twice (`perm_shares`), and where the rows go does not matter
for how they are divided (`shares_moved`). The fetch of partitions locates row by row and then
groups; what it asks for are the shares of the rows in the order of the fetch
(`requests_eq_shares`).
-/

-- Sums start from the numeral, also where zero comes with more structure.
attribute [local instance (high)] Zero.ofOfNat0

namespace HopSampler.Partitions

variable {α β : Type}

/-! ### Dividing -/

/-- What is asked of the first rows, as many as the height. -/
def upTo (height : Nat) (request : List (Nat × Nat)) : List (Nat × Nat) :=
  request.filter (·.2 < height)

/-- What is asked of the rows after them, counted from there. -/
def past (height : Nat) (request : List (Nat × Nat)) : List (Nat × Nat) :=
  (request.filter fun q ↦ !decide (q.2 < height)).map fun q ↦ (q.1, q.2 - height)

section Dividing

variable (m n : Nat) (request : List (Nat × Nat))

theorem upTo_upTo_add : upTo m (upTo (m + n) request) = upTo m request := by
  rw [upTo, upTo, upTo, List.filter_filter]
  refine List.filter_congr fun q _ ↦ ?_
  rw [Bool.and_eq_left_iff_imp]
  simp only [decide_eq_true_eq]
  omega

theorem past_upTo_add : past m (upTo (m + n) request) = upTo n (past m request) := by
  rw [past, past, upTo, upTo, List.filter_map, List.filter_filter, List.filter_filter]
  refine congrArg (List.map _) (List.filter_congr fun q _ ↦ ?_)
  rw [Bool.eq_iff_iff]
  simp only [Function.comp, Bool.and_eq_true, Bool.not_eq_true', decide_eq_true_eq,
    decide_eq_false_iff_not]
  omega

theorem past_past : past n (past m request) = past (m + n) request := by
  rw [past, past, past, List.filter_map, List.map_map, List.filter_filter]
  refine congrArg₂ List.map (funext fun q ↦ Prod.ext rfl (Nat.sub_sub ..)) ?_
  refine List.filter_congr fun q _ ↦ ?_
  rw [Bool.eq_iff_iff]
  simp only [Function.comp, Bool.and_eq_true, Bool.not_eq_true', decide_eq_false_iff_not]
  omega

/-- Dividing loses no position and repeats none. -/
theorem perm_upTo_past :
    ((upTo n request).map (·.1) ++ (past n request).map (·.1)).Perm (request.map (·.1)) := by
  have hpositions : (past n request).map (·.1) =
      (request.filter fun q ↦ !decide (q.2 < n)).map (·.1) := by
    rw [past, List.map_map]
    rfl
  rw [hpositions, upTo, ← List.map_append]
  exact (List.filter_append_perm _ request).map _

end Dividing

/-- The parts that hold some of the rows, with the share of each. -/
def shares (height : α → Nat) : List α → List (Nat × Nat) → List (α × List (Nat × Nat))
  | [], _ => []
  | part :: parts, request =>
    (if upTo (height part) request = [] then [] else [(part, upTo (height part) request)]) ++
      shares height parts (past (height part) request)

section Shares

variable {height : α → Nat} {parts : List α} {request : List (Nat × Nat)}

/-- What is collected of the shares is collected part by part, where nothing comes of an empty
share. -/
theorem flatMap_shares_cons {part : α} {f : α → List (Nat × Nat) → List β} (hf : f part [] = []) :
    (shares height (part :: parts) request).flatMap (fun s ↦ f s.1 s.2) =
      f part (upTo (height part) request) ++
        (shares height parts (past (height part) request)).flatMap fun s ↦ f s.1 s.2 := by
  rw [shares, List.flatMap_append]
  split
  · next hnil => rw [hnil, hf, List.flatMap_nil]
  · rw [List.flatMap_singleton]

/-- A share is asked for, and in the range of its part. -/
theorem of_mem_shares {s : α × List (Nat × Nat)} (h : s ∈ shares height parts request) :
    s.1 ∈ parts ∧ s.2 ≠ [] ∧ ∀ q ∈ s.2, q.2 < height s.1 := by
  induction parts generalizing request with
  | nil => exact absurd h List.not_mem_nil
  | cons part parts ih =>
    rw [shares] at h
    rcases List.mem_append.1 h with hs | hs
    · split at hs
      · exact absurd hs List.not_mem_nil
      · next hne =>
        obtain rfl := List.mem_singleton.1 hs
        exact ⟨List.mem_cons_self, hne, fun q hq ↦ of_decide_eq_true (List.mem_filter.1 hq).2⟩
    · obtain ⟨hpart, hshare⟩ := ih hs
      exact ⟨List.mem_cons_of_mem part hpart, hshare⟩

/-- **The shares make up the request.** -/
theorem perm_shares (h : ∀ q ∈ request, q.2 < (parts.map height).sum) :
    ((shares height parts request).flatMap (·.2.map (·.1))).Perm (request.map (·.1)) := by
  induction parts generalizing request with
  | nil =>
    obtain rfl : request = [] := List.eq_nil_iff_forall_not_mem.2 fun q hq ↦
      absurd (h q hq) (Nat.not_lt_zero _)
    exact .nil
  | cons part parts ih =>
    have hpast : ∀ q ∈ past (height part) request, q.2 < (parts.map height).sum := by
      intro q hq
      obtain ⟨r, hr, rfl⟩ := List.mem_map.1 hq
      obtain ⟨hmem, hge⟩ := List.mem_filter.1 hr
      have hlt := h r hmem
      rw [List.map_cons, List.sum_cons] at hlt
      have hge : height part ≤ r.2 := by simpa using hge
      dsimp only
      omega
    rw [flatMap_shares_cons (f := fun _ share ↦ share.map (·.1)) rfl]
    exact ((ih hpast).append_left _).trans (perm_upTo_past ..)

theorem shares_map (f : β → α) (parts : List β) :
    shares height (parts.map f) request = (shares (height ∘ f) parts request).map (Prod.map f id) := by
  induction parts generalizing request with
  | nil => rfl
  | cons part parts ih =>
    rw [List.map_cons, shares, shares, ih, List.map_append]
    dsimp only [Function.comp]
    split <;> rfl

theorem shares_nil (parts : List α) : shares height parts [] = [] := by
  induction parts with
  | nil => rfl
  | cons part parts ih => exact ih

/-- Parts before others take what is below all of their heights. -/
theorem shares_append (parts others : List α) :
    shares height (parts ++ others) request =
      shares height parts (upTo (parts.map height).sum request) ++
        shares height others (past (parts.map height).sum request) := by
  induction parts generalizing request with
  | nil => simp [shares, past]
  | cons part parts ih =>
    rw [List.cons_append, shares, shares, List.map_cons, List.sum_cons, ih, upTo_upTo_add,
      past_upTo_add, past_past, List.append_assoc]

end Shares

/-! ### Positions -/

/-- A request whose rows go elsewhere. -/
def moved (f : Nat → Nat) (request : List (Nat × Nat)) : List (Nat × Nat) :=
  request.map (Prod.map f id)

/-- Row numbers, each to go to its own position. -/
def numbered (rows : List Nat) : List (Nat × Nat) := rows.zipIdx.map Prod.swap

section Positions

variable {f : Nat → Nat} {request : List (Nat × Nat)} {rows : List Nat}

theorem map_snd_moved : (moved f request).map (·.2) = request.map (·.2) := by
  rw [moved, List.map_map]
  rfl

theorem map_fst_moved : (moved f request).map (·.1) = (request.map (·.1)).map f := by
  rw [moved, List.map_map, List.map_map]
  rfl

theorem upTo_moved (height : Nat) : upTo height (moved f request) = moved f (upTo height request) := by
  rw [upTo, moved, List.filter_map]
  rfl

theorem past_moved (height : Nat) : past height (moved f request) = moved f (past height request) := by
  rw [past, moved, List.filter_map, List.map_map, past, moved, List.map_map]
  rfl

theorem map_snd_numbered (rows : List Nat) : (numbered rows).map (·.2) = rows := by
  rw [numbered, List.map_map]
  exact List.zipIdx_map_fst 0 rows

theorem map_fst_numbered (rows : List Nat) : (numbered rows).map (·.1) = List.range rows.length := by
  rw [numbered, List.map_map, List.range_eq_range']
  exact List.zipIdx_map_snd 0 rows

theorem shares_moved {height : α → Nat} (parts : List α) (request : List (Nat × Nat)) :
    shares height parts (moved f request) =
      (shares height parts request).map (Prod.map id (moved f)) := by
  induction parts generalizing request with
  | nil => rfl
  | cons part parts ih =>
    have hnil : moved f (upTo (height part) request) = [] ↔ upTo (height part) request = [] :=
      List.map_eq_nil_iff
    rw [shares, shares, upTo_moved, past_moved, ih, List.map_append]
    simp only [hnil]
    split <;> rfl

theorem lt_of_mem_numbered {n : Nat} (h : ∀ row ∈ rows, row < n) :
    ∀ q ∈ numbered rows, q.2 < n := by
  intro q hq
  refine h q.2 ?_
  rw [← map_snd_numbered rows]
  exact List.mem_map_of_mem hq

/-- Every request is a list of rows, in order, that go elsewhere. -/
theorem exists_moved {n : Nat} (h : ∀ q ∈ request, q.2 < n) :
    ∃ f rows, request = moved f (numbered rows) ∧ ∀ row ∈ rows, row < n := by
  refine ⟨fun i ↦ ((request.map (·.1))[i]?).getD 0, request.map (·.2), List.ext_getElem? fun i ↦ ?_,
    List.forall_mem_map.2 h⟩
  simp only [moved, numbered, List.getElem?_map, List.getElem?_zipIdx, Nat.zero_add]
  rcases hq : request[i]? with - | q
  · rfl
  · simp [hq]

end Positions

/-! ### What partitions ask for -/

variable {p : Partitions} {parts : List RowSource} {rows : List Nat} {places : List (Nat × Nat)}

theorem le_of_locate? {first row : Nat} {place : Nat × Nat}
    (h : locate? first parts row = some place) : first ≤ place.1 := by
  induction parts generalizing first row with
  | nil => cases h
  | cons part parts ih =>
    rw [locate?] at h
    split at h
    · cases h
      exact Nat.le_refl first
    · exact Nat.le_of_succ_le (ih h)

/-- What is asked of the `k`-th part, where the parts are counted from `first`. -/
def owned (first : Nat) (parts : List RowSource) (k : Nat) (request : List (Nat × Nat)) :
    List (Nat × Nat) :=
  request.filterMap fun q ↦
    (locate? first parts q.2).bind fun place ↦ if place.1 = k then some (q.1, place.2) else none

theorem owned_first (part : RowSource) (first : Nat) (request : List (Nat × Nat)) :
    owned first (part :: parts) first request = upTo part.numRows request := by
  rw [owned, upTo, ← List.filterMap_eq_filter]
  refine List.filterMap_congr fun q _ ↦ ?_
  rw [locate?]
  by_cases hlt : q.2 < part.numRows
  · simp [hlt]
  · rcases hloc : locate? (first + 1) parts (q.2 - part.numRows) with - | place
    · simp [hlt, Option.guard]
    · have hne : place.1 ≠ first := Nat.ne_of_gt (le_of_locate? hloc)
      simp [hlt, hne, Option.guard]

theorem owned_later (part : RowSource) {first k : Nat} (hk : first < k) (request : List (Nat × Nat)) :
    owned first (part :: parts) k request =
      owned (first + 1) parts k (past part.numRows request) := by
  rw [owned, owned, past, List.filterMap_map, List.filterMap_filter]
  refine List.filterMap_congr fun q _ ↦ ?_
  rw [locate?]
  by_cases hlt : q.2 < part.numRows
  · simp [hlt, Nat.ne_of_lt hk]
  · simp [hlt]

theorem requestOf_eq_owned (h : p.locateAll rows = .ok places) (k : Nat) :
    requestOf places k = owned 0 p.parts k (numbered rows) := by
  have hplaces := congrArg List.zipIdx (locateAll_eq_ok_iff.1 h)
  rw [List.zipIdx_map, List.zipIdx_map] at hplaces
  have hfilter := congrArg (List.filterMap fun (a : Option (Nat × Nat) × Nat) ↦
    a.1.bind fun place ↦ if place.1 = k then some (a.2, place.2) else none) hplaces
  rw [List.filterMap_map, List.filterMap_map] at hfilter
  rw [owned, numbered, List.filterMap_map]
  exact hfilter.symm

/-- Grouping by owner divides as the heights do. -/
theorem filterMap_owned (parts : List RowSource) (first : Nat) (request : List (Nat × Nat)) :
    (parts.zipIdx first).filterMap (fun a ↦ match owned first parts a.2 request with
      | [] => none
      | share => some (a.1, share)) = shares (·.numRows) parts request := by
  induction parts generalizing first request with
  | nil => rfl
  | cons part parts ih =>
    have hlater : (parts.zipIdx (first + 1)).filterMap (fun a ↦
          match owned first (part :: parts) a.2 request with
          | [] => none
          | share => some (a.1, share)) =
        shares (·.numRows) parts (past part.numRows request) := by
      rw [← ih]
      refine List.filterMap_congr fun a ha ↦ ?_
      have hfirst : first < a.2 := List.le_snd_of_mem_zipIdx ha
      rw [owned_later part hfirst]
    rw [List.zipIdx_cons, List.filterMap_cons, hlater, shares]
    dsimp only
    rw [owned_first]
    split
    · next hnone =>
      split at hnone
      · next hnil =>
        rw [if_pos hnil]
        rfl
      · cases hnone
    · next s hsome =>
      split at hsome
      · cases hsome
      · next hne =>
        cases hsome
        rw [if_neg hne]
        rfl

/-- **Partitions ask for the shares of the rows.** -/
theorem requests_eq_shares (h : p.locateAll rows = .ok places) :
    p.requests places = shares (·.numRows) p.parts (numbered rows) := by
  rw [← filterMap_owned p.parts 0, requests]
  refine List.filterMap_congr fun a _ ↦ ?_
  obtain ⟨part, k⟩ := a
  have howned := requestOf_eq_owned h k
  rcases hshare : requestOf places k with - | ⟨q, share⟩ <;> simp only [← howned, hshare]

end HopSampler.Partitions
