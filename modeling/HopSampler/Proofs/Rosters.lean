import HopSampler.Proofs.Maps
import HopSampler.Sampling.Roster
import Mathlib.Data.List.Nodup

/-!
# What a roster holds

Meeting nodes only appends, and only nodes that are not in yet. So a roster never lists a node
twice, rosters are ordered by how they start, and the place of a node is the same in every later
roster (`placeOf_eq_of_isPrefix`). That last fact is what lets a place stand for its node from the
moment it is handed out.
-/

namespace HopSampler

/-- What stands at a position of a list stands there in every list it starts. -/
theorem getElem?_of_isPrefix {α : Type} {xs ys : List α} (h : xs <+: ys) {k : Nat} {a : α}
    (hk : xs[k]? = some a) : ys[k]? = some a := by
  obtain ⟨hlt, rfl⟩ := List.getElem?_eq_some_iff.1 hk
  rw [h.getElem hlt, List.getElem?_eq_getElem]

namespace Roster

/-- The place of a node that was met. -/
def placeOf (r : Roster) (id : Id) : Nat := (r.place? id).getD 0

/-! ### Places -/

theorem place?_eq_some_iff {r : Roster} {id : Id} {place : Nat} :
    r.place? id = some place ↔ r.ids.toList[place]? = some id := by
  rw [place?, r.places_eq, Array.getElem?_toList]

theorem place?_eq_none_iff {r : Roster} {id : Id} : r.place? id = none ↔ id ∉ r.ids.toList := by
  rw [List.mem_iff_getElem?, Option.eq_none_iff_forall_ne_some, not_exists]
  simp only [ne_eq, place?_eq_some_iff]

/-- No node is listed twice. -/
theorem ids_nodup (r : Roster) : r.ids.toList.Nodup := by
  rw [List.nodup_iff_getElem?_ne_getElem?]
  intro i j hij hj heq
  have hi : r.ids.toList[i]? = some r.ids.toList[j] := by
    rw [heq, List.getElem?_eq_getElem hj]
  have hplace : some i = some j :=
    (place?_eq_some_iff.2 hi).symm.trans (place?_eq_some_iff.2 (List.getElem?_eq_getElem hj))
  exact absurd (Option.some.inj hplace) (Nat.ne_of_lt hij)

theorem placeOf_of_getElem? {r : Roster} {id : Id} {place : Nat}
    (h : r.ids.toList[place]? = some id) : r.placeOf id = place := by
  rw [placeOf, place?_eq_some_iff.2 h, Option.getD_some]

/-- A node that was met stands at its place. -/
theorem getElem?_placeOf {r : Roster} {id : Id} (h : id ∈ r.ids.toList) :
    r.ids.toList[r.placeOf id]? = some id := by
  obtain ⟨place, hplace⟩ := List.mem_iff_getElem?.1 h
  rw [placeOf_of_getElem? hplace, hplace]

/-- **Places never change.** -/
theorem placeOf_eq_of_isPrefix {r s : Roster} {id : Id} (h : id ∈ r.ids.toList)
    (hstarts : r.ids.toList <+: s.ids.toList) : s.placeOf id = r.placeOf id :=
  placeOf_of_getElem? (getElem?_of_isPrefix hstarts (getElem?_placeOf h))

/-! ### Meeting nodes -/

theorem claim_of_place {r : Roster} {id : Id} {place : Nat} (h : r.place? id = some place) :
    r.claim id = (place, r) := by
  rw [claim]
  split
  · next hplace => rw [Option.some.inj (hplace.symm.trans h)]
  · next hnone => rw [place?, hnone] at h; cases h

theorem claim_of_place_none {r : Roster} {id : Id} (h : r.place? id = none) :
    (r.claim id).1 = r.ids.size ∧ (r.claim id).2.ids = r.ids.push id := by
  rw [claim]
  split
  · next hplace => rw [place?, hplace] at h; cases h
  · exact ⟨rfl, rfl⟩

/-- Meeting a node puts it at the end unless it is in. -/
theorem claim_ids (r : Roster) (id : Id) :
    (r.claim id).2.ids.toList =
      if id ∈ r.ids.toList then r.ids.toList else r.ids.toList ++ [id] := by
  rcases h : r.place? id with - | place
  · rw [(claim_of_place_none h).2, if_neg (place?_eq_none_iff.1 h), Array.toList_push]
  · rw [claim_of_place h, if_pos (List.mem_of_getElem? (place?_eq_some_iff.1 h))]

theorem prefix_claim (r : Roster) (id : Id) : r.ids.toList <+: (r.claim id).2.ids.toList := by
  rw [claim_ids]
  split
  · exact List.prefix_refl _
  · exact List.prefix_append _ _

theorem mem_claim {r : Roster} {id other : Id} :
    other ∈ (r.claim id).2.ids.toList ↔ other ∈ r.ids.toList ∨ other = id := by
  rw [claim_ids]
  split
  · next h => exact ⟨.inl, fun hor ↦ hor.elim (fun hin ↦ hin) fun heq ↦ heq ▸ h⟩
  · rw [List.mem_append, List.mem_singleton]

/-- The place handed out is the place of the node. -/
theorem claim_place (r : Roster) (id : Id) : (r.claim id).1 = (r.claim id).2.placeOf id := by
  rcases h : r.place? id with - | place
  · obtain ⟨hplace, hids⟩ := claim_of_place_none h
    refine (placeOf_of_getElem? ?_).symm
    rw [hplace, hids, Array.getElem?_toList, Array.getElem?_push_size]
  · rw [claim_of_place h, placeOf, h, Option.getD_some]

/-! ### Meeting lists of nodes -/

@[simp]
theorem claimAll_nil (r : Roster) : r.claimAll [] = r :=
  rfl

theorem claimAll_cons (r : Roster) (id : Id) (ids : List Id) :
    r.claimAll (id :: ids) = (r.claim id).2.claimAll ids :=
  rfl

theorem claimAll_append (r : Roster) (ids more : List Id) :
    r.claimAll (ids ++ more) = (r.claimAll ids).claimAll more := by
  rw [claimAll, claimAll, claimAll, List.foldl_append]

theorem prefix_claimAll (r : Roster) (ids : List Id) :
    r.ids.toList <+: (r.claimAll ids).ids.toList := by
  induction ids generalizing r with
  | nil => exact List.prefix_refl _
  | cons id ids ih => exact (r.prefix_claim id).trans (ih _)

/-- The nodes in a roster are those that were in and those that were met. -/
theorem mem_claimAll {r : Roster} {ids : List Id} {id : Id} :
    id ∈ (r.claimAll ids).ids.toList ↔ id ∈ r.ids.toList ∨ id ∈ ids := by
  induction ids generalizing r with
  | nil => simp
  | cons other ids ih => rw [claimAll_cons, ih, mem_claim, List.mem_cons, or_assoc]

/-- What was met since some place is met at the start of what is met later. -/
theorem since_prefix {r s : Roster} (h : r.ids.toList <+: s.ids.toList) (start : Nat) :
    r.since start <+: s.since start := by
  obtain ⟨tail, htail⟩ := h
  refine ⟨tail.drop (start - r.ids.toList.length), ?_⟩
  rw [since, since, ← htail, List.drop_append]

theorem length_ids (r : Roster) : r.ids.toList.length = r.size :=
  Array.length_toList

end Roster

namespace Rosters

/-- Every roster of `r` starts the roster of its type in `s`. -/
def Prefix (r s : Rosters) : Prop :=
  ∀ t, (r.roster t).ids.toList <+: (s.roster t).ids.toList

theorem Prefix.refl (r : Rosters) : Prefix r r := fun _ ↦ List.prefix_refl _

theorem Prefix.trans {r s u : Rosters} (hrs : Prefix r s) (hsu : Prefix s u) : Prefix r u :=
  fun t ↦ (hrs t).trans (hsu t)

theorem Prefix.size_le {r s : Rosters} (h : Prefix r s) (t : NodeType) :
    (r.roster t).size ≤ (s.roster t).size := by
  simpa only [Roster.length_ids] using (h t).length_le

theorem roster_insert (r : Rosters) (t u : NodeType) (roster : Roster) :
    Rosters.roster (r.insert t roster) u = if t = u then roster else r.roster u :=
  r.getD_insert t u roster .empty

theorem roster_claimAll (r : Rosters) (t u : NodeType) (ids : List Id) :
    (r.claimAll t ids).roster u = if t = u then (r.roster u).claimAll ids else r.roster u := by
  rw [claimAll]
  split
  · next h => rw [h]; split <;> rfl
  · rw [roster_insert]
    split
    · next h => rw [h]
    · rfl

/-- Meeting a list of nodes is meeting its first and then the others. -/
theorem claimAll_cons (r : Rosters) (t : NodeType) (id : Id) (ids : List Id) :
    r.claimAll t (id :: ids) =
      claimAll (r.insert t ((r.roster t).claim id).2) t ids := by
  rw [claimAll, if_neg (List.cons_ne_nil id ids), claimAll, Roster.claimAll_cons]
  split
  · next hids => rw [hids, Roster.claimAll_nil]
  · rw [roster_insert, if_pos rfl, SortedMap.insert_insert]

theorem claimAll_nil (r : Rosters) (t : NodeType) : r.claimAll t [] = r := if_pos rfl

theorem claimAll_append (r : Rosters) (t : NodeType) (ids more : List Id) :
    r.claimAll t (ids ++ more) = (r.claimAll t ids).claimAll t more := by
  induction ids generalizing r with
  | nil => rw [List.nil_append, claimAll_nil]
  | cons id ids ih => rw [List.cons_append, claimAll_cons, ih, claimAll_cons]

theorem prefix_claimAll (r : Rosters) (t : NodeType) (ids : List Id) :
    r.Prefix (r.claimAll t ids) := by
  intro u
  rw [roster_claimAll]
  split
  · exact Roster.prefix_claimAll _ _
  · exact List.prefix_refl _

/-- A roster's size as listed by type. -/
theorem getD_sizes (r : Rosters) (t : NodeType) : r.sizes.getD t 0 = (r.roster t).size := by
  rw [SortedMap.getD, sizes, SortedMap.get?_mapEntries, roster, SortedMap.getD]
  cases r.get? t <;> rfl

end Rosters

end HopSampler
