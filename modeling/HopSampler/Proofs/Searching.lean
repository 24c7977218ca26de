import HopSampler.Graph
import HopSampler.Proofs.Checks
import HopSampler.Proofs.WellFormed

/-!
# Searching rows

Whether there is an edge is found by halving the row of its source. The search is right about a row
in order of destination, however often a destination occurs in it (`Topology.hasEdge_iff`). Nothing
else is ever searched: rows are put in order wherever a topology is made, and a graph that is built
from such topologies has only such rows (`Graph.Blueprint.sorted_of_build`).
-/

namespace HopSampler

namespace Topology

/-! ### Rows in order -/

/-- A row put in order of destination, unless it is. -/
def settle (row : List Arc) : List Arc :=
  if isAscending (row.map (·.target)) then row else row.mergeSort Arc.le

/-- Every row is in order of destination. -/
def Sorted (t : Topology) : Prop :=
  ∀ row ∈ t.rows, row.toList.Pairwise fun a b ↦ a.target ≤ b.target

instance (t : Topology) : Decidable t.Sorted :=
  inferInstanceAs (Decidable (∀ row ∈ t.rows, row.toList.Pairwise fun a b ↦ a.target ≤ b.target))

/-- A row that is sorted is in order of destination, and of edge ID where destinations repeat. -/
theorem pairwise_mergeSort (row : List Arc) : (row.mergeSort Arc.le).Pairwise fun a b ↦
    a.target < b.target ∨ (a.target = b.target ∧ a.edge ≤ b.edge) := by
  refine (List.pairwise_mergeSort (fun a b c hab hbc ↦ ?_) (fun a b ↦ ?_) row).imp fun h ↦ ?_
  · simp only [Arc.le, decide_eq_true_iff, UInt64.lt_iff_toNat_lt, UInt64.le_iff_toNat_le,
      ← UInt64.toNat_inj] at hab hbc ⊢
    omega
  · simp only [Arc.le, Bool.or_eq_true, decide_eq_true_iff, UInt64.lt_iff_toNat_lt,
      UInt64.le_iff_toNat_le, ← UInt64.toNat_inj]
    omega
  · exact of_decide_eq_true h

theorem settle_sorted (row : List Arc) :
    (settle row).Pairwise fun a b ↦ a.target ≤ b.target := by
  rw [settle]
  split
  · next h => exact List.pairwise_map.1 (isAscending_iff.1 h)
  · refine (pairwise_mergeSort row).imp fun h ↦ ?_
    rcases h with hlt | ⟨heq, -⟩
    · exact UInt64.le_of_lt hlt
    · exact UInt64.le_of_eq heq

/-- Putting a row in order only rearranges it. -/
theorem settle_perm (row : List Arc) : (settle row).Perm row := by
  rw [settle]
  split
  · exact .refl row
  · exact List.mergeSort_perm row Arc.le

variable {t : Topology}

theorem Sorted.withPlacement (h : t.Sorted) (placement : Placement) :
    (t.withPlacement placement).Sorted := h

theorem Sorted.padTo (h : t.Sorted) (count : Nat) : (t.padTo count).Sorted := by
  intro row hrow
  rcases Array.mem_append.1 hrow with hrow | hrow
  · exact h row hrow
  · rw [(Array.mem_replicate.1 hrow).2]
    exact List.Pairwise.nil

/-! ### The search -/

/-- **Halving finds a destination exactly if it is there**, in a stretch of a row in order. -/
theorem searchFrom_iff {row : Array Arc} (hrow : row.toList.Pairwise fun a b ↦ a.target ≤ b.target)
    {target : Id} {start count : Nat} (hend : start + count ≤ row.size) :
    searchFrom row target start count = true ↔
      ∃ i arc, start ≤ i ∧ i < start + count ∧ row[i]? = some arc ∧ arc.target = target := by
  have hmono : ∀ {i j : Nat} {a b : Arc}, i ≤ j → row[i]? = some a → row[j]? = some b →
      a.target ≤ b.target := by
    intro i j a b hij ha hb
    rcases Nat.lt_or_eq_of_le hij with hlt | rfl
    · rw [← Array.getElem?_toList] at ha hb
      obtain ⟨hi, rfl⟩ := List.getElem?_eq_some_iff.1 ha
      obtain ⟨hj, rfl⟩ := List.getElem?_eq_some_iff.1 hb
      exact List.pairwise_iff_getElem.1 hrow i j hi hj hlt
    · rw [Option.some.inj (ha.symm.trans hb)]
      exact UInt64.le_refl _
  fun_induction searchFrom row target start count with
  | case1 start =>
    simp only [Bool.false_eq_true, false_iff]
    rintro ⟨i, -, hstart, hi, -⟩
    omega
  | case2 start count hcount hnone =>
    rw [Array.getElem?_eq_none_iff] at hnone
    omega
  | case3 start count hcount middle hmiddle hfound =>
    exact iff_of_true rfl ⟨_, middle, by omega, by omega, hmiddle, hfound⟩
  | case4 start count hcount middle hmiddle hmissed hlt ih =>
    refine (ih (by omega)).trans (exists₂_congr fun i arc ↦ and_congr_right fun hi ↦ ?_)
    refine ⟨fun ⟨hhalf, harc⟩ ↦ ⟨by omega, harc⟩, fun ⟨hall, harc, htarget⟩ ↦ ?_⟩
    -- from the middle on everything is behind the destination
    refine ⟨Nat.lt_of_not_le fun hle ↦ ?_, harc, htarget⟩
    have hbehind := hmono hle hmiddle harc
    rw [htarget] at hbehind
    exact absurd hlt (UInt64.not_lt.2 hbehind)
  | case5 start count hcount middle hmiddle hmissed hge ih =>
    refine (ih (by omega)).trans (exists₂_congr fun i arc ↦
      ⟨fun ⟨hi, hhalf, harc⟩ ↦ ⟨by omega, by omega, harc⟩, ?_⟩)
    rintro ⟨hi, hall, harc, htarget⟩
    -- up to the middle everything is in front of the destination
    refine ⟨Nat.lt_of_not_le fun hle ↦ ?_, by omega, harc, htarget⟩
    have hfront := hmono hle harc hmiddle
    rw [htarget] at hfront
    exact hmissed (UInt64.le_antisymm (UInt64.not_lt.1 hge) hfront)

/-- **There is an edge exactly if the row of its source holds its destination.** -/
theorem hasEdge_iff (h : t.Sorted) {source target : Id} : t.hasEdge source target = true ↔
    ∃ row, t.neighbors? source = some row ∧ ∃ arc ∈ row, arc.target = target := by
  rw [hasEdge]
  cases hrow : t.neighbors? source with
  | none => simp
  | some row =>
    have hsorted := h row (Array.mem_of_getElem? hrow)
    simp only [searchFrom_iff hsorted (Nat.le_of_eq (Nat.zero_add _)), Option.some.injEq,
      exists_eq_left']
    constructor
    · rintro ⟨i, arc, -, -, harc, htarget⟩
      exact ⟨arc, Array.mem_of_getElem? harc, htarget⟩
    · rintro ⟨arc, harc, htarget⟩
      obtain ⟨i, hi, rfl⟩ := Array.mem_iff_getElem.1 harc
      exact ⟨i, _, Nat.zero_le i, by omega, Array.getElem?_eq_getElem hi, htarget⟩

end Topology

/-! ### Graphs -/

namespace Graph

/-- Every topology is sorted. -/
def Sorted (g : Graph) : Prop := ∀ {e : EdgeType} {topology : Topology},
  g.topology e = .ok topology → topology.Sorted

instance (g : Graph) : Decidable g.Sorted :=
  decidable_of_iff (∀ a ∈ g.topologies.entries, a.2.Sorted)
    ⟨fun h _ _ htop ↦ h _ (topology_eq_ok_iff.1 htop), fun h _ ha ↦ h (topology_eq_ok_iff.2 ha)⟩

/-- An edge of a type leads from `source` to `target`. -/
def HasArc (g : Graph) (e : EdgeType) (source target : Id) : Prop :=
  ∃ row, g.neighbors e source = .ok row ∧ ∃ arc ∈ row, arc.target = target

instance (g : Graph) (e : EdgeType) (source target : Id) : Decidable (g.HasArc e source target) :=
  match h : g.neighbors e source with
  | .ok row => decidable_of_iff (∃ arc ∈ row, arc.target = target) (by simp [HasArc, h])
  | .error _ => .isFalse (by simp [HasArc, h])

theorem hasEdge_iff_hasArc {g : Graph} (hg : g.Sorted) {e : EdgeType} {topology : Topology}
    (htop : g.topology e = .ok topology) {source target : Id} :
    topology.hasEdge source target = true ↔ g.HasArc e source target := by
  rw [Topology.hasEdge_iff (hg htop), HasArc]
  refine exists_congr fun row ↦ and_congr_left fun _ ↦ ?_
  simp [neighbors_eq_ok_iff, htop]

/-- **A graph that is built from sorted topologies is sorted.** -/
theorem Blueprint.sorted_of_build {b : Blueprint} {g : Graph}
    (hb : ∀ a ∈ b.topologies.entries, a.2.Sorted) (h : b.build = .ok g) : g.Sorted := by
  intro e topology htop
  obtain ⟨seen, -, h⟩ := bind_eq_ok_iff.1 h
  obtain ⟨counts, -, hbuilt⟩ := bind_eq_ok_iff.1 h
  rw [topology_eq_ok_iff, ← Except.ok.inj hbuilt] at htop
  obtain ⟨a, ha, heq⟩ := List.mem_map.1 htop
  cases heq
  exact (hb a ha).padTo _

end Graph

end HopSampler
