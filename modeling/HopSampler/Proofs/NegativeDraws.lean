import HopSampler.Sampling.Negatives
import Mathlib.Data.List.Forall2
import Mathlib.Order.Basic

/-!
# What a negative can be

A negative is one of the candidates drawn for it, or the positive it was drawn for. So it has every
property that all destinations and the positive have, whatever the generator yields; being a node of
the graph is one.

A negative is marked as exhausted exactly if it is a true neighbour of its source
(`exhausted_draw`). The candidate that ends a draw is none, and where none ends it whatever there is
to fall back on is one.
-/

namespace HopSampler

namespace NegativeSampler

variable (s : NegativeSampler)

/-- A candidate is one of the destinations. -/
theorem candidate_lt (hs : s.targets ≠ 0) (g : Random.Generator) :
    (s.candidate g).1 < s.targets := by
  have hpos : 0 < s.targets.toNat := by
    rw [Nat.pos_iff_ne_zero]
    exact fun hzero ↦ hs (UInt64.toNat_inj.1 hzero)
  have hlt := Random.below_lt .full g hpos
  rw [UInt64.lt_iff_toNat_lt]
  show ((Random.below .full s.targets.toNat g).1.toUInt64).toNat < s.targets.toNat
  rw [Nat.toUInt64_eq, UInt64.toNat_ofNat', Nat.mod_eq_of_lt (Nat.lt_trans hlt s.targets.toNat_lt)]
  exact hlt

/-! ### How many are drawn -/

theorem length_drawMany (source positive : Id) (amount : Nat) (g : Random.Generator) :
    (s.drawMany source positive amount g).1.length = amount := by
  induction amount generalizing g with
  | zero => rfl
  | succ amount ih => rw [drawMany, List.length_cons, ih]

/-- Every pair gets as many negatives as asked for. -/
theorem length_drawForPairs (amount : Nat) (pairs : List (Id × Id)) (g : Random.Generator) :
    (s.drawForPairs amount pairs g).1.length = pairs.length * amount := by
  induction pairs generalizing g with
  | nil => rw [drawForPairs, List.length_nil, List.length_nil, Nat.zero_mul]
  | cons pair pairs ih =>
    obtain ⟨source, positive⟩ := pair
    rw [drawForPairs, List.length_append, length_drawMany, ih, List.length_cons, Nat.succ_mul,
      Nat.add_comm]

/-! ### Which of them are marked -/

theorem exhausted_drawFrom {source positive last : Id} {fallback : Option Id} {attempts : Nat}
    (hfallback : ∀ id, fallback = some id → s.topology.hasEdge source id = true)
    (hlast : attempts = 0 → s.topology.hasEdge source (fallback.getD last) = true)
    (g : Random.Generator) :
    (s.drawFrom source positive fallback last attempts g).1.exhausted =
      s.topology.hasEdge source (s.drawFrom source positive fallback last attempts g).1.id := by
  induction attempts generalizing fallback last g with
  | zero => exact (hlast rfl).symm
  | succ attempts ih =>
    rw [drawFrom]
    simp only
    split
    · next hedge =>
      -- whatever is kept of this candidate is a true neighbour, as it is one
      have hkept : ∀ id, (if (s.candidate g).1 = positive then fallback
          else some (s.candidate g).1) = some id → s.topology.hasEdge source id = true := by
        intro id hid
        split at hid
        · exact hfallback id hid
        · exact Option.some.inj hid ▸ hedge
      refine ih hkept (fun _ ↦ ?_) _
      cases hnext : if (s.candidate g).1 = positive then fallback else some (s.candidate g).1 with
      | none => exact hedge
      | some id => exact hkept id hnext
    · next hedge => exact (Bool.eq_false_iff.2 hedge).symm

/-- **A negative is marked exactly if it is a true neighbour**, as there is a candidate at least. -/
theorem exhausted_draw (hs : s.attempts ≠ 0) (source positive : Id) (g : Random.Generator) :
    (s.draw source positive g).1.exhausted =
      s.topology.hasEdge source (s.draw source positive g).1.id :=
  s.exhausted_drawFrom (fun _ hnone ↦ by cases hnone) (fun hzero ↦ absurd hzero hs) g

theorem exhausted_drawMany (hs : s.attempts ≠ 0) (source positive : Id) (amount : Nat)
    (g : Random.Generator) : List.Forall₂ (fun u n ↦ n.exhausted = s.topology.hasEdge u n.id)
      (List.replicate amount source) (s.drawMany source positive amount g).1 := by
  induction amount generalizing g with
  | zero => exact .nil
  | succ amount ih => exact .cons (s.exhausted_draw hs source positive g) (ih _)

/-- The negatives of all pairs beside the sources they were drawn for. -/
theorem exhausted_drawForPairs (hs : s.attempts ≠ 0) (amount : Nat) (pairs : List (Id × Id))
    (g : Random.Generator) : List.Forall₂ (fun u n ↦ n.exhausted = s.topology.hasEdge u n.id)
      ((pairs.map (·.1)).flatMap (List.replicate amount)) (s.drawForPairs amount pairs g).1 := by
  induction pairs generalizing g with
  | nil => exact .nil
  | cons pair pairs ih =>
    obtain ⟨source, positive⟩ := pair
    exact List.rel_append (s.exhausted_drawMany hs source positive amount g) (ih _)

/-! ### What they have in common -/

variable {p : Id → Prop} (hs : s.targets ≠ 0) (hp : ∀ id < s.targets, p id)
include hs hp

/-- Whatever holds of all destinations and of the positive holds of a negative. -/
theorem drawFrom_of_forall {source positive last : Id} {fallback : Option Id}
    (hlast : p last) (hfallback : ∀ id, fallback = some id → p id) (attempts : Nat)
    (g : Random.Generator) : p (s.drawFrom source positive fallback last attempts g).1.id := by
  induction attempts generalizing fallback last g with
  | zero =>
    rw [drawFrom]
    cases fallback with
    | none => exact hlast
    | some id => exact hfallback id rfl
  | succ attempts ih =>
    have hcandidate : p (s.candidate g).1 := hp _ (s.candidate_lt hs g)
    rw [drawFrom]
    simp only
    split
    · refine ih hcandidate (fun id hid ↦ ?_) _
      split at hid
      · exact hfallback id hid
      · exact Option.some.inj hid ▸ hcandidate
    · exact hcandidate

theorem drawMany_of_forall {source positive : Id} (hpositive : p positive) (amount : Nat)
    (g : Random.Generator) : ∀ n ∈ (s.drawMany source positive amount g).1, p n.id := by
  induction amount generalizing g with
  | zero => simp [drawMany]
  | succ amount ih =>
    rw [drawMany]
    intro n hn
    rcases List.mem_cons.1 hn with rfl | hn
    · exact s.drawFrom_of_forall hs hp hpositive (by simp) s.attempts g
    · exact ih _ n hn

theorem drawForPairs_of_forall {pairs : List (Id × Id)} (hpairs : ∀ pair ∈ pairs, p pair.2)
    (amount : Nat) (g : Random.Generator) :
    ∀ n ∈ (s.drawForPairs amount pairs g).1, p n.id := by
  induction pairs generalizing g with
  | nil => simp [drawForPairs]
  | cons pair pairs ih =>
    obtain ⟨source, positive⟩ := pair
    rw [drawForPairs]
    intro n hn
    rcases List.mem_append.1 hn with hn | hn
    · exact s.drawMany_of_forall hs hp (hpairs _ List.mem_cons_self) amount g n hn
    · exact ih (fun pair hpair ↦ hpairs pair (List.mem_cons_of_mem _ hpair)) _ n hn

end NegativeSampler

/-- Counting marks is counting true neighbours. -/
theorem countP_exhausted {f : Id → Id → Bool} {sources : List Id} {negatives : List Negative}
    (h : List.Forall₂ (fun u n ↦ n.exhausted = f u n.id) sources negatives) :
    negatives.countP (·.exhausted) =
      (sources.zip (negatives.map (·.id))).countP fun p ↦ f p.1 p.2 := by
  induction h with
  | nil => rfl
  | cons hmark _ ih =>
    rw [List.map_cons, List.zip_cons_cons, List.countP_cons, List.countP_cons, ih, hmark]

end HopSampler
