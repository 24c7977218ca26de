import HopSampler.Proofs.OutputParts
import HopSampler.Sampling.Expansion
import Mathlib.Data.List.Induction

/-!
# What a walk lists

The output of a walk, in terms of its blocks. All blocks listed under one key make one index, with
the steps of the blocks one after another and the edge type of the first as its origin
(`get?_edges`); the links of that index are the steps again, in either layout
(`links_listing`). Blocks are kept in hop order, so the slices of a key are the steps of its blocks,
hop by hop (`slice_present`).
-/

namespace HopSampler

section Ascending

variable {α : Type} {key : α → Nat} {xs : List α} (h : xs.Pairwise fun a b ↦ key a ≤ key b)
include h

/-- A list in ascending order of keys ends with the part of the greatest one. -/
theorem filter_lt_append_filter_eq {k : Nat} (hk : ∀ a ∈ xs, key a < k + 1) :
    xs.filter (key · < k) ++ xs.filter (key · = k) = xs := by
  induction xs with
  | nil => rfl
  | cons a xs ih =>
    obtain ⟨ha, hxs⟩ := List.pairwise_cons.1 h
    have hrest := ih hxs fun b hb ↦ hk b (List.mem_cons_of_mem a hb)
    have hak := hk a List.mem_cons_self
    by_cases hlast : key a = k
    · -- from here on all keys are `k`
      have hnone : xs.filter (key · < k) = [] := by
        rw [List.filter_eq_nil_iff]
        intro b hb
        have hab := ha b hb
        simp only [decide_eq_true_eq]
        omega
      rw [hnone, List.nil_append] at hrest
      simp [hlast, hnone, hrest]
    · have hfirst : key a < k := by omega
      simp [hlast, hfirst, hrest]

/-- A list in ascending order of keys is its parts of one key, one after another. -/
theorem flatMap_filter_eq {n : Nat} (hn : ∀ a ∈ xs, key a < n) :
    (List.range n).flatMap (fun k ↦ xs.filter (key · = k)) = xs := by
  induction n generalizing xs with
  | zero =>
    rcases xs with - | ⟨a, xs⟩
    · rfl
    · exact absurd (hn a List.mem_cons_self) (Nat.not_lt_zero _)
  | succ n ih =>
    have hlow : ∀ a ∈ xs.filter (key · < n), key a < n := by
      intro a ha
      exact of_decide_eq_true (List.mem_filter.1 ha).2
    have hlower := ih (h.sublist List.filter_sublist) hlow
    have hsame : (List.range n).flatMap (fun k ↦ (xs.filter (key · < n)).filter (key · = k)) =
        (List.range n).flatMap fun k ↦ xs.filter (key · = k) := by
      refine List.flatMap_congr fun k hk ↦ ?_
      rw [List.filter_filter]
      refine List.filter_congr fun a _ ↦ ?_
      have hkn := List.mem_range.1 hk
      by_cases hak : key a = k
      · simp [hak, hkn]
      · simp [hak]
    rw [List.range_succ, List.flatMap_append, List.flatMap_singleton, ← hsame, hlower,
      filter_lt_append_filter_eq h hn]

end Ascending

/-- A step as a link. -/
def Step.link (withEdge : Bool) (step : Step) : Link :=
  ⟨step.source, step.target, if withEdge then some step.edge else none⟩

namespace Expansion

/-! ### Keys -/

/-- A key says at which end an edge type is followed from. -/
@[simp]
theorem sourceType_listedUnder (layout : EdgeLayout) (e : EdgeType) :
    layout.sourceType (listedUnder layout e) = e.source := by
  cases layout with
  | traversal => rfl
  | messagePassing =>
    rw [listedUnder]
    split
    · next h => exact h.symm
    · rfl

@[simp]
theorem targetType_listedUnder (layout : EdgeLayout) (e : EdgeType) :
    layout.targetType (listedUnder layout e) = e.target := by
  cases layout with
  | traversal => rfl
  | messagePassing =>
    rw [listedUnder]
    split
    · next h => exact h
    · rfl

/-! ### One index -/

/-- **The links of a listing are its steps**, in either layout. -/
theorem links_listing (layout : EdgeLayout) (withEdge : Bool) (block : Block) :
    (listing layout withEdge block).links layout = block.steps.map (Step.link withEdge) := by
  obtain ⟨hop, type, steps⟩ := block
  have hids : ∀ (layout : EdgeLayout), (listing layout withEdge ⟨hop, type, steps⟩).ids =
      steps.map fun step ↦ if withEdge then some step.edge else none := by
    intro layout
    cases layout <;> cases withEdge <;> simp [listing, EdgeIndex.ids, EdgeIndex.size]
  cases layout <;> rw [EdgeIndex.links] <;> simp only <;> rw [hids] <;>
    simp [listing, Step.link, List.zip_map', List.zipWith_map, List.zipWith_self]

theorem listing_even (layout : EdgeLayout) (withEdge : Bool) (block : Block) :
    (listing layout withEdge block).Even withEdge := by
  constructor <;> cases layout <;> cases withEdge <;> simp [listing]

@[simp]
theorem listing_origin (layout : EdgeLayout) (withEdge : Bool) (block : Block) :
    (listing layout withEdge block).origin = block.type := by
  cases layout <;> rfl

@[simp]
theorem listing_size (layout : EdgeLayout) (withEdge : Bool) (block : Block) :
    (listing layout withEdge block).size = block.steps.length := by
  cases layout <;> simp [listing, EdgeIndex.size]

/-- More steps are put behind those listed. -/
theorem append_listing (layout : EdgeLayout) (withEdge : Bool) (block more : Block) :
    append (listing layout withEdge block) (listing layout withEdge more) =
      listing layout withEdge { block with steps := block.steps ++ more.steps } := by
  cases layout <;> cases withEdge <;> simp [append, listing]

/-! ### All blocks of a key -/

/-- The blocks listed under a key. -/
def blocksUnder (x : Expansion) (layout : EdgeLayout) (key : EdgeType) : List Block :=
  x.blocks.filter (listedUnder layout ·.type = key)

/-- The steps listed under a key. -/
def stepsUnder (x : Expansion) (layout : EdgeLayout) (key : EdgeType) : List Step :=
  (x.blocksUnder layout key).flatMap (·.steps)

/-- The steps listed under a key at a hop. -/
def stepsAt (x : Expansion) (layout : EdgeLayout) (key : EdgeType) (hop : Nat) : List Step :=
  ((x.blocksUnder layout key).filter (·.hop = hop)).flatMap (·.steps)

/-- **The index of a key holds the steps of all its blocks**, under the origin of the first. -/
theorem get?_edges (x : Expansion) (layout : EdgeLayout) (withEdge : Bool) (key : EdgeType) :
    (x.edges layout withEdge).get? key = (x.blocksUnder layout key).head?.map fun block ↦
      listing layout withEdge { block with steps := x.stepsUnder layout key } := by
  obtain ⟨rosters, marks, blocks⟩ := x
  simp only [edges, blocksUnder, stepsUnder]
  induction blocks using List.reverseRecOn with
  | nil => rfl
  | append_singleton blocks block ih =>
    set listed := blocks.foldl (list layout withEdge) .empty
    rw [List.foldl_append, List.filter_append]
    show (list layout withEdge listed block).get? key = _
    by_cases hkey : listedUnder layout block.type = key
    · have hlast : [block].filter (listedUnder layout ·.type = key) = [block] := by simp [hkey]
      generalize blocks.filter (listedUnder layout ·.type = key) = under at ih ⊢
      rw [hlast, list, hkey, ih]
      cases under with
      | nil => simp [SortedMap.get?_insert]
      | cons first rest => simp [SortedMap.get?_insert, append_listing]
    · have hlast : [block].filter (listedUnder layout ·.type = key) = [] := by simp [hkey]
      rw [hlast, List.append_nil, ← ih, list]
      split <;> rw [SortedMap.get?_insert, if_neg hkey]

theorem mem_stepsAt_iff {x : Expansion} {layout : EdgeLayout} {key : EdgeType} {hop : Nat}
    {step : Step} : step ∈ x.stepsAt layout key hop ↔
      ∃ block ∈ x.blocks, listedUnder layout block.type = key ∧ block.hop = hop ∧
        step ∈ block.steps := by
  simp only [stepsAt, blocksUnder, List.mem_flatMap, List.mem_filter, decide_eq_true_eq, and_assoc]

/-- Hops come in order, and there are at most as many. -/
def InOrder (x : Expansion) (hops : Nat) : Prop :=
  x.blocks.Pairwise (fun a b ↦ a.hop ≤ b.hop) ∧ ∀ block ∈ x.blocks, block.hop < hops

/-- The steps under a key are those of the first hop, then those of the second, and so on. -/
theorem stepsUnder_eq {x : Expansion} {hops : Nat} (h : x.InOrder hops) (layout : EdgeLayout)
    (key : EdgeType) :
    x.stepsUnder layout key = (List.range hops).flatMap (x.stepsAt layout key) := by
  have hsorted : (x.blocksUnder layout key).Pairwise fun a b ↦ a.hop ≤ b.hop :=
    h.1.sublist List.filter_sublist
  have hblocks := flatMap_filter_eq hsorted fun block hblock ↦
    h.2 block (List.mem_filter.1 hblock).1
  have hsteps := congrArg (List.flatMap (·.steps)) hblocks
  rw [List.flatMap_assoc] at hsteps
  exact hsteps.symm

theorem edgeCountsOf_eq (x : Expansion) (layout : EdgeLayout) (hops : Nat) (key : EdgeType) :
    x.edgeCountsOf layout hops key =
      (List.range hops).map fun hop ↦ (x.stepsAt layout key hop).length := by
  rw [edgeCountsOf]
  refine List.map_congr_left fun hop _ ↦ ?_
  rw [stepsAt, blocksUnder, List.filter_filter, List.length_flatMap]
  simp only [Bool.decide_and]

/-! ### The output -/

variable (x : Expansion) (layout : EdgeLayout) (withEdge : Bool) (hops : Nat) (metadata : Metadata)

theorem nodesOf_present (t : NodeType) :
    (x.present layout withEdge hops metadata).nodesOf t = (x.rosters.roster t).ids.toList := by
  rw [SamplingOutput.nodesOf, present, SortedMap.getD, SortedMap.get?_mapEntries, Rosters.roster,
    SortedMap.getD]
  cases x.rosters.get? t <;> rfl

theorem nodeCountsAt_present {t : NodeType} {roster : Roster}
    (h : x.rosters.get? t = some roster) :
    (x.present layout withEdge hops metadata).nodeCountsAt t = x.nodeCountsOf hops t := by
  rw [SamplingOutput.nodeCountsAt, present, SortedMap.getD, SortedMap.get?_mapEntries, h]
  rfl

theorem nodeCountsAt_present_of_none {t : NodeType} (h : x.rosters.get? t = none) :
    (x.present layout withEdge hops metadata).nodeCountsAt t = [] := by
  rw [SamplingOutput.nodeCountsAt, present, SortedMap.getD, SortedMap.get?_mapEntries, h]
  rfl

theorem linksOf_present (key : EdgeType) :
    (x.present layout withEdge hops metadata).linksOf layout key =
      (x.stepsUnder layout key).map (Step.link withEdge) := by
  rw [SamplingOutput.linksOf, present, get?_edges, Option.map_map]
  rcases hblocks : x.blocksUnder layout key with - | ⟨block, rest⟩
  · rw [stepsUnder, hblocks]
    rfl
  · simp [links_listing]

theorem edgeCountsAt_present (key : EdgeType) :
    (x.present layout withEdge hops metadata).edgeCountsAt key =
      if x.blocksUnder layout key = [] then [] else x.edgeCountsOf layout hops key := by
  rw [SamplingOutput.edgeCountsAt, present, SortedMap.getD, SortedMap.get?_mapEntries, get?_edges]
  rcases x.blocksUnder layout key with - | ⟨block, rest⟩
  · rfl
  · simp

variable {x hops}

/-- **A slice is what its hop followed.** -/
theorem slice_present (h : x.InOrder hops) (key : EdgeType) (hop : Nat) :
    (x.present layout withEdge hops metadata).slice layout key hop =
      (x.stepsAt layout key hop).map (Step.link withEdge) := by
  rw [SamplingOutput.slice, linksOf_present, edgeCountsAt_present]
  split
  · next hnone =>
    rw [stepsUnder, stepsAt, hnone]
    simp [pieceAt]
  · have hlinks : (x.stepsUnder layout key).map (Step.link withEdge) =
        ((List.range hops).map fun hop ↦
          (x.stepsAt layout key hop).map (Step.link withEdge)).flatten := by
      rw [stepsUnder_eq h, List.map_flatMap, List.flatMap_def]
    have hcounts : x.edgeCountsOf layout hops key =
        ((List.range hops).map fun hop ↦
          (x.stepsAt layout key hop).map (Step.link withEdge)).map (·.length) := by
      rw [edgeCountsOf_eq, List.map_map]
      exact List.map_congr_left fun hop _ ↦ by simp
    rw [hlinks, hcounts, pieceAt_flatten, List.getElem?_map]
    by_cases hhop : hop < hops
    · rw [List.getElem?_range hhop]
      rfl
    · -- nothing is followed after the last hop
      have hnone : x.stepsAt layout key hop = [] := by
        rw [List.eq_nil_iff_forall_not_mem]
        intro step hstep
        obtain ⟨block, hblock, -, rfl, -⟩ := mem_stepsAt_iff.1 hstep
        exact hhop (h.2 block hblock)
      rw [hnone, List.getElem?_eq_none (by simpa using hhop)]
      rfl

end Expansion

end HopSampler
