import HopSampler.Loading.Loader
import HopSampler.Proofs.WellFormed
import Mathlib.Data.List.Nodup
import Mathlib.Data.Set.Function

/-!
# Streams are apart along every key

A stream is named by a list of words, and two streams that differ in one word of their names have
different seeds. This rests on `Random.mix_bijective`: `mix` is composed of steps each of which can
be undone on 64-bit words, so folding in one more word loses nothing, neither of what was folded in
before nor of the word.

**One word at a time.** Nothing is said of names that differ in two words; their seeds are as apart
as `mix` scatters them, and some of them collide. What the sampler and the loader need is the case
of one word: nodes under one edge type at one hop, batches of one epoch.
-/

namespace HopSampler

/-! ### The finaliser can be undone -/

namespace Random

/-- Fold the upper bits of a word into the lower ones. -/
def foldIn (places word : UInt64) : UInt64 := word ^^^ (word >>> places)

theorem xor_xor_cancel (a b : UInt64) : a ^^^ b ^^^ b = a := by
  rw [UInt64.xor_assoc, UInt64.xor_self, UInt64.xor_zero]

/-- Three shifts by a third of the width or more leave nothing of a word. -/
theorem shiftRight_thrice {places : UInt64} (hlt : places < 64) (h : 64 ≤ 3 * places.toNat)
    (word : UInt64) : word >>> places >>> places >>> places = 0 := by
  have hplaces : places.toNat < 64 := UInt64.lt_iff_toNat_lt.1 hlt
  apply UInt64.toNat_inj.1
  rw [UInt64.toNat_shiftRight, UInt64.toNat_shiftRight, UInt64.toNat_shiftRight,
    Nat.mod_eq_of_lt hplaces, ← Nat.shiftRight_add, ← Nat.shiftRight_add,
    Nat.shiftRight_eq_div_pow]
  refine Nat.div_eq_of_lt (Nat.lt_of_lt_of_le word.toNat_lt ?_)
  exact Nat.pow_le_pow_right (by decide) (by omega)

/-- Folding in is undone by folding in the word shifted once and the word shifted twice: what is
then left of a third shift is nothing. -/
theorem foldIn_bijective {places : UInt64} (hlt : places < 64) (h : 64 ≤ 3 * places.toNat) :
    Function.Bijective (foldIn places) := by
  have hgone := shiftRight_thrice hlt h
  refine Function.bijective_iff_has_inverse.2
    ⟨fun w ↦ w ^^^ w >>> places ^^^ w >>> places >>> places, fun w ↦ ?_, fun w ↦ ?_⟩
  · generalize hone : w >>> places = one
    generalize htwo : one >>> places = two
    have hthree : two >>> places = 0 := by rw [← htwo, ← hone, hgone]
    calc
      foldIn places w ^^^ foldIn places w >>> places ^^^ foldIn places w >>> places >>> places
        = w ^^^ one ^^^ (one ^^^ two) ^^^ (two ^^^ 0) := by
          simp only [foldIn, UInt64.shiftRight_xor, hone, htwo, hthree]
      _ = w := by
          rw [UInt64.xor_zero, ← UInt64.xor_assoc, xor_xor_cancel, xor_xor_cancel]
  · generalize hone : w >>> places = one
    generalize htwo : one >>> places = two
    have hthree : two >>> places = 0 := by rw [← htwo, ← hone, hgone]
    show foldIn places (w ^^^ w >>> places ^^^ w >>> places >>> places) = w
    calc
      foldIn places (w ^^^ w >>> places ^^^ w >>> places >>> places)
        = w ^^^ one ^^^ two ^^^ (one ^^^ two ^^^ 0) := by
          simp only [foldIn, UInt64.shiftRight_xor, hone, htwo, hthree]
      _ = w := by
          rw [UInt64.xor_zero, UInt64.xor_assoc w, xor_xor_cancel]

/-- A factor with an inverse can be divided out. -/
theorem mul_bijective {factor inverse : UInt64} (h : factor * inverse = 1) :
    Function.Bijective (· * factor) := by
  refine Function.bijective_iff_has_inverse.2 ⟨(· * inverse), fun w ↦ ?_, fun w ↦ ?_⟩
  · show w * factor * inverse = w
    rw [UInt64.mul_assoc, h, UInt64.mul_one]
  · show w * inverse * factor = w
    rw [UInt64.mul_assoc, UInt64.mul_comm inverse, h, UInt64.mul_one]

theorem add_bijective (increment : UInt64) : Function.Bijective (· + increment) :=
  Function.bijective_iff_has_inverse.2
    ⟨(· - increment), fun w ↦ UInt64.add_sub_cancel w increment,
      fun w ↦ UInt64.sub_add_cancel w increment⟩

theorem mix_eq : mix = foldIn 31 ∘ (· * 0x94D049BB133111EB) ∘ foldIn 27 ∘
    (· * 0xBF58476D1CE4E5B9) ∘ foldIn 30 ∘ (· + 0x9E3779B97F4A7C15) := rfl

/-- **The finaliser loses nothing**: every word is the image of just one. -/
theorem mix_bijective : Function.Bijective mix := by
  have hfirst : (0xBF58476D1CE4E5B9 : UInt64) * 0x96DE1B173F119089 = 1 := by decide
  have hsecond : (0x94D049BB133111EB : UInt64) * 0x319642B2D24D8EC3 = 1 := by decide
  rw [mix_eq]
  refine (foldIn_bijective (by decide) (by decide)).comp ?_
  refine (mul_bijective hsecond).comp ?_
  refine (foldIn_bijective (by decide) (by decide)).comp ?_
  refine (mul_bijective hfirst).comp ?_
  exact (foldIn_bijective (by decide) (by decide)).comp (add_bijective _)

/-! ### Derived seeds -/

theorem deriveSeed_append (seed : UInt64) (before after : List UInt64) :
    deriveSeed seed (before ++ after) =
      after.foldl (fun acc part ↦ mix (acc ^^^ part)) (deriveSeed seed before) :=
  List.foldl_append

/-- Folding words in loses nothing of what was there before. -/
theorem foldl_mix_injective (parts : List UInt64) :
    Function.Injective fun start ↦ parts.foldl (fun acc part ↦ mix (acc ^^^ part)) start := by
  induction parts with
  | nil => exact fun _ _ h ↦ h
  | cons part parts ih =>
    intro a b h
    have hmix : mix (a ^^^ part) = mix (b ^^^ part) := ih h
    exact (UInt64.xor_left_inj part).1 (mix_bijective.injective hmix)

theorem deriveSeed_injective (parts : List UInt64) :
    Function.Injective fun seed ↦ deriveSeed seed parts := by
  intro a b h
  exact mix_bijective.injective (foldl_mix_injective parts h)

/-- **Names that differ in one word have different seeds.** -/
theorem deriveSeed_part_injective (seed : UInt64) (before after : List UInt64) :
    Function.Injective fun part ↦ deriveSeed seed (before ++ part :: after) := by
  intro a b h
  dsimp only at h
  rw [deriveSeed_append, deriveSeed_append] at h
  have hmix : mix (deriveSeed seed before ^^^ a) = mix (deriveSeed seed before ^^^ b) :=
    foldl_mix_injective after h
  exact (UInt64.xor_right_inj _).1 (mix_bijective.injective hmix)

end Random

/-! ### The streams of a walk -/

namespace Expansion.Rules

/-- The seed of the stream for a node under an edge type at a hop. -/
def streamSeed (rules : Rules) (hop : Nat) (e : EdgeType) (node : Id) : UInt64 :=
  Random.deriveSeed rules.seed [hop.toUInt64, (rules.ordinal e).toUInt64, node]

/-- What is followed from a node is drawn from the stream of that seed. -/
theorem pick_of_neighbors? {rules : Rules} {topology : Topology} {node : Id} {arcs : Array Arc}
    (h : topology.neighbors? node = some arcs) (hop : Nat) (e : EdgeType) :
    rules.pick hop e topology node = .ok (chooseArcs arcs (rules.budgets.budget e hop)
      rules.replace (.ofSeed (rules.streamSeed hop e node))) := by
  rw [pick, h]
  rfl

/-- Edge types of the graph have positions of their own. -/
theorem injOn_ordinal (rules : Rules) :
    Set.InjOn rules.ordinal { e | e ∈ rules.graph.edgeTypes } := by
  intro e he e' _ h
  exact (List.idxOf_inj he).1 h

theorem ordinal_lt {rules : Rules} {e : EdgeType} (he : e ∈ rules.graph.edgeTypes) :
    rules.ordinal e < rules.graph.edgeTypes.length :=
  List.idxOf_lt_length_of_mem he

/-- The streams of a walk have different seeds where they differ in one of hop, edge type and node.
Hops and edge types are counted in words. -/
structure StreamsApart (rules : Rules) : Prop where
  /-- The seeds are those of the streams that are drawn from. -/
  drawn : ∀ hop e topology node arcs, topology.neighbors? node = some arcs →
    rules.pick hop e topology node = .ok (chooseArcs arcs (rules.budgets.budget e hop)
      rules.replace (.ofSeed (rules.streamSeed hop e node)))
  nodes : ∀ hop e, Function.Injective (rules.streamSeed hop e)
  hops : ∀ e node, Set.InjOn (rules.streamSeed · e node) { hop | hop < UInt64.size }
  types : rules.graph.edgeTypes.length ≤ UInt64.size → ∀ hop node,
    Set.InjOn (rules.streamSeed hop · node) { e | e ∈ rules.graph.edgeTypes }

theorem streamsApart (rules : Rules) : rules.StreamsApart where
  drawn hop e _ _ _ h := pick_of_neighbors? h hop e
  nodes hop e := Random.deriveSeed_part_injective rules.seed [_, _] []
  hops e node := fun hop hhop hop' hhop' h ↦
    toUInt64_inj hhop hhop' (Random.deriveSeed_part_injective rules.seed [] [_, node] h)
  types hcount hop node := fun e he e' he' h ↦ by
    have hordinal := Random.deriveSeed_part_injective rules.seed [hop.toUInt64] [node] h
    exact rules.injOn_ordinal he he' (toUInt64_inj
      (Nat.lt_of_lt_of_le (ordinal_lt he) hcount) (Nat.lt_of_lt_of_le (ordinal_lt he') hcount)
      hordinal)

end Expansion.Rules

/-! ### The batches of an epoch -/

namespace Loader

/-- The seeds under which the batches of an epoch are sampled, in order. -/
def epochSeeds (l : Loader) (epoch : UInt64) : List UInt64 :=
  (List.range l.numBatches).map fun index ↦ l.batchSeed epoch index.toUInt64

theorem answers_eq_zipWith (l : Loader) (epoch : UInt64) :
    l.answers epoch = List.zipWith l.sampleAt (l.plan epoch) (l.epochSeeds epoch) := by
  have hlength : (l.plan epoch).length = l.numBatches := by
    rw [plan, List.length_map, List.length_range]
  rw [answers, epochSeeds, ← hlength, List.zipIdx_eq_zip_range', ← List.range_eq_range',
    List.zipWith_map_right, List.zip, List.map_zipWith]

/-- The batches of an epoch, and the epochs of a batch, are sampled under different seeds. Batches
are counted in words. -/
structure SeedsApart (l : Loader) : Prop where
  /-- The seeds are those that batches are sampled under. -/
  sampled : ∀ epoch, l.answers epoch = List.zipWith l.sampleAt (l.plan epoch) (l.epochSeeds epoch)
  batches : l.numBatches ≤ UInt64.size → ∀ epoch, (l.epochSeeds epoch).Nodup
  epochs : ∀ index, Function.Injective (l.batchSeed · index)

theorem seedsApart (l : Loader) : l.SeedsApart where
  sampled := l.answers_eq_zipWith
  batches hcount epoch := by
    refine List.Nodup.map_on (fun i hi j hj h ↦ ?_) List.nodup_range
    have hindex := Random.deriveSeed_part_injective l.sampler.config.seed [epoch] [] h
    exact toUInt64_inj (Nat.lt_of_lt_of_le (List.mem_range.1 hi) hcount)
      (Nat.lt_of_lt_of_le (List.mem_range.1 hj) hcount) hindex
  epochs index := Random.deriveSeed_part_injective l.sampler.config.seed [] [index]

end Loader

/-- **Seeds do not collide along one key**, in general and for the streams of every walk and the
batches of every loader. -/
theorem seeds_apart :
    Function.Bijective Random.mix ∧
    (∀ parts, Function.Injective fun seed ↦ Random.deriveSeed seed parts) ∧
    (∀ seed before after,
      Function.Injective fun part ↦ Random.deriveSeed seed (before ++ part :: after)) ∧
    (∀ (s : Sampler) (seed : UInt64), (s.rules seed).StreamsApart) ∧
    ∀ l : Loader, l.SeedsApart :=
  ⟨Random.mix_bijective, Random.deriveSeed_injective, Random.deriveSeed_part_injective,
    fun s seed ↦ (s.rules seed).streamsApart, Loader.seedsApart⟩

end HopSampler
