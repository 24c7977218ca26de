import HopSampler.Proofs.Listing
import HopSampler.Proofs.Requests

/-!
# Supervision is of the request

The metadata of an answer names the seed pairs and their negatives by places. Read back through the
nodes of the output these are the pairs of the request, in order, and the negatives that were drawn
for it, pair by pair (`Sampler.answer_supervises`). Seeds, positives and negatives may overlap in
any way: each of them is met before the first hop, and a node that was met keeps its place
(`Roster.placeOf_eq_of_isPrefix`), so nothing that the walk adds later can move it.
-/

namespace HopSampler

/-! ### Reading places -/

namespace SamplingOutput

/-- Read through the nodes of a type, places are a list of IDs. -/
def Reads (o : SamplingOutput) (t : NodeType) (places : List Nat) (ids : List Id) : Prop :=
  places.map ((o.nodesOf t)[·]?) = ids.map some

/-- The entry of a block of places, read through the nodes of a type. -/
def readEntry (o : SamplingOutput) (t : NodeType) (block : List (List Nat)) (k j : Nat) : Option Id :=
  (block[k]?.bind (·[j]?)).bind ((o.nodesOf t)[·]?)

/-- The metadata of an output names the pairs of a request, with the negatives drawn for them. -/
def Supervises (o : SamplingOutput) (r : EdgeRequest) (drawn : List Id) : Prop :=
  match r.negatives with
  | none =>
    ∃ row col, o.metadata = .link r.type row col r.labels ∧
      o.Reads r.type.source row r.rows ∧ o.Reads r.type.target col r.cols
  | some n =>
    match n.mode with
    | .binary =>
      drawn.length = r.size ∧
      ∃ row col, o.metadata = .link r.type row col
          (some (List.replicate r.size 1 ++ List.replicate r.size 0)) ∧
        o.Reads r.type.source row (r.rows ++ r.rows) ∧ o.Reads r.type.target col (r.cols ++ drawn)
    | .triplet =>
      drawn.length = r.size * n.amount.toNat ∧
      ∃ sources positives block,
        o.metadata = .triplet r.type sources positives n.amount.toNat block r.labels ∧
        o.Reads r.type.source sources r.rows ∧ o.Reads r.type.target positives r.cols ∧
        block.length = r.size ∧ (∀ entries ∈ block, entries.length = n.amount.toNat) ∧
        ∀ k < r.size, ∀ j < n.amount.toNat,
          o.readEntry r.type.target block k j = drawn[k * n.amount.toNat + j]?

theorem Reads.append {o : SamplingOutput} {t : NodeType} {places more : List Nat} {ids others : List Id}
    (h : o.Reads t places ids) (hmore : o.Reads t more others) :
    o.Reads t (places ++ more) (ids ++ others) := by
  rw [Reads, List.map_append, List.map_append, h, hmore]

theorem Reads.getElem? {o : SamplingOutput} {t : NodeType} {places : List Nat} {ids : List Id}
    (h : o.Reads t places ids) (i : Nat) : places[i]?.bind ((o.nodesOf t)[·]?) = ids[i]? := by
  have hi := congrArg (·[i]?) h
  simp only [List.getElem?_map] at hi
  cases hplace : places[i]? <;> cases hid : ids[i]? <;> simp_all

end SamplingOutput

/-- The places of nodes that were met read as these nodes. -/
theorem Expansion.reads_present {x : Expansion} {t : NodeType} {ids : List Id}
    (hids : ∀ id ∈ ids, id ∈ (x.rosters.roster t).ids.toList) (layout : EdgeLayout)
    (withEdge : Bool) (hops : Nat) (metadata : Metadata) :
    (x.present layout withEdge hops metadata).Reads t (ids.map (x.rosters.roster t).placeOf) ids := by
  rw [SamplingOutput.Reads, nodesOf_present, List.map_map]
  exact List.map_congr_left fun id hid ↦ Roster.getElem?_placeOf (hids id hid)

/-! ### Blocks -/

namespace Sampler

theorem length_perPair (pairs size : Nat) (places : List Nat) :
    (perPair pairs size places).length = pairs := by
  rw [perPair, List.length_map, List.length_range]

theorem length_of_mem_perPair {pairs size : Nat} {places entries : List Nat}
    (hlength : places.length = pairs * size) (h : entries ∈ perPair pairs size places) :
    entries.length = size := by
  obtain ⟨k, hk, rfl⟩ := List.mem_map.1 h
  have hend : (k + 1) * size ≤ pairs * size := Nat.mul_le_mul_right size (List.mem_range.1 hk)
  rw [Nat.succ_mul] at hend
  rw [List.length_take, List.length_drop, hlength]
  omega

/-- **A block is read row by row**: the entries of a pair stand one after another. -/
theorem perPair_getElem? {pairs size k j : Nat} (hk : k < pairs) (hj : j < size)
    (places : List Nat) :
    (perPair pairs size places)[k]?.bind (·[j]?) = places[k * size + j]? := by
  rw [perPair, List.getElem?_map, List.getElem?_range hk, Option.map_some, Option.bind_some,
    List.getElem?_take_of_lt hj, List.getElem?_drop]

/-! ### Negatives -/

variable {s : Sampler}

/-- The negatives of a request are one list, drawn pair by pair from a stream of their own. -/
def Draws (s : Sampler) (r : EdgeRequest) (seed : UInt64) (drawn : List Id) : Prop :=
  match r.negatives with
  | none => drawn = []
  | some n => ∃ topology targets attempts sampler, s.graph.topology r.type = .ok topology ∧
      s.graph.numNodes r.type.target = .ok targets ∧
      s.config.negativeAttempts n = .ok attempts ∧
      NegativeSampler.make topology targets attempts = .ok sampler ∧
      drawn = (sampler.drawForPairs n.perPositive.toNat (r.rows.zip r.cols)
        (Random.stream seed [0xFFFFFFFFFFFFFFFF])).1.map (·.id)

theorem draws_negativeIds {r : EdgeRequest} (h : s.AcceptsPairs r) (seed : UInt64) :
    s.Draws r seed (s.negativeIds r seed) := by
  obtain ⟨topology, htop⟩ := h.type
  rw [Draws]
  rcases hneg : r.negatives with - | n
  · simp only [negativeIds, htop, negatives, hneg, List.map_nil]
  · obtain ⟨count, hcount, hpos⟩ := (h.negatives n hneg).targets
    obtain ⟨attempts, hattempts⟩ := (h.negatives n hneg).attempts
    refine ⟨topology, count, attempts, _, htop, hcount, hattempts,
      by rw [NegativeSampler.make, if_neg hpos], ?_⟩
    simp only [negativeIds, htop, negatives_eq_ok hneg hcount hpos hattempts]
    rfl

/-! ### Answers -/

/-- What is laid out once the seeds were met supervises the request. -/
theorem supervises_present {r : EdgeRequest} (h : s.AcceptsPairs r) {seed : UInt64} {x : Expansion}
    (hmet : (s.seeds (.edge r) seed).Prefix x.rosters) {metadata : Metadata}
    (hmeta : s.metadataOf (.edge r) seed x.rosters = .ok metadata) (layout : EdgeLayout)
    (withEdge : Bool) (hops : Nat) :
    (x.present layout withEdge hops metadata).Supervises r (s.negativeIds r seed) := by
  set o := x.present layout withEdge hops metadata
  have hreads : ∀ {t ids}, (∀ id ∈ ids, id ∈ s.seedIds (.edge r) seed t) →
      o.Reads t (ids.map (x.rosters.roster t).placeOf) ids := fun {t} _ hids ↦
    Expansion.reads_present (fun id hid ↦ (hmet t).subset (mem_roster_seeds_iff.2 (hids id hid))) ..
  have hrows : o.Reads r.type.source (r.rows.map (x.rosters.roster r.type.source).placeOf) r.rows :=
    hreads fun id hid ↦ by simp [seedIds, hid]
  have hcols : o.Reads r.type.target (r.cols.map (x.rosters.roster r.type.target).placeOf) r.cols :=
    hreads fun id hid ↦ by simp [seedIds, hid]
  have hdrawn : o.Reads r.type.target
      ((s.negativeIds r seed).map (x.rosters.roster r.type.target).placeOf) (s.negativeIds r seed) :=
    hreads fun id hid ↦ by simp [seedIds, hid]
  rw [metadataOf, pairMetadata_seeds hmet, layOut] at hmeta
  rw [SamplingOutput.Supervises]
  rcases hneg : r.negatives with - | n
  · simp only [hneg] at hmeta ⊢
    cases hmeta
    exact ⟨_, _, rfl, hrows, hcols⟩
  · have hlength := length_negativeIds h hneg seed
    rcases hmode : n.mode <;>
      simp only [hneg, hmode, NegativeSampling.perPositive, EdgeRequest.size, List.length_map]
        at hmeta hlength ⊢
    · cases hmeta
      exact ⟨by simpa using hlength, _, _, rfl, hrows.append hrows, hcols.append hdrawn⟩
    · obtain ⟨-, hmeta⟩ := check_bind_eq_ok_iff.1 hmeta
      cases hmeta
      refine ⟨hlength, _, _, _, rfl, hrows, hcols, length_perPair .., fun entries hentries ↦ ?_,
        fun k hk j hj ↦ ?_⟩
      · refine length_of_mem_perPair ?_ hentries
        rw [List.length_map, hlength]
      · rw [SamplingOutput.readEntry, perPair_getElem? hk hj]
        exact hdrawn.getElem? _

/-- **Supervision maps back to the request**: on a well-formed graph an accepted request for pairs
is answered with metadata that, read through the nodes of the output, are its pairs in order, with
its labels or those of positives and negatives, and the negatives drawn for it. -/
theorem answer_supervises (hg : s.graph.WellFormed) {r : EdgeRequest} (h : s.Accepts (.edge r))
    (seed : UInt64) : ∃ o drawn, (s.answer (.edge r) seed).output = .ok o ∧ s.Draws r seed drawn ∧
      o.Supervises r drawn := by
  obtain ⟨last, -, -, hrun, -⟩ := exists_stage hg h seed
  have hmet := Expansion.prefix_stage (s.rules seed) (s.seeds (.edge r) seed) (Nat.zero_le last)
  obtain ⟨metadata, hmeta⟩ := exists_metadata h hmet
  exact ⟨_, _, output_eq_present h hrun hmeta s.config.layout, draws_negativeIds h seed,
    supervises_present h hmet hmeta ..⟩

theorem answer_supervises_small :
    Graph.small.WellFormed ∧ (small .traversal).Accepts (.edge smallTriplets) ∧
      ∃ o drawn, ((small .traversal).answer (.edge smallTriplets) 7).output = .ok o ∧
        (small .traversal).Draws smallTriplets 7 drawn ∧ o.Supervises smallTriplets drawn :=
  ⟨Graph.small_wellFormed, smallTriplets_accepts _,
    answer_supervises (s := small .traversal) Graph.small_wellFormed (smallTriplets_accepts _) 7⟩

end Sampler

end HopSampler
