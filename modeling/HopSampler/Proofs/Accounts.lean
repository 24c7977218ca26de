import HopSampler.Proofs.Records
import HopSampler.Proofs.Searching
import HopSampler.Proofs.Supervision

/-!
# Negatives are accounted for

A sampler that answers many requests keeps two counters, and every answer adds to them: how many
negatives were drawn, and how many of these were taken although all their candidates were true
neighbours. Each addition is made at once and for itself, so whatever goes on at the same time, the
counters see the additions in some order.

The first counter is the number of negatives that the outputs name, and the second the number of
those that are true neighbours of the source they were drawn for (`Sampler.answers_accounted`).
Both rest on one fact about a single draw: a negative is marked as exhausted exactly if it is a true
neighbour (`NegativeSampler.exhausted_draw`). The candidate that ends a draw early is none, and when
none ends it, everything there is to fall back on is one.
-/

namespace HopSampler

/-! ### Negatives of an output -/

/-- Every source as often as negatives are drawn for it. -/
def EdgeRequest.drawnSources (r : EdgeRequest) (n : NegativeSampling) : List Id :=
  r.rows.flatMap (List.replicate n.perPositive.toNat)

theorem EdgeRequest.length_drawnSources (r : EdgeRequest) (n : NegativeSampling) :
    (r.drawnSources n).length = r.size * n.perPositive.toNat := by
  simp only [drawnSources, List.length_flatMap, List.length_replicate]
  rw [List.map_const', List.sum_replicate_nat, size]

namespace SamplingOutput

/-- The IDs of two places, the first of a source and the second of a destination. -/
def readPair (o : SamplingOutput) (e : EdgeType) (places : Nat × Nat) : Option (Id × Id) :=
  match (o.nodesOf e.source)[places.1]?, (o.nodesOf e.target)[places.2]? with
  | some source, some target => some (source, target)
  | _, _ => none

/-- The negatives that an output names for the pairs of a request, each behind its source: in binary
mode whatever is listed after the pairs, and in triplet mode the block, row by row. -/
def negativesFor (o : SamplingOutput) (r : EdgeRequest) : List (Id × Id) :=
  match r.negatives, o.metadata with
  | some _, .link _ row col _ =>
    ((row.drop r.size).zip (col.drop r.size)).filterMap (o.readPair r.type)
  | some _, .triplet _ sources _ _ block _ =>
    ((sources.zip block).flatMap fun p ↦ p.2.map (p.1, ·)).filterMap (o.readPair r.type)
  | _, _ => []

variable {o : SamplingOutput}

theorem Reads.drop {t : NodeType} {places : List Nat} {ids : List Id} (h : o.Reads t places ids)
    (k : Nat) : o.Reads t (places.drop k) (ids.drop k) := by
  rw [Reads, List.map_drop, List.map_drop, h]

theorem Reads.flatMap_replicate {t : NodeType} {places : List Nat} {ids : List Id}
    (h : o.Reads t places ids) (amount : Nat) :
    o.Reads t (places.flatMap (List.replicate amount)) (ids.flatMap (List.replicate amount)) := by
  induction places generalizing ids with
  | nil =>
    obtain rfl : ids = [] := List.map_eq_nil_iff.1 h.symm
    rfl
  | cons place places ih =>
    obtain - | ⟨id, ids⟩ := ids
    · cases h
    · obtain ⟨hhead, htail⟩ := List.cons.inj h
      refine Reads.append ?_ (ih htail)
      rw [Reads, List.map_replicate, List.map_replicate]
      exact congrArg (List.replicate amount) hhead

/-- Places that read as IDs make pairs that read as pairs. -/
theorem Reads.filterMap_zip {e : EdgeType} {row col : List Nat} {sources targets : List Id}
    (hrow : o.Reads e.source row sources) (hcol : o.Reads e.target col targets) :
    (row.zip col).filterMap (o.readPair e) = sources.zip targets := by
  refine filterMap_of_map_eq ?_
  induction row generalizing col sources targets with
  | nil =>
    obtain rfl : sources = [] := List.map_eq_nil_iff.1 hrow.symm
    rfl
  | cons r row ih =>
    obtain - | ⟨source, sources⟩ := sources
    · cases hrow
    obtain - | ⟨c, col⟩ := col <;> obtain - | ⟨target, targets⟩ := targets
    · rfl
    · cases hcol
    · cases hcol
    · obtain ⟨hsource, hrow⟩ := List.cons.inj hrow
      obtain ⟨htarget, hcol⟩ := List.cons.inj hcol
      rw [List.zip_cons_cons, List.map_cons, List.zip_cons_cons, List.map_cons, ih hrow hcol,
        readPair]
      simp only [hsource, htarget]

/-- A row of equal entries, flattened, is read entry by entry. -/
theorem getElem?_flatten_of_length {α : Type} {block : List (List α)} {size : Nat}
    (h : ∀ entries ∈ block, entries.length = size) (k : Nat) {j : Nat} (hj : j < size) :
    block.flatten[k * size + j]? = block[k]?.bind (·[j]?) := by
  induction block generalizing k with
  | nil => simp
  | cons entries block ih =>
    obtain ⟨hhead, htail⟩ := List.forall_mem_cons.1 h
    rw [List.flatten_cons]
    cases k with
    | zero =>
      rw [Nat.zero_mul, Nat.zero_add, List.getElem?_append_left (hhead ▸ hj)]
      rfl
    | succ k =>
      have hshift : (k + 1) * size + j - entries.length = k * size + j := by
        rw [hhead, Nat.succ_mul]
        omega
      rw [List.getElem?_append_right (by rw [hhead, Nat.succ_mul]; omega), hshift, ih htail,
        List.getElem?_cons_succ]

/-- A block whose entries are read one by one is read as one list. -/
theorem reads_flatten {t : NodeType} {block : List (List Nat)} {drawn : List Id} {size : Nat}
    (hsize : ∀ entries ∈ block, entries.length = size) (hdrawn : drawn.length = block.length * size)
    (hread : ∀ k < block.length, ∀ j < size, o.readEntry t block k j = drawn[k * size + j]?) :
    o.Reads t block.flatten drawn := by
  have hlength : block.flatten.length = block.length * size := by
    rw [List.length_flatten, List.map_congr_left hsize, List.map_const', List.sum_replicate_nat]
  refine List.ext_getElem? fun i ↦ ?_
  rw [List.getElem?_map, List.getElem?_map]
  by_cases hi : i < block.length * size
  · have hpos : 0 < size := Nat.pos_of_ne_zero fun hzero ↦ by
      rw [hzero, Nat.mul_zero] at hi
      exact Nat.not_lt_zero _ hi
    have hk : i / size < block.length := Nat.div_lt_of_lt_mul (by rwa [Nat.mul_comm])
    have hj : i % size < size := Nat.mod_lt i hpos
    have hsplit : i / size * size + i % size = i := Nat.div_add_mod' i size
    have hentry := hread _ hk _ hj
    rw [readEntry, ← getElem?_flatten_of_length hsize _ hj, hsplit] at hentry
    have hin : i < block.flatten.length := hlength ▸ hi
    have hin' : i < drawn.length := hdrawn ▸ hi
    rw [List.getElem?_eq_getElem hin, List.getElem?_eq_getElem hin', Option.bind_some] at hentry
    rw [List.getElem?_eq_getElem hin, List.getElem?_eq_getElem hin', Option.map_some,
      Option.map_some, hentry]
  · rw [List.getElem?_eq_none (by omega), List.getElem?_eq_none (by omega)]
    rfl

/-- Pairing every source with its entries is pairing repeated sources with all entries. -/
theorem flatMap_zip_of_length {α β : Type} {sources : List α} {block : List (List β)} {size : Nat}
    (h : ∀ entries ∈ block, entries.length = size) :
    (sources.zip block).flatMap (fun p ↦ p.2.map (p.1, ·)) =
      (sources.flatMap (List.replicate size)).zip block.flatten := by
  induction sources generalizing block with
  | nil => rfl
  | cons source sources ih =>
    obtain - | ⟨entries, block⟩ := block
    · simp
    · obtain ⟨hhead, htail⟩ := List.forall_mem_cons.1 h
      rw [List.zip_cons_cons, List.flatMap_cons, ih htail, List.flatMap_cons, List.flatten_cons,
        List.zip_append (by rw [List.length_replicate, hhead]), ← hhead,
        List.map_prod_right_eq_zip (f := fun _ ↦ source), List.map_const']

/-- **The negatives that an output names are those drawn**, each behind its row. -/
theorem Supervises.negativesFor_eq {r : EdgeRequest} {drawn : List Id} (h : o.Supervises r drawn)
    {n : NegativeSampling} (hneg : r.negatives = some n) (hpairs : r.rows.length = r.cols.length) :
    o.negativesFor r = (r.drawnSources n).zip drawn := by
  simp only [Supervises, hneg] at h
  rcases hmode : n.mode <;> simp only [hmode] at h
  · obtain ⟨-, row, col, hmeta, hrow, hcol⟩ := h
    have hread := (hrow.drop r.size).filterMap_zip (hcol.drop r.size)
    have hcols : r.cols.length = r.size := hpairs.symm
    rw [List.drop_left' (show r.rows.length = r.size from rfl), List.drop_left' hcols] at hread
    have hperPositive : n.perPositive = 1 := by rw [NegativeSampling.perPositive, hmode]
    have hrows : r.rows.flatMap (List.replicate 1) = r.rows := List.flatMap_singleton' r.rows
    rw [negativesFor, hneg, hmeta, EdgeRequest.drawnSources, hperPositive]
    exact hread.trans (congrArg (·.zip drawn) hrows.symm)
  · obtain ⟨hlength, sources, positives, block, hmeta, hsources, -, hblock, hsize, hread⟩ := h
    have hdrawn : o.Reads r.type.target block.flatten drawn :=
      reads_flatten hsize (by rw [hlength, hblock]) (by rwa [hblock])
    have hperPositive : n.perPositive = n.amount := by rw [NegativeSampling.perPositive, hmode]
    rw [negativesFor, hneg, hmeta, EdgeRequest.drawnSources, hperPositive]
    simp only
    rw [flatMap_zip_of_length hsize]
    exact (hsources.flatMap_replicate _).filterMap_zip hdrawn

end SamplingOutput

/-! ### One answer -/

/-- The negatives that a request asks for can be held in one list. -/
def Request.Holdable : Request → Prop
  | .node _ => True
  | .edge r => ∀ n, r.negatives = some n → n.mode = .triplet →
      r.rows.length * n.amount.toNat ≤ Sampler.greatestBlock

namespace Sampler

/-- A request and the seed it is answered under. -/
structure Query where
  request : Request
  seed : UInt64

/-- The negatives that the answer to a query returns, each behind its source. -/
def returned (s : Sampler) (q : Query) : List (Id × Id) :=
  match q.request, (s.answer q.request q.seed).output with
  | .edge r, .ok o => o.negativesFor r
  | _, _ => []

/-- The returned negatives that are true neighbours of their source. -/
def returnedArcs (s : Sampler) (q : Query) : List (Id × Id) :=
  match q.request with
  | .node _ => []
  | .edge r => (s.returned q).filter fun p ↦ s.graph.HasArc r.type p.1 p.2

variable {s : Sampler}

theorem exists_supervises (hg : s.graph.WellFormed) {r : EdgeRequest} (h : s.Accepts (.edge r))
    (seed : UInt64) : ∃ o, (s.answer (.edge r) seed).output = .ok o ∧
      o.Supervises r (s.negativeIds r seed) := by
  obtain ⟨last, -, -, hrun, -⟩ := exists_stage hg h seed
  have hmet := Expansion.prefix_stage (s.rules seed) (s.seeds (.edge r) seed) (Nat.zero_le last)
  obtain ⟨metadata, hmeta⟩ := exists_metadata h hmet
  exact ⟨_, output_eq_present h hrun hmeta s.config.layout, supervises_present h hmet hmeta ..⟩

/-- An accepted request returns the negatives drawn for it, each behind its row. -/
theorem returned_of_accepts (hg : s.graph.WellFormed) {r : EdgeRequest} (h : s.Accepts (.edge r))
    {n : NegativeSampling} (hneg : r.negatives = some n) (seed : UInt64) :
    s.returned ⟨.edge r, seed⟩ = (r.drawnSources n).zip (s.negativeIds r seed) := by
  obtain ⟨o, houtput, hsupervises⟩ := exists_supervises hg h seed
  have hlengths : r.rows.length = r.cols.length := (show s.AcceptsPairs r from h).lengths
  rw [returned]
  simp only [houtput]
  exact hsupervises.negativesFor_eq hneg hlengths

/-- A request that does not ask for negatives, or that is rejected, returns none. -/
theorem returned_eq_nil (hg : s.graph.WellFormed) {r : EdgeRequest}
    (h : ¬∃ n, r.negatives = some n ∧ s.Accepts (.edge r)) (seed : UInt64) :
    s.returned ⟨.edge r, seed⟩ = [] := by
  cases houtput : (s.answer (.edge r) seed).output with
  | error e =>
    rw [returned]
    simp only [houtput]
  | ok o =>
    have haccepts := (accepts_iff_output_eq_ok hg seed).2 ⟨o, houtput⟩
    have hnone : r.negatives = none := Option.eq_none_iff_forall_ne_some.2 fun n hneg ↦
      h ⟨n, hneg, haccepts⟩
    rw [returned]
    simp only [houtput, SamplingOutput.negativesFor, hnone]

/-- The negatives drawn for an accepted request are counted, and marked by what they are. -/
theorem exists_counted (hs : s.graph.Sorted) {r : EdgeRequest} (h : s.AcceptsPairs r)
    {n : NegativeSampling} (hneg : r.negatives = some n) (seed : UInt64) :
    ∃ negatives, s.negativeIds r seed = negatives.map (·.id) ∧
      (s.answer (.edge r) seed).tally = .ofNegatives negatives ∧
      List.Forall₂ (fun u m ↦ m.exhausted = decide (s.graph.HasArc r.type u m.id))
        (r.drawnSources n) negatives := by
  obtain ⟨topology, htop⟩ := h.type
  obtain ⟨count, hcount, hpos⟩ := (h.negatives n hneg).targets
  obtain ⟨attempts, hattempts⟩ := (h.negatives n hneg).attempts
  have hdrawn : s.negatives r topology seed = .ok _ := negatives_eq_ok hneg hcount hpos hattempts
  refine ⟨_, by simp only [negativeIds, htop, hdrawn]; rfl, ?_, ?_⟩
  · show (s.samplePairs r seed).tally = _
    rw [samplePairs, checkPairs_eq_ok h htop]
    simp only [hdrawn]
  · have hone : max attempts.toNat 1 ≠ 0 := by omega
    have hmarks := NegativeSampler.exhausted_drawForPairs
      ⟨topology, count, max attempts.toNat 1⟩ hone n.perPositive.toNat
      (r.rows.zip r.cols) (Random.stream seed [negativeStream])
    rw [List.map_fst_zip (Nat.le_of_eq h.lengths)] at hmarks
    refine hmarks.imp fun u m hmark ↦ ?_
    rw [hmark, Bool.eq_iff_iff, decide_eq_true_iff]
    exact Graph.hasEdge_iff_hasArc hs htop

/-- Such a request counts none either. -/
theorem tally_eq_zero {r : EdgeRequest} (hr : (Request.edge r).Holdable)
    (h : ¬∃ n, r.negatives = some n ∧ s.Accepts (.edge r)) (seed : UInt64) :
    (s.answer (.edge r) seed).tally = .zero := by
  show (s.samplePairs r seed).tally = .zero
  rw [samplePairs]
  split
  · rfl
  · next topology hcheck =>
    split
    · rfl
    · next negatives hdrawn =>
      rcases hneg : r.negatives with - | n
      · rw [Sampler.negatives, hneg] at hdrawn
        cases hdrawn
        rfl
      · simp only [Sampler.negatives, hneg] at hdrawn
        obtain ⟨count, hcount, hdrawn⟩ := bind_eq_ok_iff.1 hdrawn
        obtain ⟨attempts, hattempts, hdrawn⟩ := bind_eq_ok_iff.1 hdrawn
        obtain ⟨sampler, hmake, hdrawn⟩ := bind_eq_ok_iff.1 hdrawn
        rw [NegativeSampler.make, ite_error_eq_ok_iff] at hmake
        -- past the checks only the width of an empty block can be refused
        have hnobody : r.rows = [] := by
          by_contra hsome
          obtain ⟨hvalid, htop, hrows, hcols, henabled⟩ := checkPairs_eq_ok_iff.1 hcheck
          obtain ⟨⟨hlengths, hlabels⟩, hnegatives⟩ := EdgeRequest.validate_eq_ok_iff.1 hvalid
          refine h ⟨n, hneg, hlengths, hlabels, ⟨topology, htop⟩, hrows, hcols, fun m hm ↦ ?_⟩
          obtain ⟨hamount, hunlabelled⟩ := hnegatives m hm
          obtain rfl : n = m := Option.some.inj (hneg.symm.trans hm)
          refine ⟨henabled (by rw [hm]; rfl), hamount, hunlabelled, ⟨count, hcount, hmake.1⟩,
            ⟨attempts, hattempts⟩, fun hmode ↦ ?_⟩
          rw [Nat.max_eq_left (List.length_pos_iff.2 hsome)]
          exact hr n hm hmode
        cases hdrawn
        rw [hnobody]
        rfl

/-- **The counts of an answer** are those of the negatives it returns. -/
theorem tally_answer (hg : s.graph.WellFormed) (hs : s.graph.Sorted) {q : Query}
    (hq : q.request.Holdable) : (s.answer q.request q.seed).tally =
      ⟨(s.returned q).length, (s.returnedArcs q).length⟩ := by
  obtain ⟨r | r, seed⟩ := q
  · rfl
  · by_cases hdraws : ∃ n, r.negatives = some n ∧ s.Accepts (.edge r)
    · obtain ⟨n, hneg, haccepts⟩ := hdraws
      obtain ⟨negatives, hids, htally, hmarks⟩ := exists_counted hs haccepts hneg seed
      have hreturned := returned_of_accepts hg haccepts hneg seed
      rw [hids] at hreturned
      have hlength : (s.returned ⟨.edge r, seed⟩).length = negatives.length := by
        rw [hreturned, List.length_zip, List.length_map, hmarks.length_eq, Nat.min_self]
      have harcs : (s.returnedArcs ⟨.edge r, seed⟩).length = negatives.countP (·.exhausted) := by
        rw [countP_exhausted (f := fun u id ↦ s.graph.HasArc r.type u id) hmarks, ← hreturned,
          List.countP_eq_length_filter]
        rfl
      rw [htally, hlength, harcs]
      rfl
    · rw [tally_eq_zero hq hdraws, returnedArcs, returned_eq_nil hg hdraws]
      rfl

/-- A returned negative is a destination of its request. -/
theorem hasNode_of_mem_returned (hg : s.graph.WellFormed) {r : EdgeRequest} {seed : UInt64}
    {p : Id × Id} (hp : p ∈ s.returned ⟨.edge r, seed⟩) : s.graph.HasNode r.type.target p.2 := by
  by_cases hdraws : ∃ n, r.negatives = some n ∧ s.Accepts (.edge r)
  · obtain ⟨n, hneg, haccepts⟩ := hdraws
    rw [returned_of_accepts hg haccepts hneg] at hp
    exact hasNode_of_mem_negativeIds haccepts (List.of_mem_zip hp).2
  · rw [returned_eq_nil hg hdraws] at hp
    cases hp

end Sampler

/-! ### Counters -/

/-- The counters after additions in the given order. -/
def Tally.total (additions : List Tally) : Tally := additions.foldl .add .zero

theorem Tally.total_eq (additions : List Tally) :
    total additions = ⟨(additions.map (·.drawn)).sum, (additions.map (·.exhausted)).sum⟩ := by
  have hfold : ∀ t : Tally, additions.foldl .add t =
      ⟨t.drawn + (additions.map (·.drawn)).sum,
        t.exhausted + (additions.map (·.exhausted)).sum⟩ := by
    induction additions with
    | nil => exact fun t ↦ rfl
    | cons a additions ih =>
      intro t
      rw [List.foldl_cons, ih, List.map_cons, List.sum_cons, List.map_cons, List.sum_cons]
      simp only [add, Nat.add_assoc]
  rw [total, hfold]
  simp only [zero, Nat.zero_add]

/-- What the counters show after additions in the given order. -/
def Counters.after (additions : List Tally) : Counters := additions.foldl .add .zero

/-- Counters show a total as far as words hold it. -/
theorem Counters.after_eq (additions : List Tally) : after additions =
    ⟨(Tally.total additions).drawn.toUInt64, (Tally.total additions).exhausted.toUInt64⟩ := by
  have hfold : ∀ c : Counters, additions.foldl .add c =
      ⟨c.drawn + (additions.map Tally.drawn).sum.toUInt64,
        c.exhausted + (additions.map Tally.exhausted).sum.toUInt64⟩ := by
    induction additions with
    | nil => exact fun c ↦ by simp
    | cons a additions ih =>
      intro c
      rw [List.foldl_cons, ih, List.map_cons, List.sum_cons, List.map_cons, List.sum_cons]
      simp only [add, Nat.toUInt64_eq, UInt64.ofNat_add, UInt64.add_assoc]
  rw [after, hfold, Tally.total_eq]
  simp only [zero, UInt64.zero_add]

namespace Sampler

/-- What the answer to a query adds: to the one counter, then to the other. -/
def additions (s : Sampler) (q : Query) : List Tally :=
  [⟨(s.answer q.request q.seed).tally.drawn, 0⟩, ⟨0, (s.answer q.request q.seed).tally.exhausted⟩]

/-- The counters tell what the answers to some queries returned, after all additions were made in
some order. -/
structure Accounts (s : Sampler) (queries : List Query) (order : List Tally) : Prop where
  /-- A returned negative is a destination of the request. -/
  inRange : ∀ r seed, ∀ p ∈ s.returned ⟨.edge r, seed⟩, s.graph.HasNode r.type.target p.2
  /-- A request that is answered gets all the negatives it asks for, each behind its row. -/
  complete : ∀ r n seed, r.negatives = some n → (∃ o, (s.answer (.edge r) seed).output = .ok o) →
    (s.returned ⟨.edge r, seed⟩).length = r.size * n.perPositive.toNat ∧
      (s.returned ⟨.edge r, seed⟩).map (·.1) = r.drawnSources n
  /-- The order does not matter: it is as if the queries were answered one after the other. -/
  sequential : Tally.total order =
    Tally.total (queries.map fun q ↦ (s.answer q.request q.seed).tally)
  /-- As many negatives were drawn as were returned. -/
  drawn : (Tally.total order).drawn = (queries.map fun q ↦ (s.returned q).length).sum
  /-- As many were exhausted as are true neighbours of their row. -/
  exhausted : (Tally.total order).exhausted = (queries.map fun q ↦ (s.returnedArcs q).length).sum
  /-- The counters are words, and show these numbers modulo `2 ^ 64`. -/
  shown : (Counters.after order).drawn.toNat =
      (queries.map fun q ↦ (s.returned q).length).sum % UInt64.size ∧
    (Counters.after order).exhausted.toNat =
      (queries.map fun q ↦ (s.returnedArcs q).length).sum % UInt64.size
  /-- If none was exhausted while a query was answered, all its negatives are true ones. -/
  unexhausted : ∀ q ∈ queries, ∀ before during, before ++ during <+: order →
    s.additions q ⊆ during →
    (Tally.total (before ++ during)).exhausted = (Tally.total before).exhausted →
      s.returnedArcs q = []

variable {s : Sampler}

/-- A sum over what all queries add is a sum of their counts. -/
theorem sum_additions {queries : List Query} {order : List Tally}
    (horder : order.Perm (queries.flatMap s.additions)) :
    (order.map (·.drawn)).sum = (queries.map fun q ↦ (s.answer q.request q.seed).tally.drawn).sum ∧
      (order.map (·.exhausted)).sum =
        (queries.map fun q ↦ (s.answer q.request q.seed).tally.exhausted).sum := by
  have hsums : ∀ f : Tally → Nat, (order.map f).sum =
      (queries.map fun q ↦ ((s.additions q).map f).sum).sum := fun f ↦ by
    rw [(horder.map f).sum_nat, List.map_flatMap, List.flatMap_def, List.sum_flatten, List.map_map]
    rfl
  constructor
  · rw [hsums]
    simp [additions]
  · rw [hsums]
    simp [additions]

/-- **Negatives are accounted for exactly**, on a well-formed graph and whatever the order in which
the answers to any queries, accepted or not, add to the counters. -/
theorem answers_accounted (hg : s.graph.WellFormed) (hs : s.graph.Sorted) {queries : List Query}
    (hqueries : ∀ q ∈ queries, q.request.Holdable) {order : List Tally}
    (horder : order.Perm (queries.flatMap s.additions)) : s.Accounts queries order := by
  have htally : ∀ q ∈ queries, (s.answer q.request q.seed).tally =
      ⟨(s.returned q).length, (s.returnedArcs q).length⟩ := fun q hq ↦
    tally_answer hg hs (hqueries q hq)
  have hdrawn : (Tally.total order).drawn = (queries.map fun q ↦ (s.returned q).length).sum := by
    rw [Tally.total_eq, (sum_additions horder).1]
    exact congrArg List.sum (List.map_congr_left fun q hq ↦ by rw [htally q hq])
  have hexhausted : (Tally.total order).exhausted =
      (queries.map fun q ↦ (s.returnedArcs q).length).sum := by
    rw [Tally.total_eq, (sum_additions horder).2]
    exact congrArg List.sum (List.map_congr_left fun q hq ↦ by rw [htally q hq])
  have hshown := Counters.after_eq order
  rw [hdrawn, hexhausted] at hshown
  refine ⟨fun r seed p hp ↦ hasNode_of_mem_returned hg hp, fun r n seed hneg hanswer ↦ ?_, ?_,
    hdrawn, hexhausted, hshown ▸ ⟨UInt64.toNat_ofNat', UInt64.toNat_ofNat'⟩,
    fun q hq before during hprefix hduring hsame ↦ ?_⟩
  · have haccepts : s.AcceptsPairs r := (accepts_iff_output_eq_ok hg seed).2 hanswer
    have hlength : (r.drawnSources n).length = (s.negativeIds r seed).length := by
      rw [r.length_drawnSources, length_negativeIds haccepts hneg]
      rfl
    rw [returned_of_accepts hg haccepts hneg]
    exact ⟨by rw [List.length_zip, ← hlength, Nat.min_self, r.length_drawnSources],
      List.map_fst_zip (Nat.le_of_eq hlength)⟩
  · rw [Tally.total_eq, Tally.total_eq, (sum_additions horder).1, (sum_additions horder).2,
      List.map_map, List.map_map]
    rfl
  · -- what the window added to the counter of exhausted ones is nothing, and it holds this addition
    simp only [Tally.total_eq, List.map_append, List.sum_append] at hsame
    have hnone := List.sum_eq_zero_iff_forall_eq_nat.1 (Nat.left_eq_add.1 hsame.symm)
    have hmem : ⟨0, (s.answer q.request q.seed).tally.exhausted⟩ ∈ during :=
      hduring (List.mem_cons_of_mem _ List.mem_cons_self)
    have hzero := hnone _ (List.mem_map.2 ⟨_, hmem, rfl⟩)
    rw [htally q hq] at hzero
    exact List.length_eq_zero_iff.1 hzero

/-- Two requests that are answered and one for a node that is not there, all at the same time. -/
def smallQueries : List Query :=
  [⟨smallRequest, 3⟩, ⟨.node ⟨⟨"item"⟩, [0, 9]⟩, 1⟩, ⟨.edge smallTriplets, 7⟩]

theorem smallQueries_holdable : ∀ q ∈ smallQueries, q.request.Holdable :=
  List.forall_mem_cons.2 ⟨by rintro _ ⟨⟩ ⟨⟩, List.forall_mem_cons.2 ⟨trivial,
    List.forall_mem_singleton.2 (by rintro _ ⟨⟩ -; decide)⟩⟩

theorem answers_accounted_small :
    Graph.small.WellFormed ∧ Graph.small.Sorted ∧ (∀ q ∈ smallQueries, q.request.Holdable) ∧
      (small .traversal).Accounts smallQueries
        (smallQueries.flatMap (small .traversal).additions).reverse :=
  ⟨Graph.small_wellFormed, by decide, smallQueries_holdable,
    answers_accounted (s := small .traversal) Graph.small_wellFormed (by decide)
      smallQueries_holdable (List.reverse_perm _)⟩

end Sampler

end HopSampler
