import HopSampler.Proofs.Accounts

/-!
# The candidate that is taken

A draw goes along the candidates that its generator yields and stops at the first that is no true
neighbour of the source. If there is none among as many as may be drawn, the last one that differs
from the positive is taken; only if all of them are the positive, it is the positive.

The loop carries what to fall back on, so the inductions are about a loop that already has something
(`drawFrom_of_found`, `drawFrom_of_forall_hasEdge`). What it starts with does not show: the
candidates themselves say whether one of them differs from the positive.

The negatives of all pairs are single draws one after the other (`drawForPairs_eq_drawEach`). Each
begins at the candidate at which the one before it stopped, so they cut one stream of candidates
into consecutive parts (`exists_spent`).
-/

namespace HopSampler

/-- An arc leads from `source` to `target`. -/
def Topology.LeadsTo (t : Topology) (source target : Id) : Prop :=
  ∃ row, t.neighbors? source = some row ∧ ∃ arc ∈ row, arc.target = target

theorem Topology.leadsTo_iff {t : Topology} (h : t.Sorted) {source target : Id} :
    t.LeadsTo source target ↔ t.hasEdge source target = true :=
  (hasEdge_iff h).symm

namespace NegativeSampler

variable (s : NegativeSampler) {source positive last : Id} {fallback : Option Id}

/-! ### Candidates of a stream -/

/-- The first candidates that a generator yields. -/
def candidates (g : Random.Generator) : Nat → List Id
  | 0 => []
  | n + 1 => (s.candidate g).1 :: candidates (s.candidate g).2 n

/-- The generator after its first candidates. -/
def afterCandidates (g : Random.Generator) : Nat → Random.Generator
  | 0 => g
  | n + 1 => afterCandidates (s.candidate g).2 n

theorem length_candidates (g : Random.Generator) (n : Nat) : (s.candidates g n).length = n := by
  induction n generalizing g with
  | zero => rfl
  | succ n ih => rw [candidates, List.length_cons, ih]

theorem lt_of_mem_candidates (hs : s.targets ≠ 0) {g : Random.Generator} {n : Nat} {c : Id}
    (hc : c ∈ s.candidates g n) : c < s.targets := by
  induction n generalizing g with
  | zero => cases hc
  | succ n ih =>
    rcases List.mem_cons.1 hc with rfl | hc
    · exact s.candidate_lt hs g
    · exact ih hc

/-! ### One draw -/

/-- A candidate that is no neighbour ends the draw. -/
theorem drawFrom_of_found {before behind : List Id} {c : Id} {attempts : Nat}
    {g : Random.Generator} (hcandidates : s.candidates g attempts = before ++ c :: behind)
    (hbefore : ∀ b ∈ before, s.topology.hasEdge source b = true)
    (hc : s.topology.hasEdge source c = false) :
    s.drawFrom source positive fallback last attempts g =
      (⟨c, false⟩, s.afterCandidates g (before.length + 1)) := by
  induction before generalizing attempts g fallback last with
  | nil =>
    cases attempts with
    | zero => simp [candidates] at hcandidates
    | succ attempts =>
      rw [candidates, List.nil_append, List.cons.injEq] at hcandidates
      have hfirst : (s.candidate g).1 = c := hcandidates.1
      simp only [drawFrom, hfirst, hc, Bool.false_eq_true, if_false, List.length_nil,
        afterCandidates]
  | cons b before ih =>
    cases attempts with
    | zero => simp [candidates] at hcandidates
    | succ attempts =>
      rw [candidates, List.cons_append, List.cons.injEq] at hcandidates
      obtain ⟨hfirst, hrest⟩ := hcandidates
      obtain ⟨hedge, hbefore⟩ := List.forall_mem_cons.1 hbefore
      rw [List.length_cons, afterCandidates, ← ih hrest hbefore]
      simp only [drawFrom, hfirst, hedge, if_true]
      rfl

/-- If all candidates are neighbours, the last that differs from the positive is taken. -/
theorem drawFrom_of_forall_hasEdge {attempts : Nat} {g : Random.Generator}
    (h : ∀ c ∈ s.candidates g attempts, s.topology.hasEdge source c = true) :
    s.drawFrom source positive fallback last attempts g =
      (⟨(((s.candidates g attempts).filter (· ≠ positive)).getLast?.or fallback).getD
        ((s.candidates g attempts).getLast?.getD last), true⟩, s.afterCandidates g attempts) := by
  induction attempts generalizing g fallback last with
  | zero => rfl
  | succ attempts ih =>
    obtain ⟨hfirst, hrest⟩ := List.forall_mem_cons.1 h
    simp only [drawFrom, hfirst, if_true, ih hrest]
    rw [candidates, afterCandidates, List.getLast?_cons, Option.getD_some, List.filter_cons]
    by_cases hc : (s.candidate g).1 = positive
    · simp [hc]
    · simp [hc, List.getLast?_cons]

/-- What a draw yields at a generator, and where it leaves it. -/
structure Settles (source positive : Id) (g : Random.Generator) : Prop where
  /-- The first candidate that is no neighbour is taken, and nothing is drawn after it. -/
  found : ∀ before c behind, s.candidates g s.attempts = before ++ c :: behind →
    (∀ b ∈ before, s.topology.LeadsTo source b) → ¬ s.topology.LeadsTo source c →
    s.draw source positive g = (⟨c, false⟩, s.afterCandidates g (before.length + 1))
  /-- If all are neighbours, the last that differs from the positive is taken, and marked. -/
  fellBack : (∀ c ∈ s.candidates g s.attempts, s.topology.LeadsTo source c) →
    s.draw source positive g =
      (⟨((s.candidates g s.attempts).filter (· ≠ positive)).getLast?.getD positive, true⟩,
        s.afterCandidates g s.attempts)
  /-- The positive itself is handed back only if nothing else was drawn. -/
  positive : (s.draw source positive g).1.exhausted = true →
    (s.draw source positive g).1.id = positive → ∀ c ∈ s.candidates g s.attempts, c = positive

/-- Some candidate is no neighbour, with only neighbours before it, or all are neighbours. -/
theorem found_or_forall_hasEdge (source : Id) (g : Random.Generator) :
    (∃ before c behind, s.candidates g s.attempts = before ++ c :: behind ∧
      (∀ b ∈ before, s.topology.hasEdge source b = true) ∧ s.topology.hasEdge source c = false) ∨
    ∀ c ∈ s.candidates g s.attempts, s.topology.hasEdge source c = true := by
  cases hfind : (s.candidates g s.attempts).find? (!s.topology.hasEdge source ·) with
  | some c =>
    obtain ⟨hc, before, behind, hsplit, hbefore⟩ := List.find?_eq_some_iff_append.1 hfind
    exact .inl ⟨before, c, behind, hsplit, by simpa using hbefore, by simpa using hc⟩
  | none => exact .inr (by simpa using List.find?_eq_none.1 hfind)

theorem draw_of_found {before behind : List Id} {c : Id} {g : Random.Generator}
    (hcandidates : s.candidates g s.attempts = before ++ c :: behind)
    (hbefore : ∀ b ∈ before, s.topology.hasEdge source b = true)
    (hc : s.topology.hasEdge source c = false) :
    s.draw source positive g = (⟨c, false⟩, s.afterCandidates g (before.length + 1)) :=
  s.drawFrom_of_found hcandidates hbefore hc

theorem draw_of_forall_hasEdge {g : Random.Generator}
    (h : ∀ c ∈ s.candidates g s.attempts, s.topology.hasEdge source c = true) :
    s.draw source positive g =
      (⟨((s.candidates g s.attempts).filter (· ≠ positive)).getLast?.getD positive, true⟩,
        s.afterCandidates g s.attempts) := by
  rw [draw, s.drawFrom_of_forall_hasEdge h, Option.or_none]
  cases hlast : ((s.candidates g s.attempts).filter (· ≠ positive)).getLast? with
  | some c => rfl
  | none =>
    -- then the last candidate is the positive, as all of them are, or there is none
    rw [List.getLast?_eq_none_iff, List.filter_eq_nil_iff] at hlast
    cases hend : (s.candidates g s.attempts).getLast? with
    | none => rfl
    | some c =>
      have hc : c = positive := by simpa using hlast c (List.mem_of_getLast? hend)
      rw [hc]
      rfl

/-- A marked draw that is the positive drew nothing else. -/
theorem eq_of_draw_eq_positive {g : Random.Generator}
    (hmark : (s.draw source positive g).1.exhausted = true)
    (hid : (s.draw source positive g).1.id = positive) :
    ∀ c ∈ s.candidates g s.attempts, c = positive := by
  rcases s.found_or_forall_hasEdge source g with ⟨before, c, behind, hsplit, hbefore, hc⟩ | hall
  · rw [s.draw_of_found hsplit hbefore hc] at hmark
    cases hmark
  · rw [s.draw_of_forall_hasEdge hall] at hid
    cases hlast : ((s.candidates g s.attempts).filter (· ≠ positive)).getLast? with
    | none =>
      rw [List.getLast?_eq_none_iff, List.filter_eq_nil_iff] at hlast
      simpa using hlast
    | some c =>
      have hne : c ≠ positive := by simpa using (List.mem_filter.1 (List.mem_of_getLast? hlast)).2
      rw [hlast] at hid
      exact absurd hid hne

theorem settles_draw (hsorted : s.topology.Sorted) (source positive : Id) (g : Random.Generator) :
    s.Settles source positive g where
  found before c behind hsplit hbefore hc := by
    simp only [Topology.leadsTo_iff hsorted, Bool.not_eq_true] at hbefore hc
    exact s.draw_of_found hsplit hbefore hc
  fellBack hall := by
    simp only [Topology.leadsTo_iff hsorted] at hall
    exact s.draw_of_forall_hasEdge hall
  positive := s.eq_of_draw_eq_positive

/-! ### One draw after the other -/

theorem afterCandidates_add (g : Random.Generator) (m n : Nat) :
    s.afterCandidates g (m + n) = s.afterCandidates (s.afterCandidates g m) n := by
  induction m generalizing g with
  | zero => rw [Nat.zero_add, afterCandidates]
  | succ m ih => rw [Nat.succ_add, afterCandidates, afterCandidates, ih]

/-- A draw takes one candidate at least, and no more than it may. -/
theorem exists_draw_eq_afterCandidates (hs : s.attempts ≠ 0) (source positive : Id)
    (g : Random.Generator) :
    ∃ n, 0 < n ∧ n ≤ s.attempts ∧ (s.draw source positive g).2 = s.afterCandidates g n := by
  rcases s.found_or_forall_hasEdge source g with ⟨before, c, behind, hsplit, hbefore, hc⟩ | hall
  · refine ⟨before.length + 1, Nat.succ_pos _, ?_, by rw [s.draw_of_found hsplit hbefore hc]⟩
    have hlength := congrArg List.length hsplit
    rw [length_candidates, List.length_append, List.length_cons] at hlength
    omega
  · exact ⟨s.attempts, Nat.pos_of_ne_zero hs, Nat.le_refl _, by rw [s.draw_of_forall_hasEdge hall]⟩

/-- One negative for each pair. -/
def drawEach : List (Id × Id) → Random.Generator → List Negative × Random.Generator
  | [], g => ([], g)
  | (source, positive) :: pairs, g =>
    let (negative, g) := s.draw source positive g
    let (more, g) := drawEach pairs g
    (negative :: more, g)

theorem drawMany_eq_drawEach (source positive : Id) (amount : Nat) (g : Random.Generator) :
    s.drawMany source positive amount g =
      s.drawEach (List.replicate amount (source, positive)) g := by
  induction amount generalizing g with
  | zero => rfl
  | succ amount ih => simp only [drawMany, List.replicate_succ, drawEach, ih]

theorem drawEach_append (pairs more : List (Id × Id)) (g : Random.Generator) :
    s.drawEach (pairs ++ more) g =
      ((s.drawEach pairs g).1 ++ (s.drawEach more (s.drawEach pairs g).2).1,
        (s.drawEach more (s.drawEach pairs g).2).2) := by
  induction pairs generalizing g with
  | nil => rfl
  | cons pair pairs ih => simp only [List.cons_append, drawEach, ih]

/-- The negatives of all pairs are single draws, for every pair as often as asked. -/
theorem drawForPairs_eq_drawEach (amount : Nat) (pairs : List (Id × Id)) (g : Random.Generator) :
    s.drawForPairs amount pairs g = s.drawEach (pairs.flatMap (List.replicate amount)) g := by
  induction pairs generalizing g with
  | nil => rfl
  | cons pair pairs ih =>
    simp only [drawForPairs, List.flatMap_cons, drawEach_append, drawMany_eq_drawEach, ih]

/-- **Single draws take consecutive parts of one stream of candidates.** -/
theorem exists_spent (hs : s.attempts ≠ 0) (pairs : List (Id × Id)) (g : Random.Generator) :
    ∃ spent : Nat → Nat, spent 0 = 0 ∧
      (s.drawEach pairs g).2 = s.afterCandidates g (spent pairs.length) ∧
      ∀ i pair, pairs[i]? = some pair →
        (spent i < spent (i + 1) ∧ spent (i + 1) ≤ spent i + s.attempts) ∧
        ∃ negative, (s.drawEach pairs g).1[i]? = some negative ∧
          s.draw pair.1 pair.2 (s.afterCandidates g (spent i)) =
            (negative, s.afterCandidates g (spent (i + 1))) := by
  induction pairs generalizing g with
  | nil => exact ⟨fun _ ↦ 0, rfl, rfl, fun i pair hpair ↦ by cases hpair⟩
  | cons pair pairs ih =>
    obtain ⟨n, hpos, hle, hnext⟩ := s.exists_draw_eq_afterCandidates hs pair.1 pair.2 g
    obtain ⟨spent, hzero, hend, hparts⟩ := ih (s.draw pair.1 pair.2 g).2
    rw [hnext] at hend hparts
    refine ⟨fun | 0 => 0 | i + 1 => n + spent i, rfl, ?_, ?_⟩
    · show (s.drawEach pairs (s.draw pair.1 pair.2 g).2).2 =
        s.afterCandidates g (n + spent pairs.length)
      rw [hnext, hend, afterCandidates_add]
    · rintro (_ | i) other hother
      · obtain rfl := Option.some.inj hother
        show (0 < n + spent 0 ∧ n + spent 0 ≤ 0 + s.attempts) ∧ ∃ negative, _ ∧
          s.draw pair.1 pair.2 g = (negative, s.afterCandidates g (n + spent 0))
        rw [hzero, Nat.add_zero, Nat.zero_add]
        exact ⟨⟨hpos, hle⟩, _, rfl, Prod.ext rfl hnext⟩
      · obtain ⟨⟨hlt, hmost⟩, negative, hnegative, hdraw⟩ := hparts i other hother
        rw [← hnext] at hnegative
        rw [← afterCandidates_add, ← afterCandidates_add] at hdraw
        refine ⟨⟨?_, ?_⟩, negative, hnegative, hdraw⟩
        · exact Nat.add_lt_add_left hlt n
        · exact (Nat.add_le_add_left hmost n).trans_eq (Nat.add_assoc ..).symm

/-- The negatives of pairs are draws for one pair after the other, in one stream of candidates. -/
structure DrawsInTurn (amount : Nat) (pairs : List (Id × Id)) (g : Random.Generator) : Prop where
  length : (s.drawForPairs amount pairs g).1.length = pairs.length * amount
  /-- How many candidates were drawn before a negative, and the draw that begins there. -/
  parts : ∃ spent : Nat → Nat, spent 0 = 0 ∧
    (s.drawForPairs amount pairs g).2 = s.afterCandidates g (spent (pairs.length * amount)) ∧
    ∀ k pair, pairs[k]? = some pair → ∀ j < amount,
      (spent (k * amount + j) < spent (k * amount + j + 1) ∧
        spent (k * amount + j + 1) ≤ spent (k * amount + j) + s.attempts) ∧
      ∃ negative, (s.drawForPairs amount pairs g).1[k * amount + j]? = some negative ∧
        s.draw pair.1 pair.2 (s.afterCandidates g (spent (k * amount + j))) =
          (negative, s.afterCandidates g (spent (k * amount + j + 1)))

theorem drawsInTurn (hs : s.attempts ≠ 0) (amount : Nat) (pairs : List (Id × Id))
    (g : Random.Generator) : s.DrawsInTurn amount pairs g where
  length := s.length_drawForPairs amount pairs g
  parts := by
    obtain ⟨spent, hzero, hend, hparts⟩ :=
      s.exists_spent hs (pairs.flatMap (List.replicate amount)) g
    rw [← drawForPairs_eq_drawEach] at hend hparts
    have hsize : ∀ block ∈ pairs.map (List.replicate amount), block.length = amount :=
      List.forall_mem_map.2 fun _ _ ↦ List.length_replicate
    refine ⟨spent, hzero, ?_, fun k pair hpair j hj ↦ hparts _ pair ?_⟩
    · simp only [hend, List.length_flatMap, List.length_replicate, List.map_const',
        List.sum_replicate_nat]
    · rw [List.flatMap_def, SamplingOutput.getElem?_flatten_of_length hsize k hj, List.getElem?_map,
        hpair, Option.map_some, Option.bind_some, List.getElem?_replicate, if_pos hj]

/-! ### Samplers that are made -/

/-- **A draw takes the first candidate that is no neighbour**, or the last that differs from the
positive if all are neighbours, of at least one candidate; and the negatives of pairs are such
draws in turn, from one stream. -/
theorem draws_of_make {topology : Topology} (hsorted : topology.Sorted) {targets limit : UInt64}
    {s : NegativeSampler} (h : make topology targets limit = .ok s) :
    (s.topology = topology ∧ s.attempts = max limit.toNat 1) ∧
    (∀ g n, ∀ c ∈ s.candidates g n, c < targets) ∧
    (∀ source positive g, s.Settles source positive g) ∧
    ∀ amount pairs g, s.DrawsInTurn amount pairs g := by
  rw [make, ite_error_eq_ok_iff] at h
  obtain ⟨htargets, h⟩ := h
  obtain rfl := Except.ok.inj h
  refine ⟨⟨rfl, rfl⟩, fun g n c hc ↦ lt_of_mem_candidates _ htargets hc, ?_, ?_⟩
  · exact settles_draw _ hsorted
  · exact drawsInTurn _ (Nat.ne_of_gt (Nat.le_max_right _ _))

/-- A node that leads to all destinations. -/
def saturated : Topology := ⟨#[#[⟨0, 0⟩, ⟨1, 1⟩, ⟨2, 2⟩]], .zeroCopy⟩

/-- At least one candidate is drawn where none is allowed. -/
theorem draws_of_make_saturated :
    saturated.Sorted ∧ ∃ s, make saturated 3 0 = .ok s ∧ s.attempts = 1 ∧
      (∀ source positive g, s.Settles source positive g) ∧
      ∀ amount pairs g, s.DrawsInTurn amount pairs g := by
  have hsorted : saturated.Sorted := by decide
  have hmake : make saturated 3 0 = .ok ⟨saturated, 3, 1⟩ := rfl
  obtain ⟨⟨-, hattempts⟩, -, hsettles, hturn⟩ := draws_of_make hsorted hmake
  exact ⟨hsorted, _, hmake, hattempts, hsettles, hturn⟩

end NegativeSampler

end HopSampler
