import HopSampler.Proofs.WellFormed

/-!
# What building a graph establishes

A graph comes from calls that declare node counts and attach topologies, in any order. The last call
for a key decides, so the calls are read by `lastCount` and `lastTopology`. What the topologies
demand of a node type is a list of natural numbers, one for the rows of every topology that leaves
the type and one for every arc that ends in it; the *needed* count is the greatest of them.

Building keeps counts in machine words. It takes the topologies in one by one, and what one of them
adds keeps the counts the least that cover those before it (`Covers.see`), so in the end they are
the needed ones. That a word holds them is checked on the way: the count that the last ID of the
range needs is one more than a word holds, and no graph is built with an edge that leads there.
-/

namespace HopSampler

/-! ### Look-ups in altered maps -/

theorem SortedMap.getD_alter {κ ν : Type} [Tag κ] [DecidableEq κ] (m : SortedMap κ ν) (key key' : κ)
    (fallback : ν) (f : ν → ν) : (m.alter key fallback f).getD key' fallback =
      if key = key' then f (m.getD key fallback) else m.getD key' fallback := by
  rw [alter, getD_insert]

/-! ### Destinations -/

namespace Topology

variable {topology : Topology} {n : UInt64}

/-- The greatest destination is one of them, and none is greater. -/
theorem maxTarget?_eq_some_iff {id : Id} : topology.maxTarget? = some id ↔
    (∃ arc ∈ topology.arcs, arc.target = id) ∧ ∀ arc ∈ topology.arcs, arc.target ≤ id := by
  rw [maxTarget?, List.max?_eq_some_iff]
  simp only [List.mem_map, forall_exists_index, and_imp, forall_apply_eq_imp_iff₂]

theorem maxTarget?_eq_none_iff : topology.maxTarget? = none ↔ topology.arcs = [] := by
  rw [maxTarget?, List.max?_eq_none_iff, List.map_eq_nil_iff]

@[simp]
theorem numNodes_padTo (count : Nat) :
    (topology.padTo count).numNodes = max topology.numNodes count := by
  simp only [numNodes, padTo, Array.size_append, Array.size_replicate]
  omega

@[simp]
theorem arcs_padTo (count : Nat) : (topology.padTo count).arcs = topology.arcs := by
  simp [arcs, padTo, List.flatMap_append]

end Topology

namespace Graph.Blueprint

/-! ### Calls -/

/-- A call that adds to a blueprint. -/
inductive Call
  | declare (t : NodeType) (count : UInt64)
  | attach (e : EdgeType) (topology : Topology)

/-- What a call makes of a blueprint. -/
def Call.apply (b : Blueprint) : Call → Blueprint
  | .declare t count => b.declare t count
  | .attach e topology => b.attach e topology

/-- The blueprint after a list of calls. -/
def ofCalls (calls : List Call) : Blueprint := calls.foldl Call.apply empty

/-- The count that a call declares for a type. -/
def Call.count? (t : NodeType) : Call → Option UInt64
  | .declare t' count => if t' = t then some count else none
  | .attach .. => none

/-- The topology that a call attaches under an edge type. -/
def Call.topology? (e : EdgeType) : Call → Option Topology
  | .declare .. => none
  | .attach e' topology => if e' = e then some topology else none

/-- The count that the last declaration of a type gives. -/
def lastCount (calls : List Call) (t : NodeType) : Option UInt64 :=
  calls.reverse.findSome? (·.count? t)

/-- The topology that was attached last under an edge type. -/
def lastTopology (calls : List Call) (e : EdgeType) : Option Topology :=
  calls.reverse.findSome? (·.topology? e)

theorem ofCalls_concat (calls : List Call) (last : Call) :
    ofCalls (calls ++ [last]) = last.apply (ofCalls calls) :=
  List.foldl_concat ..

theorem lastCount_concat (calls : List Call) (last : Call) (t : NodeType) :
    lastCount (calls ++ [last]) t = (last.count? t).or (lastCount calls t) := by
  rw [lastCount, List.reverse_append, List.findSome?_append, List.reverse_singleton,
    List.findSome?_singleton, lastCount]

theorem lastTopology_concat (calls : List Call) (last : Call) (e : EdgeType) :
    lastTopology (calls ++ [last]) e = (last.topology? e).or (lastTopology calls e) := by
  rw [lastTopology, List.reverse_append, List.findSome?_append, List.reverse_singleton,
    List.findSome?_singleton, lastTopology]

/-- **The last declaration of a type decides.** -/
theorem get?_declared_ofCalls (calls : List Call) (t : NodeType) :
    (ofCalls calls).declared.get? t = lastCount calls t := by
  induction calls using List.reverseRecOn with
  | nil => rfl
  | append_singleton calls last ih =>
    rw [ofCalls_concat, lastCount_concat, ← ih]
    cases last with
    | declare t' count =>
      rw [Call.apply, declare, SortedMap.get?_insert, Call.count?]
      split <;> rfl
    | attach e topology => rfl

/-- **The topology attached last under an edge type decides.** -/
theorem get?_topologies_ofCalls (calls : List Call) (e : EdgeType) :
    (ofCalls calls).topologies.get? e = lastTopology calls e := by
  induction calls using List.reverseRecOn with
  | nil => rfl
  | append_singleton calls last ih =>
    rw [ofCalls_concat, lastTopology_concat, ← ih]
    cases last with
    | declare t count => rfl
    | attach e' topology =>
      rw [Call.apply, attach, SortedMap.get?_insert, Call.topology?]
      split <;> rfl

/-! ### Needed counts -/

/-- The edge types of the calls, with repetitions. -/
def attached (calls : List Call) : List EdgeType :=
  calls.filterMap fun
    | .declare .. => none
    | .attach e _ => some e

/-- What a topology demands of a node type: its rows where it leaves the type, and one more than
each destination where it ends there. -/
def demandsOf (e : EdgeType) (topology : Topology) (t : NodeType) : List Nat :=
  (if e.source = t then [topology.numNodes] else []) ++
    (if e.target = t then topology.arcs.map (·.target.toNat + 1) else [])

/-- What the topologies that are attached in the end demand of a node type. -/
def demands (calls : List Call) (t : NodeType) : List Nat :=
  (attached calls).flatMap fun e ↦ ((lastTopology calls e).map (demandsOf e · t)).getD []

/-- The needed count of a node type. -/
def needed (calls : List Call) (t : NodeType) : Nat := (demands calls t).foldr max 0

/-- An edge type that is attached leaves or ends in a node type. -/
def Mentions (calls : List Call) (t : NodeType) : Prop :=
  ∃ e topology, lastTopology calls e = some topology ∧ (e.source = t ∨ e.target = t)

/-- Every needed count is a number of a word. -/
def Representable (calls : List Call) : Prop := ∀ t, needed calls t < UInt64.size

/-- No declared count is smaller than the needed one. -/
def Sufficient (calls : List Call) : Prop :=
  ∀ t count, lastCount calls t = some count → needed calls t ≤ count.toNat

/-- What is attached in the end was attached by a call. -/
theorem mem_attached_of_lastTopology {calls : List Call} {e : EdgeType} {topology : Topology}
    (h : lastTopology calls e = some topology) : e ∈ attached calls := by
  obtain ⟨call, hmem, hcall⟩ := List.exists_of_findSome?_eq_some h
  rw [attached, List.mem_filterMap]
  refine ⟨call, List.mem_reverse.1 hmem, ?_⟩
  cases call with
  | declare t count => exact absurd hcall (by simp [Call.topology?])
  | attach e' topology' =>
    obtain ⟨rfl, -⟩ : e' = e ∧ topology' = topology := by simpa [Call.topology?] using hcall
    rfl

theorem mem_demands_iff {calls : List Call} {t : NodeType} {n : Nat} : n ∈ demands calls t ↔
    ∃ e topology, lastTopology calls e = some topology ∧ n ∈ demandsOf e topology t := by
  rw [demands, List.mem_flatMap]
  constructor
  · rintro ⟨e, -, hn⟩
    rcases hlast : lastTopology calls e with - | topology
    · rw [hlast] at hn
      exact absurd hn List.not_mem_nil
    · rw [hlast] at hn
      exact ⟨e, topology, hlast, hn⟩
  · rintro ⟨e, topology, hlast, hn⟩
    exact ⟨e, mem_attached_of_lastTopology hlast, by simpa [hlast] using hn⟩

/-- The needed count is at most `n` when no demand is above `n`. -/
theorem needed_le_iff {calls : List Call} {t : NodeType} {n : Nat} : needed calls t ≤ n ↔
    ∀ {e : EdgeType} {topology : Topology}, lastTopology calls e = some topology →
      (e.source = t → topology.numNodes ≤ n) ∧
        (e.target = t → ∀ arc ∈ topology.arcs, arc.target.toNat < n) := by
  have hfold (l : List Nat) : l.foldr max 0 ≤ n ↔ ∀ m ∈ l, m ≤ n := by
    induction l with
    | nil => simp
    | cons m l ih => rw [List.foldr_cons, Nat.max_le, ih, List.forall_mem_cons]
  have hdemands (e : EdgeType) (topology : Topology) : (∀ m ∈ demandsOf e topology t, m ≤ n) ↔
      (e.source = t → topology.numNodes ≤ n) ∧
        (e.target = t → ∀ arc ∈ topology.arcs, arc.target.toNat < n) := by
    rw [demandsOf, List.forall_mem_append]
    refine and_congr ?_ ?_
    · by_cases hs : e.source = t <;> simp [hs]
    · by_cases ht : e.target = t
      · simp only [ht, if_true, true_implies, List.forall_mem_map]
        exact Iff.rfl
      · simp [ht]
  rw [needed, hfold]
  constructor
  · intro h e topology hlast
    exact (hdemands e topology).1 fun m hm ↦ h m (mem_demands_iff.2 ⟨e, topology, hlast, hm⟩)
  · intro h m hm
    obtain ⟨e, topology, hlast, hmem⟩ := mem_demands_iff.1 hm
    exact (hdemands e topology).2 (h hlast) m hmem

/-- What is attached in the end stays below a needed count. -/
theorem numNodes_le_needed {calls : List Call} {e : EdgeType} {topology : Topology}
    (h : lastTopology calls e = some topology) : topology.numNodes ≤ needed calls e.source :=
  (needed_le_iff.1 (Nat.le_refl _) h).1 rfl

theorem target_lt_needed {calls : List Call} {e : EdgeType} {topology : Topology}
    (h : lastTopology calls e = some topology) {arc : Arc} (harc : arc ∈ topology.arcs) :
    arc.target.toNat < needed calls e.target :=
  (needed_le_iff.1 (Nat.le_refl _) h).2 rfl arc harc

/-- What a topology needs at its destination is at most `n` when every destination is below `n`. -/
theorem targetsSeen_le_iff {topology : Topology} {n : Nat} : targetsSeen topology ≤ n ↔
    ∀ arc ∈ topology.arcs, arc.target.toNat < n := by
  rcases hmax : topology.maxTarget? with - | id
  · simp [targetsSeen, hmax, Topology.maxTarget?_eq_none_iff.1 hmax]
  · obtain ⟨⟨last, hlast, rfl⟩, hle⟩ := Topology.maxTarget?_eq_some_iff.1 hmax
    rw [targetsSeen, hmax]
    exact ⟨fun hlt arc harc ↦ Nat.lt_of_le_of_lt (UInt64.le_iff_toNat_le.1 (hle arc harc)) hlt,
      fun h ↦ h last hlast⟩

/-- Needed counts are numbers of a word when those of the single topologies are. -/
theorem representable_iff {calls : List Call} : Representable calls ↔
    ∀ {e : EdgeType} {topology : Topology}, lastTopology calls e = some topology →
      topology.numNodes < UInt64.size ∧ targetsSeen topology < UInt64.size := by
  constructor
  · intro h e topology hlast
    refine ⟨Nat.lt_of_le_of_lt (numNodes_le_needed hlast) (h e.source), ?_⟩
    exact Nat.lt_of_le_of_lt (targetsSeen_le_iff.2 fun _ ↦ target_lt_needed hlast) (h e.target)
  · intro h t
    have hle : needed calls t ≤ UInt64.size - 1 := needed_le_iff.2 fun hlast ↦
      ⟨fun _ ↦ Nat.le_sub_one_of_lt (h hlast).1,
        fun _ ↦ targetsSeen_le_iff.1 (Nat.le_sub_one_of_lt (h hlast).2)⟩
    exact Nat.lt_of_le_of_lt hle (by decide)

/-! ### Counts of topologies -/

/-- Counts are the least that cover some topologies. -/
structure Covers (counts : SortedMap NodeType UInt64) (entries : List (EdgeType × Topology)) :
    Prop where
  /-- Words hold what each topology needs. -/
  fits : ∀ a ∈ entries, a.2.numNodes < UInt64.size ∧ targetsSeen a.2 < UInt64.size
  le_iff : ∀ t n, (counts.getD t 0).toNat ≤ n ↔ ∀ a ∈ entries,
    (a.1.source = t → a.2.numNodes ≤ n) ∧ (a.1.target = t → targetsSeen a.2 ≤ n)
  /-- A type has a count where an edge type leaves it or ends in it. -/
  listed : ∀ t, (∃ count, counts.get? t = some count) ↔
    ∃ a ∈ entries, a.1.source = t ∨ a.1.target = t

theorem covers_empty : Covers .empty [] where
  fits _ ha := absurd ha List.not_mem_nil
  le_iff _ n := iff_of_true (Nat.zero_le n) fun _ ha ↦ absurd ha List.not_mem_nil
  listed _ := by simp [SortedMap.get?_empty]

theorem see_eq_ok_iff {counts counts' : SortedMap NodeType UInt64} {a : EdgeType × Topology} :
    see counts a = .ok counts' ↔ ∃ rows targets : UInt64, rows.toNat = a.2.numNodes ∧
      targets.toNat = targetsSeen a.2 ∧
      (counts.alter a.1.source 0 (max · rows)).alter a.1.target 0 (max · targets) = counts' := by
  simp only [see, bind_eq_ok_iff, checked_eq_ok_iff, Except.ok.injEq, exists_and_left]

/-- Taking one more topology in keeps the counts the least. -/
theorem Covers.see {counts counts' : SortedMap NodeType UInt64}
    {entries : List (EdgeType × Topology)} (h : Covers counts entries) {a : EdgeType × Topology}
    (hsee : see counts a = .ok counts') : Covers counts' (entries ++ [a]) := by
  obtain ⟨rows, targets, hrows, htargets, rfl⟩ := see_eq_ok_iff.1 hsee
  refine ⟨List.forall_mem_append.2 ⟨h.fits, List.forall_mem_singleton.2 ?_⟩, fun t n ↦ ?_,
    fun t ↦ ?_⟩
  · rw [← hrows, ← htargets]
    exact ⟨rows.toNat_lt, targets.toNat_lt⟩
  · rw [List.forall_mem_append, List.forall_mem_singleton, ← h.le_iff, ← hrows, ← htargets,
      SortedMap.getD_alter, SortedMap.getD_alter, SortedMap.getD_alter]
    by_cases hs : a.1.source = t <;> by_cases ht : a.1.target = t <;>
      simp [hs, ht, toNat_max, Nat.max_le]
  · simp only [List.mem_append, List.mem_singleton, or_and_right, exists_or, exists_eq_left,
      ← h.listed, SortedMap.alter, SortedMap.get?_insert]
    by_cases hs : a.1.source = t <;> by_cases ht : a.1.target = t <;> simp [hs, ht]

theorem covers_of_foldlM {entries before : List (EdgeType × Topology)}
    {counts counts' : SortedMap NodeType UInt64} (h : Covers counts before)
    (hfold : entries.foldlM see counts = .ok counts') : Covers counts' (before ++ entries) := by
  induction entries generalizing counts before with
  | nil =>
    cases hfold
    rwa [List.append_nil]
  | cons a entries ih =>
    obtain ⟨next, hnext, hrest⟩ := bind_eq_ok_iff.1 hfold
    rw [List.append_cons]
    exact ih (h.see hnext) hrest

/-- **The counts of a blueprint** are the least that cover its topologies. -/
theorem covers_seen {b : Blueprint} {counts : SortedMap NodeType UInt64}
    (h : b.seen = .ok counts) : Covers counts b.topologies.entries :=
  covers_of_foldlM covers_empty h

theorem see_eq_error_iff {counts : SortedMap NodeType UInt64} {a : EdgeType × Topology}
    {e : Error} :
    see counts a = .error e ↔
      (UInt64.size ≤ a.2.numNodes ∨ UInt64.size ≤ targetsSeen a.2) ∧ e = .overflow := by
  simp only [see, bind_eq_error_iff, checked_eq_error_iff, checked_eq_ok_iff, reduceCtorEq,
    and_false, exists_false, or_false]
  constructor
  · rintro (⟨hrows, he⟩ | ⟨-, -, htargets, he⟩)
    · exact ⟨.inl hrows, he⟩
    · exact ⟨.inr htargets, he⟩
  · rintro ⟨hrows | htargets, he⟩
    · exact .inl ⟨hrows, he⟩
    · rcases Nat.lt_or_ge a.2.numNodes UInt64.size with hrows | hrows
      · exact .inr ⟨a.2.numNodes.toUInt64, toNat_toUInt64 hrows, htargets, he⟩
      · exact .inl ⟨hrows, he⟩

/-- There are no counts where no word holds what one of the topologies needs, and only there. -/
theorem foldlM_see_eq_error_iff {entries : List (EdgeType × Topology)}
    {counts : SortedMap NodeType UInt64} {e : Error} : entries.foldlM see counts = .error e ↔
      (∃ a ∈ entries, UInt64.size ≤ a.2.numNodes ∨ UInt64.size ≤ targetsSeen a.2) ∧
        e = .overflow := by
  induction entries generalizing counts with
  | nil => exact iff_of_false nofun fun h ↦ h.1.elim fun _ ha ↦ absurd ha.1 List.not_mem_nil
  | cons a entries ih =>
    simp only [List.foldlM_cons, bind_eq_error_iff, ih, exists_and_right,
      List.exists_mem_cons_iff]
    by_cases ha : UInt64.size ≤ a.2.numNodes ∨ UInt64.size ≤ targetsSeen a.2
    · rw [see_eq_error_iff]
      exact ⟨fun h ↦ ⟨.inl ha, h.elim (·.2) (·.2.2)⟩, fun h ↦ .inl ⟨ha, h.2⟩⟩
    · -- the counts go on with this topology taken in
      have hnext : ∃ next, see counts a = .ok next := by
        rcases hsee : see counts a with e' | next
        · exact absurd (see_eq_error_iff.1 hsee).1 ha
        · exact ⟨next, rfl⟩
      rw [or_iff_right fun h ↦ ha (see_eq_error_iff.1 h).1, or_iff_right ha, and_iff_right hnext]

section Seen

variable {calls : List Call}

/-- **Counts can be taken exactly if words hold the needed ones.** -/
theorem seen_cases (calls : List Call) :
    (Representable calls ∧ ∃ counts, (ofCalls calls).seen = .ok counts) ∨
      (¬Representable calls ∧ (ofCalls calls).seen = .error .overflow) := by
  have hrep : Representable calls ↔ ∀ a ∈ (ofCalls calls).topologies.entries,
      a.2.numNodes < UInt64.size ∧ targetsSeen a.2 < UInt64.size := by
    simp only [representable_iff, ← get?_topologies_ofCalls, SortedMap.get?_eq_some_iff,
      Prod.forall]
  rcases hseen : (ofCalls calls).seen with e | counts
  · obtain ⟨⟨a, ha, hlarge⟩, rfl⟩ := foldlM_see_eq_error_iff.1 hseen
    refine .inr ⟨fun h ↦ ?_, rfl⟩
    obtain ⟨hrows, htargets⟩ := hrep.1 h a ha
    omega
  · exact .inl ⟨hrep.2 (covers_seen hseen).fits, counts, rfl⟩

variable {counts : SortedMap NodeType UInt64} (hseen : (ofCalls calls).seen = .ok counts)
include hseen

/-- The counts that are taken are the needed ones. -/
theorem toNat_getD_seen (t : NodeType) : (counts.getD t 0).toNat = needed calls t := by
  have hle (n : Nat) : (counts.getD t 0).toNat ≤ n ↔ needed calls t ≤ n := by
    rw [(covers_seen hseen).le_iff, needed_le_iff]
    simp only [← get?_topologies_ofCalls, SortedMap.get?_eq_some_iff, Prod.forall,
      targetsSeen_le_iff]
  exact Nat.le_antisymm ((hle _).2 (Nat.le_refl _)) ((hle _).1 (Nat.le_refl _))

theorem mentions_iff {t : NodeType} : Mentions calls t ↔ ∃ count, counts.get? t = some count := by
  rw [(covers_seen hseen).listed, Mentions]
  simp only [← get?_topologies_ofCalls, SortedMap.get?_eq_some_iff, Prod.exists]

end Seen

/-! ### Settling the counts -/

/-- What a graph keeps of the blueprint it is built from, and of the counts that its topologies
need. -/
structure BuiltFrom (b : Blueprint) (seen : SortedMap NodeType UInt64) (g : Graph) : Prop where
  seen_eq : b.seen = .ok seen
  /-- No declared count is smaller than what is needed. -/
  sufficient : ∀ {t : NodeType} {count : UInt64},
    b.declared.get? t = some count → seen.getD t 0 ≤ count
  /-- A declared count goes before the one that is needed. -/
  counts : ∀ t, g.nodeCounts.get? t = (b.declared.get? t).or (seen.get? t)
  /-- The topologies are padded. -/
  topologies : ∀ e, g.topologies.get? e =
    (b.topologies.get? e).map (·.padTo (g.nodeCounts.getD e.source 0).toNat)

/-- Settling goes through the declared counts one by one: either all of them suffice and replace
those that are needed, or one does not. -/
theorem settleCounts_cases {declared : List (NodeType × UInt64)} (h : (declared.map (·.1)).Nodup)
    (seen : SortedMap NodeType UInt64) :
    (∃ counts, settleCounts seen declared = .ok counts ∧
      (∀ a ∈ declared, seen.getD a.1 0 ≤ a.2) ∧
      ∀ t, counts.get? t = (SortedMap.lookup t declared).or (seen.get? t)) ∨
    ∃ a ∈ declared, a.2 < seen.getD a.1 0 ∧ settleCounts seen declared =
      .error (.topology (.tooFewNodes a.1 a.2 (seen.getD a.1 0))) := by
  induction declared generalizing seen with
  | nil => exact .inl ⟨seen, rfl, fun _ ha ↦ absurd ha List.not_mem_nil, fun _ ↦ rfl⟩
  | cons head rest ih =>
    obtain ⟨t, count⟩ := head
    obtain ⟨hnew, hrest⟩ := List.nodup_cons.1 h
    have hne (a : NodeType × UInt64) (ha : a ∈ rest) : t ≠ a.1 := fun heq ↦
      hnew (List.mem_map.2 ⟨a, ha, heq.symm⟩)
    by_cases hlt : count < seen.getD t 0
    · exact .inr ⟨(t, count), List.mem_cons_self, hlt, by rw [settleCounts, if_pos hlt]⟩
    -- The count that is written now is under another type than all that are read later.
    have hother (a : NodeType × UInt64) (ha : a ∈ rest) :
        (seen.insert t count).getD a.1 0 = seen.getD a.1 0 := by
      rw [SortedMap.getD_insert, if_neg (hne a ha)]
    rcases ih hrest (seen.insert t count) with ⟨counts, hok, hle, hget⟩ | ⟨a, ha, hfew, herror⟩
    · refine .inl ⟨counts, by rw [settleCounts, if_neg hlt, hok], ?_, fun t' ↦ ?_⟩
      · rw [List.forall_mem_cons]
        exact ⟨UInt64.not_lt.1 hlt, fun a ha ↦ hother a ha ▸ hle a ha⟩
      · rw [hget, SortedMap.get?_insert]
        by_cases ht : t = t'
        · subst ht
          have habsent : SortedMap.lookup t rest = none := by
            rw [SortedMap.lookup, Option.map_eq_none_iff, List.find?_eq_none]
            exact fun a ha heq ↦ hne a ha (of_decide_eq_true heq).symm
          rw [habsent, if_pos rfl]
          simp [SortedMap.lookup]
        · simp [SortedMap.lookup, ht]
    · rw [hother a ha] at hfew herror
      exact .inr ⟨a, List.mem_cons_of_mem _ ha, hfew, by rw [settleCounts, if_neg hlt, herror]⟩

/-- Once the needed counts are taken, a graph is built or a declared count is smaller. -/
theorem build_cases {b : Blueprint} {seen : SortedMap NodeType UInt64} (hseen : b.seen = .ok seen) :
    (∃ g, b.build = .ok g ∧ b.BuiltFrom seen g) ∨
      ∃ t count, b.declared.get? t = some count ∧ count < seen.getD t 0 ∧
        b.build = .error (.topology (.tooFewNodes t count (seen.getD t 0))) := by
  rcases settleCounts_cases b.declared.keys_nodup seen with
    ⟨counts, hok, hle, hget⟩ | ⟨⟨t, count⟩, hmem, hlt, herror⟩
  · refine .inl ⟨_, bind_eq_ok_iff.2 ⟨seen, hseen, bind_eq_ok_iff.2 ⟨counts, hok, rfl⟩⟩, hseen, ?_,
      hget, fun e ↦ SortedMap.get?_mapEntries ..⟩
    exact fun hdeclared ↦ hle _ (SortedMap.get?_eq_some_iff.1 hdeclared)
  · exact .inr ⟨t, count, SortedMap.get?_eq_some_iff.2 hmem, hlt, bind_eq_error_iff.2 <|
      .inr ⟨seen, hseen, bind_eq_error_iff.2 (.inl herror)⟩⟩

theorem build_of_seen_eq_error {b : Blueprint} {e : Error} (h : b.seen = .error e) :
    b.build = .error e :=
  bind_eq_error_iff.2 (.inl h)

theorem exists_builtFrom_of_build {b : Blueprint} {g : Graph} (h : b.build = .ok g) :
    ∃ seen, b.BuiltFrom seen g := by
  rcases hseen : b.seen with e | seen
  · exact nomatch (build_of_seen_eq_error hseen).symm.trans h
  · rcases build_cases hseen with ⟨g', hok, hbuilt⟩ | ⟨t, count, -, -, herror⟩
    · exact ⟨seen, Except.ok.inj (hok.symm.trans h) ▸ hbuilt⟩
    · exact nomatch herror.symm.trans h

/-- A graph has the topologies that were attached, padded. -/
theorem get?_topologies_of_build {b : Blueprint} {g : Graph} (h : b.build = .ok g) (e : EdgeType) :
    g.topologies.get? e =
      (b.topologies.get? e).map (·.padTo (g.nodeCounts.getD e.source 0).toNat) := by
  obtain ⟨seen, hbuilt⟩ := exists_builtFrom_of_build h
  exact hbuilt.topologies e

/-! ### What is established -/

/-- What a graph that is built from calls promises. -/
structure Established (calls : List Call) (g : Graph) : Prop where
  /-- A declared type has the declared count. -/
  declared : ∀ {t : NodeType} {count : UInt64},
    lastCount calls t = some count → g.numNodes t = .ok count
  /-- A type that is not declared, and that an edge type leaves or ends in, has the needed count. -/
  inferred : ∀ {t : NodeType}, lastCount calls t = none → Mentions calls t →
    ∃ count, g.numNodes t = .ok count ∧ count.toNat = needed calls t
  /-- No other type is registered. -/
  unknown : ∀ {t : NodeType}, lastCount calls t = none → ¬Mentions calls t →
    g.numNodes t = .error (.unknownNodeType t)
  /-- A topology has the rows it was attached with and empty ones after them, one row for each node
  of its source type. -/
  padded : ∀ {e : EdgeType} {given : Topology}, lastTopology calls e = some given →
    ∃ count, g.numNodes e.source = .ok count ∧ ∃ topology, g.topology e = .ok topology ∧
      topology.numNodes = count.toNat ∧ topology.placement = given.placement ∧
      topology.rows = given.rows ++ Array.replicate (count.toNat - given.numNodes) #[]
  /-- No other edge type is registered. -/
  absent : ∀ {e : EdgeType}, lastTopology calls e = none →
    g.topology e = .error (.unknownEdgeType e)
  /-- Every destination is in range. -/
  targets : ∀ {e : EdgeType} {topology : Topology}, g.topology e = .ok topology →
    ∃ count, g.numNodes e.target = .ok count ∧ ∀ arc ∈ topology.arcs, arc.target < count
  /-- Nodes in range have a row, and no others have. -/
  neighbors : ∀ {e : EdgeType} {topology : Topology} {count : UInt64},
    g.topology e = .ok topology → g.numNodes e.source = .ok count → ∀ v : Id,
      (v < count → ∃ row, g.neighbors e v = .ok row) ∧
        (count ≤ v → g.neighbors e v = .error (.unknownNode (.edges e) v count.toNat))

section Established

variable {calls : List Call} {seen : SortedMap NodeType UInt64} {g : Graph} {t : NodeType}
  {e : EdgeType} {topology : Topology}

namespace BuiltFrom

variable (h : (ofCalls calls).BuiltFrom seen g)
include h

theorem get?_topologies (e : EdgeType) : g.topologies.get? e =
    (lastTopology calls e).map (·.padTo (g.nodeCounts.getD e.source 0).toNat) := by
  rw [h.topologies, get?_topologies_ofCalls]

theorem get?_counts (t : NodeType) :
    g.nodeCounts.get? t = (lastCount calls t).or (seen.get? t) := by
  rw [h.counts, get?_declared_ofCalls]

/-- A type that edge types mention has a count, and it is no smaller than the needed one. -/
theorem exists_numNodes (ht : Mentions calls t) :
    ∃ count, g.numNodes t = .ok count ∧ needed calls t ≤ count.toNat := by
  rw [← toNat_getD_seen h.seen_eq]
  rcases hlast : lastCount calls t with - | count
  · obtain ⟨count, hseen⟩ := (mentions_iff h.seen_eq).1 ht
    refine ⟨count, numNodes_eq_ok_iff.2 (by rw [h.get?_counts, hlast, hseen, Option.none_or]), ?_⟩
    exact Nat.le_of_eq (congrArg UInt64.toNat (SortedMap.getD_of_get? hseen 0))
  · refine ⟨count, numNodes_eq_ok_iff.2 (by rw [h.get?_counts, hlast, Option.some_or]), ?_⟩
    exact UInt64.le_iff_toNat_le.1 (h.sufficient ((get?_declared_ofCalls ..).trans hlast))

/-- The topologies of a graph are the ones attached, padded. -/
theorem exists_given (htop : g.topology e = .ok topology) :
    ∃ given, lastTopology calls e = some given ∧
      given.padTo (g.nodeCounts.getD e.source 0).toNat = topology := by
  rw [topology_eq_ok_iff, ← SortedMap.get?_eq_some_iff, h.get?_topologies,
    Option.map_eq_some_iff] at htop
  exact htop

/-- After padding there is one row for each node of the source type. -/
theorem numNodes_topology {given : Topology} (hlast : lastTopology calls e = some given) :
    ∃ count, g.numNodes e.source = .ok count ∧
      g.topology e = .ok (given.padTo count.toNat) ∧
      (given.padTo count.toNat).numNodes = count.toNat := by
  obtain ⟨count, hcount, hle⟩ := h.exists_numNodes ⟨e, given, hlast, .inl rfl⟩
  refine ⟨count, hcount, ?_, ?_⟩
  · rw [topology_eq_ok_iff, ← SortedMap.get?_eq_some_iff, h.get?_topologies, hlast,
      SortedMap.getD_of_get? (numNodes_eq_ok_iff.1 hcount), Option.map_some]
  · rw [Topology.numNodes_padTo]
    exact Nat.max_eq_right (Nat.le_trans (numNodes_le_needed hlast) hle)

/-- **A graph that is built keeps every promise.** -/
theorem established : Established calls g where
  declared hlast := numNodes_eq_ok_iff.2 (by rw [h.get?_counts, hlast, Option.some_or])
  inferred {t} hlast ht := by
    obtain ⟨count, hseen⟩ := (mentions_iff h.seen_eq).1 ht
    refine ⟨count, numNodes_eq_ok_iff.2 (by rw [h.get?_counts, hlast, hseen, Option.none_or]), ?_⟩
    rw [← toNat_getD_seen h.seen_eq, SortedMap.getD_of_get? hseen]
  unknown {t} hlast ht := by
    have hnone : seen.get? t = none := Option.eq_none_iff_forall_ne_some.2 fun count hseen ↦
      ht ((mentions_iff h.seen_eq).2 ⟨count, hseen⟩)
    rw [numNodes, h.get?_counts, hlast, hnone]
    rfl
  padded hlast := by
    obtain ⟨count, hcount, htop, hnum⟩ := h.numNodes_topology hlast
    exact ⟨count, hcount, _, htop, hnum, rfl, rfl⟩
  absent hlast := by rw [Graph.topology, h.get?_topologies, hlast, Option.map_none]
  targets htop := by
    obtain ⟨given, hlast, rfl⟩ := h.exists_given htop
    obtain ⟨count, hcount, hle⟩ := h.exists_numNodes ⟨_, given, hlast, .inr rfl⟩
    refine ⟨count, hcount, fun arc harc ↦ UInt64.lt_iff_toNat_lt.2 ?_⟩
    rw [Topology.arcs_padTo] at harc
    exact Nat.lt_of_lt_of_le (target_lt_needed hlast harc) hle
  neighbors {e topology count} htop hcount v := by
    obtain ⟨given, hlast, -⟩ := h.exists_given htop
    obtain ⟨count', hcount', htop', hnum⟩ := h.numNodes_topology hlast
    obtain rfl : count' = count := Except.ok.inj (hcount'.symm.trans hcount)
    obtain rfl : given.padTo count'.toNat = topology := Except.ok.inj (htop'.symm.trans htop)
    have hsize : (given.padTo count'.toNat).rows.size = count'.toNat := hnum
    refine ⟨fun hlt ↦ ?_, fun hle ↦ ?_⟩
    · have hbound : v.toNat < (given.padTo count'.toNat).rows.size := by
        rw [hsize]
        exact UInt64.lt_iff_toNat_lt.1 hlt
      exact ⟨_, neighbors_eq_ok_iff.2 ⟨_, htop, Array.getElem?_eq_getElem hbound⟩⟩
    · have hnone : (given.padTo count'.toNat).neighbors? v = none := by
        refine Array.getElem?_eq_none ?_
        rw [hsize]
        exact UInt64.le_iff_toNat_le.1 hle
      rw [neighbors, htop]
      simp only [bind, Except.bind, hnone, hnum]

end BuiltFrom

/-- A graph that keeps every promise is well-formed. -/
theorem Established.wellFormed (h : Established calls g) : g.WellFormed := by
  intro e topology htop
  have hgiven : ∃ given, lastTopology calls e = some given := by
    rcases hlast : lastTopology calls e with - | given
    · exact nomatch (h.absent hlast).symm.trans htop
    · exact ⟨given, rfl⟩
  obtain ⟨given, hlast⟩ := hgiven
  obtain ⟨count, hcount, topology', htop', hnum, -⟩ := h.padded hlast
  obtain rfl : topology' = topology := Except.ok.inj (htop'.symm.trans htop)
  obtain ⟨count', hcount', hlt⟩ := h.targets htop
  exact ⟨⟨count, hcount, hnum⟩, fun arc harc ↦ ⟨count', hcount', hlt arc harc⟩⟩

end Established

/-! ### How building ends -/

section Ends

variable {calls : List Call}

theorem established_of_build {g : Graph} (h : (ofCalls calls).build = .ok g) :
    Established calls g := by
  obtain ⟨seen, hbuilt⟩ := exists_builtFrom_of_build h
  exact hbuilt.established

theorem build_eq_overflow (h : ¬Representable calls) :
    (ofCalls calls).build = .error .overflow := by
  rcases seen_cases calls with ⟨hrep, -⟩ | ⟨-, hseen⟩
  · exact absurd hrep h
  · exact build_of_seen_eq_error hseen

/-- Declared counts suffice exactly if none is smaller than the count that is taken. -/
theorem sufficient_iff {seen : SortedMap NodeType UInt64}
    (hseen : (ofCalls calls).seen = .ok seen) :
    Sufficient calls ↔ ∀ t count, (ofCalls calls).declared.get? t = some count →
      seen.getD t 0 ≤ count := by
  simp only [Sufficient, UInt64.le_iff_toNat_le, toNat_getD_seen hseen, get?_declared_ofCalls]

theorem exists_seen (h : Representable calls) : ∃ seen, (ofCalls calls).seen = .ok seen := by
  rcases seen_cases calls with ⟨-, hseen⟩ | ⟨hrep, -⟩
  · exact hseen
  · exact absurd h hrep

/-- A graph is built where words hold the needed counts and no declared count is smaller. -/
theorem exists_build (hrep : Representable calls) (h : Sufficient calls) :
    ∃ g, (ofCalls calls).build = .ok g := by
  obtain ⟨seen, hseen⟩ := exists_seen hrep
  rcases build_cases hseen with ⟨g, hok, -⟩ | ⟨t, count, hdeclared, hlt, -⟩
  · exact ⟨g, hok⟩
  · exact absurd ((sufficient_iff hseen).1 h t count hdeclared) (UInt64.not_le.2 hlt)

/-- Where a declared count is smaller, one such count is named. -/
theorem exists_tooFewNodes (hrep : Representable calls) (h : ¬Sufficient calls) :
    ∃ t declared seen, lastCount calls t = some declared ∧ seen.toNat = needed calls t ∧
      declared < seen ∧
      (ofCalls calls).build = .error (.topology (.tooFewNodes t declared seen)) := by
  obtain ⟨seen, hseen⟩ := exists_seen hrep
  rcases build_cases hseen with ⟨g, -, hbuilt⟩ | ⟨t, count, hdeclared, hlt, herror⟩
  · exact absurd ((sufficient_iff hseen).2 fun _ _ ↦ hbuilt.sufficient) h
  · exact ⟨t, count, _, (get?_declared_ofCalls ..).symm.trans hdeclared, toNat_getD_seen hseen t,
      hlt, herror⟩

end Ends

/-- How building a graph from calls ends. -/
structure Settled (calls : List Call) (result : Except Error Graph) : Prop where
  /-- A graph is built when words hold the needed counts and no declared count is smaller, and only
  then. -/
  built : (∃ g, result = .ok g) ↔ Representable calls ∧ Sufficient calls
  /-- A graph that is built keeps every promise. -/
  established : ∀ g, result = .ok g → Established calls g
  /-- If no word holds a needed count, that is the error. -/
  overflow : ¬Representable calls → result = .error .overflow
  /-- If words hold them all and a declared count is smaller, the error says which and by how
  much. -/
  refused : Representable calls → ¬Sufficient calls →
    ∃ t declared seen, lastCount calls t = some declared ∧ seen.toNat = needed calls t ∧
      declared < seen ∧ result = .error (.topology (.tooFewNodes t declared seen))

/-- **Building a graph establishes every promise, or refuses**, for every sequence of calls. -/
theorem settled_build (calls : List Call) : Settled calls (ofCalls calls).build where
  built := by
    refine ⟨fun ⟨g, hok⟩ ↦ ?_, fun ⟨hrep, h⟩ ↦ exists_build hrep h⟩
    have hrep : Representable calls :=
      not_imp_comm.1 build_eq_overflow fun herror ↦ nomatch herror.symm.trans hok
    refine ⟨hrep, not_imp_comm.1 (exists_tooFewNodes hrep) ?_⟩
    rintro ⟨_, _, _, -, -, -, herror⟩
    exact nomatch herror.symm.trans hok
  established _ := established_of_build
  overflow := build_eq_overflow
  refused := exists_tooFewNodes

/-- An edge to the last ID there is needs one node more than a word counts. -/
example : (ofCalls
    [.attach ⟨⟨"a"⟩, "r", ⟨"b"⟩⟩ ⟨#[#[⟨0xFFFFFFFFFFFFFFFF, 0⟩]], .zeroCopy⟩]).build =
    .error .overflow := rfl

end Graph.Blueprint

end HopSampler
