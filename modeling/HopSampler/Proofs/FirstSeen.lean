import HopSampler.Proofs.Records
import HopSampler.Proofs.Requests

/-!
# Nodes in the order they are first seen

A request sees the IDs of a type one after another: its seeds in the order it lists them, then hop
by hop, and at each hop edge type by edge type, the targets of the edges that are recorded. The
nodes of an output are this sequence with all repetitions left out (`SamplingOutput.FirstSeen`).

Meeting IDs leaves out repetitions (`Roster.ids_claimAll`), so what remains is the order. A hop does
not run through all edge types but through its tasks, front by front. Since edge types are ordered
by their source first, that is the order of the edge types again (`tasksAt_types_sublist`), and edge
types without a task record nothing.
-/

namespace HopSampler

/-! ### First occurrences -/

/-- One more element is a first occurrence unless it occurred. -/
theorem eraseDups_concat {α : Type} [DecidableEq α] (xs : List α) (a : α) :
    (xs ++ [a]).eraseDups = if a ∈ xs then xs.eraseDups else xs.eraseDups ++ [a] := by
  rw [List.eraseDups_append]
  split
  · next h => simp [List.removeAll, h]
  · next h => simp [List.removeAll, h, List.eraseDups_cons]

/-- **A roster lists first occurrences.** -/
theorem Roster.ids_claimAll (ids : List Id) :
    (Roster.empty.claimAll ids).ids.toList = ids.eraseDups := by
  induction ids using List.reverseRecOn with
  | nil => rfl
  | append_singleton ids id ih =>
    have hmem : id ∈ (Roster.empty.claimAll ids).ids.toList ↔ id ∈ ids := by
      rw [ih, List.mem_eraseDups]
    rw [claimAll_append, claimAll_cons, claimAll_nil, claim_ids, eraseDups_concat, ih]
    exact if_congr (by rw [← ih, hmem]) rfl rfl

/-- Elements whose keys come in the order of a list are its groups, key by key. -/
theorem flatMap_filter_of_sublist {α κ : Type} [DecidableEq κ] {key : α → κ} {keys : List κ}
    (hkeys : keys.Nodup) {xs : List α} (h : (xs.map key).Sublist keys) :
    keys.flatMap (fun k ↦ xs.filter (key · = k)) = xs := by
  induction keys generalizing xs with
  | nil =>
    rw [List.map_eq_nil_iff.1 (List.sublist_nil.1 h)]
    rfl
  | cons k keys ih =>
    obtain ⟨hfresh, hkeys⟩ := List.nodup_cons.1 hkeys
    have hlater : ∀ {ys : List α}, (ys.map key).Sublist keys → ys.filter (key · = k) = [] := by
      intro ys hys
      rw [List.filter_eq_nil_iff]
      intro y hy hkey
      exact hfresh (of_decide_eq_true hkey ▸ hys.subset (List.mem_map_of_mem hy))
    rw [List.flatMap_cons]
    rcases xs with - | ⟨x, xs⟩
    · simp
    · rcases List.cons_sublist_cons'.1 h with hskip | ⟨hkey, hrest⟩
      · have hkeysOnly : ((x :: xs).map key).Sublist keys := hskip
        rw [hlater hkeysOnly, List.nil_append, ih hkeys hkeysOnly]
      · -- the first element is all that has the first key
        have htail : keys.flatMap (fun k' ↦ (x :: xs).filter (key · = k')) =
            keys.flatMap fun k' ↦ xs.filter (key · = k') := by
          refine List.flatMap_congr fun k' hk' ↦ List.filter_cons_of_neg ?_
          have hne : key x ≠ k' := fun heq ↦ hfresh (by rwa [← hkey, heq])
          simpa using hne
        rw [List.filter_cons_of_pos (by simpa using hkey), hlater hrest, htail, ih hkeys hrest,
          List.singleton_append]

/-! ### The order of outputs -/

/-- The nodes of an output are first occurrences, of the seeds and of what its edges lead to. -/
structure SamplingOutput.FirstSeen (o : SamplingOutput) (g : Graph) (seedIds : NodeType → List Id)
    (hops : Nat) : Prop where
  nodup : ∀ t, (o.nodesOf t).Nodup
  /-- Both ends of every edge are nodes of the output. -/
  recorded : ∀ e hop, (o.slice .traversal e hop).map (o.record? e) = (o.recordsAt e hop).map some
  nodes : ∀ t, o.nodesOf t = (seedIds t ++ (List.range hops).flatMap fun hop ↦
    (g.edgeTypes.filter (·.target = t)).flatMap fun e ↦
      (o.recordsAt e hop).map (·.target)).eraseDups
  /-- Distinct seeds come first. -/
  seeds : ∀ t, (seedIds t).eraseDups <+: o.nodesOf t
  /-- And they are the first that are counted. -/
  count : ∀ t, (o.nodeCountsAt t).headD 0 = (seedIds t).eraseDups.length

namespace Expansion

variable {rules : Rules} {seeds : Rosters}

/-- What is met is met seed by seed, then task by task. -/
theorem roster_stage (s : Nat) (t : NodeType) :
    (stage rules seeds s).rosters.roster t = (seeds.roster t).claimAll
      ((List.range s).flatMap fun hop ↦ metBy rules hop t (tasksAt rules seeds hop)) := by
  induction s with
  | zero => rfl
  | succ s ih =>
    rw [roster_stage_succ, ih, ← Roster.claimAll_append, List.range_succ, List.flatMap_append,
      List.flatMap_singleton]

/-- **The tasks of a hop come in the order of the edge types of the graph.** -/
theorem tasksAt_types_sublist (rules : Rules) (seeds : Rosters) (s : Nat) :
    ((tasksAt rules seeds s).map (·.type)).Sublist rules.graph.edgeTypes := by
  have : Std.Antisymm (Tag.Before (κ := EdgeType)) :=
    ⟨fun a _ hab hba ↦ absurd (hab.trans hba) (Tag.Before.irrefl a)⟩
  have hascending := tasksAt_types_ascending rules seeds s
  refine List.sublist_of_subperm_of_pairwise ?_ hascending rules.graph.topologies.keys_ascending
  refine List.subperm_of_subset (hascending.imp Tag.Before.ne) ?_
  intro e he
  obtain ⟨task, htask, rfl⟩ := List.mem_map.1 he
  obtain ⟨-, -, htop, -⟩ := (mem_tasksAt_iff rules seeds).1 htask
  exact List.mem_map.2 ⟨_, Graph.topology_eq_ok_iff.1 htop, rfl⟩

section Traversal

variable {last hops : Nat} {withEdge : Bool} {metadata : Metadata} {o : SamplingOutput}
  (hlast : last ≤ hops)
  (ho : o = (stage rules seeds last).present .traversal withEdge hops metadata)
include hlast ho

/-- The targets that a hop records, edge type by edge type, are those its tasks meet. -/
theorem flatMap_recordsAt {hop : Nat} (hhop : hop < last) (t : NodeType) :
    ((rules.graph.edgeTypes.filter (·.target = t)).flatMap fun e ↦
      (o.recordsAt e hop).map (·.target)) = metBy rules hop t (tasksAt rules seeds hop) := by
  set keys := rules.graph.edgeTypes.filter (·.target = t) with hkeys
  set ts := (tasksAt rules seeds hop).filter (·.type.target = t) with hts
  have hsame : ∀ e ∈ keys, (tasksAt rules seeds hop).filter (·.type = e) =
      ts.filter (·.type = e) := by
    intro e he
    have htarget : e.target = t := of_decide_eq_true (List.mem_filter.1 he).2
    rw [hts, List.filter_filter]
    refine List.filter_congr fun task _ ↦ ?_
    by_cases htype : task.type = e <;> simp [htype, htarget]
  have hsub : (ts.map (·.type)).Sublist keys := by
    have hfilter := (tasksAt_types_sublist rules seeds hop).filter (p := (·.target = t))
    rw [List.filter_map] at hfilter
    exact hfilter
  have hnodup : keys.Nodup := rules.graph.topologies.keys_nodup.filter _
  calc (keys.flatMap fun e ↦ (o.recordsAt e hop).map (·.target))
      = keys.flatMap fun e ↦ (ts.filter (·.type = e)).flatMap
          fun task ↦ targetsOf (task.picks rules hop) := by
        refine List.flatMap_congr fun e he ↦ ?_
        rw [recordsAt_stage hlast ho e hhop, hsame e he, List.map_flatMap]
        exact List.flatMap_congr fun task _ ↦ Task.map_target_records rules hop withEdge task
    _ = (keys.flatMap fun e ↦ ts.filter (·.type = e)).flatMap
          fun task ↦ targetsOf (task.picks rules hop) := (List.flatMap_assoc).symm
    _ = metBy rules hop t (tasksAt rules seeds hop) := by
        rw [flatMap_filter_of_sublist hnodup hsub, metBy]

/-- **A stage lists nodes as they are first seen.** -/
theorem firstSeen_stage {seedIds : NodeType → List Id}
    (hseeds : ∀ t, seeds.roster t = Roster.empty.claimAll (seedIds t)) :
    o.FirstSeen rules.graph seedIds hops := by
  have hnodes : ∀ t, o.nodesOf t = metAt rules seeds last t := fun t ↦ by rw [ho, nodesOf_stage]
  have hfirst : ∀ t, metAt rules seeds 0 t = (seedIds t).eraseDups := by
    intro t
    rw [← Roster.ids_claimAll, ← hseeds]
    rfl
  have hrange : ∀ t, ((List.range hops).flatMap fun hop ↦
      (rules.graph.edgeTypes.filter (·.target = t)).flatMap fun e ↦
        (o.recordsAt e hop).map (·.target)) =
      (List.range last).flatMap fun hop ↦ metBy rules hop t (tasksAt rules seeds hop) := by
    intro t
    obtain ⟨rest, rfl⟩ := Nat.exists_eq_add_of_le hlast
    rw [List.range_add, List.flatMap_append, List.flatMap_map]
    have hlater : ((List.range rest).flatMap fun hop ↦
        (rules.graph.edgeTypes.filter (·.target = t)).flatMap fun e ↦
          (o.recordsAt e (last + hop)).map (·.target)) = [] := by
      have hnone : ∀ e hop, o.recordsAt e (last + hop) = [] := fun e hop ↦
        recordsAt_eq_nil hlast ho fun hlt ↦ absurd hlt (Nat.not_lt.2 (Nat.le_add_right last hop))
      simp [hnone]
    rw [hlater, List.append_nil]
    exact List.flatMap_congr fun hop hhop ↦
      flatMap_recordsAt hlast ho (List.mem_range.1 hhop) t
  refine ⟨fun t ↦ ?_, slice_record?_eq_recordsAt hlast ho, fun t ↦ ?_, fun t ↦ ?_, fun t ↦ ?_⟩
  · rw [hnodes]
    exact metAt_nodup ..
  · rw [hnodes, hrange, metAt, roster_stage, hseeds, ← Roster.claimAll_append, Roster.ids_claimAll]
  · rw [hnodes, ← hfirst]
    exact metAt_mono rules seeds (Nat.zero_le last) t
  · have hsum : ((o.nodeCountsAt t).take 1).sum = before rules seeds 1 t := by
      rw [ho, sum_take_nodeCountsAt hlast, Nat.min_eq_left (by omega)]
    have hhead : ((o.nodeCountsAt t).take 1).sum = (o.nodeCountsAt t).headD 0 := by
      cases o.nodeCountsAt t <;> simp
    rw [← hhead, hsum, ← hfirst]
    rfl

end Traversal

end Expansion

/-! ### Answers -/

/-- **The nodes of an answer are first occurrences.** The output to an accepted request on a
well-formed graph, its edges listed as they were followed, names the seeds in the order of the
request, then what each hop recorded, edge type by edge type, every ID once. -/
theorem Sampler.answer_firstSeen {s : Sampler} (hg : s.graph.WellFormed) {r : Request}
    (h : s.Accepts r) (hlayout : s.config.layout = .traversal) (seed : UInt64) :
    ∃ o, (s.answer r seed).output = .ok o ∧
      o.FirstSeen s.graph (s.seedIds r seed) s.config.budgets.numHops := by
  obtain ⟨last, hlast, -, -, metadata, houtput⟩ := exists_stage hg h seed
  have hanswer := houtput .traversal
  rw [← hlayout] at hanswer
  refine ⟨_, hanswer, ?_⟩
  rw [hlayout]
  exact Expansion.firstSeen_stage hlast rfl (roster_seeds r seed)

theorem Sampler.answer_firstSeen_small :
    Graph.small.WellFormed ∧ (small .traversal).Accepts smallRequest ∧
      (small .traversal).config.layout = .traversal ∧
      ∃ o, ((small .traversal).answer smallRequest 7).output = .ok o ∧
        o.FirstSeen .small ((small .traversal).seedIds smallRequest 7)
          (small .traversal).config.budgets.numHops :=
  ⟨Graph.small_wellFormed, small_accepts _, rfl,
    answer_firstSeen (s := small .traversal) Graph.small_wellFormed (small_accepts _) rfl 7⟩

end HopSampler
