import Spacing.Proofs.Graph.Removal
import Spacing.Proofs.Problem.Order
import Spacing.Proofs.Solver.Structure

namespace Spacing.Problem

open Relation

variable {α : Type} [Scalar α] {p : Problem α}

theorem Consistent.outs_perm (hp : p.Consistent) :
    (p.variableIds.flatMap fun v => (p.variableAt v).outs).Perm p.constraintIds := by
  -- Each constraint is in the list of its left end and in no other.
  apply (List.perm_ext_iff_of_nodup _ List.nodup_range).mpr
  · intro c
    rw [List.mem_flatMap, List.mem_range]
    constructor
    · rintro ⟨v, -, hc⟩
      exact ((hp.mem_outs v c).mp hc).1
    · intro hc
      exact ⟨_, List.mem_range.mpr (hp.left_lt c hc), (hp.mem_outs _ c).mpr ⟨hc, rfl⟩⟩
  · rw [List.nodup_flatMap]
    refine ⟨fun v _ => hp.nodup_outs v, List.nodup_range.imp fun {u v} huv c hu hv => huv ?_⟩
    exact ((hp.mem_outs u c).mp hu).2.symm.trans ((hp.mem_outs v c).mp hv).2

theorem Consistent.ins_perm (hp : p.Consistent) (v : VarId) :
    (p.variableAt v).ins.Perm (p.constraintIds.filter fun c => p.edges.right c == v) := by
  apply (List.perm_ext_iff_of_nodup (hp.nodup_ins v) (List.nodup_range.filter _)).mpr
  intro c
  rw [hp.mem_ins, List.mem_filter, List.mem_range, beq_iff_eq]
  rfl

theorem Consistent.length_ins (hp : p.Consistent) (v : VarId) :
    (p.variableAt v).ins.length = p.graph.arcsInto (List.range p.graph.size) v := by
  have hnext : (List.range p.graph.size).flatMap p.graph.next =
      (p.variableIds.flatMap fun v => (p.variableAt v).outs).map p.edges.right := by
    rw [size_graph, List.map_flatMap]
    exact congrArg (List.flatMap · _) (funext (next_graph p))
  rw [Digraph.arcsInto, hnext, (hp.outs_perm.map _).count_eq, (hp.ins_perm v).length_eq,
    List.count, List.countP_map, List.countP_eq_length_filter]
  rfl

section Graph

variable (hp : p.Consistent)
include hp

theorem arc_graph_eq : p.graph.Arc = p.Precedes := by
  ext u v
  exact arc_graph hp

theorem indegrees_eq (v : VarId) : (p.vars.map fun x => x.ins.length).getD v 0 =
    p.graph.arcsInto (List.range p.graph.size) v := by
  rw [← hp.length_ins, variableAt, Array.getD_eq_getD_getElem?, Array.getD_eq_getD_getElem?,
    Array.getElem?_map]
  cases p.vars[v]? <;> rfl

theorem isCyclic_eq_false_iff : p.isCyclic = false ↔ p.Acyclic := by
  rw [isCyclic, Digraph.isCyclic_eq_false_iff (bounded_graph hp) (indegrees_eq hp), Digraph.Acyclic,
    arc_graph_eq hp]
  rfl

theorem isCyclic_iff : p.isCyclic = true ↔ ∃ v, TransGen p.Precedes v v := by
  rw [isCyclic, Digraph.isCyclic_iff (bounded_graph hp) (indegrees_eq hp), arc_graph_eq hp]

theorem eliminate_eq : p.graph.eliminate (p.vars.map fun x => x.ins.length) =
    some { v | v < p.vars.size ∧ ¬ BehindCycle p.Precedes v }.ncard := by
  rw [Digraph.eliminate_eq (bounded_graph hp) (indegrees_eq hp), arc_graph_eq hp, size_graph]

theorem Consistent.count_outs (v : VarId) (c : ConId) : (p.variableAt v).outs.count c =
    if c < p.constraints.size ∧ p.edges.left c = v then 1 else 0 := by
  rw [(hp.nodup_outs v).count]
  exact if_congr (hp.mem_outs v c) rfl rfl

theorem Consistent.count_ins (v : VarId) (c : ConId) : (p.variableAt v).ins.count c =
    if c < p.constraints.size ∧ p.edges.right c = v then 1 else 0 := by
  rw [(hp.nodup_ins v).count]
  exact if_congr (hp.mem_ins v c) rfl rfl

end Graph

/-- Whatever edits and runs a problem comes from, each constraint is listed once at its left end and once
at its right end and nowhere else. So no counter falls below zero while variables are counted off, those
that no cycle leads to are, and the check finds a cycle just if there is one. -/
theorem isCyclic_iff_exists_cycle (hp : p.Built) :
    (∀ v c,
      (p.variableAt v).outs.count c =
        (if c < p.constraints.size ∧ p.edges.left c = v then 1 else 0) ∧
      (p.variableAt v).ins.count c =
        if c < p.constraints.size ∧ p.edges.right c = v then 1 else 0) ∧
    p.graph.eliminate (p.vars.map fun x => x.ins.length) =
      some { v | v < p.vars.size ∧ ¬ BehindCycle p.Precedes v }.ncard ∧
    (p.isCyclic = true ↔ ∃ v, TransGen p.Precedes v v) := by
  have hc := hp.consistent
  exact ⟨fun v c => ⟨hc.count_outs v c, hc.count_ins v c⟩, eliminate_eq hc, isCyclic_iff hc⟩

def tangle : Problem Rat :=
  ((fork.insertConstraint 1 2 0 true).redirectIns 2 0 (-1)).redirectOuts 1 1 2

theorem built_tangle : tangle.Built :=
  built_fork.edits [.addConstraint 1 2 0 true, .redirectIns 2 0 (-1), .redirectOuts 1 1 2] rfl

theorem isCyclic_iff_exists_cycle_tangle : tangle.Built ∧ (tangle.variableAt 0).ins.count 1 = 1 ∧
    (tangle.variableAt 0).outs.count 1 = 1 ∧
    { v | v < tangle.vars.size ∧ ¬ BehindCycle tangle.Precedes v }.ncard = 1 ∧
    ∃ v, TransGen tangle.Precedes v v := by
  obtain ⟨hlisted, hcount, hcycle⟩ := isCyclic_iff_exists_cycle built_tangle
  have hends : 1 < tangle.constraints.size ∧ tangle.edges.left 1 = 0 ∧ tangle.edges.right 1 = 0 := by
    decide +kernel
  have heliminated : tangle.graph.eliminate (tangle.vars.map fun x => x.ins.length) = some 1 := by
    decide +kernel
  rw [heliminated, Option.some.injEq] at hcount
  refine ⟨built_tangle, ?_, ?_, hcount.symm, hcycle.mp (by decide +kernel)⟩
  · rw [(hlisted 0 1).2, if_pos ⟨hends.1, hends.2.2⟩]
  · rw [(hlisted 0 1).1, if_pos ⟨hends.1, hends.2.1⟩]

theorem order_topological (hp : p.Built) : p.order.Perm p.variableIds ∧
    (∀ c < p.constraints.size, ¬ ReflTransGen p.Precedes (p.edges.right c) (p.edges.left c) →
      p.order.idxOf (p.edges.left c) < p.order.idxOf (p.edges.right c)) ∧
    (p.Acyclic → ∀ c < p.constraints.size,
      p.order.idxOf (p.edges.left c) < p.order.idxOf (p.edges.right c)) := by
  refine ⟨p.order_perm, fun c hc => idxOf_left_lt hp.consistent hc, fun hacyclic c hc => ?_⟩
  exact idxOf_left_lt hp.consistent hc (hacyclic.not_back hc)

theorem acyclic_fork : fork.Acyclic :=
  acyclic_of_left_lt_right (by decide +kernel)

theorem order_topological_fork : fork.Built ∧ fork.Acyclic ∧ fork.order.Perm [0, 1, 2] ∧
    fork.order.idxOf 0 < fork.order.idxOf 1 ∧ fork.order.idxOf 0 < fork.order.idxOf 2 := by
  obtain ⟨hperm, -, hbefore⟩ := order_topological built_fork
  exact ⟨built_fork, acyclic_fork, hperm, hbefore acyclic_fork 0 (by decide),
    hbefore acyclic_fork 1 (by decide)⟩

end Spacing.Problem
