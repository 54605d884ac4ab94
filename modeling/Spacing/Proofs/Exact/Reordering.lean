import Mathlib.Logic.Equiv.Basic
import Spacing.Proofs.Exact.Outcome

namespace Spacing

open Relation

variable {p q : Problem Rat} {x y : VarId → Rat} {c : ConId}

/-- Where the variables and constraints of `p` are in `q`. -/
structure Problem.Reordering (p q : Problem Rat) where
  var : VarId ≃ VarId
  con : ConId ≃ ConId
  var_lt : ∀ v, var v < q.vars.size ↔ v < p.vars.size
  con_lt : ∀ c, con c < q.constraints.size ↔ c < p.constraints.size
  desired_eq : ∀ v < p.vars.size, (q.variableAt (var v)).desired = (p.variableAt v).desired
  weight_eq : ∀ v < p.vars.size, (q.variableAt (var v)).weight = (p.variableAt v).weight
  left_eq : ∀ c < p.constraints.size, q.edges.left (con c) = var (p.edges.left c)
  right_eq : ∀ c < p.constraints.size, q.edges.right (con c) = var (p.edges.right c)
  gap_eq : ∀ c < p.constraints.size, (q.constraintAt (con c)).gap = (p.constraintAt c).gap
  equality_eq : ∀ c < p.constraints.size,
    (q.constraintAt (con c)).equality = (p.constraintAt c).equality

namespace Problem.Reordering

variable (e : Problem.Reordering p q)

def symm : Problem.Reordering q p where
  var := e.var.symm
  con := e.con.symm
  var_lt v := by rw [← e.var_lt, Equiv.apply_symm_apply]
  con_lt c := by rw [← e.con_lt, Equiv.apply_symm_apply]
  desired_eq v hv := by
    rw [← e.desired_eq _ (by rwa [← e.var_lt, Equiv.apply_symm_apply]), Equiv.apply_symm_apply]
  weight_eq v hv := by
    rw [← e.weight_eq _ (by rwa [← e.var_lt, Equiv.apply_symm_apply]), Equiv.apply_symm_apply]
  left_eq c hc := by
    rw [Equiv.eq_symm_apply, ← e.left_eq _ (by rwa [← e.con_lt, Equiv.apply_symm_apply]),
      Equiv.apply_symm_apply]
  right_eq c hc := by
    rw [Equiv.eq_symm_apply, ← e.right_eq _ (by rwa [← e.con_lt, Equiv.apply_symm_apply]),
      Equiv.apply_symm_apply]
  gap_eq c hc := by
    rw [← e.gap_eq _ (by rwa [← e.con_lt, Equiv.apply_symm_apply]), Equiv.apply_symm_apply]
  equality_eq c hc := by
    rw [← e.equality_eq _ (by rwa [← e.con_lt, Equiv.apply_symm_apply]), Equiv.apply_symm_apply]

def carry (x : VarId → Rat) : VarId → Rat :=
  fun v => x (e.var.symm v)

theorem carry_var (v : VarId) : e.carry x (e.var v) = x v := by
  rw [carry, Equiv.symm_apply_apply]

theorem carry_symm : e.carry (e.symm.carry y) = y := by
  funext v
  exact congrArg y (e.var.apply_symm_apply v)

theorem variableIds_perm : (p.variableIds.map e.var).Perm q.variableIds := by
  apply (List.perm_ext_iff_of_nodup (List.nodup_range.map e.var.injective) List.nodup_range).mpr
  intro v
  rw [List.mem_map, List.mem_range]
  constructor
  · rintro ⟨u, hu, rfl⟩
    exact (e.var_lt u).mpr (List.mem_range.mp hu)
  · intro hv
    exact ⟨e.var.symm v, List.mem_range.mpr ((e.symm.var_lt v).mpr hv), e.var.apply_symm_apply v⟩

theorem sum_variableIds (f : VarId → Rat) :
    (q.variableIds.map f).sum = (p.variableIds.map fun v => f (e.var v)).sum := by
  rw [← (e.variableIds_perm.map f).sum_eq, List.map_map]
  rfl

theorem costAt_carry : q.costAt (e.carry x) = p.costAt x := by
  rw [costAt, e.sum_variableIds, costAt]
  apply congrArg List.sum
  apply List.map_congr_left
  intro v hv
  have hv := List.mem_range.mp hv
  rw [e.carry_var, e.weight_eq v hv, e.desired_eq v hv]

theorem distance_carry : q.distance (e.carry x) (e.carry y) = p.distance x y := by
  rw [distance, e.sum_variableIds, distance]
  apply congrArg List.sum
  apply List.map_congr_left
  intro v hv
  rw [e.carry_var, e.carry_var, e.weight_eq v (List.mem_range.mp hv)]

theorem slackAt_carry (hc : c < p.constraints.size) :
    q.slackAt (e.carry x) (e.con c) = p.slackAt x c := by
  have hl : (q.constraintAt (e.con c)).left = e.var (p.constraintAt c).left := e.left_eq c hc
  have hr : (q.constraintAt (e.con c)).right = e.var (p.constraintAt c).right := e.right_eq c hc
  rw [slackAt, hl, hr, e.carry_var, e.carry_var, e.gap_eq c hc, slackAt]

include e in
theorem inequalities (hi : p.Inequalities) : q.Inequalities := by
  intro c hc
  have hlt := (e.symm.con_lt c).mpr hc
  rw [← hi _ hlt, ← e.equality_eq _ hlt]
  exact congrArg (fun c => (q.constraintAt c).equality) (e.con.apply_symm_apply c).symm

include e in
theorem acyclic (ha : p.Acyclic) : q.Acyclic := by
  intro v hv
  apply ha (e.symm.var v)
  apply hv.lift e.symm.var
  rintro _ _ ⟨c, hc, rfl, rfl⟩
  exact ⟨e.symm.con c, (e.symm.con_lt c).mpr hc, e.symm.left_eq c hc, e.symm.right_eq c hc⟩

end Problem.Reordering

theorem Problem.distance_comm (p : Problem Rat) (x y : VarId → Rat) :
    p.distance x y = p.distance y x := by
  simp only [distance, sub_sq_comm]

namespace Solver

variable {options : Options Rat} {rounds : Nat} {s t : Solver Rat}

theorem Concludes.satisfied_carry {r : Solver Rat × Reply Rat} (h : Concludes q r)
    (e : Problem.Reordering p q) (hq : q.Consistent) (hi : p.Inequalities) :
    p.Satisfied (e.symm.carry r.1.problem.written) := by
  intro c hc
  refine ⟨?_, fun he => absurd he (Bool.eq_false_iff.mp (hi c hc))⟩
  rw [← e.slackAt_carry hc, e.carry_symm]
  exact h.slackAt_nonneg hq ((e.con_lt c).mpr hc)

/-- Two batch runs on one problem without cycles and equalities, its variables and constraints in two
orders, place the variables alike, up to the slack that each leaves where the other holds tight. -/
theorem solve_reordered (hp : p.Built) (hq : q.Built) (e : Problem.Reordering p q) (ha : p.Acyclic)
    (hi : p.Inequalities) {options' : Options Rat} {rounds' : Nat} {reply reply' : Reply Rat}
    (hs : (new p .batch options).solve rounds = .ok (s, reply))
    (ht : (new q .batch options').solve rounds' = .ok (t, reply')) :
    2 * p.distance s.problem.written (e.symm.carry t.problem.written) ≤ Scalar.epsilon *
      ((s.problem.activeInequalities.map (p.slackAt (e.symm.carry t.problem.written))).sum +
        (t.problem.activeInequalities.map (q.slackAt (e.carry s.problem.written))).sum) := by
  have hends := (solve_concludes hp ha hi options rounds).of_ok hs
  have hends' := (solve_concludes hq (e.acyclic ha) (e.inequalities hi) options' rounds').of_ok ht
  have hle := hends.costAt_le (hends'.satisfied_carry e hq.consistent hi)
  have hle' := hends'.costAt_le
    (hends.satisfied_carry e.symm hp.consistent (e.inequalities hi))
  let x := s.problem.written
  let y := e.symm.carry t.problem.written
  have hy : t.problem.written = e.carry y := e.carry_symm.symm
  have hcost : q.costAt t.problem.written = p.costAt y := hy ▸ e.costAt_carry
  have hcost' : q.costAt (e.symm.symm.carry s.problem.written) = p.costAt x := e.costAt_carry
  have hdist : q.distance t.problem.written (e.symm.symm.carry s.problem.written) = p.distance x y := by
    rw [Problem.distance_comm p, hy]
    exact e.distance_carry
  rw [hcost, hcost', hdist] at hle'
  have hle : p.costAt x + p.distance x y ≤ p.costAt y +
    Scalar.epsilon * (s.problem.activeInequalities.map (p.slackAt y)).sum := hle
  change 2 * p.distance x y ≤ Scalar.epsilon *
    ((s.problem.activeInequalities.map (p.slackAt y)).sum +
      (t.problem.activeInequalities.map (q.slackAt (e.symm.symm.carry x))).sum)
  rw [mul_add]
  linarith

end Solver

theorem swap_lt_iff {i j n : Nat} (hi : i < n) (hj : j < n) (k : Nat) :
    Equiv.swap i j k < n ↔ k < n := by
  rw [Equiv.swap_apply_def]
  split_ifs <;> omega

namespace Problem

def crof : Problem Rat :=
  ((((empty.insertVariable 2 4 1).insertVariable 1 0 1).insertVariable 0 4 1).insertConstraint
    2 0 1 false).insertConstraint 2 1 1 false

theorem built_crof : crof.Built :=
  Built.empty.edits [.addVariable 2 4 1, .addVariable 1 0 1, .addVariable 0 4 1,
    .addConstraint 2 0 1 false, .addConstraint 2 1 1 false] rfl

def reordering_fork : Reordering fork crof where
  var := Equiv.swap 0 2
  con := Equiv.swap 0 1
  var_lt := swap_lt_iff (by decide) (by decide)
  con_lt := swap_lt_iff (by decide) (by decide)
  desired_eq := by decide +kernel
  weight_eq := by decide +kernel
  left_eq := by decide +kernel
  right_eq := by decide +kernel
  gap_eq := by decide +kernel
  equality_eq := by decide +kernel

end Problem

theorem Solver.solve_reordered_fork : ∃ s t,
    (new Problem.fork .batch Options.standard).solve 2 = .ok (s, .ok ()) ∧
    (new Problem.crof .batch Options.standard).solve 2 = .ok (t, .ok ()) ∧
    2 * Problem.fork.distance s.problem.written
        (Problem.reordering_fork.symm.carry t.problem.written) ≤ Scalar.epsilon *
      ((s.problem.activeInequalities.map
          (Problem.fork.slackAt (Problem.reordering_fork.symm.carry t.problem.written))).sum +
        (t.problem.activeInequalities.map
          (Problem.crof.slackAt (Problem.reordering_fork.carry s.problem.written))).sum) := by
  have hok : Yields ((new Problem.fork .batch Options.standard).solve 2) fun r => r.2 = .ok () := by
    decide +kernel
  have hok' : Yields ((new Problem.crof .batch Options.standard).solve 2) fun r => r.2 = .ok () := by
    decide +kernel
  obtain ⟨⟨s, reply⟩, hs, hreply⟩ := hok
  obtain ⟨⟨t, reply'⟩, ht, hreply'⟩ := hok'
  cases hreply
  cases hreply'
  exact ⟨s, t, hs, ht, solve_reordered Problem.built_fork Problem.built_crof Problem.reordering_fork
    Problem.acyclic_fork Problem.inequalities_fork hs ht⟩

end Spacing
