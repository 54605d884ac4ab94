import Mathlib.Data.List.Chain
import Spacing.Proofs.Exact.Push
import Spacing.Proofs.Exact.Verdict
import Spacing.Proofs.Problem.Order
import Spacing.Proofs.Solver.Round
/-!
Trends: with exact numbers, what the cost of a placement falls by from round to round is made up of how
far the variables move, of what the multipliers make of the slack that there was, and of what the pulls
on whole blocks make of their moves. So the cost may rise only if a round ends with a constraint that is
held tight against its multiplier and was loose, or with a block that has moved against its pull.
-/

namespace Spacing

open Arrangement

namespace Arrangement

variable {a a' : Arrangement Rat}

def progress (a a' : Arrangement Rat) : Rat :=
  a'.problem.distance a'.position a.position +
    (a'.allMultipliers.map fun m => m.2 * a.slack m.1).sum +
      2 * a'.drift fun v => a.position v - a'.position v

theorem cost_add_progress (ha : a'.Intact) (hb : a'.Balanced)
    (hg : a'.problem.given = a.problem.given) : a'.cost + a.progress a' = a.cost := by
  have hslack (m : ConId × Rat) (hm : m ∈ a'.allMultipliers) : m.2 * a.slack m.1 =
      m.2 * (a.position (a'.problem.edges.right m.1) - a'.position (a'.problem.edges.right m.1) -
        (a.position (a'.problem.edges.left m.1) - a'.position (a'.problem.edges.left m.1))) := by
    rw [displacement_of_active ha hb (active_of_mem_allMultipliers ha hm), Problem.slackAt_given hg]
    rfl
  have hwork := sum_allMultipliers_add ha fun v => a.position v - a'.position v
  have hcost := a'.problem.costAt_eq a'.position a.position
  rw [cost_of_given hg.symm, cost_eq_costAt a', hcost, ← hwork, progress, List.map_congr_left hslack]
  ring

/-- Nothing that was loose is held tight against its multiplier, and no block has moved against the
pull on it. -/
def Onward (a a' : Arrangement Rat) : Prop :=
  (∀ m ∈ a'.allMultipliers, 0 ≤ m.2 * a.slack m.1) ∧
    ∀ b ∈ a'.blockIds, 0 ≤ a'.tension b * (a.position (a'.anchor b) - a'.position (a'.anchor b))

instance (a a' : Arrangement Rat) : Decidable (a.Onward a') :=
  inferInstanceAs (Decidable (_ ∧ _))

theorem Onward.progress_nonneg (h : a.Onward a') (hb : a'.Balanced) : 0 ≤ a.progress a' := by
  have hmoved := hb.weighted.distance_nonneg a'.position a.position
  have hheld : 0 ≤ (a'.allMultipliers.map fun m => m.2 * a.slack m.1).sum := by
    apply List.sum_nonneg
    intro x hx
    obtain ⟨m, hm, rfl⟩ := List.mem_map.mp hx
    exact h.1 m hm
  have hdrift : 0 ≤ a'.drift fun v => a.position v - a'.position v := by
    apply List.sum_nonneg
    intro x hx
    obtain ⟨b, hb, rfl⟩ := List.mem_map.mp hx
    exact h.2 b hb
  rw [progress]
  linarith

end Arrangement

namespace Solver

variable {p : Problem Rat} {s : Solver Rat}

/-- The costs that a run tells of are those of the placements that its rounds end with. From one of these
to another they fall by the progress, so they never rise as long as all rounds go onward. -/
theorem round_costs (hp : p.Built) (options : Options Rat) {rounds : Nat} {ops : List (Operation Rat)}
    {replies : List (Reply Rat)} (hops : .refine ∉ ops)
    (hrun : (Solver.new p .incremental options).run rounds ops = .ok (s, replies)) (limit : Nat) :
    YieldsUnless (· = .outOfRounds) (s.solve limit) fun r => ∃ n ≤ limit,
      r.1.arrangement.roundCosts =
        s.arrangement.roundCosts ++ (s.roundEnds n 0).map (·.arrangement.cost) ∧
      (∀ t ∈ s.roundEnds n 0, ∀ u ∈ s.roundEnds n 0,
        u.arrangement.cost + t.arrangement.progress u.arrangement = t.arrangement.cost) ∧
      ((s.roundEnds n 0).IsChain (fun t u => t.arrangement.Onward u.arrangement) →
        ((s.roundEnds n 0).map (·.arrangement.cost)).Pairwise (· ≥ ·)) := by
  obtain ⟨hs, hb⟩ := accounted_of_run hp hops hrun
  rw [solve, hs.mode_eq]
  refine (solveRounds_roundCosts (E := (· = .outOfRounds)) rfl limit none 0 hs.sound).mono
    (fun _ he => he) ?_
  rintro r ⟨n, hn, hcosts⟩
  have hbalanced (t : Solver Rat) (ht : t ∈ s.roundEnds n 0) : t.arrangement.Balanced :=
    hb.steps hs.sound.intact (leads_of_mem_roundEnds hs.sound ht).1.steps
  have hprogress (t : Solver Rat) (ht : t ∈ s.roundEnds n 0) (u : Solver Rat)
      (hu : u ∈ s.roundEnds n 0) :
      u.arrangement.cost + t.arrangement.progress u.arrangement = t.arrangement.cost := by
    have hgt := (leads_of_mem_roundEnds hs.sound ht).2
    obtain ⟨hlu, hgu⟩ := leads_of_mem_roundEnds hs.sound hu
    exact cost_add_progress hlu.sound.intact (hbalanced u hu) (hgu.trans hgt.symm)
  refine ⟨n, hn, hcosts, hprogress, fun honward => ?_⟩
  have hfalls : (s.roundEnds n 0).IsChain fun t u => u.arrangement.cost ≤ t.arrangement.cost := by
    refine honward.imp_of_mem_imp fun t u ht hu h => ?_
    have hgain := h.progress_nonneg (hbalanced u hu)
    have hsum := hprogress t ht u hu
    linarith
  exact List.isChain_iff_pairwise.mp ((List.isChain_map _).mpr hfalls)

theorem round_costs_fork : ∃ s t n,
    (Solver.new Problem.fork .incremental Options.standard).run 5
      [.solve, .setDesired 0 0, .setDesired 1 9, .setDesired 2 (-5)] =
        .ok (s, [.ok (), .ok (), .ok (), .ok ()]) ∧ s.solve 5 = .ok (t, .ok ()) ∧
    t.arrangement.roundCosts =
      s.arrangement.roundCosts ++ (s.roundEnds n 0).map (·.arrangement.cost) ∧
    (s.roundEnds n 0).length = 3 ∧ ((s.roundEnds n 0).map (·.arrangement.cost)).Pairwise (· ≥ ·) := by
  have hok : Yields ((Solver.new Problem.fork .incremental Options.standard).run 5
      [.solve, .setDesired 0 0, .setDesired 1 9, .setDesired 2 (-5)]) fun r =>
        r.2 = [.ok (), .ok (), .ok (), .ok ()] ∧
        (∀ n ≤ 5, (r.1.roundEnds n 0).IsChain fun t u => t.arrangement.Onward u.arrangement) ∧
        Yields (r.1.solve 5) fun t => t.2 = .ok () ∧
          t.1.arrangement.roundCosts.length = r.1.arrangement.roundCosts.length + 3 := by decide +kernel
  obtain ⟨⟨s, replies⟩, hrun, hreplies, honward, ⟨t, reply⟩, ht, hreply, hlength⟩ := hok
  cases hreplies
  cases hreply
  obtain ⟨n, hn, hcosts, -, hfalls⟩ :=
    (round_costs Problem.built_fork Options.standard (by decide) hrun 5).of_ok ht
  refine ⟨s, t, n, hrun, ht, hcosts, ?_, hfalls (honward n hn)⟩
  rw [hcosts, List.length_append, List.length_map] at hlength
  exact Nat.add_left_cancel hlength

end Solver

def Problem.knot : Problem Rat :=
  (((((((((((((Problem.empty.insertVariable 0 0 1).insertVariable 1 (-4) 1).insertVariable 2 (-4)
    1).insertVariable 3 0 1).insertVariable 4 (-4) 1).insertVariable 5 (-5) 1).insertConstraint
    2 4 0 false).insertConstraint 0 5 0 false).insertConstraint 0 4 0 false).insertConstraint
    1 2 0 false).insertConstraint 0 2 0 false).insertConstraint 0 1 0 false).insertConstraint
    4 5 0 false).insertConstraint 1 3 0 false

theorem Problem.built_knot : Problem.knot.Built :=
  Built.empty.edits [.addVariable 0 0 1, .addVariable 1 (-4) 1, .addVariable 2 (-4) 1,
    .addVariable 3 0 1, .addVariable 4 (-4) 1, .addVariable 5 (-5) 1, .addConstraint 2 4 0 false,
    .addConstraint 0 5 0 false, .addConstraint 0 4 0 false, .addConstraint 1 2 0 false,
    .addConstraint 0 2 0 false, .addConstraint 0 1 0 false, .addConstraint 4 5 0 false,
    .addConstraint 1 3 0 false] (by decide +kernel)

/-- The second variable, once it is split off, moves so far that it merges with the one after it. The
chain then takes both back, and the one after it stays where it does not want to be: the cost rises from
52 to 317/6. -/
theorem Solver.round_costs_rise : Problem.knot.Built ∧ Problem.knot.Acyclic ∧
    Problem.knot.Inequalities ∧ ∃ s t costs,
      (Solver.new Problem.knot .incremental Options.standard).run 6
        [.solve, .setDesired 1 4, .setDesired 2 0] = .ok (s, [.ok (), .ok (), .ok ()]) ∧
      s.solve 6 = .ok (t, .ok ()) ∧
      t.arrangement.roundCosts = s.arrangement.roundCosts ++ costs ∧ ¬ costs.Pairwise (· ≥ ·) := by
  have hinequalities : Problem.knot.Inequalities := by
    unfold Problem.Inequalities
    decide +kernel
  refine ⟨Problem.built_knot, Problem.acyclic_of_left_lt_right (by decide +kernel), hinequalities, ?_⟩
  have hrises : Yields ((Solver.new Problem.knot .incremental Options.standard).run 6
      [.solve, .setDesired 1 4, .setDesired 2 0]) fun r => r.2 = [.ok (), .ok (), .ok ()] ∧
        Yields (r.1.solve 6) fun t => t.2 = .ok () ∧ t.1.arrangement.roundCosts =
          r.1.arrangement.roundCosts ++ [52, 317 / 6, 317 / 6] := by decide +kernel
  obtain ⟨⟨s, replies⟩, hrun, hreplies, ⟨t, reply⟩, ht, hreply, hcosts⟩ := hrises
  cases hreplies
  cases hreply
  exact ⟨s, t, _, hrun, ht, hcosts, by decide +kernel⟩

end Spacing
