import Spacing.Proofs.Exact.Optimal
import Spacing.Proofs.Exact.Push
import Spacing.Proofs.Problem.Order
import Spacing.Proofs.Solver.Pass

namespace Spacing

open Arrangement

namespace Arrangement

variable {a : Arrangement Rat} {b : BlockId}

theorem tension_foldl_settle (ha : a.Intact) (hb : a.Balanced) {bs : List BlockId}
    (h : b ∈ bs ∨ a.tension b = 0) : (bs.foldl Arrangement.settle a).tension b = 0 := by
  induction bs generalizing a with
  | nil => exact h.resolve_left List.not_mem_nil
  | cons i bs ih =>
    apply ih ha.settle (hb.settle ha)
    by_cases hbi : b = i
    · subst hbi
      exact .inr (tension_settle ha hb)
    · rw [tension_settle_of_ne ha hbi]
      exact h.imp_left fun hmem => (List.mem_cons.mp hmem).resolve_left hbi

theorem balanced_foldl_settle (ha : a.Intact) (hb : a.Balanced) (bs : List BlockId) :
    (bs.foldl Arrangement.settle a).Balanced := by
  induction bs generalizing a with
  | nil => exact hb
  | cons i bs ih => exact ih ha.settle (hb.settle ha)

theorem resting_foldl_settle (ha : a.Intact) (hb : a.Balanced) :
    (a.blockIds.foldl Arrangement.settle a).Resting := by
  refine ⟨balanced_foldl_settle ha hb _, fun b => tension_foldl_settle ha hb ?_⟩
  cases hB : a.block? b with
  | none => exact .inr (tension_of_none hB)
  | some B =>
    refine .inl ((mem_blockIds ha).mpr ?_)
    rw [hB]
    rfl

end Arrangement

namespace Solver

theorem firstNegative_of_splitNegative {α : Type} [Scalar α] {s t : Solver α} {bs : List BlockId}
    (h : s.splitNegative bs = .ok t) : s.splitCount ≤ t.splitCount ∧
      (t.splitCount = s.splitCount → s.arrangement.firstNegative bs = (t.arrangement, none)) := by
  induction bs generalizing s with
  | nil =>
    cases h
    exact ⟨le_refl _, fun _ => rfl⟩
  | cons b bs ih =>
    unfold splitNegative at h
    rw [firstNegative_cons]
    dsimp only at h
    split at h
    · rename_i hnone
      rw [hnone]
      exact ih h
    · obtain ⟨⟨a, l, r⟩, -, h⟩ := bind_eq_ok.mp h
      have hlt : s.splitCount + 1 ≤ t.splitCount := (ih h).1
      refine ⟨by omega, fun hcount => ?_⟩
      omega

variable {p : Problem Rat} {s u : Solver Rat} {y : VarId → Rat}

theorem standstill (hs : s.Sound) (hb : s.arrangement.Balanced) (hu : s.splitBlocks = .ok u)
    (hcount : u.splitCount = 0) : ∃ a : Arrangement Rat, a.Intact ∧ a.Resting ∧ a.Nonnegative ∧
      a.problem.given = s.problem.given ∧ a.problem.active = s.problem.active ∧
      u.arrangement = a.cleanUp.writePositions := by
  -- After the blocks have settled, a pass without splits only writes down what it finds.
  let a₁ := s.settleBlocks.arrangement
  let a₂ := (a₁.firstNegative a₁.blockIds).1
  have hsettled := resting_foldl_settle hs.intact hb
  have hstill₁ : Still (s.arrangement.blockIds.foldl Arrangement.settle s.arrangement) a₁ :=
    still_writePositions _
  have hintact₁ : a₁.Intact := (settleBlocks_leads hs).sound.intact
  have hstill₂ : Still a₁ a₂ := still_firstNegative hintact₁ _
  have hsame := problem_foldl_settle s.arrangement.blockIds s.arrangement
  obtain ⟨t, ht, hu⟩ := bind_eq_ok.mp hu
  cases hu
  have hscan := (firstNegative_of_splitNegative ht).2 hcount
  have hnone : (a₁.firstNegative a₁.blockIds).2 = none := congrArg Prod.snd hscan
  have ha₂ : t.arrangement = a₂ := (congrArg Prod.fst hscan).symm
  refine ⟨a₂, ?_, ?_, ?_, ?_, ?_, ?_⟩
  · exact hintact₁.steps (steps_firstNegative hintact₁ _)
  · exact hstill₂.resting (hstill₁.resting hsettled)
  · exact nonnegative_of_firstNegative hintact₁ (fun b hb => (mem_blockIds hintact₁).mpr hb) hnone
  · exact (hstill₂.given_eq.trans hstill₁.given_eq).trans (congrArg Problem.given hsame)
  · exact (hstill₂.active_eq.trans hstill₁.active_eq).trans (congrArg Problem.active hsame)
  · rw [← ha₂]
    rfl

/-- A placement that a pass would neither move nor split a block of is best up to the tolerance for
multipliers, whatever operations the solver has performed before. -/
theorem optimal_of_standstill (hp : p.Built) {mode : Mode} {options : Options Rat} {rounds : Nat}
    {ops : List (Operation Rat)} {replies : List (Reply Rat)}
    (hrun : (Solver.new p mode options).run rounds ops = .ok (s, replies))
    (hu : s.splitBlocks = .ok u) (hcount : u.splitCount = 0)
    (hstays : ∀ v < s.problem.vars.size, u.problem.written v = s.problem.written v)
    (hy : s.problem.Satisfied y) :
    s.problem.cost + s.problem.distance s.problem.written y ≤ s.problem.costAt y +
        Scalar.epsilon * (s.problem.activeInequalities.map (s.problem.slackAt y)).sum ∧
      ∀ w, 0 < w → (∀ v < s.problem.vars.size, w ≤ (s.problem.variableAt v).weight) →
        s.problem.cost ≤ s.problem.costAt y +
          (Scalar.epsilon * s.problem.activeInequalities.length) ^ 2 / w := by
  have hl := leads_of_run hp.consistent hrun
  have hb := balanced_of_leads hp hl
  obtain ⟨a, ha, hr, hn, hg, hactive, hua⟩ := standstill hl.sound hb hu hcount
  have hat (v : VarId) (hv : v < s.problem.vars.size) : s.problem.written v = a.position v := by
    have hva : v < a.cleanUp.problem.vars.size := (Problem.size_vars_eq hg).symm ▸ hv
    rw [← hstays v hv, Solver.problem, hua, written_writePositions hva]
    rfl
  have hinequalities : a.problem.activeInequalities = s.problem.activeInequalities :=
    Problem.activeInequalities_eq hg hactive
  have hle := costAt_le ha hr hn (hy.given hg.symm)
  rw [Problem.costAt_given hg, Problem.costAt_given hg, Problem.distance_given hg, hinequalities,
    funext (Problem.slackAt_given hg y), ← Problem.costAt_congr hat, ← Problem.distance_congr hat,
    ← Problem.cost_exact] at hle
  refine ⟨hle, fun w hw hweight => ?_⟩
  rw [Problem.cost_exact] at hle ⊢
  have hactive_of {c : ConId} (hc : c ∈ s.problem.activeInequalities) : c ∈ s.problem.active :=
    (Bool.and_eq_true_iff.mp (List.mem_filter.mp hc).2).1
  apply Problem.costAt_le_of_certificate hw hweight hl.sound.intact.consistent _ _ hle
  · intro c hc
    exact Problem.lt_size_of_mem_active (hactive_of hc)
  · intro c hc
    have hca : c ∈ a.problem.active := hactive ▸ hactive_of hc
    have hlt := Problem.lt_size_of_mem_active (hactive_of hc)
    rw [Problem.slackAt_congr hat hl.sound.intact.consistent hlt, ← Problem.slackAt_given hg]
    exact (slack_exact c).symm.trans (hr.balanced.slack_of_active ha hca)

theorem optimal_of_standstill_fork : ∃ s,
    (Solver.new Problem.fork .incremental Options.standard).run 5 [.solve, .setDesired 1 2, .solve] =
      .ok (s, [.ok (), .ok (), .ok ()]) ∧
    s.problem.cost ≤ s.problem.costAt (fun v => 2 * v) +
      (Scalar.epsilon * s.problem.activeInequalities.length) ^ 2 / 1 := by
  have hok : Yields ((Solver.new Problem.fork .incremental Options.standard).run 5
      [.solve, .setDesired 1 2, .solve]) fun r => r.2 = [.ok (), .ok (), .ok ()] ∧
        (r.1.problem.Satisfied fun v => 2 * v) ∧
        (∀ v < r.1.problem.vars.size, 1 ≤ (r.1.problem.variableAt v).weight) ∧
        Yields r.1.splitBlocks fun u => u.splitCount = 0 ∧
          ∀ v < r.1.problem.vars.size, u.problem.written v = r.1.problem.written v := by
    decide +kernel
  obtain ⟨⟨s, replies⟩, hrun, hreplies, hy, hweight, u, hu, hcount, hstays⟩ := hok
  cases hreplies
  have hle := optimal_of_standstill Problem.built_fork hrun hu hcount hstays hy
  exact ⟨s, hrun, hle.2 1 one_pos hweight⟩

end Solver

def Problem.braid : Problem Rat :=
  ((((((((((Problem.empty.insertVariable 0 0 1).insertVariable 1 (-3) 1).insertVariable 2 (-3)
    1).insertVariable 3 (-1) 1).insertVariable 4 (-3) 1).insertConstraint 0 3 2 false).insertConstraint
    0 1 1 false).insertConstraint 1 3 1 false).insertConstraint 0 2 1 false).insertConstraint
    2 3 1 false).insertConstraint 0 4 1 false

theorem Problem.built_braid : Problem.braid.Built :=
  Built.empty.edits [.addVariable 0 0 1, .addVariable 1 (-3) 1, .addVariable 2 (-3) 1,
    .addVariable 3 (-1) 1, .addVariable 4 (-3) 1, .addConstraint 0 3 2 false, .addConstraint 0 1 1 false,
    .addConstraint 1 3 1 false, .addConstraint 0 2 1 false, .addConstraint 2 3 1 false,
    .addConstraint 0 4 1 false] (by decide +kernel)

/-- The last round undoes its own splits, because it merges across another of the ways and with the fifth
variable again. So it costs as much as the round before, although the best placement costs less. -/
theorem Solver.stops_short : Problem.braid.Built ∧ Problem.braid.Acyclic ∧
    Problem.braid.Inequalities ∧ ∃ t,
      (Solver.new Problem.braid .incremental Options.standard).run 5
        [.solve, .setDesired 1 11, .setDesired 2 11, .setDesired 3 (-34), .setDesired 4 2, .solve] =
          .ok (t, [.ok (), .ok (), .ok (), .ok (), .ok (), .ok ()]) ∧
      (t.problem.Satisfied fun v => [-4, -3, -3, -2, 2].getD v 0) ∧
      t.problem.costAt (fun v => [-4, -3, -3, -2, 2].getD v 0) + Scalar.tolerance *
        (1 + t.problem.costAt fun v => [-4, -3, -3, -2, 2].getD v 0) < t.problem.cost := by
  have hinequalities : Problem.braid.Inequalities := by
    unfold Problem.Inequalities
    decide +kernel
  refine ⟨Problem.built_braid, Problem.acyclic_of_left_lt_right (by decide +kernel), hinequalities, ?_⟩
  let y : VarId → Rat := fun v => [-4, -3, -3, -2, 2].getD v 0
  have hstops : Yields ((Solver.new Problem.braid .incremental Options.standard).run 5
      [.solve, .setDesired 1 11, .setDesired 2 11, .setDesired 3 (-34), .setDesired 4 2, .solve]) fun r =>
        r.2 = [.ok (), .ok (), .ok (), .ok (), .ok (), .ok ()] ∧ r.1.problem.Satisfied y ∧
        r.1.problem.costAt y + Scalar.tolerance * (1 + r.1.problem.costAt y) < r.1.problem.cost := by
    decide +kernel
  obtain ⟨⟨t, replies⟩, hrun, hreplies, hy, hlt⟩ := hstops
  cases hreplies
  exact ⟨t, hrun, hy, hlt⟩

end Spacing
