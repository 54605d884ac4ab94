import Spacing.Proofs.Arrangement.Retreat
import Spacing.Proofs.Exact.Descent
import Spacing.Proofs.Exact.Refine
/-!
Restarts: with exact numbers, without equalities and without cycles, a restart of a refinement lowers the
cost, unless the left part of the block that it splits merges with the right part before that has moved.
Then the parts meet where the left part was on its way to, which may be worse than where they were.
-/

namespace Spacing

open Arrangement Relation

namespace Arrangement

variable {a : Arrangement Rat} {b : BlockId} {c : ConId} {x : Rat} {p : Problem Rat}
  {P : Event Rat → Prop}

/-- After a split on `c` the left part merges to the left with the block of the right end. -/
def Recaptures (a : Arrangement Rat) (c : ConId) : Prop :=
  ∃ a₁ l r a₂ t, a.split c = .ok (a₁, l, r) ∧
    (a₁.settle l).mergeTowards .left l = .ok (a₂, t) ∧ a₂.rightBlock c = t

theorem Feasible.rebalance_lowers (hf : Feasible p P a) (hi : p.Inequalities)
    (hx : (c, x) ∈ a.multipliersOf b) (hneg : x < 0) :
    (a.Recaptures c → a.Bypassed c) ∧
      Yields (a.rebalance c) fun a' => ¬ a.Recaptures c → a'.cost < a.cost := by
  have ha := hf.intact
  have hc := active_of_mem_multipliersOf ha.consistent hx
  have hw : a.problem.edges.right c < p.vars.size := Problem.size_vars_eq hf.given_eq ▸ ha.right_lt hc
  obtain ⟨a₁, l, r, B, L, R, hsplit, hh⟩ := exists_split ha hc
  have ha₁ := hh.intact ha hc
  have hb₁ := hh.balanced hf.resting.balanced
  have hg₁ := hh.given_eq.trans hf.given_eq
  have hs₁ (d : ConId) (hd : d < p.constraints.size) : 0 ≤ a₁.slack d := by
    rw [hh.slack_eq ha hc (Problem.size_constraints_eq hf.given_eq ▸ hd)]
    exact hf.satisfied d hd
  -- The left part is pulled to the left as much as the right part is to the right.
  have hright := hh.multiplier_eq_tension ha hf.resting hx
  have hsum := hh.tension_add ha hc
  rw [hf.resting.tension_eq, hh.tension_right ha hc] at hsum
  have hτ₁ : 0 < Side.left.sign * a₁.tension l := by
    rw [Side.sign]
    linarith
  obtain ⟨⟨a₂, t⟩, hleft, ha₂, hg₂, hs₂, hpulled, hretreating, hlowers⟩ :=
    settle_lowers hi (loopInvariant_retreating fun d hd => ⟨d, hd, .inl ⟨rfl, rfl⟩⟩) ha₁ hb₁ hg₁ hs₁
      hh.block?_left hτ₁ hw (hh.pulled_settle ha hc hf.resting) (hh.retreating ha hc)
  have hend : a₂.rightBlock c = a₂.blockOf (a.problem.edges.right c) := by
    rw [rightBlock_eq, Problem.edges_eq hg₂, Problem.edges_eq hf.given_eq]
  have hrecaptures : a.Recaptures c ↔ a₂.rightBlock c = t := by
    constructor
    · rintro ⟨a₁', l', r', a₂', t', hsplit', hleft', ht⟩
      cases hsplit.symm.trans hsplit'
      cases hleft.symm.trans hleft'
      exact ht
    · exact fun ht => ⟨a₁, l, r, a₂, t, hsplit, hleft, ht⟩
  refine ⟨fun h => ?_, ?_⟩
  · exact hretreating.reached _ (ha.right_lt hc) (hend ▸ hrecaptures.mp h)
  -- The block of the right end is still pulled as its part was, and the last one to be.
  obtain ⟨B₂, hB₂⟩ : ∃ B, a₂.block? (a₂.rightBlock c) = some B :=
    hend ▸ ha₂.exists_block (Problem.size_vars_eq hg₂ ▸ hw)
  have hτ₂ : 0 < Side.right.sign * a₂.tension (a₂.rightBlock c) := by
    rw [hpulled.tension_eq, if_pos hend, Side.sign]
    linarith
  have hrests : (a₂.settle (a₂.rightBlock c)).Resting := hend ▸ hpulled.settle ha₂
  obtain ⟨⟨a₃, t'⟩, hright', -, -, -, hpulled', -, hlowers'⟩ :=
    settle_lowers hi (loopInvariant_given p .right) ha₂ hpulled.balanced hg₂ hs₂ hB₂ hτ₂ hw
      (hrests.pulled _) hg₂
  have hrebalance : a.rebalance c = .ok a₃ :=
    bind_eq_ok.mpr ⟨_, hsplit, bind_eq_ok.mpr ⟨_, hleft, bind_eq_ok.mpr ⟨_, hright', rfl⟩⟩⟩
  refine ⟨a₃, hrebalance, fun h => ?_⟩
  have hapart : t ≠ a₂.blockOf (a.problem.edges.right c) := fun ht =>
    h (hrecaptures.mpr (hend.trans ht.symm))
  calc a₃.cost < a₂.cost := hlowers' (hpulled'.resting.tension_eq _)
    _ < a₁.cost := hlowers (by rw [hpulled.tension_eq, if_neg hapart])
    _ = a.cost := hh.cost_eq ha hc

end Arrangement

namespace Solver

variable {p : Problem Rat} {s : Solver Rat} {c : ConId}

theorem Settled.restart_lowers (hs : Settled p Moves s) (hi : p.Inequalities) (hc : s.scan.2 = some c) :
    (s.scan.1.Recaptures c → s.scan.1.Bypassed c) ∧ ∃ t, Restarts s t ∧
      (¬ s.scan.1.Recaptures c → t.arrangement.cost < s.arrangement.cost) := by
  obtain ⟨-, -, b, -, x, hx, hneg⟩ :=
    firstNegative_eq_some (hs.sound.intact.steps (steps_collectBoundaries _ _)) hc
  have hneg : x < 0 := hneg.trans (neg_neg_of_pos epsilon_pos)
  obtain ⟨hbypassed, a, ha, hlowers⟩ := hs.scan.rebalance_lowers hi hx hneg
  have hnext := settled_watchInactive (s := s) ((hs.rebalance hi hc).of_ok ha)
  refine ⟨hbypassed, { s with arrangement := a }.cleanUp.watchInactive.cleanUp, ?_, fun h => ?_⟩
  · rw [Restarts, refineOnce_of_some hc]
    exact bind_eq_ok.mpr ⟨a, ha, bind_eq_ok.mpr ⟨_, resolve_of_none (hnext.nextViolated hi) 0, rfl⟩⟩
  · have hstill : Still a a.cleanUp.cleanUp := (still_cleanUp a).trans (still_cleanUp _)
    calc a.cleanUp.cleanUp.cost = a.cost := hstill.cost_eq
      _ < s.scan.1.cost := hlowers h
      _ = s.arrangement.cost := (still_scan hs.sound).cost_eq

/-- Without equalities and without cycles, every restart of a refinement ends, and it lowers the cost
unless the left part merges with the right part before that has moved. Then constraints lead from the
left end of the one that was given up to its right end. -/
theorem refine_lowers (hp : p.Built) (hacyclic : p.Acyclic) (hi : p.Inequalities)
    (options : Options Rat) : ∃ s, (Solver.new p .batch options).satisfy = .ok (s, .ok ()) ∧
      ∀ t, ReflTransGen Restarts s t → ∀ c, t.scan.2 = some c →
        (t.scan.1.Recaptures c → t.scan.1.Bypassed c) ∧ ∃ u, Restarts t u ∧
          (¬ t.scan.1.Recaptures c → u.arrangement.cost < t.arrangement.cost) := by
  have hc := hp.consistent
  obtain ⟨s, hs, hsettled⟩ := satisfyBatch_settles (s := Solver.new p .batch options) hc hacyclic hi
    (swept_ofProblem hc hp.weighted)
  have hsettled : Settled p Moves s := hsettled.mono fun _ => .inl
  exact ⟨s, hs, fun t ht c hscan => (hsettled.restarts hi ht).restart_lowers hi hscan⟩

theorem refine_lowers_fork : ∃ s t,
    (Solver.new Problem.fork .batch Options.standard).satisfy = .ok (s, .ok ()) ∧ Restarts s t ∧
      t.arrangement.cost < s.arrangement.cost := by
  have hok : Yields ((Solver.new Problem.fork .batch Options.standard).satisfy) fun r =>
      r.1.scan.2 = some 1 ∧ Yields (r.1.scan.1.split 1) fun a =>
        Yields ((a.1.settle a.2.1).mergeTowards .left a.2.1) fun m => m.1.rightBlock 1 ≠ m.2 := by
    decide +kernel
  obtain ⟨s, hs, hrun⟩ := refine_lowers Problem.built_fork Problem.acyclic_fork
    Problem.inequalities_fork Options.standard
  obtain ⟨hc, hapart⟩ := hok.of_ok hs
  obtain ⟨-, t, ht, hlowers⟩ := hrun s .refl 1 hc
  refine ⟨s, t, hs, ht, hlowers ?_⟩
  rintro ⟨a₁, l, r, a₂, t, hsplit, hleft, hend⟩
  exact (hapart.of_ok hsplit).of_ok hleft hend

end Solver

def Problem.bow : Problem Rat :=
  (((((((Problem.empty.insertVariable 0 0 1).insertVariable 1 (-3) 1).insertVariable 2 0 1).insertVariable
    3 (-6) 1).insertConstraint 1 3 2 false).insertConstraint 0 2 2 false).insertConstraint
    0 3 3 false).insertConstraint 2 3 1 false

theorem Problem.built_bow : Problem.bow.Built :=
  Built.empty.edits [.addVariable 0 0 1, .addVariable 1 (-3) 1, .addVariable 2 0 1,
    .addVariable 3 (-6) 1, .addConstraint 1 3 2 false, .addConstraint 0 2 2 false,
    .addConstraint 0 3 3 false, .addConstraint 2 3 1 false] (by decide +kernel)

/-- The left part runs into the right part while that is still where it does not want to be. -/
theorem Solver.refine_raises : Problem.bow.Built ∧ Problem.bow.Acyclic ∧ Problem.bow.Inequalities ∧
    ∃ s t, (Solver.new Problem.bow .batch Options.standard).satisfy = .ok (s, .ok ()) ∧
      Restarts s t ∧ s.arrangement.cost < t.arrangement.cost := by
  have hinequalities : Problem.bow.Inequalities := by
    unfold Problem.Inequalities
    decide +kernel
  refine ⟨Problem.built_bow, Problem.acyclic_of_left_lt_right (by decide +kernel), hinequalities, ?_⟩
  have hraises : Yields ((Solver.new Problem.bow .batch Options.standard).satisfy) fun r =>
      r.2 = .ok () ∧ Yields r.1.refineOnce fun t =>
        t.2 = some (.ok ()) ∧ r.1.arrangement.cost < t.1.arrangement.cost := by decide +kernel
  obtain ⟨⟨s, reply⟩, hs, hreply, ⟨t, reply'⟩, ht, hreply', hlt⟩ := hraises
  cases hreply
  cases hreply'
  exact ⟨s, t, hs, ht, hlt⟩

end Spacing
