import Spacing.Proofs.Exact.Refine

namespace Spacing.Solver

open Arrangement

variable {p : Problem Rat} {s : Solver Rat} {r : Solver Rat × Reply Rat} {y : VarId → Rat} {c : ConId}

def rebalanced (s : Solver Rat) (a : Arrangement Rat) : Solver Rat :=
  { s with arrangement := a }.cleanUp.watchInactive.cleanUp

theorem Settled.refineOnce_of_scan (hs : Settled p Moves s) (hi : p.Inequalities)
    (hc : s.scan.2 = some c) : ∃ a, s.scan.1.rebalance c = .ok a ∧ a.Feasible p Moves ∧
      s.refineOnce = .ok (s.rebalanced a, some (.ok ())) := by
  obtain ⟨a, ha, hf⟩ := hs.rebalance hi hc
  have hnone := (settled_watchInactive (s := s) hf).nextViolated hi
  refine ⟨a, ha, hf, ?_⟩
  rw [refineOnce_of_some hc]
  exact bind_eq_ok.mpr ⟨a, ha, bind_eq_ok.mpr ⟨_, resolve_of_none hnone 0, rfl⟩⟩

theorem settled_rebalanced {a : Arrangement Rat} (hf : a.Feasible p Moves) :
    Settled p Moves (s.rebalanced a) :=
  (settled_watchInactive hf).cleanUp

structure Concludes (p : Problem Rat) (r : Solver Rat × Reply Rat) : Prop where
  reply_eq : r.2 = .ok ()
  exists_settled : ∃ v, Settled p Moves v ∧ v.arrangement.Nonnegative ∧ r.1 = v.writePositions

theorem Settled.refine_concludes (hs : Settled p Moves s) (hi : p.Inequalities) (rounds : Nat) :
    YieldsUnless (· = .outOfRounds) (s.refine rounds) (Concludes p) := by
  induction rounds generalizing s with
  | zero => exact .error rfl
  | succ rounds ih =>
    rw [Solver.refine]
    cases hc : s.scan.2 with
    | none =>
      have hend : Settled p Moves { s with arrangement := s.scan.1 } := ⟨hs.scan, hs.watched⟩
      have hverify := hend.writePositions.verify hi
      rw [refineOnce_of_none hc]
      refine .ok ⟨congrArg Prod.snd hverify, _, hend, nonnegative_of_scan hs.sound hc, ?_⟩
      exact congrArg Prod.fst hverify
    | some c =>
      obtain ⟨a, -, hf, hstep⟩ := hs.refineOnce_of_scan hi hc
      rw [hstep]
      exact ih (settled_rebalanced hf)

def begun (p : Problem Rat) (options : Options Rat) : Solver Rat :=
  (new p .batch options).note (.started (new p .batch options).problem.vars.size
    (new p .batch options).problem.constraints.size)

theorem swept_begun (hp : p.Built) (options : Options Rat) :
    Swept p [] (begun p options).arrangement := by
  apply (swept_ofProblem hp.consistent hp.weighted).still
  · exact ⟨rfl, rfl, fun _ => rfl, fun _ => rfl, fun _ => rfl⟩
  · exact (((sound_new hp.consistent .batch options).with .refl).note _).sound.intact
  · exact fun e he => absurd he List.not_mem_nil

theorem solve_concludes (hp : p.Built) (hacyclic : p.Acyclic) (hi : p.Inequalities)
    (options : Options Rat) (rounds : Nat) :
    YieldsUnless (· = .outOfRounds) ((new p .batch options).solve rounds) (Concludes p) := by
  obtain ⟨t, ht, hsettled⟩ := satisfyBatch_settles hp.consistent hacyclic hi (swept_begun hp options)
  apply YieldsUnless.bind (P := fun r => r = (t, .ok ())) (.inr ⟨_, ht, rfl⟩)
  rintro _ rfl
  exact (hsettled.mono fun _ => .inl).refine_concludes hi rounds

namespace Concludes

variable (h : Concludes p r)
include h

theorem given_eq : r.1.problem.given = p.given := by
  obtain ⟨v, hv, -, hr⟩ := h.exists_settled
  rw [hr]
  exact given_writePositions.trans hv.feasible.given_eq

theorem exists_written : ∃ v, Settled p Moves v ∧ v.arrangement.Nonnegative ∧
    r.1 = v.writePositions ∧ ∀ w < p.vars.size, r.1.problem.written w = v.arrangement.position w := by
  obtain ⟨v, hv, hn, hr⟩ := h.exists_settled
  refine ⟨v, hv, hn, hr, fun w hw => ?_⟩
  rw [hr]
  exact written_writePositions (Problem.size_vars_eq hv.feasible.given_eq ▸ hw)

theorem slackAt_nonneg (hp : p.Consistent) (hc : c < p.constraints.size) :
    0 ≤ p.slackAt r.1.problem.written c := by
  obtain ⟨v, hv, -, -, hwritten⟩ := h.exists_written
  rw [Problem.slackAt_congr hwritten hp hc, ← Problem.slackAt_given hv.feasible.given_eq]
  exact hv.feasible.satisfied c hc

theorem costAt_le (hy : p.Satisfied y) :
    p.costAt r.1.problem.written + p.distance r.1.problem.written y ≤ p.costAt y +
      Scalar.epsilon * (r.1.problem.activeInequalities.map (p.slackAt y)).sum := by
  obtain ⟨v, hv, hn, hr, hwritten⟩ := h.exists_written
  have hgiven := hv.feasible.given_eq
  have hle := Arrangement.costAt_le hv.feasible.intact hv.feasible.resting hn (hy.given hgiven.symm)
  have hactive : r.1.problem.activeInequalities = v.arrangement.problem.activeInequalities := by
    rw [hr]
    exact Problem.activeInequalities_eq given_writePositions rfl
  rw [Problem.costAt_congr hwritten, Problem.distance_congr hwritten, hactive,
    ← Problem.costAt_given hgiven, ← Problem.distance_given hgiven, ← Problem.costAt_given hgiven,
    ← funext (Problem.slackAt_given hgiven y)]
  exact hle

end Concludes

end Spacing.Solver
