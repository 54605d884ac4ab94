import Mathlib.Logic.Function.Basic
import Spacing.Proofs.Exact.Certificate
import Spacing.Proofs.Solver.Structure

namespace Spacing

namespace Problem

open Function

variable {p q : Problem Rat} {u v : VarId} {c : ConId} {x y z : VarId → Rat}

/-- The slack when left ends are placed by `y` and right ends by `z`. A constraint between a variable and
itself has both kinds of end there, which are handed over one after the other. -/
def slackBetween (p : Problem Rat) (y z : VarId → Rat) (c : ConId) : Rat :=
  z (p.edges.right c) - y (p.edges.left c) - (p.constraintAt c).gap

theorem slackBetween_self : p.slackBetween x x c = p.slackAt x c := rfl

section Consistent

variable (hp : p.Consistent)
include hp

theorem slackBetween_redirectIns (hc : c < p.constraints.size) (d : Rat) :
    (p.redirectIns u v (-d)).slackBetween y z c = p.slackBetween y (update z u (z v + d)) c := by
  have hmem := hp.mem_ins u c
  simp only [slackBetween, edges, constraintAt_redirectIns hp, update_apply]
  by_cases hu : (p.constraintAt c).right = u
  · rw [if_pos (hmem.mpr ⟨hc, hu⟩), if_pos hu]
    ring
  · rw [if_neg fun h => hu (hmem.mp h).2, if_neg hu]

theorem slackBetween_redirectOuts (hc : c < p.constraints.size) (d : Rat) :
    (p.redirectOuts u v d).slackBetween y z c = p.slackBetween (update y u (y v + d)) z c := by
  have hmem := hp.mem_outs u c
  simp only [slackBetween, edges, constraintAt_redirectOuts hp, update_apply]
  by_cases hu : (p.constraintAt c).left = u
  · rw [if_pos (hmem.mpr ⟨hc, hu⟩), if_pos hu]
    ring
  · rw [if_neg fun h => hu (hmem.mp h).2, if_neg hu]

theorem equality_redirectIns (d : Rat) :
    ((p.redirectIns u v d).constraintAt c).equality = (p.constraintAt c).equality := by
  rw [constraintAt_redirectIns hp]
  split <;> rfl

theorem equality_redirectOuts (d : Rat) :
    ((p.redirectOuts u v d).constraintAt c).equality = (p.constraintAt c).equality := by
  rw [constraintAt_redirectOuts hp]
  split <;> rfl

theorem Consistent.ends_ne (houts : (p.variableAt u).outs = []) (hins : (p.variableAt u).ins = [])
    (hc : c < p.constraints.size) : p.edges.left c ≠ u ∧ p.edges.right c ≠ u := by
  constructor
  · intro hl
    have hmem := (hp.mem_outs u c).mpr ⟨hc, hl⟩
    simp [houts] at hmem
  · intro hr
    have hmem := (hp.mem_ins u c).mpr ⟨hc, hr⟩
    simp [hins] at hmem

end Consistent

def coalesce (p : Problem Rat) (u v : VarId) (d : Rat) : Problem Rat :=
  (p.redirectIns u v (-d)).redirectOuts u v d

theorem edits_coalesce (hu : u < p.vars.size) (hv : v < p.vars.size) (d : Rat) :
    p.edits [.redirectIns u v (-d), .redirectOuts u v d] = .ok (p.coalesce u v d) := by
  have hn := (size_redirectIns (p := p) u v (-d)).1
  have hins : p.edit (.redirectIns u v (-d)) = .ok (p.redirectIns u v (-d)) := by
    simp [edit, requireVariable, hu, hv, bind, Except.bind, pure, Except.pure]
  have houts : (p.redirectIns u v (-d)).edit (.redirectOuts u v d) = .ok (p.coalesce u v d) := by
    simp [edit, requireVariable, hn, hu, hv, bind, Except.bind, pure, Except.pure, coalesce]
  exact bind_eq_ok.mpr ⟨_, hins, bind_eq_ok.mpr ⟨_, houts, rfl⟩⟩

theorem size_coalesce (u v : VarId) (d : Rat) : (p.coalesce u v d).vars.size = p.vars.size ∧
    (p.coalesce u v d).constraints.size = p.constraints.size := by
  obtain ⟨hn, hm⟩ := size_redirectIns (p := p) u v (-d)
  obtain ⟨hn', hm'⟩ := size_redirectOuts (p := p.redirectIns u v (-d)) u v d
  exact ⟨hn'.trans hn, hm'.trans hm⟩

section Coalesce

variable (hu : u < p.vars.size) (hv : v < p.vars.size)
include hu hv

theorem unlisted_coalesce (huv : u ≠ v) (d : Rat) :
    ((p.coalesce u v d).variableAt u).outs = [] ∧ ((p.coalesce u v d).variableAt u).ins = [] := by
  have hn := (size_redirectIns (p := p) u v (-d)).1
  rw [coalesce, variableAt_redirectOuts (hn ▸ hu) (hn ▸ hv), variableAt_redirectIns hu hv]
  simp [huv]

variable (hp : p.Consistent)
include hp

theorem Consistent.coalesce (d : Rat) : (p.coalesce u v d).Consistent := by
  have hn := (size_redirectIns (p := p) u v (-d)).1
  exact (hp.redirectIns hu hv (-d)).redirectOuts (hn ▸ hu) (hn ▸ hv) d

theorem ends_coalesce (huv : u ≠ v) (d : Rat) (hc : c < p.constraints.size) :
    (p.coalesce u v d).edges.left c ≠ u ∧ (p.coalesce u v d).edges.right c ≠ u := by
  obtain ⟨houts, hins⟩ := unlisted_coalesce hu hv huv d
  apply (hp.coalesce hu hv d).ends_ne houts hins
  rwa [(size_coalesce u v d).2]

theorem slackAt_coalesce (d : Rat) (hc : c < p.constraints.size) :
    (p.coalesce u v d).slackAt x c = p.slackAt (update x u (x v + d)) c := by
  have hm := (size_redirectIns (p := p) u v (-d)).2
  have hp' := hp.redirectIns hu hv (-d)
  rw [← slackBetween_self, Problem.coalesce, slackBetween_redirectOuts hp' (hm.symm ▸ hc),
    slackBetween_redirectIns hp hc, slackBetween_self]

theorem equality_coalesce (d : Rat) (c : ConId) :
    ((p.coalesce u v d).constraintAt c).equality = (p.constraintAt c).equality := by
  rw [Problem.coalesce, equality_redirectOuts (hp.redirectIns hu hv (-d)), equality_redirectIns hp]

theorem satisfied_coalesce (d : Rat) (x : VarId → Rat) :
    (p.coalesce u v d).Satisfied x ↔ p.Satisfied (update x u (x v + d)) := by
  simp only [Satisfied, (size_coalesce u v d).2, equality_coalesce hu hv hp]
  apply forall₂_congr
  intro c hc
  rw [slackAt_coalesce hu hv hp d hc]

end Coalesce

/-- When a variable has handed its constraints over to another one, none mentions it any more, and they
are satisfied just where the old ones are with the variable at its distance from the other one. -/
theorem satisfied_coalesced (hp : p.Built) (hu : u < p.vars.size) (hv : v < p.vars.size) (huv : u ≠ v)
    (d : Rat) : Yields (p.edits [.redirectIns u v (-d), .redirectOuts u v d]) fun q =>
      q.constraints.size = p.constraints.size ∧
      (∀ c < q.constraints.size, q.edges.left c ≠ u ∧ q.edges.right c ≠ u) ∧
      ∀ x, q.Satisfied x ↔ p.Satisfied (update x u (x v + d)) := by
  have hm := (size_coalesce (p := p) u v d).2
  refine ⟨p.coalesce u v d, edits_coalesce hu hv d, hm, fun c hc => ?_, fun x => ?_⟩
  · exact ends_coalesce hu hv hp.consistent huv d (hm ▸ hc)
  · exact satisfied_coalesce hu hv hp.consistent d x

def trident : Problem Rat :=
  (fork.insertConstraint 1 1 0 false).insertConstraint 2 1 3 true

theorem built_trident : trident.Built :=
  built_fork.edits [.addConstraint 1 1 0 false, .addConstraint 2 1 3 true] rfl

theorem satisfied_coalesced_trident : ∃ q,
    trident.edits [.redirectIns 1 0 (-4), .redirectOuts 1 0 4] = .ok q ∧
    (∀ c < q.constraints.size, q.edges.left c ≠ 1 ∧ q.edges.right c ≠ 1) ∧
    q.Satisfied (fun v => if v = 2 then 1 else 0) ∧
    trident.Satisfied (update (fun v => if v = 2 then 1 else 0) 1 4) := by
  obtain ⟨q, hq, -, hnone, hsatisfied⟩ :=
    satisfied_coalesced built_trident (u := 1) (v := 0) (by decide) (by decide) (by decide) 4
  have hold : trident.Satisfied (update (fun v => if v = 2 then 1 else 0) 1 4) := by decide +kernel
  refine ⟨q, hq, hnone, (hsatisfied _).mpr ?_, hold⟩
  rwa [if_neg (by decide), zero_add]

end Problem

end Spacing
