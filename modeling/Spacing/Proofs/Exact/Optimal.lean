import Spacing.Proofs.Exact.Certificate
import Spacing.Proofs.Solver.Structure

namespace Spacing

open Arrangement

namespace Problem

def written (p : Problem Rat) (v : VarId) : Rat :=
  (p.variableAt v).position

theorem vars_toList (p : Problem Rat) : p.vars.toList = p.variableIds.map p.variableAt := by
  apply List.ext_getElem
  · simp [variableIds]
  · intro i h₁ h₂
    have hi : i < p.vars.size := by simpa using h₁
    simp [variableIds, variableAt, hi]

theorem cost_exact (p : Problem Rat) : p.cost = p.costAt p.written := by
  rw [cost, sum_exact, vars_toList, List.map_map, costAt]
  refine congrArg List.sum (List.map_congr_left fun v _ => ?_)
  simp only [Function.comp_apply, written]
  ring

end Problem

namespace Arrangement

variable {a : Arrangement Rat}

theorem written_writePositions {v : VarId} (hv : v < a.problem.vars.size) :
    a.writePositions.problem.written v = a.position v := by
  rw [Problem.written, variableAt_writePositions hv]

theorem nonnegative_of_firstNegative {bs : List BlockId} (ha : a.Intact)
    (hbs : ∀ b, (a.block? b).isSome → b ∈ bs) (h : (a.firstNegative bs).2 = none) :
    (a.firstNegative bs).1.Nonnegative := by
  intro b B' hB' m hm hrel
  obtain ⟨B, hB, -⟩ := (still_firstNegative ha bs).exists_block hB'
  have hmem : m ∈ ((a.firstNegative bs).1.multipliersOf b).filter fun m =>
      (a.firstNegative bs).1.isReleasable m.1 := List.mem_filter.mpr ⟨hm, hrel⟩
  obtain ⟨x, hx⟩ := exists_firstLeast (f := Prod.snd) hmem
  have hleast := firstNegative_eq_none ha h b (hbs b (by rw [hB]; rfl)) x hx
  exact (not_lt.mp hleast).trans (firstLeast_le hx hmem)

end Arrangement

namespace Solver

variable {s t : Solver Rat}

theorem verify_of_satisfied (h : s.problem.Satisfied s.arrangement.position) :
    s.verify = (s, .ok ()) := by
  have hnone : s.firstUnsatisfied = none := by
    unfold firstUnsatisfied
    apply List.find?_eq_none.mpr
    intro c hc
    obtain ⟨hslack, hzero⟩ := h c (List.mem_range.mp hc)
    have hslack : 0 ≤ s.arrangement.slack c := hslack
    have hzero : (s.problem.constraintAt c).equality = true → s.arrangement.slack c = 0 := hzero
    have heps := epsilon_pos
    have hlow : ¬ s.arrangement.slack c < -Scalar.epsilon := by linarith
    by_cases he : (s.problem.constraintAt c).equality = true
    · simp [hzero he, heps.le]
    · simp [hlow, he]
  rw [verify, hnone]

structure Poised (p : Problem Rat) (s : Solver Rat) : Prop where
  sound : s.Sound
  resting : s.arrangement.Resting
  given_eq : s.problem.given = p.given

variable {p : Problem Rat}

theorem poised_new (hp : p.Built) (options : Options Rat) :
    Poised p (Solver.new p .batch options) where
  sound := sound_new hp.consistent .batch options
  resting := resting_ofProblem hp.consistent hp.weighted
  given_eq := given_ofProblem

theorem Poised.still (hs : Poised p s) (h : Still s.arrangement t.arrangement)
    (ht : t.Sound) : Poised p t :=
  ⟨ht, h.resting hs.resting, h.given_eq.trans hs.given_eq⟩

theorem poised_resolve {a : Arrangement Rat} (ha : a.Intact) (hr : a.Resting)
    (hg : a.problem.given = p.given) : Yields
      ({ s with arrangement := a }.cleanUp.watchInactive.resolve 0) fun r => Poised p r.1 := by
  have hsound : ({ s with arrangement := a }.cleanUp.watchInactive).Sound :=
    sound_watchInactive ha.cleanUp
  refine (resolve_yields (keeps_resting.and (Keeps.given p)) hsound
    ⟨(still_cleanUp a).resting hr, hg⟩ 0).mono ?_
  exact fun r ⟨hsound, hr, hg⟩ => ⟨hsound, hr, hg⟩

theorem nonnegative_of_scan (hs : s.Sound) (h : s.scan.2 = none) : s.scan.1.Nonnegative := by
  refine nonnegative_of_firstNegative (hs.intact.steps (steps_collectBoundaries _ _)) (fun b hb => ?_) h
  obtain ⟨B, hB⟩ := Option.isSome_iff_exists.mp hb
  obtain ⟨B', hB', -⟩ := (still_collectBoundaries _ _).exists_block hB
  exact (mem_blockIds hs.intact).mpr (by rw [hB']; rfl)

end Solver

end Spacing
