import Spacing.Proofs.Arrangement.Gather
import Spacing.Proofs.Exact.Optimal
import Spacing.Proofs.Exact.Rejection
/-!
Batch runs on problems that can be satisfied: with exact numbers and without cycles, the equalities that
were gathered stay upheld by active ones through all refinements, so that no run rejects the problem.
Where equalities meet that nothing before links, only some of them are gathered, and it may be rejected.
-/

namespace Spacing

open Arrangement

variable {p : Problem Rat} {a : Arrangement Rat} {c : ConId} {options : Options Rat} {y : VarId → Rat}

namespace Arrangement

theorem upheld_rebalance (ha : a.Intact) (hr : a.Resting) (hg : a.problem.given = p.given)
    (hc : c ∈ a.problem.active) (hrel : a.isReleasable c = true)
    (hu : p.edges.Upheld p.equalities a.problem.active) :
    Yields (a.rebalance c) fun a' => a'.Intact ∧ a'.Resting ∧ a'.problem.given = p.given ∧
      p.edges.Upheld p.equalities a'.problem.active := by
  apply (rebalance_rests (P := fun _ => True) ha hr hg hc (loopInvariant_upheld p .left)
    (loopInvariant_upheld p .right) _ _).mono
  · intro a' ⟨ha', hr', hg', _, _, hu', _⟩
    exact ⟨ha', hr', hg', hu'⟩
  · intro a' l r B L R hh
    have hcQ : c ∉ p.equalities := Problem.equalities_eq hg ▸ isReleasable_iff.mp hrel
    refine ⟨trivial, ?_⟩
    change p.edges.Upheld p.equalities a'.problem.active
    rw [hh.active_eq]
    apply hu.mono
    intro d hd hdQ
    exact ⟨hd, fun hdc => hcQ (Set.mem_singleton_iff.mp hdc ▸ hdQ)⟩
  · intro _ _ _ _ _ _ _ _ hu' _ _
    exact hu'

end Arrangement

namespace Solver

variable {s : Solver Rat} {r : Solver Rat × Reply Rat} {E : Abort → Prop}

structure Resolved (p : Problem Rat) (options : Options Rat) (s : Solver Rat) : Prop where
  poised : Poised p s
  accounted : Accounted .batch options ∅ s
  quiet : s.Quiet

structure Passes (p : Problem Rat) (options : Options Rat) (r : Solver Rat × Reply Rat) : Prop where
  excusable : ∀ e, r.2 = .error e → e.Excusable r.1.problem options.maxSplits ∅
  resolved : r.2 = .ok () → Resolved p options r.1

theorem Resolved.upheld (h : Resolved p options s) :
    p.edges.Upheld p.equalities s.problem.active := by
  have hg := h.poised.given_eq
  rw [← Problem.edges_eq hg, ← Problem.equalities_eq hg]
  apply h.accounted.ledger.upheld
  intro c hc hQ
  exact Bool.false_ne_true ((h.quiet c hc).1.symm.trans hQ)

theorem Passes.andThen {f : Solver Rat → Except Abort (Solver Rat × Reply Rat)}
    (h : Passes p options r)
    (hf : ∀ t, Resolved p options t → YieldsUnless E (f t) (Passes p options)) :
    YieldsUnless E (Solver.andThen r f) (Passes p options) := by
  obtain ⟨t, _ | _⟩ := r
  · exact .ok h
  · exact hf t (h.resolved rfl)

theorem accounted_watchInactive (hmode : s.mode = .batch) (hoptions : s.options = options)
    (ha : a.Intact) (hg : a.problem.given = p.given)
    (hu : p.edges.Upheld p.equalities a.problem.active) :
    Accounted .batch options ∅ { s with arrangement := a }.cleanUp.watchInactive := by
  have hforest := ha.forest
  rw [Problem.edges_eq hg] at hforest
  refine ⟨sound_watchInactive ha.cleanUp, hmode, hoptions, ?_⟩
  change a.problem.edges.Ledger { c | c < a.problem.constraints.size } a.problem.equalities
    a.problem.active { c | c ∈ a.problem.constraintIds.filter _ } ∅
  rw [Problem.edges_eq hg, Problem.equalities_eq hg]
  apply hu.ledger hforest
  intro c hc _
  by_cases hactive : (a.problem.constraintAt c).active = true
  · exact .inl hactive
  · refine .inr (.inl (List.mem_filter.mpr ⟨List.mem_range.mpr hc, ?_⟩))
    change (!(a.problem.constraintAt c).active) = true
    rw [Bool.eq_false_iff.mpr hactive, Bool.not_false]

section Satisfiable

variable (hy : p.Satisfied y)
include hy

theorem passes_resolve (hmode : s.mode = .batch) (hoptions : s.options = options) (ha : a.Intact)
    (hr : a.Resting) (hg : a.problem.given = p.given)
    (hu : p.edges.Upheld p.equalities a.problem.active) :
    Yields ({ s with arrangement := a }.cleanUp.watchInactive.resolve 0) (Passes p options) := by
  have haccounted := accounted_watchInactive hmode hoptions ha hg hu
  have hb := ((still_cleanUp a).resting hr).balanced
  have hresolve := haccounted.resolve hb (fun _ => ⟨y, hy.given hg.symm⟩) 0
  apply ((poised_resolve ha hr hg).and hresolve).mono
  intro r ⟨hpoised, hjudged, hquiet⟩
  constructor
  · intro e he
    exact hjudged.excusable e he y (hy.given hpoised.given_eq.symm)
  · intro hok
    have hkept := hjudged.accounted
    rw [hok] at hkept
    exact ⟨hpoised, hkept.of_ok, hquiet hok⟩

theorem Resolved.verify (h : Resolved p options s) : Passes p options s.writePositions.verify := by
  have hjudged := h.accounted.verify_written h.poised.resting.balanced h.quiet
  have hstill := still_writePositions s.arrangement
  have hl : s.Leads s.writePositions := Leads.writePositions ⟨h.accounted.sound, .refl⟩
  constructor
  · intro e he
    apply hjudged.excusable e he y
    have hsame : s.writePositions.verify.1.problem.given = s.problem.given := by
      unfold Solver.verify
      split <;> exact hstill.given_eq
    exact hy.given (hsame.trans h.poised.given_eq).symm
  · intro hok
    have hsame : s.writePositions.verify.1 = s.writePositions := verify_eq_ok (Prod.ext rfl hok)
    rw [hsame]
    exact ⟨h.poised.still hstill hl.sound, h.accounted.still hl hstill.given_eq hstill.active_eq rfl rfl
      rfl, h.quiet.still hstill rfl⟩

theorem Resolved.refine (h : Resolved p options s) (rounds : Nat) :
    YieldsUnless (· = .outOfRounds) (s.refine rounds) (Passes p options) := by
  induction rounds generalizing s with
  | zero => exact .error rfl
  | succ rounds ih =>
    have hstill := still_scan h.poised.sound
    have hsteps := steps_scan h.poised.sound
    have ha : s.scan.1.Intact := h.poised.sound.intact.steps hsteps
    have hl : s.Leads { s with arrangement := s.scan.1 } := h.poised.sound.with hsteps
    rw [Solver.refine]
    cases hc : s.scan.2 with
    | none =>
      rw [refineOnce_of_none hc]
      apply YieldsUnless.ok
      apply Resolved.verify hy
      exact ⟨h.poised.still hstill hl.sound, h.accounted.still hl hstill.given_eq hstill.active_eq rfl
        rfl rfl, h.quiet.still hstill rfl⟩
    | some c =>
      have hu := h.upheld
      rw [refineOnce_of_some hc]
      obtain ⟨hactive, hrel, -⟩ :=
        firstNegative_eq_some (h.poised.sound.intact.steps (steps_collectBoundaries _ _)) hc
      have hrebalance := upheld_rebalance ha (hstill.resting h.poised.resting)
        (hstill.given_eq.trans h.poised.given_eq) hactive hrel (hstill.active_eq ▸ hu)
      rw [bind_assoc]
      apply YieldsUnless.bind (.inr hrebalance)
      intro a' ⟨ha', hr', hg', hu'⟩
      rw [bind_assoc]
      apply YieldsUnless.bind
        (.inr (passes_resolve hy h.accounted.mode_eq h.accounted.options_eq ha' hr' hg' hu'))
      intro r hr
      exact hr.andThen fun t ht => ih ht

theorem passes_satisfy (hp : p.Consistent) (hacyclic : p.Acyclic) (hconfluent : p.Confluent)
    (hmode : s.mode = .batch) (hoptions : s.options = options) (hg : Gathered p [] s.arrangement)
    (hr : s.arrangement.Resting) : YieldsUnless E s.satisfyBatch (Passes p options) := by
  have hgather := gathered_mergeInOrder hp hacyclic hconfluent hg
  have hrest := mergeInOrder_yields (loopInvariant_resting .left) hg.intact hr p.order
  have horder : s.problem.order = p.order := Problem.order_given hg.given_eq
  rw [satisfyBatch, horder]
  apply YieldsUnless.bind (.inr (hgather.and hrest))
  intro a ⟨ha, _, hra⟩
  have hu := ha.upheld hp
  apply YieldsUnless.bind (.inr (passes_resolve hy hmode hoptions ha.intact hra ha.given_eq hu))
  intro r hr
  apply hr.andThen
  intro t ht
  exact .ok (ht.verify hy)

end Satisfiable

/-- A batch run on a problem without cycles and with confluent equalities does not fail if the problem
can be satisfied, unless the limit on splits was too low. -/
theorem solve_confluent (hp : p.Built) (hacyclic : p.Acyclic) (hconfluent : p.Confluent)
    (hy : p.Satisfied y) (options : Options Rat) (rounds : Nat) :
    YieldsUnless (· = .outOfRounds) ((Solver.new p .batch options).solve rounds) fun r =>
      ∀ e, r.2 = .error e → ∃ c l r n, e = .cycle c l r n ∧ options.maxSplits < n := by
  let s := Solver.new p .batch options
  let n : Note Rat := .started s.problem.vars.size s.problem.constraints.size
  have hnew := gathered_ofProblem hp.consistent
  have hpoised := poised_new hp options
  have hintact := ((hpoised.sound.with .refl).note n).sound.intact
  have hstart : Gathered p [] (s.note n).arrangement :=
    ⟨hintact, hnew.given_eq, hnew.together, hnew.bonded⟩
  have hstill : Still s.arrangement (s.note n).arrangement :=
    ⟨rfl, rfl, fun _ => rfl, fun _ => rfl, fun _ => rfl⟩
  have hrest := hstill.resting hpoised.resting
  have hpasses : YieldsUnless (· = .outOfRounds) (s.solve rounds) (Passes p options) := by
    apply YieldsUnless.bind (passes_satisfy hy hp.consistent hacyclic hconfluent rfl rfl hstart hrest)
    intro r hr
    exact hr.andThen fun t ht => ht.refine hy rounds
  apply hpasses.mono fun _ he => he
  intro r hr e he
  have hexcuse := hr.excusable e he
  cases e with
  | unsatisfied => exact hexcuse.1.elim
  | cycle c l r n => exact ⟨c, l, r, n, rfl, hexcuse⟩

theorem solve_confluent_twice : Yields (Problem.twice.solve 5 .batch) fun r =>
    ∀ e, r.2 = .error e → ∃ c l r n, e = .cycle c l r n ∧ 10000 < n := by
  have hacyclic : Problem.twice.Acyclic := Problem.acyclic_of_left_lt_right (by decide +kernel)
  have hleft : ∀ c < 3, ∀ d < 3, (Problem.twice.constraintAt c).equality = true →
      (Problem.twice.constraintAt d).equality = true →
      Problem.twice.edges.left c = Problem.twice.edges.left d := by decide +kernel
  have hconfluent : Problem.twice.Confluent := by
    apply Problem.confluent_of_left_eq
    intro c hc d hd _
    exact hleft c (Problem.lt_size_of_mem_equalities hc) d (Problem.lt_size_of_mem_equalities hd) hc hd
  have hy : Problem.twice.Satisfied fun v => v := by decide +kernel
  have hok : Yields (Problem.twice.solve 5 .batch) fun _ => True := by decide +kernel
  obtain ⟨r, hr, -⟩ := hok
  exact ⟨r, hr, (solve_confluent Problem.built_twice hacyclic hconfluent hy Options.standard 5).of_ok hr⟩

end Solver

def Problem.pincer : Problem Rat :=
  (((((Problem.empty.insertVariable 0 0 1).insertVariable 1 0 1).insertVariable 2 0 1).insertConstraint
    0 1 1 false).insertConstraint 0 2 5 true).insertConstraint 1 2 1 true

theorem Problem.built_pincer : Problem.pincer.Built :=
  Built.empty.edits [.addVariable 0 0 1, .addVariable 1 0 1, .addVariable 2 0 1,
    .addConstraint 0 1 1 false, .addConstraint 0 2 5 true, .addConstraint 1 2 1 true] rfl

/-- The second of the equalities finds its ends already together and is given up, although the
inequality could be released for it. -/
theorem Solver.rejected_pincer : Problem.pincer.Built ∧ Problem.pincer.Acyclic ∧
    (Problem.pincer.Satisfied fun v => if v = 0 then -3 else v) ∧
    ∃ t l r gap slack, Problem.pincer.solve 5 .batch = .ok (t, .error (.unsatisfied 2 l r gap slack)) := by
  refine ⟨Problem.built_pincer, Problem.acyclic_of_left_lt_right (by decide +kernel),
    by decide +kernel, ?_⟩
  have hfails : Yields (Problem.pincer.solve 5 .batch) fun r =>
      r.2 = .error (.unsatisfied 2 1 2 1 3) := by decide +kernel
  obtain ⟨⟨t, reply⟩, h, hreply⟩ := hfails
  cases hreply
  exact ⟨t, _, _, _, _, h⟩

end Spacing
