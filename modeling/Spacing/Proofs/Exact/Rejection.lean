import Spacing.Proofs.Exact.Verdict

namespace Spacing

def Failure.Within {α : Type} (limit : Nat) : Failure α → Prop
  | .unsatisfied .. => True
  | .cycle _ _ _ n => n ≤ limit

def Problem.twice : Problem Rat :=
  (((((Problem.empty.insertVariable 0 0 1).insertVariable 1 0 1).insertVariable 2 0 1).insertConstraint
    0 1 1 true).insertConstraint 1 2 1 false).insertConstraint 0 1 1 true

theorem Problem.built_twice : Problem.twice.Built :=
  Built.empty.edits [.addVariable 0 0 1, .addVariable 1 0 1, .addVariable 2 0 1,
    .addConstraint 0 1 1 true, .addConstraint 1 2 1 false, .addConstraint 0 1 1 true] rfl

def Problem.wedge : Problem Rat :=
  (((((Problem.empty.insertVariable 0 0 1).insertVariable 1 0 1).insertVariable 2 9 1).insertConstraint
    0 1 0 true).insertConstraint 2 1 0 false).insertConstraint 0 2 1 false

theorem Problem.built_wedge : Problem.wedge.Built :=
  Built.empty.edits [.addVariable 0 0 1, .addVariable 1 0 1, .addVariable 2 9 1,
    .addConstraint 0 1 0 true, .addConstraint 2 1 0 false, .addConstraint 0 2 1 false] rfl

namespace Solver

variable {p : Problem Rat} {s t : Solver Rat} {ops : List (Operation Rat)} {op : Operation Rat}
  {replies : List (Reply Rat)} {rounds : Nat} {y : VarId → Rat}

theorem judged_after_run (hp : p.Built) {options : Options Rat} (hops : .refine ∉ ops)
    (hrun : (Solver.new p .incremental options).run rounds ops = .ok (s, replies))
    (hop : op = .solve ∨ op = .satisfy) {r : Solver Rat × Reply Rat}
    (hr : s.perform rounds op = .ok r) :
    Judged .incremental options (named replies) s r := by
  obtain ⟨hs, hb⟩ := accounted_of_run hp hops hrun
  apply perform_judged hs hb _ hr
  rcases hop with rfl | rfl
  · exact nofun
  · exact nofun

/-- After operations that all succeeded, an incremental solver rejects a problem only if no assignment
satisfies it, unless the limit on splits was too low. -/
theorem rejected_impossible (hp : p.Built) (options : Options Rat) (hops : .refine ∉ ops)
    (hrun : (Solver.new p .incremental options).run rounds ops = .ok (s, replies))
    (hok : ∀ reply ∈ replies, reply = .ok ()) (hop : op = .solve ∨ op = .satisfy)
    {e : Failure Rat} (he : e.Within options.maxSplits)
    (h : s.perform rounds op = .ok (t, .error e)) : ¬ ∃ y, t.problem.Satisfied y := by
  intro ⟨y, hy⟩
  have hnamed : named replies = ∅ := by
    apply Set.eq_empty_of_forall_notMem
    intro c ⟨reply, hmem, hc⟩
    rw [hok reply hmem] at hc
    exact hc
  have hjudged := judged_after_run hp hops hrun hop h
  have hexcuse := hjudged.excusable e rfl y hy
  rw [hnamed] at hexcuse
  cases e with
  | unsatisfied c l r gap slack => exact hexcuse.1
  | cycle c l r n => exact Nat.not_lt.mpr he hexcuse

theorem rejected_impossible_twice : ∃ s t e,
    (Solver.new Problem.twice .incremental Options.standard).run 5 [.solve, .setGap 0 2] =
      .ok (s, [.ok (), .ok ()]) ∧
    s.perform 5 .solve = .ok (t, .error e) ∧ ¬ ∃ y, t.problem.Satisfied y := by
  have hfails : Yields ((Solver.new Problem.twice .incremental Options.standard).run 5
      [.solve, .setGap 0 2]) fun r => r.2 = [.ok (), .ok ()] ∧
        Yields (r.1.perform 5 .solve) fun t => t.2 = .error (.unsatisfied 2 0 1 1 1) := by
    decide +kernel
  obtain ⟨⟨s, replies⟩, hrun, hreplies, ⟨t, reply⟩, hsolve, hreply⟩ := hfails
  cases hreplies
  cases hreply
  have he : (Failure.unsatisfied 2 0 1 1 1).Within (Options.standard (α := Rat)).maxSplits := trivial
  exact ⟨s, t, _, hrun, hsolve, rejected_impossible Problem.built_twice Options.standard (by decide)
    hrun (by simp) (.inl rfl) he hsolve⟩

/-- If an incremental solver reports a constraint although the problem can be satisfied, it is an
inequality that an earlier failure of the run gave up. -/
theorem reported_given_up (hp : p.Built) (options : Options Rat) (hops : .refine ∉ ops)
    (hrun : (Solver.new p .incremental options).run rounds ops = .ok (s, replies))
    (hop : op = .solve ∨ op = .satisfy) {c : ConId} {l r : Nat} {gap slack : Rat}
    (h : s.perform rounds op = .ok (t, .error (.unsatisfied c l r gap slack)))
    (hy : t.problem.Satisfied y) :
    (t.problem.constraintAt c).equality = false ∧
      ∃ l r n, .error (.cycle c l r n) ∈ replies := by
  have hjudged := judged_after_run hp hops hrun hop h
  obtain ⟨⟨reply, hmem, hc⟩, hQ⟩ := hjudged.excusable _ rfl y hy
  refine ⟨Bool.eq_false_iff.mpr hQ, ?_⟩
  cases reply with
  | ok => exact hc.elim
  | error e =>
    cases e with
    | unsatisfied => exact hc.elim
    | cycle d l r n =>
      have hcd : c = d := hc
      exact ⟨l, r, n, hcd ▸ hmem⟩

/-- The solver goes on without the constraint that its failure named, and so rejects the problem even
when edits have made it possible to satisfy. -/
theorem rejected_after_failure : ∃ t l r n l' r' gap slack,
    (Solver.new Problem.wedge .incremental Options.standard).run 5
        [.solve, .setGap 1 (-5), .setDesired 2 (-11), .solve] =
      .ok (t, [.error (.cycle 2 l r n), .ok (), .ok (), .error (.unsatisfied 2 l' r' gap slack)]) ∧
    t.problem.Satisfied fun v => if v = 2 then -3 else -4 := by
  have hfails : Yields ((Solver.new Problem.wedge .incremental Options.standard).run 5
      [.solve, .setGap 1 (-5), .setDesired 2 (-11), .solve]) fun r =>
        r.2 = [.error (.cycle 2 0 2 1), .ok (), .ok (), .error (.unsatisfied 2 0 2 1 (-12))] ∧
        r.1.problem.Satisfied fun v => if v = 2 then -3 else -4 := by decide +kernel
  obtain ⟨⟨t, replies⟩, hrun, hreplies, hy⟩ := hfails
  cases hreplies
  exact ⟨t, _, _, _, _, _, _, _, hrun, hy⟩

theorem reported_given_up_wedge : ∃ s replies t l r gap slack,
    (Solver.new Problem.wedge .incremental Options.standard).run 5
      [.solve, .setGap 1 (-5), .setDesired 2 (-11)] = .ok (s, replies) ∧
    s.perform 5 .solve = .ok (t, .error (.unsatisfied 2 l r gap slack)) ∧
    ∃ l r n, .error (.cycle 2 l r n) ∈ replies := by
  have hfails : Yields ((Solver.new Problem.wedge .incremental Options.standard).run 5
      [.solve, .setGap 1 (-5), .setDesired 2 (-11)]) fun r => Yields (r.1.perform 5 .solve) fun t =>
        t.2 = .error (.unsatisfied 2 0 2 1 (-12)) ∧
        t.1.problem.Satisfied fun v => if v = 2 then -3 else -4 := by decide +kernel
  obtain ⟨⟨s, replies⟩, hrun, ⟨t, reply⟩, hsolve, hreply, hy⟩ := hfails
  cases hreply
  refine ⟨s, replies, t, _, _, _, _, hrun, hsolve, ?_⟩
  exact (reported_given_up Problem.built_wedge Options.standard (by decide) hrun (.inl rfl) hsolve hy).2

end Solver

end Spacing
