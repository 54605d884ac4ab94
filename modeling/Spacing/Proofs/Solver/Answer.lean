import Spacing.Proofs.Solver.Progress
import Spacing.Proofs.Solver.Structure

namespace Spacing

open Arrangement

variable {α : Type} [Scalar α]

def Problem.Violates (p : Problem α) (c : ConId) : Prop :=
  p.slack c < -Scalar.epsilon ∨ (p.constraintAt c).equality = true ∧ Scalar.epsilon < p.slack c

instance (p : Problem α) (c : ConId) : Decidable (p.Violates c) :=
  inferInstanceAs (Decidable (_ ∨ _))

namespace Solver

def Written (s : Solver α) : Prop :=
  ∀ v < s.problem.vars.size, (s.problem.variableAt v).position = s.arrangement.position v

/-- A reply without failure means that nothing is violated, and one that reports a constraint that this
is the first one violated. -/
def Answers (s : Solver α) : Reply α → Prop
  | .ok () => s.Written ∧ ∀ c < s.problem.constraints.size, ¬ s.problem.Violates c
  | .error (.unsatisfied c leftId rightId gap slack) =>
    s.Written ∧ c < s.problem.constraints.size ∧ s.problem.Violates c ∧
      (∀ d < c, ¬ s.problem.Violates d) ∧ leftId = s.problem.leftId c ∧
      rightId = s.problem.rightId c ∧ gap = (s.problem.constraintAt c).gap ∧
      slack = s.problem.slack c
  | .error (.cycle ..) => True

def Unchecked : Reply α → Prop
  | .error (.unsatisfied ..) => False
  | _ => True

variable {s t : Solver α} {c : ConId} {E : Abort → Prop}

theorem Written.slack_eq (hw : s.Written) (hs : s.Sound) (hc : c < s.problem.constraints.size) :
    s.problem.slack c = s.arrangement.slack c := by
  have hl : (s.problem.variableAt (s.problem.constraintAt c).left).position = _ :=
    hw _ (hs.intact.consistent.left_lt c hc)
  have hr : (s.problem.variableAt (s.problem.constraintAt c).right).position = _ :=
    hw _ (hs.intact.consistent.right_lt c hc)
  rw [Problem.slack, hl, hr]
  rfl

theorem written_writePositions (s : Solver α) : s.writePositions.Written := by
  intro v hv
  have hv : v < s.arrangement.problem.vars.size := by
    simpa [writePositions, problem, Arrangement.writePositions] using hv
  have hwritten := variableAt_writePositions (a := s.arrangement) hv
  exact (congrArg Variable.position hwritten).trans
    ((still_writePositions s.arrangement).position_eq v).symm

theorem Written.violates_iff (hw : s.Written) (hs : s.Sound) (hc : c < s.problem.constraints.size) :
    s.problem.Violates c ↔ (decide (s.arrangement.slack c < -Scalar.epsilon) ||
      (s.problem.constraintAt c).equality && decide (Scalar.epsilon < s.arrangement.slack c)) = true := by
  rw [Problem.Violates, hw.slack_eq hs hc]
  simp

theorem Written.answers_verify (hw : s.Written) (hs : s.Sound) :
    s.verify.1.Answers s.verify.2 := by
  unfold verify
  split
  · rename_i hnone
    refine ⟨hw, fun c hc => ?_⟩
    rw [hw.violates_iff hs hc]
    exact List.find?_eq_none.mp hnone c (List.mem_range.mpr hc)
  · rename_i c hfound
    obtain ⟨hviolated, hmem, hbefore⟩ := List.find?_range_eq_some.mp hfound
    have hc : c < s.problem.constraints.size := List.mem_range.mp hmem
    refine ⟨hw, hc, (hw.violates_iff hs hc).mpr hviolated, fun d hd => ?_, rfl, rfl, rfl,
      (hw.slack_eq hs hc).symm⟩
    change ¬ s.problem.Violates d
    rw [hw.violates_iff hs (hd.trans hc), Bool.not_eq_true]
    exact (Bool.not_eq_true' _).mp (hbefore d hd)

theorem Answers.writePositions (h : s.Answers (.ok ())) (hs : s.Sound) (ht : t.Sound)
    (hstill : Still s.arrangement t.arrangement) :
    t.writePositions.Sound ∧ t.writePositions.Answers (.ok ()) := by
  have hend := (ht.with .refl).writePositions.sound
  have hw := written_writePositions t
  have hstill : Still s.arrangement t.writePositions.arrangement :=
    hstill.trans (still_writePositions _)
  have hgiven : t.writePositions.problem.given = s.problem.given := hstill.given_eq
  refine ⟨hend, hw, fun c hc hviolated => ?_⟩
  have hcs : c < s.problem.constraints.size := Problem.size_constraints_eq hgiven ▸ hc
  apply h.2 c hcs
  rw [Problem.Violates, h.1.slack_eq hs hcs, ← hstill.slack_eq, ← hw.slack_eq hend hc,
    ← Problem.equality_eq hgiven]
  exact hviolated

theorem Unchecked.answers {reply : Reply α} (h : Unchecked reply) (he : reply ≠ .ok ()) :
    s.Answers reply := by
  cases reply with
  | ok => exact absurd rfl he
  | error e =>
    cases e with
    | unsatisfied => exact h.elim
    | cycle => trivial

theorem resolve_unchecked (hs : s.Sound) (n : Nat) :
    Yields (s.resolve n) fun r => r.1.Sound ∧ Unchecked r.2 := by
  have h := resolve_induct (I := fun _ => True) (Q := fun _ reply => Unchecked reply)
    (fun _ _ _ _ _ _ _ _ => trivial) (fun _ _ _ _ _ _ _ hr => by cases hr <;> trivial) hs trivial n
  exact h.mono fun _ hr => ⟨hr.1.sound, hr.2⟩

theorem check_answers (hs : s.Sound) :
    s.writePositions.verify.1.Sound ∧ s.writePositions.verify.1.Answers s.writePositions.verify.2 := by
  have hl := (hs.with .refl).writePositions
  exact ⟨hl.verify.sound, (written_writePositions s).answers_verify hl.sound⟩

theorem andThen_answers {r : Solver α × Reply α} {f : Solver α → Except Abort (Solver α × Reply α)}
    (hr : r.1.Sound) (hfails : r.2 ≠ .ok () → r.1.Answers r.2)
    (hf : r.2 = .ok () → YieldsUnless E (f r.1) fun r => r.1.Sound ∧ r.1.Answers r.2) :
    YieldsUnless E (andThen r f) fun r => r.1.Sound ∧ r.1.Answers r.2 := by
  obtain ⟨t, _ | _⟩ := r
  · exact .ok ⟨hr, hfails (by simp)⟩
  · exact hf rfl

theorem satisfyBatch_answers (hs : s.Sound) :
    YieldsUnless E s.satisfyBatch fun r => r.1.Sound ∧ r.1.Answers r.2 := by
  refine YieldsUnless.bind (.inr (steps_mergeInOrder hs.intact _)) fun a h => ?_
  have hmerged := (hs.with h).cleanUp.watchInactive.sound
  refine YieldsUnless.bind (.inr (resolve_unchecked hmerged 0)) fun r hr => ?_
  exact andThen_answers hr.1 hr.2.answers fun _ => .ok (check_answers hr.1)

theorem satisfyIncremental_answers (hs : s.Sound) :
    YieldsUnless E s.satisfyIncremental fun r => r.1.Sound ∧ r.1.Answers r.2 := by
  refine YieldsUnless.bind (.inr (splitBlocks_leads hs)) fun t ht => ?_
  refine YieldsUnless.bind (.inr (resolve_unchecked ht.sound 0)) fun r hr => ?_
  exact andThen_answers hr.1 hr.2.answers fun _ => .ok (check_answers hr.1)

theorem satisfy_answers (hs : s.Sound) :
    YieldsUnless E s.satisfy fun r => r.1.Sound ∧ r.1.Answers r.2 := by
  unfold satisfy
  split
  · exact satisfyBatch_answers hs
  · exact satisfyIncremental_answers hs

theorem refineOnce_unchecked (hs : s.Sound) :
    Yields s.refineOnce fun r => r.1.Sound ∧ ∀ reply, r.2 = some reply → Unchecked reply := by
  have h := steps_scan hs
  cases hc : s.scan.2 with
  | none =>
    rw [refineOnce_of_none hc]
    exact .ok ⟨(hs.with h).sound, fun _ he => by cases he⟩
  | some c =>
    rw [refineOnce_of_some hc]
    refine (steps_rebalance (hs.intact.steps h) (active_of_scan hs hc)).bind fun a h' => ?_
    have hsplit := (hs.with (Relation.ReflTransGen.trans h h')).cleanUp.watchInactive.sound
    refine (resolve_unchecked hsplit 0).bind fun r hr => ?_
    exact .ok ⟨hr.1, fun _ he => Option.some.inj he ▸ hr.2⟩

theorem refine_answers (hE : E .outOfRounds) (rounds : Nat) (hs : s.Sound) :
    YieldsUnless E (s.refine rounds) fun r => r.1.Sound ∧ r.1.Answers r.2 := by
  induction rounds generalizing s with
  | zero => exact .error hE
  | succ rounds ih =>
    refine YieldsUnless.bind (.inr (refineOnce_unchecked hs)) fun ⟨t, reply⟩ ht => ?_
    cases reply with
    | none => exact .ok (check_answers ht.1)
    | some reply => exact andThen_answers ht.1 (ht.2 reply rfl).answers fun _ => ih ht.1

theorem solveRounds_answers (hE : E .outOfRounds) (rounds : Nat) (last : Option α) (done : Nat)
    (hs : s.Sound) :
    YieldsUnless E (s.solveRounds rounds last done) fun r => r.1.Sound ∧ r.1.Answers r.2 := by
  induction rounds generalizing s last done with
  | zero => exact .error hE
  | succ rounds ih =>
    refine YieldsUnless.bind (satisfyIncremental_answers hs) fun ⟨t, reply⟩ ht => ?_
    refine andThen_answers ht.1 (fun _ => ht.2) fun (hok : reply = .ok ()) => ?_
    have hanswer : t.Answers (.ok ()) := hok ▸ ht.2
    have hround := (ht.1.with .refl).record (e := .round (done + 1) t.arrangement.cost) ⟨rfl, rfl⟩
    dsimp only
    split
    · exact .ok (hanswer.writePositions ht.1 hround.sound (still_record _ _))
    · split
      · have hstill : Still t.arrangement ((t.record (.round (done + 1) t.arrangement.cost)).note
            (.roundLimit (done + 1) t.arrangement.cost)).arrangement :=
          ⟨rfl, rfl, fun _ => rfl, fun _ => rfl, fun _ => rfl⟩
        exact .ok (hanswer.writePositions ht.1 (hround.note _).sound hstill)
      · exact YieldsUnless.bind (.inr (splitBlocks_leads hround.sound)) fun u hu => ih _ _ hu.sound

theorem solve_answers (hE : E .outOfRounds) (rounds : Nat) (hs : s.Sound) :
    YieldsUnless E (s.solve rounds) fun r => r.1.Sound ∧ r.1.Answers r.2 := by
  unfold solve
  split
  · have hstart := ((hs.with .refl).note (.started s.problem.vars.size s.problem.constraints.size)).sound
    refine YieldsUnless.bind (satisfy_answers hstart) fun r hr => ?_
    exact andThen_answers hr.1 (fun _ => hr.2) fun _ => refine_answers hE rounds hr.1
  · exact solveRounds_answers hE rounds none 0 hs

theorem perform_answers (hs : s.Sound) {op : Operation α}
    (hop : op = .solve ∨ op = .satisfy ∨ op = .refine) (rounds : Nat) :
    YieldsUnless (· = .outOfRounds) (s.perform rounds op) fun r => r.1.Sound ∧ r.1.Answers r.2 := by
  rcases hop with rfl | rfl | rfl
  · exact solve_answers (E := (· = .outOfRounds)) rfl rounds hs
  · exact satisfy_answers hs
  · exact refine_answers (E := (· = .outOfRounds)) rfl rounds hs

/-- After any operations on any scalars, a run that reports no failure leaves behind a placement that
violates no constraint, and one that reports a constraint names the first that its placement
violates. Either placement is written. -/
theorem answers_perform {p : Problem α} (hp : p.Built) {mode : Mode} {options : Options α}
    {rounds : Nat} {ops : List (Operation α)} {replies : List (Reply α)}
    (hrun : (Solver.new p mode options).run rounds ops = .ok (s, replies)) {op : Operation α}
    (hop : op = .solve ∨ op = .satisfy ∨ op = .refine) (rounds' : Nat) :
    YieldsUnless (· = .outOfRounds) (s.perform rounds' op) fun r => r.1.Answers r.2 := by
  have hs := (leads_of_run hp.consistent hrun).sound
  exact (perform_answers hs hop rounds').mono (fun _ he => he) fun _ hr => hr.2

theorem answers_perform_fork :
    (∃ s t, (Solver.new Problem.fork .incremental Options.standard).run 3 [.solve, .setGap 0 7] =
        .ok (s, [.ok (), .ok ()]) ∧
      s.perform 3 .solve = .ok (t, .ok ()) ∧ t.Written ∧ ∀ c < 2, ¬ t.problem.Violates c) ∧
    ∃ s t l r gap slack, (Solver.new (Problem.fork.insertConstraint 1 0 1 true) .batch
        Options.standard).run 2 [.settle] = .ok (s, [.ok ()]) ∧
      s.perform 2 .solve = .ok (t, .error (.unsatisfied 0 l r gap slack)) ∧ t.Written ∧
      t.problem.Violates 0 ∧ slack = t.problem.slack 0 := by
  constructor
  · have hok : Yields ((Solver.new Problem.fork .incremental Options.standard).run 3
        [.solve, .setGap 0 7]) fun r => r.2 = [.ok (), .ok ()] ∧ Yields (r.1.perform 3 .solve) fun t =>
          t.2 = .ok () ∧ t.1.problem.constraints.size = 2 := by decide +kernel
    obtain ⟨⟨s, replies⟩, hrun, hreplies, ⟨t, reply⟩, hsolve, hreply, hsize⟩ := hok
    cases hreplies
    cases hreply
    obtain ⟨hw, hnone⟩ := (answers_perform Problem.built_fork hrun (.inl rfl) 3).of_ok hsolve
    exact ⟨s, t, hrun, hsolve, hw, hsize ▸ hnone⟩
  · have hfails : Yields ((Solver.new (Problem.fork.insertConstraint 1 0 1 true) .batch
        Options.standard).run 2 [.settle]) fun r => r.2 = [.ok ()] ∧
          Yields (r.1.perform 2 .solve) fun t => t.2 = .error (.unsatisfied 0 0 1 1 (-2)) := by
      decide +kernel
    have hp : (Problem.fork.insertConstraint 1 0 1 true).Built :=
      Problem.built_fork.edit (e := .addConstraint 1 0 1 true) rfl
    obtain ⟨⟨s, replies⟩, hrun, hreplies, ⟨t, reply⟩, hsolve, hreply⟩ := hfails
    cases hreplies
    cases hreply
    obtain ⟨hw, -, hviolated, -, -, -, -, hslack⟩ :=
      (answers_perform hp hrun (.inl rfl) 2).of_ok hsolve
    exact ⟨s, t, _, _, _, _, hrun, hsolve, hw, hviolated, hslack⟩

end Solver

end Spacing
