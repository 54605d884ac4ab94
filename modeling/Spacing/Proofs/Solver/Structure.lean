import Spacing.Proofs.Solver.Run
/-!
The structure of blocks over whole runs: after any operations on any problem, the blocks divide up
the variables, and the active constraints inside each block are a spanning tree of its members.
-/

namespace Spacing

variable {α : Type} [Scalar α] {p q : Problem α}

/-- Why performing operations may abort: rounds ran out, or a handle is not in the problem. -/
inductive Excused (p : Problem α) (ops : List (Operation α)) : Abort → Prop
  | outOfRounds : Excused p ops .outOfRounds
  | noVariable {v : VarId} {desired : α} (hop : .setDesired v desired ∈ ops)
    (hv : p.vars.size ≤ v) : Excused p ops (.noVariable v)
  | noConstraint {c : ConId} {gap : α} (hop : .setGap c gap ∈ ops)
    (hc : p.constraints.size ≤ c) : Excused p ops (.noConstraint c)

omit [Scalar α] in
theorem Excused.mono {ops ops' : List (Operation α)} (hv : q.vars.size = p.vars.size)
    (hc : q.constraints.size = p.constraints.size) (hops : ∀ op ∈ ops, op ∈ ops') {e : Abort}
    (h : Excused q ops e) : Excused p ops' e := by
  cases h with
  | outOfRounds => exact .outOfRounds
  | noVariable hop hlt => exact .noVariable (hops _ hop) (hv ▸ hlt)
  | noConstraint hop hlt => exact .noConstraint (hops _ hop) (hc ▸ hlt)

namespace Solver

variable {s : Solver α}

theorem perform_leads (rounds : Nat) (hs : s.Sound) (op : Operation α) :
    YieldsUnless (Excused s.problem [op]) (s.perform rounds op) fun r => s.Leads r.1 := by
  cases op with
  | solve => exact solve_leads .outOfRounds rounds hs
  | satisfy => exact satisfy_leads hs
  | refine => exact refine_leads .outOfRounds rounds hs
  | settle => exact .ok (settleBlocks_leads hs)
  | split => exact YieldsUnless.bind (.inr (splitBlocks_leads hs)) fun t ht => .ok ht
  | setDesired v desired =>
    refine YieldsUnless.bind ((setDesired_leads hs v desired).mono ?_ fun _ ht => ht)
      fun t ht => .ok ht
    rintro e ⟨rfl, hv⟩
    exact .noVariable List.mem_cons_self hv
  | setGap c gap =>
    refine YieldsUnless.bind ((setGap_leads hs c gap).mono ?_ fun _ ht => ht) fun t ht => .ok ht
    rintro e ⟨rfl, hc⟩
    exact .noConstraint List.mem_cons_self hc

theorem run_leads (rounds : Nat) (hs : s.Sound) (ops : List (Operation α)) :
    YieldsUnless (Excused s.problem ops) (s.run rounds ops) fun r => s.Leads r.1 := by
  induction ops generalizing s with
  | nil => exact .ok (hs.with .refl)
  | cons op ops ih =>
    refine YieldsUnless.bind ((perform_leads rounds hs op).mono (fun _ he => ?_) fun _ hr => hr)
      fun r hr => ?_
    · exact he.mono rfl rfl fun x hx => List.mem_cons.mpr (.inl (List.mem_singleton.mp hx))
    · obtain ⟨hv, hc⟩ := hr.steps.sizes_eq hs.intact
      refine YieldsUnless.bind ((ih hr.sound).mono (fun _ he => ?_) fun _ h => h)
        fun r' hr' => .ok (hr.trans hr')
      exact he.mono hv hc fun _ hx => List.mem_cons_of_mem _ hx

end Solver

/-- The problems that callers can have: made by edits, and perhaps worked on by solvers. -/
inductive Problem.Built : Problem α → Prop
  | empty : Built Problem.empty
  | edit {p q : Problem α} {e : Edit α} (hp : Built p) (h : p.edit e = .ok q) : Built q
  | run {p : Problem α} {mode : Mode} {options : Options α} {rounds : Nat}
    {ops : List (Operation α)} {s : Solver α} {replies : List (Reply α)} (hp : Built p)
    (h : (Solver.new p mode options).run rounds ops = .ok (s, replies)) : Built s.problem

theorem Solver.leads_of_run {mode : Mode} {options : Options α} {rounds : Nat}
    {ops : List (Operation α)} {s : Solver α} {replies : List (Reply α)} (hp : p.Consistent)
    (h : (Solver.new p mode options).run rounds ops = .ok (s, replies)) :
    (Solver.new p mode options).Leads s :=
  (run_leads rounds (sound_new hp mode options) ops).of_ok h

theorem Problem.Built.consistent (hp : p.Built) : p.Consistent := by
  induction hp with
  | empty => exact consistent_empty
  | edit _ h ih => exact ih.edit h
  | run _ h ih => exact (Solver.leads_of_run ih h).sound.intact.consistent

theorem Problem.Built.weighted (hp : p.Built) : p.Weighted := by
  induction hp with
  | empty => exact weighted_empty
  | edit _ h ih => exact ih.edit h
  | @run p mode options _ _ _ _ hp h ih =>
    have hw : (Arrangement.ofProblem p).problem.Weighted := ih.of_given Arrangement.given_ofProblem
    exact (Solver.leads_of_run hp.consistent h).steps.weighted
      (Arrangement.intact_ofProblem hp.consistent) hw

theorem Problem.Built.edits (hp : p.Built) (es : List (Edit α)) (h : p.edits es = .ok q) :
    q.Built := by
  induction es generalizing p with
  | nil =>
    cases h
    exact hp
  | cons e es ih =>
    obtain ⟨r, hr, h⟩ := bind_eq_ok.mp h
    exact ih (hp.edit hr) h

def Problem.fork : Problem Rat :=
  ((((Problem.empty.insertVariable 0 4 1).insertVariable 1 0 1).insertVariable 2 4 1).insertConstraint
    0 1 1 false).insertConstraint 0 2 1 false

theorem Problem.built_fork : Problem.fork.Built := by
  have h₁ : (empty.insertVariable 0 4 1 : Problem Rat).Built := .edit (e := .addVariable 0 4 1) .empty rfl
  have h₂ := h₁.edit (e := .addVariable 1 0 1) rfl
  have h₃ := h₂.edit (e := .addVariable 2 4 1) rfl
  have h₄ := h₃.edit (e := .addConstraint 0 1 1 false) rfl
  exact h₄.edit (e := .addConstraint 0 2 1 false) rfl

namespace Arrangement

structure Structured (a : Arrangement α) : Prop where
  listed : ∀ v < a.problem.vars.size,
    ∃ B, a.block? (a.blockOf v) = some B ∧ B.members.count v = 1
  named : ∀ b B, a.block? b = some B → ∀ v ∈ B.members, v < a.problem.vars.size ∧ a.blockOf v = b
  live : ∀ b B, a.block? b = some B → b ∈ a.live
  nonempty : ∀ b B, a.block? b = some B → B.members ≠ []
  together : ∀ c ∈ a.problem.active, a.leftBlock c = a.rightBlock c
  tree : ∀ b B, a.block? b = some B → a.problem.edges.IsSpanningTree B.members
    { c | c ∈ a.problem.active ∧ a.leftBlock c = b }

theorem Intact.structured {a : Arrangement α} (ha : a.Intact) : a.Structured where
  listed v hv := by
    obtain ⟨B, hB⟩ := ha.exists_block hv
    exact ⟨B, hB, List.count_eq_one_of_mem (ha.nodup _ B hB) (ha.mem_of_blockOf hB hv rfl)⟩
  named b B hB v hv := (ha.mem_iff b B hB v).mp hv
  live := ha.live
  nonempty := ha.nonempty
  together := ha.together
  tree _ _ hB := ha.isSpanningTree hB

end Arrangement

theorem Solver.leads_run (hp : p.Built) (mode : Mode) (options : Options α) (rounds : Nat)
    (ops : List (Operation α)) :
    YieldsUnless (Excused p ops) ((Solver.new p mode options).run rounds ops)
      fun r => (Solver.new p mode options).Leads r.1 := by
  have hgiven : (Solver.new p mode options).problem.given = p.given := Arrangement.given_ofProblem
  apply (run_leads rounds (sound_new hp.consistent mode options) ops).mono _ fun _ hr => hr
  intro e he
  exact he.mono (Problem.size_vars_eq hgiven) (Problem.size_constraints_eq hgiven) fun _ hop => hop

theorem Solver.structured_run (hp : p.Built) (mode : Mode) (options : Options α) (rounds : Nat)
    (ops : List (Operation α)) :
    YieldsUnless (Excused p ops) ((Solver.new p mode options).run rounds ops)
      fun r => r.1.arrangement.Structured := by
  have hgiven : (Solver.new p mode options).problem.given = p.given := Arrangement.given_ofProblem
  refine (run_leads rounds (sound_new hp.consistent mode options) ops).mono (fun _ he => ?_)
    fun _ hr => hr.sound.intact.structured
  exact he.mono (Problem.size_vars_eq hgiven) (Problem.size_constraints_eq hgiven) fun _ hop => hop

theorem Solver.structured_run_fork : ∃ s replies,
    (Solver.new Problem.fork .batch Options.standard).run 2 [.solve, .setGap 1 3, .solve] =
      .ok (s, replies) ∧ s.arrangement.Structured := by
  have hok : Yields ((Solver.new Problem.fork .batch Options.standard).run 2
      [.solve, .setGap 1 3, .solve]) fun _ => True := by decide +kernel
  obtain ⟨⟨s, replies⟩, hr, -⟩ := hok
  exact ⟨s, replies, hr, (Solver.structured_run Problem.built_fork .batch Options.standard 2
    [.solve, .setGap 1 3, .solve]).of_ok hr⟩

theorem Solver.exists_run_fork : ∃ s replies,
    (Solver.new Problem.fork .incremental Options.standard).run 3 [.solve, .setGap 0 7, .refine] =
      .ok (s, replies) := by
  have hok : Yields ((Solver.new Problem.fork .incremental Options.standard).run 3
      [.solve, .setGap 0 7, .refine]) fun _ => True := by decide +kernel
  obtain ⟨⟨s, replies⟩, hr, -⟩ := hok
  exact ⟨s, replies, hr⟩

end Spacing
