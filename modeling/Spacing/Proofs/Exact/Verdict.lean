import Spacing.Proofs.Exact.Obstruction
import Spacing.Proofs.Solver.Structure

namespace Spacing

open Arrangement

/-- What the failures of runs may be about if the problem can be satisfied: a limit on splits that was
too low, or an inequality that was lost before. -/
def Failure.Excusable (p : Problem Rat) (limit : Nat) (lost : Set ConId) : Failure Rat → Prop
  | .unsatisfied c .. => c ∈ lost ∧ c ∉ p.equalities
  | .cycle _ _ _ n => limit < n

namespace Solver

variable {s t u : Solver Rat} {mode : Mode} {options : Options Rat} {lost : Set ConId} {c : ConId}
  {y : VarId → Rat} {n : Nat} {r : Solver Rat × Reply Rat} {reply : Reply Rat} {step : Step Rat}

theorem Resolves.given_eq (h : s.Resolves n step) : step.solver.problem.given = s.problem.given := by
  cases h with
  | finished => rfl
  | merged hc hgiven => exact hgiven
  | limited => rfl
  | exchanged hc hf hreleasable hleft hright hgiven => exact hgiven
  | dropped hc htogether hwedged hstill => exact hstill.given_eq
  | stuck hc htogether hwedged hstill => exact hstill.given_eq

structure Judged (mode : Mode) (options : Options Rat) (lost : Set ConId) (s : Solver Rat)
    (r : Solver Rat × Reply Rat) : Prop where
  leads : s.Leads r.1
  accounted : Accounted mode options (lost ∪ r.2.named) r.1
  excusable : ∀ e, r.2 = .error e → ∀ y, r.1.problem.Satisfied y →
    e.Excusable r.1.problem options.maxSplits lost

theorem Accounted.mono {lost' : Set ConId} (h : Accounted mode options lost s) (hl : lost ⊆ lost') :
    Accounted mode options lost' s :=
  ⟨h.sound, h.mode_eq, h.options_eq, h.ledger.mono hl⟩

theorem Accounted.of_ok (h : Accounted mode options (lost ∪ Reply.named (.ok () : Reply Rat)) s) :
    Accounted mode options lost s :=
  h.mono (Set.union_subset (Set.Subset.refl _) (Set.empty_subset _))

theorem Accounted.judged (hl : s.Leads t) (h : Accounted mode options lost t) :
    Judged mode options lost s (t, .ok ()) where
  leads := hl
  accounted := h.mono Set.subset_union_left
  excusable := by
    intro e he
    cases he

theorem Judged.from (hl : s.Leads t) (h : Judged mode options lost t r) :
    Judged mode options lost s r :=
  ⟨hl.trans h.leads, h.accounted, h.excusable⟩

namespace Accounted

variable (h : Accounted mode options lost s) (hb : s.arrangement.Balanced)
include h hb

theorem resolve (hbatch : mode = .batch → ∃ y, s.problem.Satisfied y) (n : Nat) :
    Yields (s.resolve n) fun r => Judged mode options lost s r ∧ (r.2 = .ok () → r.1.Quiet) := by
  let I (u : Solver Rat) : Prop := s.Leads u ∧ Accounted mode options lost u ∧
    u.problem.given = s.problem.given
  apply (resolve_induct (I := I) (Q := fun t reply =>
    Judged mode options lost s (t, reply) ∧ (reply = .ok () → t.Quiet)) ?_ ?_ h.sound ?_ n).mono
  · intro r hr
    exact hr.2
  · intro u n t m _ ⟨hl, hu, hg⟩ hl' hr
    refine ⟨hl.trans hl', hu.resumed hl' hr ?_, hr.given_eq.trans hg⟩
    intro c hc htogether hw hgoes
    -- Among constraints that can all hold, only an equality is left without a way out.
    rcases hgoes with himplied | hmode
    · exact mem_equalities_of_isImplied himplied
    · obtain ⟨y, hy⟩ := hbatch (hu.mode_eq ▸ hmode)
      exact (hu.of_wedged (hb.steps h.sound.intact hl.steps) (hy.given hg.symm) hc htogether hw).1
  · intro u n t reply _ ⟨hl, hu, hg⟩ hl' hr
    refine ⟨⟨hl.trans hl', hu.finished hl' hr, ?_⟩, ?_⟩
    · intro e he y hy
      have hgiven : t.problem.given = u.problem.given := hr.given_eq
      cases hr with
      | finished => cases he
      | limited hc htogether hlimit =>
        cases he
        have hlimit := hu.options_eq ▸ hlimit
        change options.maxSplits < n + 1
        omega
      | stuck hc htogether hw hstill hstops =>
        exfalso
        apply hstops
        exact .inl (hu.not_stuck (hb.steps h.sound.intact hl.steps) (hy.given hgiven) hc htogether hw)
    · intro hok
      cases hr with
      | finished hnone => exact quiet_of_nextViolated hnone
      | limited => cases hok
      | stuck => cases hok
  · exact ⟨⟨h.sound, .refl⟩, h, rfl⟩

theorem slack_of_quiet (hy : s.problem.Satisfied y) (hquiet : s.Quiet)
    (hc : c < s.problem.constraints.size) :
    (c ∈ s.problem.equalities → s.arrangement.slack c = 0) ∧
      (s.arrangement.slack c < -Scalar.epsilon → c ∈ lost ∧ c ∉ s.problem.equalities) := by
  have ha := h.sound.intact
  have heps := epsilon_pos
  have hbond (hQ : c ∈ s.problem.equalities) : s.arrangement.slack c = 0 := by
    have hnone : ∀ d ∈ { d | d ∈ s.inactive }, d ∉ s.problem.equalities := by
      intro d hd hdQ
      exact Bool.false_ne_true ((hquiet d hd).1.symm.trans hdQ)
    exact slack_eq_zero_of_linked ha hb hy hQ (h.ledger.upheld hnone c hQ)
  refine ⟨hbond, fun hviolated => ?_⟩
  have hQ : c ∉ s.problem.equalities := by
    intro hQ
    rw [hbond hQ] at hviolated
    linarith
  refine ⟨?_, hQ⟩
  rcases h.ledger.listed c hc hQ with hactive | hwatched | hlost
  · rw [hb.slack_of_active ha hactive] at hviolated
    linarith
  · exact absurd hviolated (hquiet c hwatched).2
  · exact hlost

theorem verify (hquiet : s.Quiet) : Judged mode options lost s s.verify := by
  have hl : s.Leads s.verify.1 := Leads.verify ⟨h.sound, .refl⟩
  unfold Solver.verify at hl ⊢
  split at hl
  · exact h.judged hl
  · rename_i c hfound
    refine ⟨hl, ?_, ?_⟩
    · exact (h.still hl rfl rfl rfl rfl rfl).mono Set.subset_union_left
    · intro e he y hy
      cases he
      have hy : s.problem.Satisfied y := hy
      have hlt : c < s.problem.constraints.size := by
        apply List.mem_range.mp
        exact List.mem_of_find?_eq_some hfound
      obtain ⟨hbond, hviolated⟩ := h.slack_of_quiet hb hy hquiet hlt
      have hunsatisfied := List.find?_some hfound
      rw [Bool.or_eq_true_iff, Bool.and_eq_true_iff, decide_eq_true_iff, decide_eq_true_iff]
        at hunsatisfied
      rcases hunsatisfied with hslack | ⟨hQ, hslack⟩
      · exact hviolated hslack
      · rw [hbond hQ] at hslack
        exact absurd hslack (not_lt.mpr epsilon_pos.le)

theorem verify_written (hquiet : s.Quiet) :
    Judged mode options lost s s.writePositions.verify := by
  have hl : s.Leads s.writePositions := Leads.writePositions ⟨h.sound, .refl⟩
  have hstill := still_writePositions s.arrangement
  have hwritten := h.still hl hstill.given_eq hstill.active_eq rfl rfl rfl
  exact (hwritten.verify (hb.still hstill) (hquiet.still hstill rfl)).from hl

end Accounted

theorem judged_rounds : RoundInvariant (fun s => Accounted .incremental options lost s ∧
    s.arrangement.Balanced) (Judged .incremental options lost) where
  sound _ h := h.1.sound
  next s t h hr := ⟨hr.accounted.of_ok, h.2.steps h.1.sound.intact hr.leads.steps⟩
  trans _ _ _ _ hr hr' := hr'.from hr.leads
  still s t h hl hr := (h.1.releases hl hr).judged hl
  pass s h := h.1.splitBlocks.mono fun _ ⟨hl, ht⟩ => ht.judged hl
  enforce s h := by
    apply (h.1.resolve h.2 (fun hm => by cases hm) 0).bind
    intro ⟨t, reply⟩ ⟨hr, hquiet⟩
    cases reply with
    | error e => exact .ok hr
    | ok =>
      have hb := h.2.steps h.1.sound.intact hr.leads.steps
      exact .ok ((hr.accounted.of_ok.verify_written hb (hquiet rfl)).from hr.leads)

section Incremental

variable (h : Accounted .incremental options lost s) (hb : s.arrangement.Balanced)
include h hb

theorem perform_judged {rounds : Nat} {op : Operation Rat} (hop : op ≠ .refine)
    (hr : s.perform rounds op = .ok r) : Judged .incremental options lost s r := by
  cases op with
  | solve =>
    rw [perform, solve, h.mode_eq] at hr
    exact (judged_rounds.solveRounds (E := fun _ => True) trivial rounds none 0 ⟨h, hb⟩).of_ok hr
  | satisfy =>
    rw [perform, satisfy, h.mode_eq] at hr
    exact (judged_rounds.satisfyIncremental ⟨h, hb⟩).of_ok hr
  | refine => exact absurd rfl hop
  | settle =>
    cases hr
    exact judged_rounds.still s _ ⟨h, hb⟩ (settleBlocks_leads h.sound) (settleBlocks_releases s)
  | split =>
    obtain ⟨t, ht, hr⟩ := bind_eq_ok.mp hr
    cases hr
    exact (judged_rounds.pass s ⟨h, hb⟩).of_ok ht
  | setDesired v desired =>
    obtain ⟨t, ht, hr⟩ := bind_eq_ok.mp hr
    cases hr
    obtain ⟨hl, ht⟩ := h.setDesired ht
    exact ht.judged hl
  | setGap c gap =>
    obtain ⟨t, ht, hr⟩ := bind_eq_ok.mp hr
    cases hr
    obtain ⟨hl, ht⟩ := h.setGap ht
    exact ht.judged hl

end Incremental

def named (replies : List (Reply Rat)) : Set ConId :=
  { c | ∃ reply ∈ replies, c ∈ reply.named }

theorem run_accounted {rounds : Nat} {ops : List (Operation Rat)} {replies : List (Reply Rat)}
    (h : Accounted .incremental options lost s) (hb : s.arrangement.Balanced)
    (hops : .refine ∉ ops) (hr : s.run rounds ops = .ok (t, replies)) :
    s.Leads t ∧ Accounted .incremental options (lost ∪ named replies) t := by
  induction ops generalizing s lost replies with
  | nil =>
    cases hr
    exact ⟨⟨h.sound, .refl⟩, h.mono Set.subset_union_left⟩
  | cons op ops ih =>
    rw [List.mem_cons, not_or] at hops
    obtain ⟨⟨u, reply⟩, hu, hr⟩ := bind_eq_ok.mp hr
    obtain ⟨⟨t', rest⟩, ht, hr⟩ := bind_eq_ok.mp hr
    cases hr
    have hj := perform_judged h hb (Ne.symm hops.1) hu
    obtain ⟨hl, hacc⟩ := ih hj.accounted (hb.steps h.sound.intact hj.leads.steps) hops.2 ht
    refine ⟨hj.leads.trans hl, hacc.mono ?_⟩
    intro c hc
    rcases hc with (hc | hc) | ⟨reply', hmem, hc⟩
    · exact .inl hc
    · exact .inr ⟨reply, List.mem_cons_self, hc⟩
    · exact .inr ⟨reply', List.mem_cons_of_mem _ hmem, hc⟩

theorem accounted_new {p : Problem Rat} (hp : p.Consistent) (options : Options Rat) :
    Accounted .incremental options ∅ (Solver.new p .incremental options) where
  sound := sound_new hp .incremental options
  mode_eq := rfl
  options_eq := rfl
  ledger := by
    have hactive : (Solver.new p .incremental options).problem.active = ∅ := active_ofProblem
    have hsize : (Solver.new p .incremental options).problem.constraints.size = p.constraints.size :=
      Problem.size_constraints_eq given_ofProblem
    have hwatched (c : ConId) (hc : c < (Solver.new p .incremental options).problem.constraints.size) :
        c ∈ (Solver.new p .incremental options).inactive :=
      List.mem_range.mpr (hsize ▸ hc)
    rw [Ledger, hactive]
    constructor
    · intro c hc _
      exact .inr (.inl (hwatched c hc))
    · intro d hd
      exact hd.elim
    · intro c hQ
      apply Edges.Linked.edge
      exact ⟨hQ, .inr (hwatched c (Problem.lt_size_of_mem_equalities hQ))⟩

theorem accounted_of_run {p : Problem Rat} (hp : p.Built) {rounds : Nat} {ops : List (Operation Rat)}
    {replies : List (Reply Rat)} (hops : .refine ∉ ops)
    (hrun : (Solver.new p .incremental options).run rounds ops = .ok (s, replies)) :
    Accounted .incremental options (named replies) s ∧ s.arrangement.Balanced := by
  obtain ⟨hl, hs⟩ := run_accounted (accounted_new hp.consistent options)
    (balanced_new hp .incremental options) hops hrun
  rw [Set.empty_union] at hs
  exact ⟨hs, balanced_of_leads hp hl⟩

end Solver

end Spacing
