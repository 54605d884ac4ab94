import Spacing.Proofs.Exact.Release

namespace Spacing

open Arrangement Relation

theorem Arrangement.journal_collectBoundaries {α : Type} [Scalar α] (a : Arrangement α)
    (bs : List BlockId) : (a.collectBoundaries bs).journal = a.journal :=
  collectBoundaries_keeps (I := fun a' => a'.journal = a.journal) (fun _ _ _ h => h) rfl bs

namespace Solver

variable {p : Problem Rat} {s t : Solver Rat} {c : ConId} {P P' : Event Rat → Prop}

theorem journal_scan (hs : s.Sound) : s.scan.1.journal = s.arrangement.journal :=
  (firstNegative_keeps (I := fun a => a.journal = s.arrangement.journal) (fun _ _ _ h => h)
    (hs.intact.steps (steps_collectBoundaries _ _)) (journal_collectBoundaries _ _)).2

def Restarts (s t : Solver Rat) : Prop :=
  s.refineOnce = .ok (t, some (.ok ()))

theorem Settled.mono (hs : Settled p P s) (h : ∀ e, P e → P' e) : Settled p P' s where
  feasible := { hs.feasible with tells := fun e he => h e (hs.feasible.tells e he) }
  watched := hs.watched

def Moves (e : Event Rat) : Prop :=
  e.isMerge = true ∨ e.isSplit = true

theorem Settled.scan (hs : Settled p P s) : s.scan.1.Feasible p P :=
  hs.feasible.still (still_scan hs.sound) (hs.sound.intact.steps (steps_scan hs.sound))
    (journal_scan hs.sound)

theorem Settled.rebalance (hs : Settled p Moves s) (hi : p.Inequalities) (hc : s.scan.2 = some c) :
    Yields (s.scan.1.rebalance c) (Feasible p Moves) := by
  obtain ⟨-, -, b, -, x, hx, hneg⟩ :=
    firstNegative_eq_some (hs.sound.intact.steps (steps_collectBoundaries _ _)) hc
  have hneg : x < 0 := hneg.trans (neg_neg_of_pos epsilon_pos)
  exact hs.scan.rebalance hi (fun _ _ _ => .inl rfl) (fun _ _ _ _ => .inr rfl) hx hneg

theorem Settled.refineOnce (hs : Settled p Moves s) (hi : p.Inequalities) :
    Yields s.refineOnce fun r => Settled p Moves r.1 ∧ ∀ reply, r.2 = some reply → reply = .ok () := by
  cases hc : s.scan.2 with
  | none =>
    rw [refineOnce_of_none hc]
    exact .ok ⟨⟨hs.scan, hs.watched⟩, fun _ h => by cases h⟩
  | some c =>
    rw [refineOnce_of_some hc]
    refine (hs.rebalance hi hc).bind fun a ha => ?_
    have hnext := settled_watchInactive (s := s) ha
    rw [resolve_of_none (hnext.nextViolated hi) 0]
    exact .ok ⟨hnext.cleanUp, fun _ h => (Option.some.inj h).symm⟩

theorem Settled.restarts (hs : Settled p Moves s) (hi : p.Inequalities)
    (h : ReflTransGen Restarts s t) : Settled p Moves t := by
  induction h with
  | refl => exact hs
  | tail _ ht ih => exact ((ih.refineOnce hi).of_ok ht).1

theorem Settled.refine (hs : Settled p Moves s) (hi : p.Inequalities) (rounds : Nat) :
    YieldsUnless (· = .outOfRounds) (s.refine rounds) fun r => r.2 = .ok () := by
  induction rounds generalizing s with
  | zero => exact .error rfl
  | succ rounds ih =>
    refine YieldsUnless.bind (.inr (hs.refineOnce hi)) fun ⟨t, reply⟩ ⟨ht, hreply⟩ => ?_
    cases reply with
    | none => exact .ok (congrArg Prod.snd (ht.writePositions.verify hi))
    | some reply =>
      obtain rfl := hreply reply rfl
      exact ih ht

/-- Without equalities and without cycles, a new batch solver that has come to a placement without
violations keeps to such placements however often a refinement restarts, never has anything to resolve
and does not fail. -/
theorem refine_feasible (hp : p.Built) (hacyclic : p.Acyclic) (hi : p.Inequalities)
    (options : Options Rat) : ∃ s,
      (Solver.new p .batch options).satisfy = .ok (s, .ok ()) ∧
      (∀ t, ReflTransGen Restarts s t →
        (∀ c < p.constraints.size, 0 ≤ t.arrangement.slack c) ∧
        (∀ b B, t.arrangement.block? b = some B → B.settle t.problem = B) ∧
        (∀ e ∈ eventsOf t.arrangement.journal.toList, e.isMerge = true ∨ e.isSplit = true) ∧
        ∀ c, t.scan.2 = some c → ∃ a, t.scan.1.rebalance c = .ok a ∧
          { t with arrangement := a }.cleanUp.watchInactive.nextViolated = none) ∧
      (∀ rounds, YieldsUnless (· = .outOfRounds) (s.refine rounds) fun r => r.2 = .ok ()) ∧
      ∀ rounds, YieldsUnless (· = .outOfRounds) ((Solver.new p .batch options).solve rounds)
        fun r => r.2 = .ok () := by
  have hc := hp.consistent
  have hswept := swept_ofProblem hc hp.weighted
  obtain ⟨s, hs, hsettled⟩ :=
    satisfyBatch_settles (s := Solver.new p .batch options) hc hacyclic hi hswept
  have hsettled : Settled p Moves s := hsettled.mono fun _ => .inl
  refine ⟨s, hs, fun t ht => ?_, hsettled.refine hi, fun rounds => ?_⟩
  · have hst := hsettled.restarts hi ht
    refine ⟨hst.feasible.satisfied, fun b B hB => hst.settle_eq hB, hst.feasible.tells, fun c hc => ?_⟩
    obtain ⟨a, ha, hf⟩ := hst.rebalance hi hc
    exact ⟨a, ha, (settled_watchInactive hf).nextViolated hi⟩
  · let n : Note Rat := .started (Solver.new p .batch options).problem.vars.size
      (Solver.new p .batch options).problem.constraints.size
    have hstart : Swept p [] ((Solver.new p .batch options).note n).arrangement := by
      refine hswept.still ⟨rfl, rfl, fun _ => rfl, fun _ => rfl, fun _ => rfl⟩ ?_ ?_
      · exact (((sound_new hc .batch options).with .refl).note n).sound.intact
      · exact fun e he => absurd he List.not_mem_nil
    obtain ⟨u, hu, husettled⟩ := satisfyBatch_settles hc hacyclic hi hstart
    refine YieldsUnless.bind (P := fun r => r = (u, .ok ())) (.inr ⟨_, hu, rfl⟩) ?_
    rintro _ rfl
    exact (husettled.mono fun _ => .inl).refine hi rounds

theorem refine_feasible_fork : ∃ s t,
    (Solver.new Problem.fork .batch Options.standard).satisfy = .ok (s, .ok ()) ∧
      Restarts s t ∧ ∀ c < 2, 0 ≤ t.arrangement.slack c := by
  obtain ⟨s, hs, hrun, -⟩ := refine_feasible Problem.built_fork Problem.acyclic_fork
    Problem.inequalities_fork Options.standard
  have hok : ((Solver.new Problem.fork .batch Options.standard).satisfy.toOption.bind
      fun r => r.1.scan.2).isSome = true := by decide +kernel
  rw [hs] at hok
  obtain ⟨c, hc⟩ := Option.isSome_iff_exists.mp hok
  have hc : s.scan.2 = some c := hc
  obtain ⟨a, ha, hnone⟩ := (hrun s .refl).2.2.2 c hc
  have ht : Restarts s { s with arrangement := a }.cleanUp.watchInactive.cleanUp := by
    rw [Restarts, refineOnce_of_some hc]
    exact bind_eq_ok.mpr ⟨a, ha, bind_eq_ok.mpr ⟨_, resolve_of_none hnone 0, rfl⟩⟩
  exact ⟨s, _, hs, ht, (hrun _ (.single ht)).1⟩

end Solver

end Spacing
