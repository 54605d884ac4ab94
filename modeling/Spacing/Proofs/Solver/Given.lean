import Spacing.Proofs.Solver.Watch

namespace Spacing.Solver

open Arrangement

variable {α : Type} [Scalar α] {s t u : Solver α} {E : Abort → Prop}

structure Pursues (s t : Solver α) : Prop where
  leads : s.Leads t
  given_eq : t.problem.given = s.problem.given

namespace Pursues

theorem trans (h : s.Pursues t) (h' : t.Pursues u) : s.Pursues u :=
  ⟨h.leads.trans h'.leads, h'.given_eq.trans h.given_eq⟩

variable (h : s.Pursues t)
include h

theorem check : s.Pursues t.writePositions.verify.1 := by
  have hverify (u : Solver α) : u.verify.1.problem = u.problem := by
    unfold verify
    split <;> rfl
  refine ⟨h.leads.writePositions.verify, Eq.trans ?_ h.given_eq⟩
  exact (congrArg Problem.given (hverify t.writePositions)).trans given_writePositions

theorem resolve (n : Nat) : Yields (t.resolve n) fun r => s.Pursues r.1 :=
  ((h.leads.resolve n).and (resolve_yields (Keeps.given s.problem) h.leads.sound h.given_eq n)).mono
    fun _ hr => ⟨hr.1, hr.2.2⟩

theorem enforce : Yields (t.resolve 0 >>= fun r => andThen r fun t => .ok t.writePositions.verify)
    fun r => s.Pursues r.1 := by
  refine (h.resolve 0).bind fun ⟨u, reply⟩ hu => ?_
  cases reply with
  | error e => exact .ok hu
  | ok => exact .ok hu.check

end Pursues

theorem pursues_rounds : RoundInvariant (Sound (α := α)) fun s r => s.Pursues r.1 where
  sound _ hs := hs
  next _ _ _ h := h.leads.sound
  trans _ _ _ _ h h' := h.trans h'
  still _ _ _ hl h := ⟨hl, h.given_eq⟩
  pass _ hs := ((splitBlocks_leads hs).and (splitBlocks_releases hs)).mono
    fun _ ⟨hl, _, h⟩ => ⟨hl, h.given_eq⟩
  enforce _ hs := Pursues.enforce ⟨hs.with .refl, rfl⟩

theorem satisfyBatch_pursues (hs : s.Sound) : Yields s.satisfyBatch fun r => s.Pursues r.1 := by
  have hmerged := (steps_mergeInOrder hs.intact s.problem.order).and
    (mergeInOrder_yields (loopInvariant_given s.problem .left) hs.intact rfl s.problem.order)
  refine hmerged.bind fun a ⟨hsteps, _, hgiven⟩ => ?_
  have ha : s.Pursues { s with arrangement := a }.cleanUp.watchInactive :=
    ⟨(hs.with hsteps).cleanUp.watchInactive, hgiven⟩
  exact ha.enforce

theorem satisfy_pursues (hs : s.Sound) : Yields s.satisfy fun r => s.Pursues r.1 := by
  unfold satisfy
  split
  · exact satisfyBatch_pursues hs
  · exact pursues_rounds.satisfyIncremental hs

theorem refineOnce_pursues (hs : s.Sound) : Yields s.refineOnce fun r => s.Pursues r.1 := by
  have hscan : s.Leads { s with arrangement := s.scan.1 } := hs.with (steps_scan hs)
  have hgiven := (still_scan hs).given_eq
  cases hc : s.scan.2 with
  | none =>
    rw [refineOnce_of_none hc]
    exact .ok ⟨hscan, hgiven⟩
  | some c =>
    have hactive := active_of_scan hs hc
    have hrebalance := (steps_rebalance hscan.sound.intact hactive).and
      (rebalance_retains hscan.sound.intact hactive)
    rw [refineOnce_of_some hc]
    refine hrebalance.bind fun a ⟨hsteps, hsame, _⟩ => ?_
    have ha : s.Pursues { s with arrangement := a }.cleanUp.watchInactive :=
      ⟨(hscan.trans (hscan.sound.with hsteps)).cleanUp.watchInactive, hsame.trans hgiven⟩
    exact (ha.resolve 0).bind fun r hr => .ok hr

theorem refine_pursues (hE : E .outOfRounds) (rounds : Nat) (hs : s.Sound) :
    YieldsUnless E (s.refine rounds) fun r => s.Pursues r.1 := by
  induction rounds generalizing s with
  | zero => exact .error hE
  | succ rounds ih =>
    refine YieldsUnless.bind (.inr (refineOnce_pursues hs)) fun ⟨t, reply⟩ ht => ?_
    cases reply with
    | none => exact .ok ht.check
    | some reply => exact pursues_rounds.andThen (r := (t, reply)) hs ht fun _ _ hu => ih hu

theorem solve_pursues (hE : E .outOfRounds) (rounds : Nat) (hs : s.Sound) :
    YieldsUnless E (s.solve rounds) fun r => s.Pursues r.1 := by
  unfold solve
  split
  · have hnote : s.Pursues (s.note (.started s.problem.vars.size s.problem.constraints.size)) :=
      ⟨(hs.with .refl).note _, rfl⟩
    refine YieldsUnless.bind (.inr (satisfy_pursues hnote.leads.sound)) fun r hr => ?_
    exact pursues_rounds.andThen hs (hnote.trans hr) fun _ _ ht => refine_pursues hE rounds ht
  · exact pursues_rounds.solveRounds hE rounds none 0 hs

end Spacing.Solver
