import Spacing.Proofs.Exact.Outcome
import Spacing.Proofs.Part.Interleaving
import Spacing.Proofs.Part.Sweep

namespace Spacing

open Arrangement

theorem Problem.Part.inequalities {e : Renaming} {p q : Problem Rat} (h : p.Part e q)
    (hi : p.Inequalities) : q.Inequalities := by
  intro c hc
  rw [← h.equality_eq c hc]
  exact hi _ (h.con_lt c hc)

namespace Solver

section

variable {α : Type} [Scalar α] {s t : Solver α} {r : Solver α × Reply α}

theorem refine_succ {rounds : Nat} (h : s.refine rounds = .ok r) : s.refine (rounds + 1) = .ok r := by
  induction rounds generalizing s with
  | zero => cases h
  | succ rounds ih =>
    rw [refine] at h ⊢
    obtain ⟨⟨t, reply⟩, ht, hr⟩ := bind_eq_ok.mp h
    apply bind_eq_ok.mpr
    refine ⟨(t, reply), ht, ?_⟩
    cases reply with
    | none => exact hr
    | some reply =>
      cases reply with
      | error e => exact hr
      | ok u => exact ih hr

end

variable {e : Renaming} {p q : Problem Rat} {s t : Solver Rat} {r : Solver Rat × Reply Rat}
  {rounds : Nat}

theorem mirrors_rebalanced {a b : Arrangement Rat} (h : Mirrors e q a b) :
    Mirrors e q (s.rebalanced a).arrangement (t.rebalanced b).arrangement :=
  ((Idle.cleanUp b).trans (.cleanUp _)).right (((Idle.cleanUp a).trans (.cleanUp _)).left h)

theorem Settled.refine_of_none (hs : Settled p Moves s) (hi : p.Inequalities) (hc : s.scan.2 = none) :
    s.refine (rounds + 1) = .ok ({ s with arrangement := s.scan.1 }.writePositions, .ok ()) := by
  have hend : Settled p Moves { s with arrangement := s.scan.1 } := ⟨hs.scan, hs.watched⟩
  rw [Solver.refine, refineOnce_of_none hc]
  exact congrArg Except.ok (hend.writePositions.verify hi)

theorem Settled.refine_mirrors (hs : Settled p Moves s) (ht : Settled q Moves t)
    (hp : p.Inequalities) (hq : q.Inequalities) (h : Mirrors e q s.arrangement t.arrangement)
    (hr : s.refine rounds = .ok r) : ∃ t', t.refine rounds = .ok (t', .ok ()) ∧
      ∀ v < q.vars.size, t'.problem.written v = r.1.problem.written (e.var v) := by
  -- By induction on the rounds of the whole: each of them is one of the part as well, or leaves the
  -- part as it is.
  induction rounds generalizing s t with
  | zero => cases hr
  | succ rounds ih =>
    have hscan := scan_eq_findSome hs.sound
    have hscan' := scan_eq_findSome ht.sound
    have hmid : Mirrors e q s.scan.1 t.arrangement := (idle_scan hs.sound).left h
    have hmid' : Mirrors e q s.scan.1 t.scan.1 := (idle_scan ht.sound).right hmid
    cases hc : s.scan.2 with
    | none =>
      have hc' : t.scan.2 = none := hscan'.trans (h.findNegative_none (hscan.symm.trans hc))
      rw [hs.refine_of_none hp hc] at hr
      cases hr
      refine ⟨_, ht.refine_of_none hq hc', fun v hv => ?_⟩
      calc t.scan.1.writePositions.problem.written v
        _ = t.scan.1.position v := Arrangement.written_writePositions (hmid'.var_lt' hv)
        _ = s.scan.1.position (e.var v) := (hmid'.position_eq hv).symm
        _ = s.scan.1.writePositions.problem.written (e.var v) :=
          (Arrangement.written_writePositions (hmid'.var_lt hv)).symm
    | some c =>
      obtain ⟨a, ha, hf, hstep⟩ := hs.refineOnce_of_scan hp hc
      rw [Solver.refine, hstep] at hr
      rcases h.findNegative_some (hscan.symm.trans hc) with ⟨d, hd, rfl, hd'⟩ | hapart
      · have hc' := hscan'.trans hd'
        obtain ⟨b, hb, hf', hstep'⟩ := ht.refineOnce_of_scan hq hc'
        obtain ⟨a', b', ha', hb', hnext⟩ := hmid'.rebalance hd (active_of_scan ht.sound hc')
        obtain rfl := Except.ok.inj (ha.symm.trans ha')
        obtain rfl := Except.ok.inj (hb.symm.trans hb')
        rw [Solver.refine, hstep']
        exact ih (settled_rebalanced hf) (settled_rebalanced hf') (mirrors_rebalanced hnext) hr
      · -- The part alone has nothing to do in this round, so it may need one round less.
        have hnext := (hmid.rebalance_apart hapart (active_of_scan hs.sound hc)).of_ok ha
        have hidle := (Idle.cleanUp a).trans (.cleanUp _)
        obtain ⟨t', ht', hwritten⟩ := ih (settled_rebalanced hf) ht (hidle.left hnext) hr
        exact ⟨t', refine_succ ht', hwritten⟩

theorem mirrors_begun (h : p.Part e q) (hp : p.Consistent) (hq : q.Consistent)
    (options : Options Rat) :
    Mirrors e q (begun p options).arrangement (begun q options).arrangement := by
  have hlog (p : Problem Rat) : Idle (ofProblem p) (begun p options).arrangement :=
    .log _ fun _ h => by cases h
  exact (hlog q).right ((hlog p).left (mirrors_ofProblem h hp hq))

theorem solve_of_mergeInOrder {a : Arrangement Rat} {options : Options Rat} (hp : p.Built)
    (hacyclic : p.Acyclic) (hi : p.Inequalities)
    (ha : (begun p options).arrangement.mergeInOrder p.order = .ok a) :
    ∃ s, Settled p Moves s ∧ Idle a s.arrangement ∧
      (new p .batch options).solve rounds = s.refine rounds := by
  have hstart := swept_begun hp options
  have hswept := (swept_mergeInOrder hp.consistent hacyclic hi hstart).of_ok ha
  have hsettled := settled_watchInactive (s := begun p options) (hswept.feasible hp.consistent)
  refine ⟨_, hsettled.cleanUp.writePositions.mono fun _ => .inl,
    ((Idle.cleanUp a).trans (.cleanUp _)).trans (.writePositions _), ?_⟩
  change (begun p options).satisfyBatch >>= (fun r => andThen r (Solver.refine rounds)) = _
  rw [satisfyBatch_of_swept hp.consistent hi hstart.given_eq ha hswept]
  rfl

theorem solve_part (hp : p.Built) (hq : q.Built) (h : p.Part e q) (hacyclic : p.Acyclic)
    (hi : p.Inequalities) {options : Options Rat}
    (hr : (new p .batch options).solve rounds = .ok r) :
    ∃ t, (new q .batch options).solve rounds = .ok (t, .ok ()) ∧
      ∀ v < q.vars.size, t.problem.written v = r.1.problem.written (e.var v) := by
  have hlt (w : VarId) (hw : w ∈ p.order) : w < (begun p options).arrangement.problem.vars.size := by
    rw [Problem.size_vars_eq (swept_begun hp options).given_eq]
    exact Problem.mem_order.mp hw
  obtain ⟨a, b, ha, hb, hm⟩ := (mirrors_begun h hp.consistent hq.consistent options).mergeInOrder hlt
    (h.order_filter hp.consistent hq.consistent)
  have hi' := h.inequalities hi
  obtain ⟨s, hs, hidle, hrun⟩ := solve_of_mergeInOrder hp hacyclic hi ha
  obtain ⟨t, ht, hidle', hrun'⟩ := solve_of_mergeInOrder hq (h.acyclic hacyclic) hi' hb
  rw [hrun] at hr
  rw [hrun']
  exact hs.refine_mirrors ht hi hi' (hidle'.right (hidle.left hm)) hr

/-- Two problems side by side do not disturb each other: without equalities and cycles, the variables of
each are placed exactly where a batch run on it alone places them. -/
theorem solve_interleaved {e₁ e₂ : Renaming} {p₁ p₂ : Problem Rat} (hp : p.Built) (hp₁ : p₁.Built)
    (hp₂ : p₂.Built) (h : p.Interleaving e₁ e₂ p₁ p₂) (hacyclic : p.Acyclic) (hi : p.Inequalities)
    {options : Options Rat} {reply : Reply Rat}
    (hs : (new p .batch options).solve rounds = .ok (s, reply)) : ∃ t₁ t₂,
      (new p₁ .batch options).solve rounds = .ok (t₁, .ok ()) ∧
      (new p₂ .batch options).solve rounds = .ok (t₂, .ok ()) ∧
      (∀ v < p₁.vars.size, t₁.problem.written v = s.problem.written (e₁.var v)) ∧
      ∀ v < p₂.vars.size, t₂.problem.written v = s.problem.written (e₂.var v) := by
  obtain ⟨t₁, ht₁, hwritten₁⟩ := solve_part hp hp₁ h.first hacyclic hi hs
  obtain ⟨t₂, ht₂, hwritten₂⟩ := solve_part hp hp₂ h.second hacyclic hi hs
  exact ⟨t₁, t₂, ht₁, ht₂, hwritten₁, hwritten₂⟩

end Solver

namespace Problem

def pair : Problem Rat :=
  ((empty.insertVariable 0 2 1).insertVariable 1 0 1).insertConstraint 0 1 1 false

theorem edits_pair : empty.edits [.addVariable 0 2 1, .addVariable 1 0 1,
    .addConstraint 0 1 1 false] = .ok pair := rfl

theorem edits_fork : empty.edits [.addVariable 0 4 1, .addVariable 1 0 1, .addVariable 2 4 1,
    .addConstraint 0 1 1 false, .addConstraint 0 2 1 false] = .ok fork := rfl

def woven : Problem Rat :=
  (((((((empty.insertVariable 0 4 1).insertVariable 1 2 1).insertVariable 2 0 1).insertVariable
    3 0 1).insertVariable 4 4 1).insertConstraint 0 2 1 false).insertConstraint 1 3 1
      false).insertConstraint 0 4 1 false

theorem edits_woven : empty.edits [.addVariable 0 4 1, .addVariable 1 2 1, .addVariable 2 0 1,
    .addVariable 3 0 1, .addVariable 4 4 1, .addConstraint 0 2 1 false, .addConstraint 1 3 1 false,
    .addConstraint 0 4 1 false] = .ok woven := rfl

def evens : Renaming where
  var v := 2 * v
  con c := 2 * c
  var_mono _ _ h := Nat.mul_lt_mul_of_pos_left h Nat.two_pos
  con_mono _ _ h := Nat.mul_lt_mul_of_pos_left h Nat.two_pos

def odds : Renaming where
  var v := 2 * v + 1
  con c := 2 * c + 1
  var_mono _ _ h := Nat.succ_lt_succ (Nat.mul_lt_mul_of_pos_left h Nat.two_pos)
  con_mono _ _ h := Nat.succ_lt_succ (Nat.mul_lt_mul_of_pos_left h Nat.two_pos)

theorem interleaving_woven : woven.Interleaving evens odds fork pair := by
  have hp : woven.Built := Built.empty.edits _ edits_woven
  have hp₂ : pair.Built := Built.empty.edits _ edits_pair
  apply Interleaving.of_ascending _ _ hp.consistent built_fork.consistent hp₂.consistent
    (ascending_edits (by decide) edits_woven) (ascending_edits (by decide) edits_fork)
    (ascending_edits (by decide) edits_pair)
  · decide +kernel
  · decide +kernel
  · constructor <;> decide +kernel
  · constructor <;> decide +kernel

end Problem

theorem Solver.solve_interleaved_woven : ∃ s t₁ t₂,
    (new Problem.woven .batch Options.standard).solve 2 = .ok (s, .ok ()) ∧
    (new Problem.fork .batch Options.standard).solve 2 = .ok (t₁, .ok ()) ∧
    (new Problem.pair .batch Options.standard).solve 2 = .ok (t₂, .ok ()) ∧
    (∀ v < 3, t₁.problem.written v = s.problem.written (2 * v)) ∧
    ∀ v < 2, t₂.problem.written v = s.problem.written (2 * v + 1) := by
  have hok : Yields ((new Problem.woven .batch Options.standard).solve 2) fun r => r.2 = .ok () := by
    decide +kernel
  have hinequalities : Problem.woven.Inequalities := by
    unfold Problem.Inequalities
    decide +kernel
  obtain ⟨⟨s, reply⟩, hs, hreply⟩ := hok
  cases hreply
  obtain ⟨t₁, t₂, ht⟩ := solve_interleaved (.edits .empty _ Problem.edits_woven) Problem.built_fork
    (.edits .empty _ Problem.edits_pair) Problem.interleaving_woven
    (Problem.acyclic_of_left_lt_right (by decide +kernel)) hinequalities hs
  exact ⟨s, t₁, t₂, hs, ht⟩

end Spacing
