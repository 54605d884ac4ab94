import Spacing.Proofs.Frame.Solver
import Spacing.Proofs.Solver.Answer

namespace Spacing

variable {α : Type} [Scalar α] {p p₀ q : Problem α} {s : Solver α}

/-- All places as they are, and in the variables the positions that `q` has stored. -/
def Frame.stale (q : Problem α) : Frame α where
  place x := x
  moment _ x := x
  written v _ := (q.variableAt v).position

def Solver.unwritten (s : Solver α) : Solver α :=
  { s with arrangement.problem.vars := s.problem.vars.map fun x => { x with position := Scalar.zero } }

def Operation.Succeeds (op : Operation α) (reply : Reply α) : Prop :=
  (op = .solve ∨ op = .satisfy ∨ op = .refine) ∧ reply = .ok ()

namespace Frame

theorem inertial_stale (q : Problem α) : (stale q).Inertial fun _ => True where
  place_sub _ _ := rfl
  place_add _ _ := rfl
  place_mul _ _ := rfl
  seen_join _ _ _ _ _ _ _ _ _ _ := rfl
  seen_settle a ha _ b B hB := by
    have hpull : Block.pullOf (a.problem.seen (stale q)) B.members =
        Block.pullOf a.problem B.members := by
      refine congrArg Scalar.sum (List.map_congr_left fun v hv => ?_)
      rw [Problem.variableAt_seen (ha.lt_of_mem hB hv)]
      rfl
    let settled (x : α) : Block α := { B with weightedPosition := x, position := x / B.weight }
    exact congrArg settled hpull
  fit_step _ _ _ _ _ := trivial

section Still

variable {f : Frame α} (hplace : ∀ x, f.place x = x) (hmoment : ∀ w x, f.moment w x = x)
include hplace hmoment

omit [Scalar α] in
theorem map_blocks_seen (blocks : Array (Option (Block α))) :
    blocks.map (Option.map (Block.seen f)) = blocks := by
  have hblock : Block.seen f = id := funext fun B => by simp only [Block.seen, hplace, hmoment, id]
  rw [hblock, Option.map_id, Array.map_id]

theorem unwritten_seen (s : Solver α) : (s.seen f).unwritten = s.unwritten := by
  have hvars : (s.problem.vars.mapIdx fun v x => Variable.seen f v x).map
      (fun x : Variable α => { x with position := Scalar.zero }) =
        s.problem.vars.map fun x => { x with position := Scalar.zero } := by
    apply Array.ext
    · simp
    · intro v h₁ h₂
      simp [Variable.seen, hplace]
  change { s with arrangement := { s.arrangement with
    problem.vars := (s.problem.vars.mapIdx fun v x => Variable.seen f v x).map fun x : Variable α =>
      { x with position := Scalar.zero }
    blocks := s.arrangement.blocks.map (Option.map (Block.seen f)) } } = _
  rw [hvars, map_blocks_seen hplace hmoment]
  rfl

omit [Scalar α] in
theorem seen_self (hwritten : ∀ v (hv : v < s.problem.vars.size),
      f.written v s.problem.vars[v].position = s.problem.vars[v].position) : s.seen f = s := by
  have hvars : s.problem.vars.mapIdx (fun v x => x.seen f v) = s.problem.vars := by
    apply Array.ext
    · simp
    · intro v h₁ h₂
      simp only [Array.getElem_mapIdx, Variable.seen, hplace, hwritten v h₂]
  change { s with arrangement := { s.arrangement with
    problem.vars := s.problem.vars.mapIdx fun v x => x.seen f v
    blocks := s.arrangement.blocks.map (Option.map (Block.seen f)) } } = s
  rw [hvars, map_blocks_seen hplace hmoment]
  rfl

end Still

theorem seen_rewritten_stale (s : Solver α) : s.seen (stale q).rewritten = s :=
  seen_self (fun _ => rfl) (fun _ _ => rfl) fun _ _ => rfl

theorem seen_stale_of_written (hs : s.Sound) (hw : s.Written) (hw' : (s.seen (stale q)).Written) :
    s.seen (stale q) = s := by
  refine seen_self (fun _ => rfl) (fun _ _ => rfl) fun v hv => ?_
  have hx : (s.problem.variableAt v) = s.problem.vars[v] := by simp [Problem.variableAt, hv]
  have hx' : (s.seen (stale q)).problem.variableAt v = (s.problem.variableAt v).seen (stale q) v :=
    Problem.variableAt_seen hv
  have hposition : (s.seen (stale q)).arrangement.position v = s.arrangement.position v :=
    (inertial_stale q).position hs.intact hv
  have hstored := hw' v (by simpa [Solver.problem, Solver.seen, Arrangement.seen] using hv)
  rw [hx', hposition, ← hw v hv, hx] at hstored
  exact hstored

end Frame

theorem Arrangement.ofProblem_congr (h : (ofProblem q).problem = (ofProblem p).problem) :
    ofProblem q = ofProblem p := by
  have hn : q.vars.size = p.vars.size := by
    simpa [ofProblem] using congrArg (fun r : Problem α => r.vars.size) h
  change Arrangement.mk (ofProblem q).problem ((Array.range q.vars.size).map fun v =>
    some ((Block.place (ofProblem q).problem [v] Scalar.zero).settle (ofProblem q).problem))
      (ofProblem q).problem.variableIds #[] = _
  rw [h, hn]
  rfl

namespace Solver

theorem new_stale (hp : p.Consistent) (hq : q.given = p.given) (mode : Mode) (options : Options α) :
    new q mode options = (new p mode options).seen (Frame.stale q) := by
  have hn : q.vars.size = p.vars.size := Problem.size_vars_eq hq
  have hvars : (Arrangement.ofProblem q).problem.vars =
      (Arrangement.ofProblem (p.seen (Frame.stale q))).problem.vars := by
    apply Array.ext
    · simpa [Arrangement.ofProblem] using hn
    · intro v h₁ h₂
      have hv : v < q.vars.size := by simpa [Arrangement.ofProblem] using h₁
      have hv' : v < p.vars.size := hn ▸ hv
      have hgiven : q.vars[v].given = p.vars[v].given := by
        simpa [Problem.variableAt, hv, hv'] using Problem.variable_given_eq hq v
      simp only [Variable.given, Variable.mk.injEq] at hgiven
      simp [Arrangement.ofProblem, Problem.seen, Variable.seen, Frame.stale, Problem.variableAt, hv,
        hgiven]
  have hconstraints : (Arrangement.ofProblem q).problem.constraints =
      (Arrangement.ofProblem (p.seen (Frame.stale q))).problem.constraints :=
    (congrArg (fun r : Problem α => r.constraints) hq :)
  have hnew : Arrangement.ofProblem q = (Arrangement.ofProblem p).seen (Frame.stale q) :=
    (Arrangement.ofProblem_congr (congrArg₂ Problem.mk hvars hconstraints)).trans
      ((Frame.inertial_stale q).ofProblem hp trivial)
  have hids : q.constraintIds = p.constraintIds := by
    rw [Problem.constraintIds, Problem.size_constraints_eq hq, Problem.constraintIds]
  rw [new, hnew, hids]
  rfl

theorem perform_stale (hs : s.Sound) (hs' : (s.seen (Frame.stale q)).Sound) (rounds : Nat)
    (op : Operation α) : Alongside (fun r r' => r' = r ∨
        r' = (Frame.stale q).image r ∧ ¬ op.Succeeds r.2)
      (s.perform rounds op) ((s.seen (Frame.stale q)).perform rounds op) := by
  -- Solvers that differ by what is stale are one solver in two frames.
  have hf := Frame.inertial_stale q
  have hop : op.seen (Frame.stale q) = op := by
    cases op <;> rfl
  have h := hf.perform ⟨hs, trivial⟩ rounds op
  rw [hop] at h
  refine h.mono fun r r' hr hr' hagrees => ?_
  rcases hagrees with rfl | rfl
  · by_cases hsucceeds : op.Succeeds r.2
    · left
      obtain ⟨hmethod, hreply⟩ := hsucceeds
      obtain ⟨hsound, hanswers⟩ := (perform_answers hs hmethod rounds).of_ok hr
      obtain ⟨-, hanswers'⟩ := (perform_answers hs' hmethod rounds).of_ok hr'
      rw [hreply] at hanswers
      have hreply' : ((Frame.stale q).image r).2 = .ok () := hreply
      rw [hreply'] at hanswers'
      exact Prod.ext (Frame.seen_stale_of_written hsound hanswers.1 hanswers'.1) rfl
    · exact .inr ⟨rfl, hsucceeds⟩
  · exact .inl (Prod.ext (Frame.seen_rewritten_stale r.1) rfl)

theorem run_stale (hs : s.Sound) (hs' : (s.seen (Frame.stale q)).Sound) (rounds : Nat)
    (ops : List (Operation α)) : Alongside (fun r r' => r' = r ∨
        r' = (Frame.stale q).image r ∧ ∀ x ∈ ops.zip r.2, ¬ x.1.Succeeds x.2)
      (s.run rounds ops) ((s.seen (Frame.stale q)).run rounds ops) := by
  induction ops generalizing s with
  | nil => exact .ok (.inr ⟨rfl, by simp⟩)
  | cons op ops ih =>
    refine (perform_stale hs hs' rounds op).bind fun r r' hr hr' h => ?_
    rcases h with rfl | ⟨rfl, hfails⟩
    · exact .refl fun _ => .inl rfl
    · have ht := ((perform_leads rounds hs op).of_ok hr).sound
      have ht' := ((perform_leads rounds hs' op).of_ok hr').sound
      refine (ih ht ht').bind fun _ _ _ _ h => .ok ?_
      rcases h with rfl | ⟨rfl, hall⟩
      · exact .inl rfl
      · exact .inr ⟨rfl, List.forall_mem_cons.mpr ⟨hfails, hall⟩⟩

/-- Whatever earlier solvers left behind in two copies of a problem, new ones perform all operations
alike: they abort or reply alike, and all that they keep is the same, except that stored positions may be
stale as long as no operation that runs to a placement has succeeded. -/
theorem run_renewed (hp₀ : p₀.Built) (hp : p.given = p₀.given) (hq : q.given = p₀.given) (mode : Mode)
    (options : Options α) (rounds : Nat) (ops : List (Operation α)) :
    Alongside (fun r r' => r'.2 = r.2 ∧ r'.1.unwritten = r.1.unwritten ∧
        (∀ v < r.1.problem.vars.size, r'.1.arrangement.position v = r.1.arrangement.position v) ∧
        ((∃ x ∈ ops.zip r.2, x.1.Succeeds x.2) → r'.1 = r.1))
      ((new p mode options).run rounds ops) ((new q mode options).run rounds ops) := by
  have hconsistent := hp₀.consistent.of_given hp
  have hs := sound_new hconsistent mode options
  have hs' := sound_new (hp₀.consistent.of_given hq) mode options
  have hnew := new_stale hconsistent (hq.trans hp.symm) mode options
  rw [hnew] at hs' ⊢
  refine (run_stale hs hs' rounds ops).mono fun r r' hr _ h => ?_
  rcases h with rfl | ⟨rfl, hfails⟩
  · exact ⟨rfl, rfl, fun _ _ => rfl, fun _ => rfl⟩
  · have ha := (leads_of_run hconsistent hr).sound.intact
    refine ⟨rfl, Frame.unwritten_seen (fun _ => rfl) (fun _ _ => rfl) r.1,
      fun v hv => (Frame.inertial_stale q).position ha hv, ?_⟩
    rintro ⟨x, hx, hsucceeds⟩
    exact absurd hsucceeds (hfails x hx)

theorem run_renewed_fork : ∃ s t replies,
    (new Problem.fork .batch Options.standard).run 2 [.solve] = .ok (s, replies) ∧
    s.problem ≠ Problem.fork ∧ s.problem.given = Problem.fork.given ∧
    (new Problem.fork .incremental Options.standard).run 3 [.setGap 0 7, .solve] =
      .ok (t, [.ok (), .ok ()]) ∧
    (new s.problem .incremental Options.standard).run 3 [.setGap 0 7, .solve] =
      .ok (t, [.ok (), .ok ()]) := by
  have hsolved : Yields ((new Problem.fork .batch Options.standard).run 2 [.solve]) fun r =>
      r.1.problem ≠ Problem.fork ∧ r.1.problem.given = Problem.fork.given := by decide +kernel
  have hrun : Yields ((new Problem.fork .incremental Options.standard).run 3 [.setGap 0 7, .solve])
      fun r => r.2 = [.ok (), .ok ()] := by decide +kernel
  obtain ⟨⟨s, replies⟩, hs, hne, hgiven⟩ := hsolved
  obtain ⟨⟨t, replies'⟩, ht, hreplies⟩ := hrun
  cases hreplies
  have h := run_renewed Problem.built_fork rfl hgiven .incremental Options.standard 3
    [.setGap 0 7, .solve]
  obtain ⟨⟨t', replies''⟩, ht', hsame, -, -, hall⟩ := h.of_ok ht
  cases hsame
  obtain rfl : t' = t := hall ⟨(.solve, .ok ()), by simp, .inl rfl, rfl⟩
  exact ⟨s, t', replies, hs, hne, hgiven, ht, ht'⟩

end Solver

end Spacing
