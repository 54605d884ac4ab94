import Mathlib.Data.Finset.Image
import Mathlib.Data.Finset.Order
import Mathlib.Data.Finset.Range
import Spacing.Proofs.Exact.Optimal
import Spacing.Proofs.Exact.Push
import Spacing.Proofs.Problem.Cycle

namespace Spacing

open Arrangement

variable {p : Problem Rat}

theorem Problem.inequalities_fork : Problem.fork.Inequalities := by
  unfold Inequalities
  decide +kernel

namespace Arrangement

variable {a : Arrangement Rat} {b : BlockId} {c : ConId} {v : VarId} {done rest : List VarId}

structure Swept (p : Problem Rat) (done : List VarId) (a : Arrangement Rat) : Prop where
  intact : a.Intact
  resting : a.Resting
  given_eq : a.problem.given = p.given
  together : ∀ u < p.vars.size, ∀ v < p.vars.size, a.blockOf u = a.blockOf v →
    u = v ∨ (u ∈ done ∧ v ∈ done)
  satisfied : ∀ c < p.constraints.size, p.edges.right c ∈ done → 0 ≤ a.slack c
  merges : a.Tells fun e => e.isMerge = true

theorem swept_ofProblem (hp : p.Consistent) (hw : p.Weighted) : Swept p [] (ofProblem p) where
  intact := intact_ofProblem hp
  resting := resting_ofProblem hp hw
  given_eq := given_ofProblem
  together u hu v hv huv := by
    rw [blockOf_ofProblem hu, blockOf_ofProblem hv] at huv
    exact .inl huv
  satisfied _ _ hc := absurd hc List.not_mem_nil
  merges _ he := absurd he List.not_mem_nil

theorem Swept.still {a' : Arrangement Rat} (hs : Swept p done a) (h : Still a a') (ha' : a'.Intact)
    (ht : a'.Tells fun e => e.isMerge = true) : Swept p done a' where
  intact := ha'
  resting := h.resting hs.resting
  given_eq := h.given_eq.trans hs.given_eq
  together u hu v hv huv := by
    rw [h.blockOf_eq, h.blockOf_eq] at huv
    exact hs.together u hu v hv huv
  satisfied c hc hr := by
    rw [h.slack_eq]
    exact hs.satisfied c hc hr
  merges := ht

theorem exists_bound (a : Arrangement Rat) (p : Problem Rat) (v : VarId) : ∃ x, a.position v ≤ x ∧
    ∀ c < p.constraints.size, a.position (p.edges.left c) + (p.constraintAt c).gap ≤ x := by
  obtain ⟨x, hx⟩ := (insert (a.position v) ((Finset.range p.constraints.size).image fun c =>
    a.position (p.edges.left c) + (p.constraintAt c).gap)).exists_le
  refine ⟨x, hx _ (Finset.mem_insert_self _ _), fun c hc => hx _ (Finset.mem_insert_of_mem ?_)⟩
  exact Finset.mem_image_of_mem _ (Finset.mem_range.mpr hc)

theorem Swept.pushed (h : Swept p done a) (hp : p.Consistent) (hacyclic : p.Acyclic)
    (ho : done ++ v :: rest = p.order) :
    ∃ y, Base p .left (· ∈ done ++ [v]) y ∧ Pushed p .left (· ∈ done ++ [v]) y a (a.blockOf v) := by
  have hv := Problem.lt_of_order ho
  have hnew := Problem.notMem_of_order ho
  have hleft (c : ConId) (hc : c < p.constraints.size) (hr : p.edges.right c ∈ done ++ [v]) :
      p.edges.left c ∈ done := Problem.left_mem_of_mem_concat hp hacyclic ho hc hr
  have hleft_ne (c : ConId) (hc : c < p.constraints.size) (hr : p.edges.right c ∈ done ++ [v]) :
      p.edges.left c ≠ v := fun he => hnew (he ▸ hleft c hc hr)
  have hlast : v ∈ done ++ [v] := List.mem_append_right _ List.mem_cons_self
  have halone (u : VarId) (hu : u < p.vars.size) (hub : a.blockOf u = a.blockOf v) : u = v :=
    (h.together u hu v hv hub).resolve_right fun hd => hnew hd.2
  have halong (u : VarId) : a.along .left u = a.position u := one_mul _
  have hslack := slack_of_given h.given_eq .left
  simp only [halong] at hslack
  obtain ⟨x, hx, hbound⟩ := a.exists_bound p v
  -- The base has `v` at `x`, far enough from all that comes before it for nothing to be violated.
  refine ⟨fun u => if u = v then x else a.position u, ⟨?_, ?_⟩, ?_⟩
  · intro c hc hr
    exact List.mem_append_left _ (hleft c hc hr)
  · intro c hc hr
    change 0 ≤ (if p.edges.right c = v then x else a.position (p.edges.right c)) -
      (if p.edges.left c = v then x else a.position (p.edges.left c)) - _
    rw [if_neg (hleft_ne c hc hr)]
    split
    · have := hbound c hc
      linarith
    · rename_i hne
      have hd : p.edges.right c ∈ done :=
        (List.mem_append.mp hr).resolve_right fun hm => hne (List.mem_singleton.mp hm)
      have := h.satisfied c hc hd
      rw [hslack] at this
      exact this
  · constructor
    case given_eq => exact h.given_eq
    case balanced => exact h.resting.balanced
    case together =>
      intro u hu w hw huw
      refine (h.together u hu w hw huw).imp_right fun hd => ?_
      exact ⟨List.mem_append_left _ hd.1, List.mem_append_left _ hd.2⟩
    case inside =>
      intro u hu hub
      rwa [halone u hu hub]
    case outside =>
      intro u hu hub
      have hne : u ≠ v := fun he => hub (he ▸ rfl)
      rw [halong, if_neg hne]
    case behind =>
      intro u hu hub
      rwa [halone u hu hub, halong, if_pos rfl]
    case below =>
      intro u hu hub c hc
      obtain ⟨hclt, hnear, -⟩ := (crosses_of_given h.given_eq).mp hc
      have hr : p.edges.right c = v := halone _ (hp.rightEnd_lt hclt) hnear
      have := hbound c hclt
      rw [halone u hu hub, halong, if_pos rfl, hslack]
      change a.position v - x ≤ a.position (p.edges.right c) - a.position (p.edges.left c) - _
      rw [hr]
      linarith
    case within =>
      intro c hc hn hf
      have hr : p.edges.right c = v := halone _ (hp.rightEnd_lt hc) hn
      exact absurd (halone _ (hp.leftEnd_lt hc) hf) (hleft_ne c hc (hr.symm ▸ hlast))

theorem Swept.next (h : Swept p done a) (hp : p.Consistent) (hacyclic : p.Acyclic)
    (hi : p.Inequalities) (ho : done ++ v :: rest = p.order) :
    Yields (a.mergeTowards .left (a.blockOf v)) fun r => Swept p (done ++ [v]) r.1 := by
  have hv := Problem.lt_of_order ho
  have hinv := (loopInvariant_pushed hi .left (· ∈ done ++ [v])).and
    ((loopInvariant_resting .left).and
      (loopInvariant_tells (P := fun e => e.isMerge = true) (fun _ _ _ => rfl) .left))
  refine (mergeTowards_yields hinv h.intact
    (h.intact.standing v (Problem.size_vars_eq h.given_eq ▸ hv))
    ⟨h.pushed hp hacyclic ho, h.resting, h.merges⟩).mono ?_
  rintro ⟨a', b⟩ ⟨ha', hb, ⟨⟨y, hbase, hpushed⟩, hr, ht⟩, hk, hn⟩
  exact ⟨ha', hr, hpushed.given_eq, hpushed.together,
    fun c hc hQ => hpushed.slack_nonneg ha' hb hk hn hbase hc hQ, ht⟩

theorem swept_mergeInOrder (hp : p.Consistent) (hacyclic : p.Acyclic) (hi : p.Inequalities)
    (h : Swept p [] a) : Yields (a.mergeInOrder p.order) (Swept p p.order) := by
  refine Yields.foldlM (I := Swept p) h fun done v rest a ho h => ?_
  have hv := Problem.lt_of_order ho
  have hb := h.intact.standing v (Problem.size_vars_eq h.given_eq ▸ hv)
  rw [if_pos hb]
  exact (h.next hp hacyclic hi ho).map fun r hr => hr

structure Feasible (p : Problem Rat) (P : Event Rat → Prop) (a : Arrangement Rat) : Prop where
  intact : a.Intact
  resting : a.Resting
  given_eq : a.problem.given = p.given
  satisfied : ∀ c < p.constraints.size, 0 ≤ a.slack c
  tells : a.Tells P

theorem Feasible.still {P : Event Rat → Prop} {a' : Arrangement Rat} (hf : Feasible p P a)
    (h : Still a a') (ha' : a'.Intact) (hj : a'.journal = a.journal) : Feasible p P a' where
  intact := ha'
  resting := h.resting hf.resting
  given_eq := h.given_eq.trans hf.given_eq
  satisfied c hc := by
    rw [h.slack_eq]
    exact hf.satisfied c hc
  tells := by
    rw [Tells, hj]
    exact hf.tells

theorem Swept.feasible (h : Swept p p.order a) (hp : p.Consistent) :
    Feasible p (fun e => e.isMerge = true) a where
  intact := h.intact
  resting := h.resting
  given_eq := h.given_eq
  satisfied c hc := h.satisfied c hc (Problem.mem_order.mpr (hp.rightEnd_lt hc))
  tells := h.merges

end Arrangement

namespace Solver

variable {s : Solver Rat}

theorem nextViolated_of_satisfied (hi : s.problem.Inequalities)
    (hs : ∀ c ∈ s.inactive, 0 ≤ s.arrangement.slack c) : s.nextViolated = none := by
  by_contra hsome
  obtain ⟨c, hc⟩ := Option.ne_none_iff_exists'.mp hsome
  have hslack := hs c (mem_of_nextViolated hc)
  have heps := epsilon_pos
  rcases violated_of_nextViolated hc with he | hviolated
  · cases (hi.eq_false c).symm.trans he
  · linarith

structure Settled (p : Problem Rat) (P : Event Rat → Prop) (s : Solver Rat) : Prop where
  feasible : s.arrangement.Feasible p P
  watched : ∀ c ∈ s.inactive, c < p.constraints.size

theorem settled_watchInactive {P : Event Rat → Prop} {a : Arrangement Rat} (hf : a.Feasible p P) :
    Settled p P { s with arrangement := a }.cleanUp.watchInactive where
  feasible := hf.still (still_cleanUp a) hf.intact.cleanUp rfl
  watched c hc := by
    rw [← Problem.size_constraints_eq hf.given_eq]
    exact List.mem_range.mp (List.mem_of_mem_filter hc)

namespace Settled

variable {P : Event Rat → Prop} (hs : Settled p P s)
include hs

theorem sound : s.Sound :=
  ⟨hs.feasible.intact, fun c hc =>
    (Problem.size_constraints_eq hs.feasible.given_eq).symm ▸ hs.watched c hc⟩

theorem settle_eq {b : BlockId} {B : Block Rat} (hB : s.arrangement.block? b = some B) :
    B.settle s.problem = B :=
  hs.feasible.resting.settle_eq hs.feasible.intact hB

theorem writePositions : Settled p P s.writePositions :=
  ⟨hs.feasible.still (still_writePositions _) (hs.sound.with .refl).writePositions.sound.intact rfl,
    hs.watched⟩

theorem cleanUp : Settled p P s.cleanUp :=
  ⟨hs.feasible.still (still_cleanUp _) hs.feasible.intact.cleanUp rfl, hs.watched⟩

theorem nextViolated (hi : p.Inequalities) : s.nextViolated = none :=
  nextViolated_of_satisfied (hi.given hs.feasible.given_eq.symm) fun c hc =>
    hs.feasible.satisfied c (hs.watched c hc)

theorem verify (hi : p.Inequalities) : s.verify = (s, .ok ()) := by
  have hg := hs.feasible.given_eq
  apply verify_of_satisfied
  intro c hc
  refine ⟨hs.feasible.satisfied c (Problem.size_constraints_eq hg ▸ hc), fun he => ?_⟩
  cases ((hi.given hg.symm).eq_false c).symm.trans he

end Settled

theorem satisfyBatch_of_swept {a : Arrangement Rat} (hp : p.Consistent) (hi : p.Inequalities)
    (hg : s.problem.given = p.given) (ha : s.arrangement.mergeInOrder p.order = .ok a)
    (h : Swept p p.order a) : s.satisfyBatch =
      .ok ({ s with arrangement := a }.cleanUp.watchInactive.cleanUp.writePositions, .ok ()) := by
  have hsettled := settled_watchInactive (s := s) (h.feasible hp)
  rw [← Problem.order_given hg] at ha
  refine bind_eq_ok.mpr ⟨a, ha, bind_eq_ok.mpr ⟨_, resolve_of_none (hsettled.nextViolated hi) 0, ?_⟩⟩
  exact congrArg Except.ok (hsettled.cleanUp.writePositions.verify hi)

theorem satisfyBatch_settles (hp : p.Consistent) (hacyclic : p.Acyclic) (hi : p.Inequalities)
    (h : Swept p [] s.arrangement) : ∃ t, s.satisfyBatch = .ok (t, .ok ()) ∧
      Settled p (fun e => e.isMerge = true) t := by
  obtain ⟨a, ha, ha'⟩ := swept_mergeInOrder hp hacyclic hi h
  exact ⟨_, satisfyBatch_of_swept hp hi h.given_eq ha ha',
    (settled_watchInactive (ha'.feasible hp)).cleanUp.writePositions⟩

/-- Without equalities and without cycles, a new batch solver comes to a placement without violations,
and the merges to the left are enough for it. -/
theorem satisfy_complete (hp : p.Built) (hacyclic : p.Acyclic) (hi : p.Inequalities)
    (options : Options Rat) : ∃ a t,
      (Solver.new p .batch options).arrangement.mergeInOrder
        (Solver.new p .batch options).problem.order = .ok a ∧
      (∀ c < p.constraints.size, 0 ≤ a.slack c) ∧
      { Solver.new p .batch options with arrangement := a }.cleanUp.watchInactive.nextViolated =
        none ∧
      (Solver.new p .batch options).satisfy = .ok (t, .ok ()) ∧
      (∀ c < p.constraints.size, 0 ≤ t.arrangement.slack c) ∧
      (∀ e ∈ eventsOf t.arrangement.journal.toList, e.isMerge = true) ∧
      ∀ b B, t.arrangement.block? b = some B → B.settle t.problem = B := by
  have hc := hp.consistent
  obtain ⟨a, ha, h⟩ := swept_mergeInOrder hc hacyclic hi (swept_ofProblem hc hp.weighted)
  have hfeasible := h.feasible hc
  have hbegin := settled_watchInactive (s := Solver.new p .batch options) hfeasible
  have hend := hbegin.cleanUp.writePositions
  have horder : (Solver.new p .batch options).problem.order = p.order :=
    Problem.order_given given_ofProblem
  refine ⟨a, _, ?_, hfeasible.satisfied, hbegin.nextViolated hi,
    satisfyBatch_of_swept hc hi given_ofProblem ha h, hend.feasible.satisfied,
    hend.feasible.tells, fun b B hB => hend.settle_eq hB⟩
  rw [horder]
  exact ha

theorem satisfy_complete_fork : ∃ a t,
    (Solver.new Problem.fork .batch Options.standard).arrangement.mergeInOrder
      (Solver.new Problem.fork .batch Options.standard).problem.order = .ok a ∧
    (∀ c < 2, 0 ≤ a.slack c) ∧
    (Solver.new Problem.fork .batch Options.standard).satisfy = .ok (t, .ok ()) ∧
    ∀ c < 2, 0 ≤ t.arrangement.slack c := by
  obtain ⟨a, t, ha, hslack, -, ht, hslack', -⟩ := satisfy_complete Problem.built_fork
    Problem.acyclic_fork Problem.inequalities_fork Options.standard
  exact ⟨a, t, ha, hslack, ht, hslack'⟩

end Solver

end Spacing
