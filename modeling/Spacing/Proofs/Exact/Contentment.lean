import Spacing.Proofs.Exact.Obstruction
import Spacing.Proofs.Exact.Optimal
/-!
Contentment: with exact numbers nothing has to move if the desired positions satisfy all constraints. A
run merges across the equalities alone, and everything stays where it is: the members of a block are as
far apart as they want to be, and the pulls on the block cancel out only if each of them is zero.
-/

namespace Spacing

open Arrangement

namespace Problem

variable {p q : Problem Rat} {vs : List VarId} {c : ConId} {cs : List ConId}

def wish (p : Problem Rat) (v : VarId) : Rat :=
  (p.variableAt v).desired

def equalitiesAmong (p : Problem Rat) (cs : List ConId) : Nat :=
  cs.countP fun c => (p.constraintAt c).equality

theorem wish_given (h : p.given = q.given) : p.wish = q.wish :=
  funext (desired_eq h)

theorem equalitiesAmong_swapRemove (hc : c ∈ cs) (hequality : c ∈ p.equalities) :
    p.equalitiesAmong (swapRemove cs (cs.idxOf c)) + 1 = p.equalitiesAmong cs := by
  have hcount := (swapRemove_idxOf_perm hc).countP_eq fun d => (p.constraintAt d).equality
  have hequality : (p.constraintAt c).equality = true := hequality
  rwa [List.countP_cons, if_pos hequality] at hcount

theorem tension_wish : p.tension p.wish vs = 0 := by
  apply List.sum_eq_zero
  intro x hx
  obtain ⟨v, -, rfl⟩ := List.mem_map.mp hx
  rw [wish, sub_self, mul_zero]

end Problem

def Event.Within {α : Type} (Q : Set ConId) : Event α → Prop
  | .merged c .. => c ∈ Q
  | .split .. => False
  | _ => True

theorem Event.within_of_silent {α : Type} {Q : Set ConId} {e : Event α}
    (he : e.isMerge = false ∧ e.isSplit = false) : e.Within Q := by
  cases e with
  | merged => cases he.1
  | split => cases he.2
  | picked => trivial
  | round => trivial
  | unsatisfied => trivial

namespace Arrangement

variable {p : Problem Rat} {a a' : Arrangement Rat} {b t : BlockId} {c : ConId} {u v : VarId}

structure Contented (p : Problem Rat) (a : Arrangement Rat) : Prop where
  intact : a.Intact
  resting : a.Resting
  given_eq : a.problem.given = p.given
  active : a.problem.active ⊆ p.equalities
  tells : a.Tells (Event.Within p.equalities)

theorem contented_ofProblem (hp : p.Built) : (ofProblem p).Contented p where
  intact := intact_ofProblem hp.consistent
  resting := resting_ofProblem hp.consistent hp.weighted
  given_eq := given_ofProblem
  active := by
    rw [active_ofProblem]
    exact Set.empty_subset _
  tells _ he := absurd he List.not_mem_nil

namespace Contented

theorem settle_eq (h : a.Contented p) (b : BlockId) : a.settle b = a :=
  modifyBlock_eq_self fun _ hB => h.resting.settle_eq h.intact hB

theorem foldl_settle_eq (h : a.Contented p) (bs : List BlockId) : bs.foldl Arrangement.settle a = a := by
  induction bs with
  | nil => rfl
  | cons b bs ih => rw [List.foldl_cons, h.settle_eq, ih]

theorem idle (h : a.Contented p) (hi : Idle a a') (ht : a'.Tells (Event.Within p.equalities)) :
    a'.Contented p where
  intact := h.intact.steps hi.steps
  resting := hi.still.resting h.resting
  given_eq := hi.still.given_eq.trans h.given_eq
  active := hi.still.active_eq ▸ h.active
  tells := ht

theorem collectBoundary (h : a.Contented p) (side : Side) (b : BlockId) :
    (a.collectBoundary side b).Contented p :=
  h.idle (.collectBoundary a side b) h.tells

theorem writeMultipliers (h : a.Contented p) (b : BlockId) :
    (a.writeMultipliers (a.multipliersOf b)).Contented p :=
  h.idle (.writeMultipliers a b) h.tells

theorem writePositions (h : a.Contented p) : a.writePositions.Contented p :=
  h.idle (.writePositions a) h.tells

theorem cleanUp (h : a.Contented p) : a.cleanUp.Contented p :=
  h.idle (.cleanUp a) h.tells

theorem log (h : a.Contented p) {x : Entry Rat}
    (hx : ∀ e, x.event? = some e → e.isMerge = false ∧ e.isSplit = false) :
    Contented p { a with journal := a.journal.push x } := by
  refine h.idle (.log a hx) fun e he => ?_
  rw [Array.toList_push, eventsOf, List.filterMap_append, List.mem_append] at he
  rcases he with he | he
  · exact h.tells e he
  · obtain ⟨y, hy, he⟩ := List.mem_filterMap.mp he
    rw [List.mem_singleton.mp hy] at he
    exact Event.within_of_silent (hx e he)

theorem record (h : a.Contented p) {e : Event Rat} (he : e.isMerge = false ∧ e.isSplit = false) :
    (a.record e).Contented p :=
  h.log fun _ hx => by cases hx; exact he

theorem merge (h : a.Contented p) (hc : c ∈ p.equalities) (hm : a.merge c = .ok (a', t)) :
    a'.Contented p := by
  obtain ⟨r, s, B, shift, hmerged⟩ := merged_of_merge hm
  have hevent : (.merged c t r : Event Rat).Within p.equalities := hc
  constructor
  case intact => exact h.intact.merge hm
  case resting => exact hmerged.resting h.intact h.resting
  case given_eq => exact hmerged.given_eq.trans h.given_eq
  case active =>
    rw [hmerged.active_eq]
    exact Set.insert_subset hc h.active
  case tells => exact h.tells.push hevent hmerged.journal_eq

theorem not_releasable (h : a.Contented p) (hc : c ∈ a.problem.active) : a.isReleasable c = false := by
  have hequality := h.active hc
  rw [← Problem.equalities_eq h.given_eq] at hequality
  by_contra hreleasable
  exact isReleasable_iff.mp (Bool.eq_true_of_not_eq_false hreleasable) hequality

theorem firstNegative (h : a.Contented p) (bs : List BlockId) : (a.firstNegative bs).1.Contented p :=
  (firstNegative_keeps (I := Contented p) (fun _ _ _ h => h.writeMultipliers _) h.intact h).2

theorem collectBoundaries (h : a.Contented p) (bs : List BlockId) :
    (a.collectBoundaries bs).Contented p :=
  collectBoundaries_keeps (fun _ side b h => h.collectBoundary side b) h bs

theorem firstNegative_none (h : a.Contented p) (bs : List BlockId) : (a.firstNegative bs).2 = none := by
  by_contra hsome
  obtain ⟨c, hc⟩ := Option.ne_none_iff_exists'.mp hsome
  obtain ⟨hactive, hreleasable, -⟩ := firstNegative_eq_some h.intact hc
  cases ((h.firstNegative bs).not_releasable hactive).symm.trans hreleasable

/-! Where everything is. -/

section Satisfied

variable (hy : p.Satisfied p.wish)
include hy

theorem lead_eq_zero (h : a.Contented p) (hv : v < p.vars.size) : a.lead p.wish v = 0 := by
  have ha := h.intact
  have hg := h.given_eq
  have hb := h.resting.balanced
  have hy : a.problem.Satisfied p.wish := hy.given hg.symm
  have hactive : a.problem.equalities ∩ a.problem.active = a.problem.active := by
    rw [Problem.equalities_eq hg]
    exact Set.inter_eq_right.mpr h.active
  rw [← Problem.size_vars_eq hg] at hv
  obtain ⟨B, hB⟩ := ha.exists_block hv
  have hshift (w : VarId) (hw : w ∈ B.members) :
      p.wish w = a.position w + a.lead p.wish v := by
    have hlinked := ha.linked w (ha.lt_of_mem hB hw) v hv (ha.blockOf_eq hB hw)
    rw [← hactive] at hlinked
    rw [← lead_eq_of_linked ha hb hy hlinked, lead]
    ring
  have hwish : a.problem.tension p.wish B.members = 0 := by
    rw [← Problem.wish_given hg]
    exact Problem.tension_wish
  have hrest : a.problem.tension a.position B.members = 0 :=
    (tension_eq hB).symm.trans (h.resting.tension_eq _)
  have hmass := Problem.mass_pos hb.weighted (fun w hw => ha.lt_of_mem hB hw) (ha.nonempty _ B hB)
  rw [Problem.tension_shift hshift, hrest, zero_add] at hwish
  exact (mul_eq_zero.mp hwish).resolve_left hmass.ne'

theorem position_eq (h : a.Contented p) (hv : v < p.vars.size) : a.position v = p.wish v := by
  have hlead := h.lead_eq_zero hy hv
  rw [lead] at hlead
  linarith

theorem satisfied (h : a.Contented p) : a.problem.Satisfied a.position := by
  have hat (v : VarId) (hv : v < a.problem.vars.size) : a.position v = p.wish v :=
    h.position_eq hy (Problem.size_vars_eq h.given_eq ▸ hv)
  intro c hc
  rw [Problem.slackAt_congr hat h.intact.consistent hc]
  exact hy.given h.given_eq.symm c hc

theorem slack_nonneg (h : a.Contented p) (hc : c < p.constraints.size) : 0 ≤ a.slack c :=
  (h.satisfied hy c ((Problem.size_constraints_eq h.given_eq).symm ▸ hc)).1

theorem slack_of_equality (h : a.Contented p) (hc : c ∈ p.equalities) : a.slack c = 0 := by
  rw [← Problem.equalities_eq h.given_eq] at hc
  exact (h.satisfied hy c (Problem.lt_size_of_mem_equalities hc)).2 hc

theorem cost_eq (h : a.Contented p) : a.cost = 0 := by
  rw [Arrangement.cost, sum_exact]
  apply List.sum_eq_zero
  intro x hx
  obtain ⟨v, hv, rfl⟩ := List.mem_map.mp hx
  have hlt : v < p.vars.size := Problem.size_vars_eq h.given_eq ▸ List.mem_range.mp hv
  have hwish : (a.problem.variableAt v).desired = p.wish v := Problem.desired_eq h.given_eq v
  simp only [h.position_eq hy hlt, hwish, sub_self, mul_zero]

end Satisfied

end Contented

theorem loopInvariant_contented (hy : p.Satisfied p.wish) (side : Side) :
    LoopInvariant side fun a _ => a.Contented p where
  collect a b i _ h := h.collectBoundary side i
  merge := by
    intro a b c a' t ha hb hk h hn hc hm
    obtain ⟨-, hneeds⟩ := ha.nextMerge_crosses hb hk hn
    have hlt : c < p.constraints.size := Problem.size_constraints_eq h.given_eq ▸ hc.lt_size
    have hslack := h.slack_nonneg hy hlt
    rw [needsMerge, Bool.or_eq_true, decide_eq_true_iff, zero_exact] at hneeds
    have hequality : c ∈ a.problem.equalities := hneeds.resolve_right (not_lt.mpr hslack)
    exact h.merge (Problem.equalities_eq h.given_eq ▸ hequality) hm

end Arrangement

namespace Solver

variable {p : Problem Rat} {options : Options Rat} {s t : Solver Rat} {a : Arrangement Rat} {c : ConId}
  {n : Nat}

theorem andThen_of_ok {P : Solver Rat → Prop} {Q : Solver Rat × Reply Rat → Prop}
    {r : Solver Rat × Reply Rat} {f : Solver Rat → Except Abort (Solver Rat × Reply Rat)}
    (hr : r.2 = .ok () ∧ P r.1) (hf : ∀ t, P t → Yields (f t) Q) : Yields (andThen r f) Q := by
  obtain ⟨t, reply⟩ := r
  obtain ⟨hreply, ht⟩ := hr
  cases hreply
  exact hf t ht

def Rests (p : Problem Rat) (r : Solver Rat × Reply Rat) : Prop :=
  r.2 = .ok () ∧ ∃ t : Solver Rat, r.1 = t.writePositions ∧ t.arrangement.Contented p

structure AtEase (p : Problem Rat) (options : Options Rat) (splits : Nat) (s : Solver Rat) : Prop where
  contented : s.arrangement.Contented p
  options_eq : s.options = options
  watched : ∀ c ∈ s.inactive, c < p.constraints.size
  spare : splits + p.equalitiesAmong s.inactive ≤ options.maxSplits

namespace AtEase

theorem sound (h : AtEase p options n s) : s.Sound where
  intact := h.contented.intact
  watched c hc := (Problem.size_constraints_eq h.contented.given_eq).symm ▸ h.watched c hc

theorem mono {m : Nat} (h : AtEase p options n s) (hm : m ≤ n) : AtEase p options m s where
  contented := h.contented
  options_eq := h.options_eq
  watched := h.watched
  spare := (Nat.add_le_add_right hm _).trans h.spare

theorem of_arrangement (h : AtEase p options n s) (ha : a.Contented p) :
    AtEase p options n { s with arrangement := a } :=
  ⟨ha, h.options_eq, h.watched, h.spare⟩

theorem writePositions (h : AtEase p options n s) : AtEase p options n s.writePositions :=
  h.of_arrangement h.contented.writePositions

theorem pick (h : AtEase p options n s) (hc : c ∈ s.inactive) (hequality : c ∈ p.equalities) :
    AtEase p options (n + 1) (s.pick c) where
  contented := h.contented.record ⟨rfl, rfl⟩
  options_eq := h.options_eq
  watched d hd := h.watched d (mem_of_mem_swapRemove hd)
  spare := by
    -- What is picked is watched no longer, so there is one more split to spare.
    have hspare := h.spare
    have hcount := Problem.equalitiesAmong_swapRemove hc hequality
    change n + 1 + p.equalitiesAmong (swapRemove s.inactive (s.inactive.idxOf c)) ≤ options.maxSplits
    omega

section Satisfied

variable (hy : p.Satisfied p.wish)
include hy

theorem equality_of_nextViolated (h : AtEase p options n s) (hc : s.nextViolated = some c) :
    c ∈ p.equalities := by
  rw [← Problem.equalities_eq h.contented.given_eq]
  apply (violated_of_nextViolated hc).resolve_right
  have hslack := h.contented.slack_nonneg hy (h.watched c (mem_of_nextViolated hc))
  have heps := epsilon_pos
  linarith

theorem verify (h : AtEase p options n s) : s.verify = (s, .ok ()) :=
  verify_of_satisfied (h.contented.satisfied hy)

/-! Resolutions. -/

theorem resolveInside (h : AtEase p options (n + 1) s) (hc : c ∈ p.equalities)
    (htogether : s.arrangement.leftBlock c = s.arrangement.rightBlock c) :
    ∃ a, s.resolveInside c n = .ok (.resumed { s with arrangement := a } (n + 1)) ∧ a.Contented p := by
  -- An equality within one block needs no split, because it holds.
  have ha := h.contented.intact
  have hlt : c < s.problem.constraints.size :=
    (Problem.size_constraints_eq h.contented.given_eq).symm ▸ Problem.lt_size_of_mem_equalities hc
  have himplied : s.isImplied c = true := by
    have hequality : (s.problem.constraintAt c).equality = true :=
      (Problem.equality_eq h.contented.given_eq c).trans hc
    have hslack := h.contented.slack_of_equality hy hc
    have heps := epsilon_pos.le
    simp [isImplied, hequality, hslack, Scalar.within, heps]
  rcases splitBetween_cases ha (ha.consistent.left_lt c hlt) (ha.consistent.right_lt c hlt) htogether
    with hnone | ⟨_, f, a', l, r, B, L, R, rfl, -, hf, hreleasable, -⟩
  · exact ⟨_, bind_eq_ok.mpr ⟨_, hnone, if_pos (.inl himplied)⟩, h.contented.writeMultipliers _⟩
  · cases ((h.contented.writeMultipliers _).not_releasable hf).symm.trans hreleasable

theorem resolveStep (h : AtEase p options n s) : Yields (s.resolveStep n) (Step.Meets
    (fun t m => AtEase p options m t) fun r => r.2 = .ok () ∧ AtEase p options 0 r.1) := by
  unfold Solver.resolveStep
  split
  · exact .ok ⟨rfl, (h.of_arrangement h.contented.cleanUp).mono (Nat.zero_le n)⟩
  · rename_i c hc
    have hwatched := mem_of_nextViolated hc
    have hequality := h.equality_of_nextViolated hy hc
    have hpick := h.pick hwatched hequality
    unfold resolvePicked
    split
    · rename_i hapart
      obtain ⟨a, t, hm⟩ := hpick.contented.intact.exists_merge (h.sound.watched c hwatched) hapart
      have hmerged := hpick.of_arrangement (hpick.contented.merge hequality hm)
      refine ⟨.resumed { s.pick c with arrangement := a } n, ?_, hmerged.mono (Nat.le_succ n)⟩
      exact bind_eq_ok.mpr ⟨_, bind_eq_ok.mpr ⟨(a, t), hm, rfl⟩, rfl⟩
    · rename_i htogether
      have hlimit : ¬ (s.pick c).options.maxSplits ≤ n := by
        have hspare := hpick.spare
        rw [hpick.options_eq]
        omega
      obtain ⟨a, hinside, ha⟩ := hpick.resolveInside hy hequality (not_not.mp htogether)
      rw [if_neg hlimit, hinside]
      exact .ok (hpick.of_arrangement ha)

theorem resolve (h : AtEase p options n s) :
    Yields (s.resolve n) fun r => r.2 = .ok () ∧ AtEase p options 0 r.1 :=
  resolve_of_steps (J := fun t m => AtEase p options m t) (fun _ _ h => h.resolveStep hy) h

/-! Batch runs. -/

omit hy in
theorem watchInactive (h : s.arrangement.Contented p) (ho : s.options = options)
    (hm : p.equalitiesAmong p.constraintIds ≤ options.maxSplits) :
    AtEase p options 0 s.watchInactive where
  contented := h
  options_eq := ho
  watched c hc := by
    rw [← Problem.size_constraints_eq h.given_eq]
    exact List.mem_range.mp (List.mem_of_mem_filter hc)
  spare := by
    have hids : s.problem.constraintIds = p.constraintIds :=
      congrArg List.range (Problem.size_constraints_eq h.given_eq)
    rw [Nat.zero_add]
    apply le_trans _ hm
    rw [← hids]
    exact List.filter_sublist.countP_le

theorem satisfyBatch (h : AtEase p options n s)
    (hm : p.equalitiesAmong p.constraintIds ≤ options.maxSplits) :
    Yields s.satisfyBatch fun r => r.2 = .ok () ∧ AtEase p options 0 r.1 := by
  refine (mergeInOrder_yields (loopInvariant_contented hy .left) h.contented.intact h.contented _).bind ?_
  rintro a ⟨-, ha⟩
  have hbegin : AtEase p options 0 { s with arrangement := a }.cleanUp.watchInactive :=
    watchInactive ha.cleanUp h.options_eq hm
  refine (hbegin.resolve hy).bind fun r hr => andThen_of_ok hr fun t ht => ?_
  rw [ht.writePositions.verify hy]
  exact .ok ⟨rfl, ht.writePositions⟩

theorem refine (h : AtEase p options n s) (rounds : Nat) :
    Yields (s.refine (rounds + 1)) (Rests p) := by
  have hcollect := h.contented.collectBoundaries s.arrangement.blockIds
  have hscan : s.scan.1.Contented p := hcollect.firstNegative _
  have hnone : s.scan.2 = none := hcollect.firstNegative_none _
  have hverify := (h.of_arrangement hscan).writePositions.verify hy
  rw [Solver.refine, refineOnce_of_none hnone]
  exact ⟨_, congrArg Except.ok hverify, rfl, _, rfl, hscan⟩

/-! Incremental runs. -/

omit hy in
theorem splitBlocks (h : AtEase p options n s) : Yields s.splitBlocks (AtEase p options n) := by
  let s' : Solver Rat := { s.writePositions with splitCount := 0 }
  have h' : s'.arrangement.Contented p := h.contented.writePositions
  have hsettle : s.settleBlocks = s.writePositions := by
    rw [settleBlocks, h.contented.foldl_settle_eq]
  have hpass := splitNegative_of_none (h'.firstNegative_none s'.arrangement.blockIds)
  have hlast := (h'.firstNegative s'.arrangement.blockIds).cleanUp.writePositions
  unfold Solver.splitBlocks
  rw [hsettle]
  refine ⟨_, bind_eq_ok.mpr ⟨_, hpass, rfl⟩, ?_⟩
  exact ⟨hlast, h.options_eq, h.watched, h.spare⟩

theorem satisfyIncremental (h : AtEase p options 0 s) :
    Yields s.satisfyIncremental fun r => r.2 = .ok () ∧ AtEase p options 0 r.1 := by
  refine h.splitBlocks.bind fun t ht => (ht.resolve hy).bind fun r hr => andThen_of_ok hr fun u hu => ?_
  rw [hu.writePositions.verify hy]
  exact .ok ⟨rfl, hu.writePositions⟩

theorem solveRounds_again (h : AtEase p options 0 s) (ht : 0 ≤ options.tolerance) (rounds done : Nat) :
    Yields (s.solveRounds (rounds + 1) (some 0) done) (Rests p) := by
  refine (h.satisfyIncremental hy).bind fun r hr => andThen_of_ok hr fun t ht' => ?_
  have hsettled : (t.record (.round (done + 1) t.arrangement.cost)).isSettled (some 0)
      t.arrangement.cost = true := by
    have ho : t.options = options := ht'.options_eq
    simp [isSettled, Solver.record, ho, ht'.contented.cost_eq hy, Scalar.within, ht]
  dsimp only
  rw [if_pos hsettled]
  exact .ok ⟨rfl, _, rfl, ht'.contented.record ⟨rfl, rfl⟩⟩

theorem solveRounds (h : AtEase p options 0 s) (ht : 0 ≤ options.tolerance) (rounds : Nat) :
    Yields (s.solveRounds (rounds + 2) none 0) (Rests p) := by
  refine (h.satisfyIncremental hy).bind fun r hr => andThen_of_ok hr fun t ht' => ?_
  have hround : AtEase p options 0 (t.record (.round 1 t.arrangement.cost)) :=
    ht'.of_arrangement (ht'.contented.record ⟨rfl, rfl⟩)
  have hcost := ht'.contented.cost_eq hy
  have hunsettled : (t.record (.round 1 t.arrangement.cost)).isSettled none t.arrangement.cost ≠ true := by
    simp [isSettled, Scalar.isFinite]
  dsimp only
  rw [if_neg hunsettled]
  split
  · exact .ok ⟨rfl, _, rfl, hround.contented.log nofun⟩
  · refine hround.splitBlocks.bind fun u hu => ?_
    rw [hcost]
    exact hu.solveRounds_again hy ht rounds 1

end Satisfied

end AtEase

theorem atEase_new (hp : p.Built) (mode : Mode)
    (hm : p.equalitiesAmong p.constraintIds ≤ options.maxSplits) :
    AtEase p options 0 (new p mode options) where
  contented := contented_ofProblem hp
  options_eq := rfl
  watched _ hc := List.mem_range.mp hc
  spare := by
    rw [Nat.zero_add]
    exact hm

theorem solve_rests (hp : p.Built) (hy : p.Satisfied p.wish) (mode : Mode)
    (hm : p.equalitiesAmong p.constraintIds ≤ options.maxSplits)
    (ht : 0 ≤ options.tolerance) (rounds : Nat) :
    Yields ((new p mode options).solve (rounds + 2)) (Rests p) := by
  have h := atEase_new hp mode hm
  cases mode with
  | batch =>
    have hstart := h.of_arrangement (h.contented.log (x := .note (.started
      (new p .batch options).problem.vars.size (new p .batch options).problem.constraints.size)) nofun)
    exact (hstart.satisfyBatch hy hm).bind fun r hr => andThen_of_ok hr fun t ht =>
      ht.refine hy (rounds + 1)
  | incremental => exact h.solveRounds hy ht rounds

/-- Input whose desired positions satisfy all constraints is left alone: a new solver succeeds in two
rounds, all variables are at their desired positions, and nothing was merged across an inequality or
split. It takes a split to spare for each equality, although none is made. -/
theorem solve_leaves_alone (hp : p.Built) (hy : p.Satisfied p.wish) (mode : Mode)
    (options : Options Rat)
    (hm : p.equalitiesAmong p.constraintIds ≤ options.maxSplits)
    (ht : 0 ≤ options.tolerance) (rounds : Nat) :
    ∃ s, (new p mode options).solve (rounds + 2) = .ok (s, .ok ()) ∧
      (∀ v < p.vars.size, s.problem.written v = p.wish v ∧ s.arrangement.position v = p.wish v) ∧
      (∀ c ∈ s.problem.active, (p.constraintAt c).equality = true) ∧
      ∀ e ∈ eventsOf s.arrangement.journal.toList, e.isSplit = false ∧
        ∀ c b b', e = .merged c b b' → (p.constraintAt c).equality = true := by
  obtain ⟨⟨s, reply⟩, hs, hreply, t, rfl, h⟩ := solve_rests hp hy mode hm ht rounds
  cases hreply
  have hend := h.writePositions
  refine ⟨_, hs, fun v hv => ?_, fun c hc => hend.active hc, fun e he => ?_⟩
  · have hwritten : t.writePositions.problem.written v = t.arrangement.position v :=
      written_writePositions (Problem.size_vars_eq h.given_eq ▸ hv)
    exact ⟨hwritten.trans (h.position_eq hy hv), hend.position_eq hy hv⟩
  · have hwithin := hend.tells e he
    refine ⟨?_, ?_⟩
    · cases e with
      | split => exact hwithin.elim
      | _ => rfl
    · rintro c b b' rfl
      exact hwithin

end Solver

def Problem.hoop : Problem Rat :=
  (((((((((Problem.empty.insertVariable 0 0 1).insertVariable 1 1 2).insertVariable 2 2 1).insertVariable
    3 5 3).insertConstraint 0 1 1 true).insertConstraint 1 2 1 true).insertConstraint
    2 0 (-2) true).insertConstraint 0 2 2 true).insertConstraint 2 3 2 false).insertConstraint 0 3 5 false

theorem Problem.built_hoop : Problem.hoop.Built :=
  Built.empty.edits [.addVariable 0 0 1, .addVariable 1 1 2, .addVariable 2 2 1, .addVariable 3 5 3,
    .addConstraint 0 1 1 true, .addConstraint 1 2 1 true, .addConstraint 2 0 (-2) true,
    .addConstraint 0 2 2 true, .addConstraint 2 3 2 false, .addConstraint 0 3 5 false] (by decide +kernel)

theorem Solver.solve_leaves_alone_hoop : ∃ s,
    (new Problem.hoop .incremental { Options.standard with maxSplits := 4 }).solve 2 = .ok (s, .ok ()) ∧
      (∀ v < 4, s.problem.written v = Problem.hoop.wish v ∧
        s.arrangement.position v = Problem.hoop.wish v) ∧
      (∀ c ∈ s.problem.active, (Problem.hoop.constraintAt c).equality = true) ∧
      ∀ e ∈ eventsOf s.arrangement.journal.toList, e.isSplit = false := by
  -- Two of the four equalities have both ends in one block when they are picked.
  have hy : Problem.hoop.Satisfied Problem.hoop.wish := by decide +kernel
  obtain ⟨s, hs, hposition, hactive, hevents⟩ := solve_leaves_alone Problem.built_hoop hy .incremental
    { Options.standard with maxSplits := 4 } (by decide +kernel) (by decide +kernel) 0
  exact ⟨s, hs, hposition, hactive, fun e he => (hevents e he).1⟩

end Spacing
