import Mathlib.Data.List.Find
import Spacing.Proofs.Frame.Arrangement
import Spacing.Proofs.Solver.Structure

namespace Spacing

variable {α : Type} [Scalar α] {f : Frame α} {s t : Solver α} {c : ConId} {n : Nat}

def Step.seen (f : Frame α) : Step α → Step α
  | .finished s reply => .finished (s.seen f) reply
  | .resumed s splits => .resumed (s.seen f) splits

structure Solver.Fits (Fit : Arrangement α → Prop) (s : Solver α) : Prop where
  sound : s.Sound
  fit : Fit s.arrangement

def Frame.image {β : Type} (f : Frame α) (r : Solver α × β) : Solver α × β :=
  (r.1.seen f, r.2)

/-- The one result is what the frame makes of the other, its written positions perhaps read like any
other place. -/
def Frame.Agrees {β : Type} (f : Frame α) (r r' : Solver α × β) : Prop :=
  r' = f.image r ∨ r' = f.rewritten.image r

omit [Scalar α] in
theorem Frame.Agrees.of_rewritten {β : Type} {r r' : Solver α × β} (h : f.rewritten.Agrees r r') :
    f.Agrees r r' :=
  .inr (h.elim id id)

omit [Scalar α] in
theorem Solver.seen_cleanUp (s : Solver α) : (s.seen f).cleanUp = s.cleanUp.seen f := by
  have hids : (s.seen f).arrangement.blockIds = s.arrangement.blockIds := Arrangement.blockIds_seen
  simp only [Solver.cleanUp, Arrangement.cleanUp, hids]
  rfl

namespace Frame.Inertial

open Solver Arrangement

variable {Fit : Arrangement α → Prop} (hf : f.Inertial Fit)
include hf

theorem fits (hs : s.Fits Fit) (h : s.Leads t) : t.Fits Fit :=
  ⟨h.sound, hf.steps hs.sound.intact hs.fit h.steps⟩

theorem mergeAcross (ha : s.arrangement.Intact) (h : Fit s.arrangement) (c : ConId) :
    (s.seen f).mergeAcross c = (s.mergeAcross c).map (Solver.seen f) :=
  bind_eq_map (hf.merge ha h c) fun _ _ => rfl

theorem nextViolated (hs : s.Sound) : (s.seen f).nextViolated = s.nextViolated := by
  have hslack (c : ConId) (hc : c ∈ s.inactive) :
      (s.seen f).arrangement.slack c = s.arrangement.slack c := hf.slack hs.intact (hs.watched c hc)
  have hviolated : ((s.seen f).inactive.filter fun c => ((s.seen f).problem.constraintAt c).equality ||
      decide ((s.seen f).arrangement.slack c < -Scalar.epsilon)) = s.inactive.filter fun c =>
        (s.problem.constraintAt c).equality || decide (s.arrangement.slack c < -Scalar.epsilon) := by
    apply List.filter_congr
    intro c hc
    rw [hslack c hc]
    rfl
  rw [Solver.nextViolated, Solver.nextViolated, hviolated]
  exact mostUrgent_congr rfl fun c hc => hslack c (List.mem_of_mem_filter hc)

theorem pick (hs : s.Sound) (hc : c < s.problem.constraints.size) :
    (s.seen f).pick c = (s.pick c).seen f := by
  have hslack : (s.seen f).arrangement.slack c = _ := hf.slack hs.intact hc
  rw [Solver.pick, Solver.pick, hslack]
  rfl

omit hf in
theorem cycle (s : Solver α) (c : ConId) (n : Nat) : (s.seen f).cycle c n = s.cycle c n := by
  have hl : (s.seen f).problem.leftId c = s.problem.leftId c := Problem.leftId_seen
  have hr : (s.seen f).problem.rightId c = s.problem.rightId c := Problem.rightId_seen
  rw [Solver.cycle, Solver.cycle, hl, hr]

theorem resolveInside (hs : s.Fits Fit) (hc : c < s.problem.constraints.size)
    (he : s.arrangement.leftBlock c = s.arrangement.rightBlock c) (n : Nat) :
    (s.seen f).resolveInside c n = (s.resolveInside c n).map (Step.seen f) := by
  have ha := hs.sound.intact
  have hslack : (s.seen f).arrangement.slack c = _ := hf.slack ha hc
  have himplied : (s.seen f).isImplied c = s.isImplied c := by
    rw [isImplied, isImplied, hslack]
    rfl
  unfold Solver.resolveInside
  dsimp only
  rw [himplied]
  refine bind_eq_map (hf.splitBetween s.arrangement _ _) ?_
  rintro ⟨a, freed⟩ hr
  cases freed with
  | none =>
    dsimp only
    rw [show (s.seen f).mode = s.mode from rfl]
    split
    · rfl
    · exact congrArg (fun e => Except.ok (Step.finished ({ s with arrangement := a }.seen f) (.error e)))
        (cycle { s with arrangement := a } c (n + 1))
  | some freed =>
    rcases splitBetween_cases ha (ha.consistent.left_lt c hc) (ha.consistent.right_lt c hc) he with
      hn | ⟨a₁, d, a', l, r, B, L, R, rfl, hb, hd, -, hsp, hh, -⟩
    · cases hr.symm.trans hn
    · cases hr.symm.trans hb
      have ha₁ := ha.writeMultipliers (s.arrangement.multipliersOf (s.arrangement.blockOf
        (s.arrangement.problem.constraintAt c).left))
      have h₁ := hf.fit_step _ _ ha hs.fit (.writeMultipliers (s.arrangement.blockOf
        (s.arrangement.problem.constraintAt c).left))
      have hmerge := hf.mergeAcross (s := { s with arrangement := a }.watch freed)
        (hh.intact ha₁ hd) (hf.fit_step _ _ ha₁ h₁ (.split hd hsp)) c
      exact bind_eq_map hmerge fun _ _ => rfl

theorem resolvePicked (hs : s.Fits Fit) (hc : c < s.problem.constraints.size) (n : Nat) :
    (s.seen f).resolvePicked c n = (s.resolvePicked c n).map (Step.seen f) := by
  have hleft : (s.seen f).arrangement.leftBlock c = s.arrangement.leftBlock c := leftBlock_seen
  have hright : (s.seen f).arrangement.rightBlock c = s.arrangement.rightBlock c := rightBlock_seen
  have hoptions : (s.seen f).options = s.options := rfl
  unfold Solver.resolvePicked
  rw [hleft, hright, hoptions]
  split
  · exact bind_eq_map (hf.mergeAcross hs.sound.intact hs.fit c) fun _ _ => rfl
  · rename_i he
    split
    · exact congrArg (fun e => Except.ok (Step.finished (s.seen f) (.error e))) (cycle s c (n + 1))
    · exact hf.resolveInside hs hc (not_not.mp he) n

theorem resolveStep (hs : s.Fits Fit) (n : Nat) :
    (s.seen f).resolveStep n = (s.resolveStep n).map (Step.seen f) := by
  unfold Solver.resolveStep
  rw [hf.nextViolated hs.sound]
  split
  · exact congrArg (fun t => Except.ok (Step.finished t (.ok ()))) (seen_cleanUp s)
  · rename_i c hnext
    have hc := hs.sound.watched c (mem_of_nextViolated hnext)
    have hlog : Arrangement.Step s.arrangement (s.pick c).arrangement :=
      .log _ fun _ he => by cases he; exact ⟨rfl, rfl⟩
    have hp : (s.pick c).Fits Fit :=
      ⟨hs.sound.pick c, hf.fit_step _ _ hs.sound.intact hs.fit hlog⟩
    rw [hf.pick hs.sound hc]
    exact hf.resolvePicked hp hc n

theorem resolve (hs : s.Fits Fit) (n : Nat) :
    (s.seen f).resolve n = (s.resolve n).map f.image := by
  have hstep {s : Solver α} {n : Nat} {r : Step α} (hs : s.Fits Fit) (hr : s.resolveStep n = .ok r) :
      r.solver.Fits Fit := by
    obtain ⟨hs', h'⟩ := (resolveStep_yields (Keeps.steps s.arrangement) hs.sound .refl n).of_ok hr
    exact hf.fits hs ⟨hs', h'⟩
  induction s, n using resolve.induct with
  | case1 s n e he =>
    rw [resolve_eq, resolve_eq, hf.resolveStep hs, he]
    rfl
  | case2 s n t reply ht =>
    rw [resolve_eq, resolve_eq, hf.resolveStep hs, ht]
    rfl
  | case3 s n t m ht ih =>
    rw [resolve_eq, resolve_eq, hf.resolveStep hs, ht]
    exact ih (hstep hs ht)

theorem verify (hs : s.Sound) : (s.seen f).verify = f.image s.verify := by
  have hslack (c : ConId) (hc : c < s.problem.constraints.size) :
      (s.seen f).arrangement.slack c = s.arrangement.slack c := hf.slack hs.intact hc
  have hfirst : (s.seen f).firstUnsatisfied = s.firstUnsatisfied := by
    refine List.find?_congr fun c hc => ?_
    rw [hslack c (List.mem_range.mp hc)]
    rfl
  unfold Solver.verify
  rw [hfirst]
  split
  · rfl
  · rename_i c hc
    have hl : (s.seen f).problem.leftId c = s.problem.leftId c := Problem.leftId_seen
    have hr : (s.seen f).problem.rightId c = s.problem.rightId c := Problem.rightId_seen
    dsimp only
    rw [hslack c (List.mem_range.mp (List.mem_of_find?_eq_some hc)), hl, hr]
    rfl

theorem writePositions (hs : s.Sound) :
    (s.seen f).writePositions = s.writePositions.seen f.rewritten := by
  have hwrite : (s.seen f).arrangement.writePositions = _ := hf.seen_writePositions hs.intact
  rw [Solver.writePositions, hwrite]
  rfl

theorem check (hs : s.Sound) : (s.seen f).writePositions.verify =
    f.rewritten.image s.writePositions.verify := by
  rw [hf.writePositions hs]
  exact hf.rewritten.verify ((hs.with .refl).writePositions).sound

theorem settleBlocks (hs : s.Fits Fit) :
    (s.seen f).settleBlocks = s.settleBlocks.seen f.rewritten := by
  have hsettled (bs : List BlockId) (a : Arrangement α) (ha : a.Intact) (h : Fit a) :
      bs.foldl Arrangement.settle (a.seen f) = (bs.foldl Arrangement.settle a).seen f := by
    induction bs generalizing a with
    | nil => rfl
    | cons b bs ih =>
      rw [List.foldl_cons, List.foldl_cons, hf.settle ha h]
      exact ih _ ha.settle (hf.fit_step _ _ ha h (.settle b))
  have hids : (s.seen f).arrangement.blockIds = s.arrangement.blockIds := blockIds_seen
  have h := hs.sound.with (steps_settleAll s.arrangement s.arrangement.blockIds)
  unfold Solver.settleBlocks
  rw [hids, ← hf.writePositions h.sound]
  exact congrArg (fun a => Solver.writePositions { s.seen f with arrangement := a })
    (hsettled _ _ hs.sound.intact hs.fit)

theorem splitNegative (hs : s.Fits Fit) (bs : List BlockId) :
    (s.seen f).splitNegative bs = (s.splitNegative bs).map (Solver.seen f) := by
  induction bs generalizing s with
  | nil => rfl
  | cons b bs ih =>
    have hleast : (s.seen f).arrangement.leastMultiplier b = _ := hf.leastMultiplier s.arrangement b
    unfold Solver.splitNegative
    rw [hleast]
    dsimp only
    rw [show ((s.arrangement.leastMultiplier b).1.seen f).isNegative =
      (s.arrangement.leastMultiplier b).1.isNegative from rfl]
    split
    · exact ih (hf.fits hs (hs.sound.with (steps_leastMultiplier s.arrangement b)))
    · rename_i c hc
      refine bind_eq_map (hf.split _ c) fun r hr => ?_
      exact ih (hf.fits hs ((split_leads hs.sound hc).of_ok hr))

theorem splitBlocks (hs : s.Fits Fit) :
    (s.seen f).splitBlocks = s.splitBlocks.map (Solver.seen f.rewritten) := by
  have hsettled := settleBlocks_leads hs.sound
  have h : s.Leads { s.settleBlocks with splitCount := 0 } :=
    hs.sound.leads hsettled.steps fun _ hc => .inl hc
  have hids : (s.settleBlocks.seen f.rewritten).arrangement.blockIds =
    s.settleBlocks.arrangement.blockIds := blockIds_seen
  unfold Solver.splitBlocks
  dsimp only
  rw [hf.settleBlocks hs, hids]
  refine bind_eq_map (hf.rewritten.splitNegative (hf.fits hs h) _) fun t ht => ?_
  have h' := (splitNegative_leads h.sound _).of_ok ht
  rw [seen_cleanUp, hf.rewritten.writePositions h'.cleanUp.sound]
  rfl

omit hf [Scalar α] in
theorem andThen {r : Solver α × Reply α} {g g' : Solver α → Except Abort (Solver α × Reply α)}
    (hg : r.2 = .ok () → g' (r.1.seen f) = (g r.1).map f.image) :
    Solver.andThen (f.image r) g' = (Solver.andThen r g).map f.image := by
  obtain ⟨t, _ | _⟩ := r
  · rfl
  · exact hg rfl

theorem satisfyIncremental (hs : s.Fits Fit) :
    (s.seen f).satisfyIncremental = s.satisfyIncremental.map f.rewritten.image := by
  refine bind_eq_map (hf.splitBlocks hs) fun t ht => ?_
  have h := (splitBlocks_leads hs.sound).of_ok ht
  refine bind_eq_map (hf.rewritten.resolve (hf.fits hs h) 0) fun r hr => ?_
  apply andThen
  intro _
  exact congrArg Except.ok (hf.rewritten.check ((h.resolve 0).of_ok hr).sound)

theorem solveRounds (hs : s.Fits Fit) (rounds : Nat) (last : Option α) (done : Nat) :
    (s.seen f).solveRounds rounds last done =
      (s.solveRounds rounds last done).map f.rewritten.image := by
  induction rounds generalizing f s last done with
  | zero => rfl
  | succ rounds ih =>
    refine bind_eq_map (hf.satisfyIncremental hs) fun r hr => ?_
    have h := (satisfyIncremental_leads (E := fun _ => True) hs.sound).of_ok hr
    apply andThen
    intro _
    have hcost : (r.1.seen f.rewritten).arrangement.cost = r.1.arrangement.cost :=
      hf.rewritten.cost h.sound.intact
    let t := r.1.record (.round (done + 1) r.1.arrangement.cost)
    have ht : s.Leads t := h.record ⟨rfl, rfl⟩
    have hrecord : (r.1.seen f.rewritten).record (.round (done + 1) r.1.arrangement.cost) =
      t.seen f.rewritten := rfl
    have hsettled : (t.seen f.rewritten).isSettled = t.isSettled := rfl
    have hoptions : (t.seen f.rewritten).options = t.options := rfl
    dsimp only
    rw [hcost, hrecord, hsettled, hoptions]
    split
    · rw [hf.rewritten.writePositions ht.sound]
      rfl
    · split
      · have hnote : (t.seen f.rewritten).note (.roundLimit (done + 1) r.1.arrangement.cost) =
          (t.note (.roundLimit (done + 1) r.1.arrangement.cost)).seen f.rewritten := rfl
        rw [hnote, hf.rewritten.writePositions (ht.note _).sound]
        rfl
      · refine bind_eq_map (hf.rewritten.splitBlocks (hf.fits hs ht)) fun u hu => ?_
        exact ih hf.rewritten (hf.fits hs (ht.trans ((splitBlocks_leads ht.sound).of_ok hu))) _ _

theorem mergedInOrder (hs : s.Fits Fit) :
    (s.seen f).arrangement.mergeInOrder (s.seen f).problem.order =
      (s.arrangement.mergeInOrder s.problem.order).map (Arrangement.seen f) := by
  have horder : (s.seen f).problem.order = s.problem.order := Problem.order_seen
  rw [horder]
  exact hf.mergeInOrder hs.sound.intact hs.fit _

theorem resolveSplit (hs : s.Fits Fit) :
    (s.seen f).cleanUp.watchInactive.resolve 0 = (s.cleanUp.watchInactive.resolve 0).map f.image := by
  rw [seen_cleanUp]
  exact hf.resolve (hf.fits hs (hs.sound.with .refl).cleanUp.watchInactive) 0

omit hf [Scalar α] in
theorem andThen_agrees {r : Solver α × Reply α} {g g' : Solver α → Except Abort (Solver α × Reply α)}
    (hg : r.2 = .ok () → Alongside f.Agrees (g r.1) (g' (r.1.seen f))) :
    Alongside f.Agrees (Solver.andThen r g) (Solver.andThen (f.image r) g') := by
  obtain ⟨t, _ | _⟩ := r
  · exact .ok (.inl rfl)
  · exact hg rfl

theorem satisfyBatch (hs : s.Fits Fit) :
    Alongside f.Agrees s.satisfyBatch (s.seen f).satisfyBatch := by
  refine Alongside.bind_map (hf.mergedInOrder hs) fun a ha => ?_
  have h := hs.sound.with ((steps_mergeInOrder hs.sound.intact _).of_ok ha)
  refine Alongside.bind_map (hf.resolveSplit (hf.fits hs h)) fun r hr => ?_
  apply andThen_agrees
  intro _
  exact .ok (.inr (hf.check ((h.cleanUp.watchInactive.resolve 0).of_ok hr).sound))

theorem satisfy (hs : s.Fits Fit) : Alongside f.Agrees s.satisfy (s.seen f).satisfy := by
  have hmode : (s.seen f).mode = s.mode := rfl
  unfold Solver.satisfy
  rw [hmode]
  split
  · exact hf.satisfyBatch hs
  · exact .of_map (hf.satisfyIncremental hs) fun _ _ => .inr rfl

theorem refineOnce (hs : s.Fits Fit) : (s.seen f).refineOnce = s.refineOnce.map f.image := by
  have hids : (s.seen f).arrangement.blockIds = s.arrangement.blockIds := blockIds_seen
  have hscan : (s.seen f).scan = (s.scan.1.seen f, s.scan.2) := by
    rw [scan, scan, hids]
    refine Eq.trans ?_ (hf.firstNegative _ _)
    exact congrArg (fun a => Arrangement.firstNegative a s.arrangement.blockIds)
      (seen_collectBoundaries s.arrangement s.arrangement.blockIds)
  have h := hs.sound.with (steps_scan hs.sound)
  cases hc : s.scan.2 with
  | none =>
    rw [refineOnce_of_none hc, refineOnce_of_none (by rw [hscan, hc]), hscan]
    rfl
  | some c =>
    have hactive := active_of_scan hs.sound hc
    rw [refineOnce_of_some hc, refineOnce_of_some (by rw [hscan, hc]), hscan]
    refine bind_eq_map (hf.rebalance h.sound.intact (hf.fits hs h).fit hactive) fun a ha => ?_
    have h' := h.trans (h.sound.with ((steps_rebalance h.sound.intact hactive).of_ok ha))
    exact bind_eq_map (hf.resolveSplit (hf.fits hs h')) fun _ _ => rfl

theorem refine (hs : s.Fits Fit) (rounds : Nat) :
    Alongside f.Agrees (s.refine rounds) ((s.seen f).refine rounds) := by
  induction rounds generalizing s with
  | zero => exact .error _
  | succ rounds ih =>
    refine Alongside.bind_map (hf.refineOnce hs) ?_
    rintro ⟨t, reply⟩ ht
    have h := (refineOnce_leads hs.sound).of_ok ht
    cases reply with
    | none => exact .ok (.inr (hf.check h.sound))
    | some reply => exact andThen_agrees (r := (t, reply)) fun _ => ih (hf.fits hs h)

theorem solve (hs : s.Fits Fit) (rounds : Nat) :
    Alongside f.Agrees (s.solve rounds) ((s.seen f).solve rounds) := by
  have hmode : (s.seen f).mode = s.mode := rfl
  unfold Solver.solve
  rw [hmode]
  split
  · have hsize : (s.seen f).problem.vars.size = s.problem.vars.size := Problem.size_seen
    let t := s.note (.started s.problem.vars.size s.problem.constraints.size)
    have h : s.Leads t := (hs.sound.with .refl).note _
    have hnote : (s.seen f).note (.started s.problem.vars.size (s.seen f).problem.constraints.size) =
      t.seen f := rfl
    dsimp only
    rw [hsize, hnote]
    refine (hf.satisfy (hf.fits hs h)).bind fun r r' hr _ hagrees => ?_
    have h' := h.trans ((satisfy_leads (E := fun _ => True) h.sound).of_ok hr)
    rcases hagrees with rfl | rfl
    · exact andThen_agrees fun _ => hf.refine (hf.fits hs h') rounds
    · have hrefine := andThen_agrees (r := r) fun _ => hf.rewritten.refine (hf.fits hs h') rounds
      exact hrefine.mono fun _ _ _ _ he => he.of_rewritten
  · exact .of_map (hf.solveRounds hs rounds none 0) fun _ _ => .inr rfl

omit hf in
theorem setDesired (s : Solver α) (v : VarId) (x : α) :
    (s.seen f).setDesired v (f.place x) = (s.setDesired v x).map (Solver.seen f) := by
  have hedit : (s.seen f).problem.edit (.setDesired v (f.place x)) = _ :=
    Problem.edit_seen (p := s.problem) (e := .setDesired v x) nofun
  exact bind_eq_map hedit fun _ _ => rfl

theorem setGap (s : Solver α) (c : ConId) (gap : α) :
    (s.seen f).setGap c gap = (s.setGap c gap).map (Solver.seen f) := by
  have hedit : (s.seen f).problem.edit (.setGap c gap) = _ :=
    Problem.edit_seen (p := s.problem) (e := .setGap c gap) nofun
  refine bind_eq_map hedit fun p hp => ?_
  have hactive : ((p.seen f).constraintAt c).active = (p.constraintAt c).active := rfl
  dsimp only
  rw [hactive]
  split
  · refine bind_eq_map (hf.split { s.arrangement with problem := p } c) fun r _ => ?_
    exact congrArg (fun t => Except.ok (t.watch c)) (seen_cleanUp { s with arrangement := r.1 })
  · rfl

theorem perform (hs : s.Fits Fit) (rounds : Nat) (op : Operation α) :
    Alongside f.Agrees (s.perform rounds op) ((s.seen f).perform rounds (op.seen f)) := by
  cases op with
  | solve => exact hf.solve hs rounds
  | satisfy => exact hf.satisfy hs
  | refine => exact hf.refine hs rounds
  | settle => exact .ok (.inr (Prod.ext (hf.settleBlocks hs) rfl))
  | split => exact .bind_map (hf.splitBlocks hs) fun _ _ => .ok (.inr rfl)
  | setDesired v x => exact .bind_map (setDesired s v x) fun _ _ => .ok (.inl rfl)
  | setGap c gap => exact .bind_map (hf.setGap s c gap) fun _ _ => .ok (.inl rfl)

theorem run (hs : s.Fits Fit) (rounds : Nat) (ops : List (Operation α)) :
    Alongside f.Agrees (s.run rounds ops) ((s.seen f).run rounds (ops.map (Operation.seen f))) := by
  induction ops generalizing f s with
  | nil => exact .ok (.inl rfl)
  | cons op ops ih =>
    refine (hf.perform hs rounds op).bind fun r r' hr _ hagrees => ?_
    have h := (perform_leads rounds hs.sound op).of_ok hr
    rcases hagrees with rfl | rfl
    · refine (ih hf (hf.fits hs h)).bind fun _ _ _ _ he => .ok ?_
      rcases he with rfl | rfl
      · exact .inl rfl
      · exact .inr rfl
    · refine (ih hf.rewritten (hf.fits hs h)).bind fun _ _ _ _ he => .ok (.inr ?_)
      rcases he with rfl | rfl <;> rfl

end Frame.Inertial

end Spacing
