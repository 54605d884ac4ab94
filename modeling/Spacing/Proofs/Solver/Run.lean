import Spacing.Proofs.Arrangement.Initial
import Spacing.Proofs.Arrangement.Rebalance
import Spacing.Proofs.Solver.Negative
import Spacing.Proofs.Solver.Resolution
import Spacing.Solver.Operation

namespace Spacing

open Relation

variable {α : Type} [Scalar α]

namespace Arrangement

variable {a : Arrangement α}

theorem mergeInOrder_yields {I : Arrangement α → Prop} (hI : LoopInvariant .left fun a _ => I a)
    (ha : a.Intact) (h : I a) (vs : List VarId) :
    Yields (a.mergeInOrder vs) fun a' => a'.Intact ∧ I a' := by
  refine Yields.foldlM (I := fun _ a' => Intact a' ∧ I a') ⟨ha, h⟩ fun _ v _ a' _ h => ?_
  dsimp only
  split
  · rename_i hb
    exact (mergeTowards_yields hI h.1 hb h.2).map fun r hr => ⟨hr.1, hr.2.2.1⟩
  · exact .ok h

theorem steps_mergeInOrder (ha : a.Intact) (vs : List VarId) :
    Yields (a.mergeInOrder vs) (Steps a) :=
  (mergeInOrder_yields (loopInvariant_steps a .left) ha .refl vs).mono fun _ h => h.2

theorem collectBoundaries_keeps {I : Arrangement α → Prop}
    (hI : ∀ a side b, I a → I (a.collectBoundary side b)) (h : I a) (bs : List BlockId) :
    I (a.collectBoundaries bs) := by
  induction bs generalizing a with
  | nil => exact h
  | cons b bs ih => exact ih (hI _ .right b (hI a .left b h))

theorem steps_collectBoundaries (a : Arrangement α) (bs : List BlockId) :
    Steps a (a.collectBoundaries bs) :=
  collectBoundaries_keeps (I := Steps a) (fun _ side b h => h.tail (.collectBoundary side b)) .refl bs

theorem still_collectBoundaries (a : Arrangement α) (bs : List BlockId) :
    Still a (a.collectBoundaries bs) :=
  collectBoundaries_keeps (I := Still a) (fun a' side b h => h.trans (still_collectBoundary a' side b))
    .refl bs

theorem Idle.collectBoundaries (a : Arrangement α) (bs : List BlockId) :
    Idle a (a.collectBoundaries bs) :=
  collectBoundaries_keeps (I := Idle a) (fun a' side b h => h.trans (.collectBoundary a' side b))
    (.refl a) bs

theorem steps_firstNegative (ha : a.Intact) (bs : List BlockId) : Steps a (a.firstNegative bs).1 :=
  (firstNegative_keeps (I := Steps a) (fun _ b _ h => h.tail (.writeMultipliers b)) ha .refl).2

theorem steps_settleAll (a : Arrangement α) (bs : List BlockId) : Steps a (bs.foldl settle a) := by
  suffices h : ∀ a', Steps a a' → Steps a (bs.foldl settle a') from h a .refl
  induction bs with
  | nil => exact fun _ h => h
  | cons b bs ih => exact fun a' h => ih _ (h.tail (.settle b))

theorem steps_leastMultiplier (a : Arrangement α) (b : BlockId) : Steps a (a.leastMultiplier b).1 :=
  ReflTransGen.single (.writeMultipliers b)

end Arrangement

namespace Solver

variable {s t u : Solver α} {c : ConId}

structure Leads (s t : Solver α) : Prop where
  sound : t.Sound
  steps : Arrangement.Steps s.arrangement t.arrangement

theorem Leads.trans (h : s.Leads t) (h' : t.Leads u) : s.Leads u :=
  ⟨h'.sound, ReflTransGen.trans h.steps h'.steps⟩

theorem Sound.leads (hs : s.Sound) (h : Arrangement.Steps s.arrangement t.arrangement)
    (hw : ∀ c ∈ t.inactive, c ∈ s.inactive ∨ c < t.problem.constraints.size) : s.Leads t := by
  refine ⟨⟨hs.intact.steps h, fun c hc => ?_⟩, h⟩
  rcases hw c hc with hc | hc
  · exact (h.sizes_eq hs.intact).2.symm ▸ hs.watched c hc
  · exact hc

theorem Sound.with (hs : s.Sound) {a : Arrangement α} (h : Arrangement.Steps s.arrangement a) :
    s.Leads { s with arrangement := a } :=
  hs.leads h fun _ hc => .inl hc

theorem sound_new {p : Problem α} (hp : p.Consistent) (mode : Mode) (options : Options α) :
    (new p mode options).Sound where
  intact := Arrangement.intact_ofProblem hp
  watched c hc := by
    change c < (Arrangement.ofProblem p).problem.constraints.size
    rw [Problem.size_constraints_eq Arrangement.given_ofProblem]
    exact List.mem_range.mp hc

theorem sound_watchInactive (h : s.arrangement.Intact) : s.watchInactive.Sound :=
  ⟨h, fun _ hc => List.mem_range.mp (List.mem_of_mem_filter hc)⟩

theorem verify_eq_ok (h : s.verify = (t, .ok ())) : t = s := by
  unfold verify at h
  split at h
  · cases h
    rfl
  · cases h

namespace Leads

variable (h : s.Leads t)
include h

theorem record {e : Event α} (he : e.isMerge = false ∧ e.isSplit = false) : s.Leads (t.record e) :=
  h.trans (h.sound.with (ReflTransGen.single (.log _ fun _ hev => by cases hev; exact he)))

theorem note (n : Note α) : s.Leads (t.note n) :=
  h.trans (h.sound.with (ReflTransGen.single (.log _ fun _ hev => by cases hev)))

theorem writePositions : s.Leads t.writePositions :=
  h.trans (h.sound.with (ReflTransGen.single .writePositions))

theorem cleanUp : s.Leads t.cleanUp :=
  h.trans (h.sound.with (ReflTransGen.single .cleanUp))

theorem watch (hc : c < t.problem.constraints.size) : s.Leads (t.watch c) := by
  refine h.trans (h.sound.leads .refl fun d hd => ?_)
  rcases List.mem_append.mp hd with hd | hd
  · exact .inl hd
  · rw [List.mem_singleton.mp hd]
    exact .inr hc

theorem watchInactive : s.Leads t.watchInactive :=
  h.trans (h.sound.leads .refl fun _ hd => .inr (List.mem_range.mp (List.mem_of_mem_filter hd)))

theorem verify : s.Leads t.verify.1 := by
  unfold Solver.verify
  split
  · exact h
  · exact (h.record ⟨rfl, rfl⟩).note _

theorem resolve (splits : Nat) : Yields (t.resolve splits) fun r => s.Leads r.1 :=
  (resolve_yields (Keeps.steps t.arrangement) h.sound .refl splits).mono
    fun _ hr => h.trans ⟨hr.1, hr.2⟩

end Leads

theorem andThen_unless {E : Abort → Prop} {r : Solver α × Reply α}
    {f : Solver α → Except Abort (Solver α × Reply α)} (hr : s.Leads r.1)
    (hf : ∀ t, s.Leads t → YieldsUnless E (f t) fun r => s.Leads r.1) :
    YieldsUnless E (andThen r f) fun r => s.Leads r.1 := by
  obtain ⟨t, _ | _⟩ := r
  · exact .ok hr
  · exact hf t hr

variable {E : Abort → Prop}

theorem satisfyBatch_leads (hs : s.Sound) :
    YieldsUnless E s.satisfyBatch fun r => s.Leads r.1 := by
  refine YieldsUnless.bind (.inr (Arrangement.steps_mergeInOrder hs.intact _)) fun a h => ?_
  refine YieldsUnless.bind (.inr ((hs.with h).cleanUp.watchInactive.resolve 0)) fun r hr => ?_
  exact andThen_unless hr fun t ht => .ok ht.writePositions.verify

def scan (s : Solver α) : Arrangement α × Option ConId :=
  (s.arrangement.collectBoundaries s.arrangement.blockIds).firstNegative s.arrangement.blockIds

theorem refineOnce_of_none (h : s.scan.2 = none) :
    s.refineOnce = .ok ({ s with arrangement := s.scan.1 }, none) := by
  unfold refineOnce
  dsimp only
  split
  · rename_i a' hn
    have hn : s.scan = (a', none) := hn
    rw [hn]
    rfl
  · rename_i a' c hn
    have hn : s.scan = (a', some c) := hn
    rw [hn] at h
    cases h

theorem refineOnce_of_some (h : s.scan.2 = some c) : s.refineOnce = (do
    let a ← s.scan.1.rebalance c
    let (t, reply) ← { s with arrangement := a }.cleanUp.watchInactive.resolve 0
    return (t, some reply)) := by
  unfold refineOnce
  dsimp only
  split
  · rename_i a' hn
    have hn : s.scan = (a', none) := hn
    rw [hn] at h
    cases h
  · rename_i a' d hn
    have hn : s.scan = (a', some d) := hn
    rw [hn] at h
    cases h
    rw [hn]

theorem steps_scan (hs : s.Sound) : Arrangement.Steps s.arrangement s.scan.1 := by
  have h := Arrangement.steps_collectBoundaries s.arrangement s.arrangement.blockIds
  exact ReflTransGen.trans h (Arrangement.steps_firstNegative (hs.intact.steps h) _)

theorem still_scan (hs : s.Sound) : Arrangement.Still s.arrangement s.scan.1 :=
  (Arrangement.still_collectBoundaries _ _).trans
    (Arrangement.still_firstNegative (hs.intact.steps (Arrangement.steps_collectBoundaries _ _)) _)

theorem active_of_scan (hs : s.Sound) (h : s.scan.2 = some c) : c ∈ s.scan.1.problem.active :=
  (Arrangement.firstNegative_eq_some (hs.intact.steps (Arrangement.steps_collectBoundaries _ _)) h).1

theorem releasable_of_scan (hs : s.Sound) (h : s.scan.2 = some c) : s.scan.1.isReleasable c = true :=
  (Arrangement.firstNegative_eq_some (hs.intact.steps (Arrangement.steps_collectBoundaries _ _))
    h).2.1

theorem idle_scan (hs : s.Sound) : Arrangement.Idle s.arrangement s.scan.1 := by
  have hcollect := Arrangement.Idle.collectBoundaries s.arrangement s.arrangement.blockIds
  exact (Arrangement.firstNegative_keeps (I := Arrangement.Idle s.arrangement)
    (fun a b _ h => h.trans (.writeMultipliers a b)) (hs.intact.steps hcollect.steps) hcollect).2

theorem scan_eq_findSome (hs : s.Sound) :
    s.scan.2 = s.arrangement.blockIds.findSome? s.arrangement.negativeOf := by
  have hcollect := Arrangement.Idle.collectBoundaries s.arrangement s.arrangement.blockIds
  rw [← funext hcollect.still.negativeOf_eq]
  exact Arrangement.firstNegative_eq_findSome (hs.intact.steps hcollect.steps) _

theorem refineOnce_leads (hs : s.Sound) : Yields s.refineOnce fun r => s.Leads r.1 := by
  have h := steps_scan hs
  cases hc : s.scan.2 with
  | none =>
    rw [refineOnce_of_none hc]
    exact .ok (hs.with h)
  | some c =>
    rw [refineOnce_of_some hc]
    refine (Arrangement.steps_rebalance (hs.intact.steps h) (active_of_scan hs hc)).bind fun a h' => ?_
    refine ((hs.with (ReflTransGen.trans h h')).cleanUp.watchInactive.resolve 0).bind fun r hr => ?_
    exact .ok hr

theorem refine_leads (hE : E .outOfRounds) (rounds : Nat) (hs : s.Sound) :
    YieldsUnless E (s.refine rounds) fun r => s.Leads r.1 := by
  induction rounds generalizing s with
  | zero => exact .error hE
  | succ rounds ih =>
    refine YieldsUnless.bind (.inr (refineOnce_leads hs)) fun ⟨t, reply⟩ ht => ?_
    cases reply with
    | none => exact .ok ht.writePositions.verify
    | some reply =>
      exact andThen_unless ht fun u hu => (ih hu.sound).mono (fun _ he => he) fun _ hr => hu.trans hr

theorem refine_eq_ok {P : Solver α → Prop} {rounds : Nat}
    (hP : ∀ u v, P u → u.refineOnce = .ok (v, some (.ok ())) → P v) (hs : P s)
    (h : s.refine rounds = .ok (t, .ok ())) :
    ∃ u v, P u ∧ u.refineOnce = .ok (v, none) ∧ v.writePositions.verify = (t, .ok ()) := by
  induction rounds generalizing s with
  | zero => cases h
  | succ rounds ih =>
    obtain ⟨⟨u, reply⟩, hu, h⟩ := bind_eq_ok.mp h
    cases reply with
    | none => exact ⟨s, u, hs, hu, Except.ok.inj h⟩
    | some reply =>
      cases reply with
      | error e => cases h
      | ok x => exact ih (hP s u hs hu) h

theorem settleBlocks_leads (hs : s.Sound) : s.Leads s.settleBlocks :=
  (hs.with (Arrangement.steps_settleAll _ _)).writePositions

theorem split_leads (hs : s.Sound) {b : BlockId}
    (hc : (s.arrangement.leastMultiplier b).2.filter (s.arrangement.leastMultiplier b).1.isNegative =
      some c) :
    Yields ((s.arrangement.leastMultiplier b).1.split c) fun r =>
      s.Leads ({ s with arrangement := r.1, splitCount := s.splitCount + 1 }.watch c) := by
  have h₁ := hs.with (Arrangement.steps_leastMultiplier s.arrangement b)
  have hactive : c ∈ (s.arrangement.leastMultiplier b).1.problem.active :=
    (Arrangement.active_writeMultipliers (a := s.arrangement) _).symm ▸
      (Arrangement.negative_of_leastMultiplier hs.intact hc).1
  obtain ⟨a', l, r, B, L, R, hsp, hh⟩ := Arrangement.exists_split h₁.sound.intact hactive
  have h₂ : s.Leads { s with arrangement := a', splitCount := s.splitCount + 1 } :=
    hs.leads (h₁.steps.tail (.split hactive hsp)) fun _ hd => .inl hd
  have hlt : c < a'.problem.constraints.size :=
    (Problem.size_constraints_eq hh.given_eq).symm ▸ Problem.lt_size_of_mem_active hactive
  exact ⟨_, hsp, h₂.watch hlt⟩

theorem splitNegative_leads (hs : s.Sound) (bs : List BlockId) :
    Yields (s.splitNegative bs) fun t => s.Leads t := by
  induction bs generalizing s with
  | nil => exact .ok (hs.with .refl)
  | cons b bs ih =>
    unfold splitNegative
    dsimp only
    split
    · have h := hs.with (Arrangement.steps_leastMultiplier s.arrangement b)
      exact (ih h.sound).mono fun _ ht => h.trans ht
    · rename_i c hc
      exact (split_leads hs hc).bind fun _ h => (ih h.sound).mono fun _ ht => h.trans ht

theorem splitNegative_of_none {bs : List BlockId} (h : (s.arrangement.firstNegative bs).2 = none) :
    s.splitNegative bs = .ok { s with arrangement := (s.arrangement.firstNegative bs).1 } := by
  induction bs generalizing s with
  | nil => rfl
  | cons b bs ih =>
    rw [Arrangement.firstNegative_cons] at h ⊢
    unfold splitNegative
    dsimp only
    split
    · rename_i hnone
      rw [hnone] at h
      simp only [hnone]
      exact ih h
    · rename_i c hc
      rw [hc] at h
      cases h

theorem splitBlocks_leads (hs : s.Sound) : Yields s.splitBlocks fun t => s.Leads t := by
  have h := settleBlocks_leads hs
  have h' : s.Leads { s.settleBlocks with splitCount := 0 } := hs.leads h.steps fun _ hc => .inl hc
  refine (splitNegative_leads h'.sound _).bind fun t ht => ?_
  exact .ok (h'.trans ht).cleanUp.writePositions

theorem satisfyIncremental_leads (hs : s.Sound) :
    YieldsUnless E s.satisfyIncremental fun r => s.Leads r.1 := by
  refine YieldsUnless.bind (.inr (splitBlocks_leads hs)) fun t ht => ?_
  refine YieldsUnless.bind (.inr (ht.resolve 0)) fun r hr => ?_
  exact andThen_unless hr fun u hu => .ok hu.writePositions.verify

theorem solveRounds_leads (hE : E .outOfRounds) (rounds : Nat) (last : Option α) (done : Nat)
    (hs : s.Sound) : YieldsUnless E (s.solveRounds rounds last done) fun r => s.Leads r.1 := by
  induction rounds generalizing s last done with
  | zero => exact .error hE
  | succ rounds ih =>
    refine YieldsUnless.bind (satisfyIncremental_leads hs) fun r hr => ?_
    refine andThen_unless hr fun t ht => ?_
    have ht' := ht.record (e := .round (done + 1) t.arrangement.cost) ⟨rfl, rfl⟩
    dsimp only
    split
    · exact .ok ht'.writePositions
    · split
      · exact .ok (ht'.note _).writePositions
      · refine YieldsUnless.bind (.inr (splitBlocks_leads ht'.sound)) fun u hu => ?_
        exact (ih _ _ hu.sound).mono (fun _ he => he) fun _ hr => (ht'.trans hu).trans hr

theorem satisfy_leads (hs : s.Sound) : YieldsUnless E s.satisfy fun r => s.Leads r.1 := by
  unfold satisfy
  split
  · exact satisfyBatch_leads hs
  · exact satisfyIncremental_leads hs

theorem solve_leads (hE : E .outOfRounds) (rounds : Nat) (hs : s.Sound) :
    YieldsUnless E (s.solve rounds) fun r => s.Leads r.1 := by
  unfold solve
  split
  · have h := (hs.with .refl).note (.started s.problem.vars.size s.problem.constraints.size)
    refine YieldsUnless.bind ((satisfy_leads h.sound).mono (fun _ he => he)
      fun _ hr => h.trans hr) fun r hr => ?_
    exact andThen_unless hr fun t ht => (refine_leads hE rounds ht.sound).mono (fun _ he => he)
      fun _ hr => ht.trans hr
  · exact solveRounds_leads hE rounds none 0 hs

theorem setDesired_leads (hs : s.Sound) (v : VarId) (desired : α) :
    YieldsUnless (fun e => e = .noVariable v ∧ s.problem.vars.size ≤ v) (s.setDesired v desired)
      fun t => s.Leads t := by
  by_cases hv : v < s.problem.vars.size
  · have he : s.setDesired v desired =
        .ok { s with arrangement.problem := s.problem.setDesired v desired } :=
      bind_eq_ok.mpr ⟨_, Problem.edit_setDesired hv desired, rfl⟩
    rw [he]
    exact .ok (hs.with (ReflTransGen.single (.setDesired hv desired)))
  · have he : s.setDesired v desired = .error (.noVariable v) := by
      simp [setDesired, Problem.edit, Problem.requireVariable, hv, bind, Except.bind]
    rw [he]
    exact .error ⟨rfl, Nat.not_lt.mp hv⟩

theorem setGap_leads (hs : s.Sound) (c : ConId) (gap : α) :
    YieldsUnless (fun e => e = .noConstraint c ∧ s.problem.constraints.size ≤ c) (s.setGap c gap)
      fun t => s.Leads t := by
  by_cases hc : c < s.problem.constraints.size
  · let a : Arrangement α := { s.arrangement with problem := s.problem.setGap c gap }
    have ha : a.Intact := hs.intact.setGap hc gap
    have hactive : (s.problem.setGap c gap).active = s.problem.active := Arrangement.active_setGap gap
    unfold setGap
    rw [Problem.edit_setGap hc gap]
    dsimp only [bind, Except.bind]
    split
    · rename_i hact
      have hact : c ∈ a.problem.active := hact
      obtain ⟨a', l, r, B, L, R, hsp, hh⟩ := Arrangement.exists_split ha hact
      have h : s.Leads { s with arrangement := a' } :=
        hs.with (ReflTransGen.single (.release (hactive ▸ hact) gap hsp))
      have hlt : c < a'.problem.constraints.size :=
        (Problem.size_constraints_eq hh.given_eq).symm ▸ Problem.lt_size_of_mem_active hact
      rw [hsp]
      exact .ok (h.cleanUp.watch hlt)
    · rename_i hact
      refine .ok (hs.with (ReflTransGen.single (.setGap hc (fun h => hact ?_) gap)))
      have h : c ∈ s.problem.active := h
      rwa [← hactive] at h
  · have he : s.setGap c gap = .error (.noConstraint c) := by
      simp [setGap, Problem.edit, Problem.requireConstraint, hc, bind, Except.bind]
    rw [he]
    exact .error ⟨rfl, Nat.not_lt.mp hc⟩

end Solver

end Spacing
