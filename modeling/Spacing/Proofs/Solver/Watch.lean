import Spacing.Proofs.Solver.Pass
import Spacing.Proofs.Solver.Structure

namespace Spacing

open Arrangement

variable {α : Type} [Scalar α]

namespace Arrangement

theorem loopInvariant_retains (p : Problem α) (A : Set ConId) (side : Side) :
    LoopInvariant side fun (a : Arrangement α) _ => a.problem.given = p.given ∧ A ⊆ a.problem.active where
  collect _ _ _ _ h := h
  merge _ _ c _ _ _ _ _ h _ _ hm := by
    obtain ⟨_, _, _, _, hmerged⟩ := merged_of_merge hm
    rw [hmerged.given_eq, hmerged.active_eq]
    exact ⟨h.1, h.2.trans (Set.subset_insert c _)⟩

theorem rebalance_retains {a : Arrangement α} {c : ConId} (ha : a.Intact) (hc : c ∈ a.problem.active) :
    Yields (a.rebalance c) fun a' =>
      a'.problem.given = a.problem.given ∧ a.problem.active \ {c} ⊆ a'.problem.active := by
  let A := a.problem.active \ {c}
  apply (rebalance_yields ha hc (loopInvariant_retains a.problem A .left)
    (loopInvariant_retains a.problem A .right) _ fun _ _ _ _ _ h _ _ => h).mono
  · rintro a' ⟨-, b, -, h, -⟩
    exact h
  · intro a' l r B L R _ hh
    exact ⟨hh.given_eq, hh.active_eq.ge⟩

end Arrangement

namespace Solver

variable {s t u : Solver α} {F F' : Set ConId} {ok ok' : Prop} {c d : ConId} {cs : List ConId}
  {n m : Nat} {reply : Reply α} {E : Abort → Prop}

/-- Each constraint that is not active is watched once, or is an equality that is not watched. -/
structure Watchful (s : Solver α) : Prop where
  nodup : s.inactive.Nodup
  notMem : ∀ c ∈ s.inactive, c ∉ s.problem.active
  listed : ∀ c < s.problem.constraints.size, c ∉ s.problem.active → c ∉ s.inactive →
    c ∈ s.problem.equalities

structure Continues (F : Set ConId) (ok : Prop) (s t : Solver α) : Prop where
  leads : s.Leads t
  mode_eq : t.mode = s.mode
  equalities_eq : t.problem.equalities = s.problem.equalities
  bonds : ∀ c ∈ s.problem.equalities, c ∉ F → c ∈ s.problem.active → c ∈ t.problem.active
  watchful : ok → s.Watchful → t.Watchful

namespace Continues

theorem mono (h : s.Continues F ok t) (hF : F ⊆ F') (hok : ok' → ok) : s.Continues F' ok' t where
  leads := h.leads
  mode_eq := h.mode_eq
  equalities_eq := h.equalities_eq
  bonds c hc hcF := h.bonds c hc fun hF' => hcF (hF hF')
  watchful ht := h.watchful (hok ht)

theorem trans (h : s.Continues F ok t) (h' : t.Continues F ok u) : s.Continues F ok u where
  leads := h.leads.trans h'.leads
  mode_eq := h'.mode_eq.trans h.mode_eq
  equalities_eq := h'.equalities_eq.trans h.equalities_eq
  bonds c hc hcF hactive := h'.bonds c (h.equalities_eq ▸ hc) hcF (h.bonds c hc hcF hactive)
  watchful hok hs := h'.watchful hok (h.watchful hok hs)

theorem weaken (h : s.Continues F True t) : s.Continues F ok t :=
  h.mono (Set.Subset.refl F) fun _ => trivial

end Continues

theorem Frees.watchful (h : Frees s t cs) (hn : cs.Nodup) (hs : s.Watchful) : t.Watchful := by
  constructor
  · rw [h.inactive_eq]
    apply List.nodup_append.mpr
    refine ⟨hs.nodup, hn, ?_⟩
    rintro c hc _ hcs rfl
    exact hs.notMem c hc (h.mem_active c hcs)
  · intro c hc
    rw [h.inactive_eq, List.mem_append] at hc
    rw [h.active_eq]
    rcases hc with hc | hc
    · exact fun hactive => hs.notMem c hc hactive.1
    · exact fun hactive => hactive.2 hc
  · intro c hlt hactive hwatched
    rw [h.inactive_eq, List.mem_append, not_or] at hwatched
    rw [h.active_eq] at hactive
    rw [h.size_eq] at hlt
    rw [h.equalities_eq]
    exact hs.listed c hlt (fun hc => hactive ⟨hc, hwatched.2⟩) hwatched.1

theorem Frees.continues (h : Frees s t cs) (hl : s.Leads t) (hn : cs.Nodup)
    (hF : ∀ c ∈ cs, c ∈ s.problem.equalities → c ∈ F) : s.Continues F ok t where
  leads := hl
  mode_eq := h.mode_eq
  equalities_eq := h.equalities_eq
  bonds c hc hcF hactive := by
    rw [h.active_eq]
    exact ⟨hactive, fun hcs => hcF (hF c hcs hc)⟩
  watchful _ hs := h.watchful hn hs

theorem Releases.continues (h : Releases s t cs) (hl : s.Leads t) (hn : cs.Nodup) :
    s.Continues ∅ ok t :=
  h.frees.continues hl hn fun c hcs hc => ((h.mem_active c hcs).2 hc).elim

theorem continues_of_eq (hl : s.Leads t) (hg : t.problem.given = s.problem.given)
    (ha : t.problem.active = s.problem.active) (hi : t.inactive = s.inactive) (hm : t.mode = s.mode)
    (ho : t.options = s.options) : s.Continues ∅ ok t :=
  (releases_nil hg ha hi hm ho).continues hl List.nodup_nil

theorem splitBlocks_continues (hs : s.Sound) : Yields s.splitBlocks (s.Continues ∅ True) := by
  have hI : PassInvariant (s.Continues ∅ True) := by
    constructor
    · intro t u _ hl hu ht
      exact ht.trans (hu.continues hl List.nodup_nil)
    · intro t u c _ hl hu ht
      exact ht.trans (hu.continues hl (List.nodup_singleton c))
  exact splitBlocks_keeps hI hs (continues_of_eq (hs.with .refl) rfl rfl rfl rfl rfl)

theorem Watchful.pick (hs : s.Watchful) (hc : s.nextViolated = some c) :
    c ∉ (s.pick c).inactive ∧ (s.pick c).inactive.Nodup := by
  have hperm := swapRemove_idxOf_perm (mem_of_nextViolated hc)
  exact List.nodup_cons.mp (hperm.nodup_iff.mpr hs.nodup)

theorem Watchful.picked (hs : s.Watchful) (hc : s.nextViolated = some c) (fs : List ConId)
    (held : Prop) (hgiven : t.problem.given = s.problem.given)
    (hactive : ∀ d, d ∈ t.problem.active ↔ (d = c ∧ held) ∨ (d ∈ s.problem.active ∧ d ∉ fs))
    (hinactive : t.inactive = (s.pick c).inactive ++ fs) (hn : fs.Nodup)
    (hfs : ∀ f ∈ fs, f ∈ s.problem.active) (hheld : held ∨ c ∈ s.problem.equalities) :
    t.Watchful := by
  obtain ⟨hnew, hnodup⟩ := hs.pick hc
  have hpicked (d : ConId) (hd : d ∈ (s.pick c).inactive) : d ∉ s.problem.active :=
    hs.notMem d (mem_of_mem_pick hd)
  have hcactive : c ∉ s.problem.active := hs.notMem c (mem_of_nextViolated hc)
  constructor
  · -- What is released was active, so it was not watched.
    rw [hinactive]
    refine List.nodup_append.mpr ⟨hnodup, hn, ?_⟩
    rintro d hd _ hdf rfl
    exact hpicked d hd (hfs d hdf)
  · intro d hd
    rw [hinactive, List.mem_append] at hd
    rw [hactive]
    rintro (⟨rfl, -⟩ | ⟨hda, hdf⟩)
    · exact hd.elim hnew fun hdf => hcactive (hfs d hdf)
    · exact hd.elim (fun hd => hpicked d hd hda) hdf
  · intro d hlt hda hd
    rw [hinactive, List.mem_append, not_or] at hd
    rw [hactive, not_or] at hda
    rw [Problem.equalities_eq hgiven]
    rw [Problem.size_constraints_eq hgiven] at hlt
    by_cases hdc : d = c
    · subst hdc
      exact hheld.resolve_left fun h => hda.1 ⟨rfl, h⟩
    · apply hs.listed d hlt
      · exact fun h => hda.2 ⟨h, hd.2⟩
      · exact fun h => hd.1 (mem_pick_of_ne hc h hdc)

theorem Resolves.resumed_continues (h : s.Resolves n (.resumed t m)) (hl : s.Leads t)
    (hm : s.mode = .incremental) : s.Continues ∅ ok t := by
  cases h with
  | @merged c a hc hgiven hactive =>
    refine ⟨hl, rfl, Problem.equalities_eq hgiven, ?_, fun _ hs => ?_⟩
    · intro d _ _ hd
      exact hactive ▸ Set.mem_insert_of_mem c hd
    · apply Watchful.picked (t := { s.pick c with arrangement := a }) hs hc [] True hgiven
      · intro d
        change d ∈ a.problem.active ↔ _
        simp [hactive]
      · exact (List.append_nil _).symm
      · exact List.nodup_nil
      · simp
      · exact .inl trivial
  | @exchanged c f a hc hf hreleasable _ _ hgiven hactive =>
    have hfQ : f ∉ s.problem.equalities := isReleasable_iff.mp hreleasable
    refine ⟨hl, rfl, Problem.equalities_eq hgiven, ?_, fun _ hs => ?_⟩
    · intro d hdQ _ hd
      change d ∈ a.problem.active
      rw [hactive]
      exact .inr ⟨hd, fun hdf => hfQ (hdf ▸ hdQ)⟩
    · let t : Solver α := { s.pick c with arrangement := a }
      apply Watchful.picked (t := t.watch f) hs hc [f] True hgiven
      · intro d
        change d ∈ a.problem.active ↔ _
        simp [hactive]
      · rfl
      · exact List.nodup_singleton f
      · simpa using hf
      · exact .inl trivial
  | @dropped c a hc _ _ hstill hgoes =>
    refine ⟨hl, rfl, Problem.equalities_eq hstill.given_eq, ?_, fun _ hs => ?_⟩
    · intro d _ _ hd
      exact hstill.active_eq.symm ▸ hd
    · have hbatch : s.mode ≠ .batch := by simp [hm]
      apply Watchful.picked (t := { s.pick c with arrangement := a }) hs hc [] False hstill.given_eq
      · intro d
        change d ∈ a.problem.active ↔ _
        simp [hstill.active_eq, problem]
      · exact (List.append_nil _).symm
      · exact List.nodup_nil
      · simp
      · exact .inr (mem_equalities_of_isImplied (hgoes.resolve_right hbatch))

theorem Resolves.finished_continues (h : s.Resolves n (.finished t reply)) (hl : s.Leads t) :
    s.Continues ∅ (reply = .ok ()) t := by
  cases h with
  | finished => exact continues_of_eq hl rfl rfl rfl rfl rfl
  | limited => exact ⟨hl, rfl, rfl, fun _ _ _ hd => hd, nofun⟩
  | stuck _ _ _ hstill =>
    refine ⟨hl, rfl, Problem.equalities_eq hstill.given_eq, fun d _ _ hd => ?_, nofun⟩
    exact hstill.active_eq.symm ▸ hd

theorem resolve_continues (hs : s.Sound) (hm : s.mode = .incremental) (n : Nat) :
    Yields (s.resolve n) fun r => s.Continues ∅ (r.2 = .ok ()) r.1 := by
  let I (t : Solver α) : Prop := t.mode = .incremental ∧ s.Continues ∅ True t
  have hstart : I s := ⟨hm, continues_of_eq (hs.with .refl) rfl rfl rfl rfl rfl⟩
  apply (resolve_induct (I := I) (Q := fun t reply => s.Continues ∅ (reply = .ok ()) t)
    ?_ ?_ hs hstart n).mono fun _ hr => hr.2
  · rintro t n u m - ⟨hmode, ht⟩ hl hu
    have hu' : t.Continues ∅ True u := hu.resumed_continues hl hmode
    exact ⟨hu'.mode_eq.trans hmode, ht.trans hu'⟩
  · rintro t n u reply - ⟨-, ht⟩ hl hu
    exact ht.weaken.trans (hu.finished_continues hl)

theorem verify_continues (hs : s.Sound) : s.Continues ∅ ok s.writePositions.verify.1 := by
  have hl : s.Leads s.writePositions.verify.1 := (hs.with .refl).writePositions.verify
  revert hl
  unfold verify
  split
  · exact fun hl => continues_of_eq hl given_writePositions rfl rfl rfl rfl
  · exact fun hl => continues_of_eq hl given_writePositions rfl rfl rfl rfl

theorem continues_rounds : RoundInvariant (fun s : Solver α => s.Sound ∧ s.mode = .incremental)
    (fun s r => s.Continues ∅ (r.2 = .ok ()) r.1) where
  sound _ h := h.1
  next _ _ h ht := ⟨ht.leads.sound, ht.mode_eq.trans h.2⟩
  trans _ _ _ _ ht hr := (ht.mono (Set.Subset.refl ∅) fun _ => rfl).trans hr
  still _ _ _ hl ht := ht.continues hl List.nodup_nil
  pass _ h := (splitBlocks_continues h.1).mono fun _ ht => ht.weaken
  enforce s h := by
    apply (resolve_continues h.1 h.2 0).bind
    intro ⟨t, reply⟩ hr
    cases reply with
    | error e => exact .ok hr
    | ok =>
      have ht : s.Continues ∅ True t := hr.mono (Set.Subset.refl ∅) fun _ => rfl
      exact .ok (ht.weaken.trans (verify_continues ht.leads.sound))

theorem watchful_watchInactive (s : Solver α) : s.watchInactive.Watchful := by
  have hmem (c : ConId) : c ∈ s.watchInactive.inactive ↔
      c < s.problem.constraints.size ∧ c ∉ s.problem.active := by
    simp [watchInactive, Problem.constraintIds, Problem.mem_active]
  refine ⟨List.nodup_range.filter _, fun c hc => ((hmem c).mp hc).2, fun c hlt hactive hc => ?_⟩
  exact absurd ((hmem c).mpr ⟨hlt, hactive⟩) hc

theorem refineOnce_continues (hs : s.Sound) (hm : s.mode = .incremental) :
    Yields s.refineOnce fun r => s.Continues ∅ (∀ reply, r.2 = some reply → reply = .ok ()) r.1 := by
  have hstill := still_scan hs
  have hscan : s.Leads { s with arrangement := s.scan.1 } := hs.with (steps_scan hs)
  cases hc : s.scan.2 with
  | none =>
    rw [refineOnce_of_none hc]
    exact .ok (continues_of_eq hscan hstill.given_eq hstill.active_eq rfl rfl rfl)
  | some c =>
    have hactive := active_of_scan hs hc
    have hQ : c ∉ s.problem.equalities := by
      have hreleasable := isReleasable_iff.mp (releasable_of_scan hs hc)
      rwa [Problem.equalities_eq hstill.given_eq] at hreleasable
    rw [refineOnce_of_some hc]
    refine ((steps_rebalance hscan.sound.intact hactive).and
      (rebalance_retains hscan.sound.intact hactive)).bind fun a ⟨hsteps, hgiven, hretains⟩ => ?_
    let t : Solver α := { s with arrangement := a }.cleanUp.watchInactive
    -- The list of `s` does not matter here, as a new one is made.
    have ht : s.Continues ∅ True t := by
      refine ⟨(hs.with (Relation.ReflTransGen.trans (steps_scan hs) hsteps)).cleanUp.watchInactive,
        rfl, ?_, ?_, fun _ _ => watchful_watchInactive _⟩
      · exact Problem.equalities_eq (hgiven.trans hstill.given_eq)
      · intro d hd _ hdactive
        apply hretains
        exact ⟨hstill.active_eq.symm ▸ hdactive, fun hdc => hQ (hdc ▸ hd)⟩
    refine (resolve_continues ht.leads.sound (ht.mode_eq.trans hm) 0).bind fun r hr => .ok ?_
    apply ht.weaken.trans
    exact hr.mono (Set.Subset.refl ∅) fun hok => hok r.2 rfl

theorem refine_continues (hE : E .outOfRounds) (rounds : Nat) (hs : s.Sound)
    (hm : s.mode = .incremental) :
    YieldsUnless E (s.refine rounds) fun r => s.Continues ∅ (r.2 = .ok ()) r.1 := by
  induction rounds generalizing s with
  | zero => exact .error hE
  | succ rounds ih =>
    refine YieldsUnless.bind (.inr (refineOnce_continues hs hm)) fun ⟨t, reply⟩ ht => ?_
    cases reply with
    | none =>
      have ht : s.Continues ∅ True t := ht.mono (Set.Subset.refl ∅) fun _ _ he => by cases he
      exact .ok (ht.weaken.trans (verify_continues ht.leads.sound))
    | some reply =>
      have ht : s.Continues ∅ (reply = .ok ()) t :=
        ht.mono (Set.Subset.refl ∅) fun hok _ he => Option.some.inj he ▸ hok
      exact continues_rounds.andThen ⟨hs, hm⟩ ht fun u _ hu => ih hu.1 hu.2

theorem setDesired_continues {v : VarId} {desired : α} (hs : s.Sound)
    (ht : s.setDesired v desired = .ok t) : s.Continues ∅ ok t :=
  (setDesired_frees ht).continues ((setDesired_leads hs v desired).of_ok ht) List.nodup_nil
    fun _ hc => (List.not_mem_nil hc).elim

theorem setGap_continues {gap : α} (hs : s.Sound) (ht : s.setGap c gap = .ok t) :
    s.Continues {c} ok t := by
  have hl : s.Leads t := (setGap_leads hs c gap).of_ok ht
  obtain ⟨cs, hfrees, hn, hc⟩ := setGap_frees hs ht
  exact hfrees.continues hl hn fun d hd _ => hc d hd

theorem perform_continues (rounds : Nat) (hs : s.Sound) (hm : s.mode = .incremental)
    (op : Operation α) : YieldsUnless (Excused s.problem [op]) (s.perform rounds op) fun r =>
      s.Continues { c | ∃ gap, op = .setGap c gap } (r.2 = .ok ()) r.1 := by
  let F : Set ConId := { c | ∃ gap, op = .setGap c gap }
  have hkeep {x : Except Abort (Solver α × Reply α)} (hx : YieldsUnless (Excused s.problem [op]) x
      fun r => s.Continues ∅ (r.2 = .ok ()) r.1) : YieldsUnless (Excused s.problem [op]) x
        fun r => s.Continues F (r.2 = .ok ()) r.1 := by
    apply hx.mono (fun _ he => he)
    intro r hr
    exact hr.mono (Set.empty_subset F) id
  cases op with
  | solve =>
    unfold perform solve
    rw [hm]
    exact hkeep (continues_rounds.solveRounds .outOfRounds rounds none 0 ⟨hs, hm⟩)
  | satisfy =>
    unfold perform satisfy
    rw [hm]
    exact hkeep (.inr (continues_rounds.satisfyIncremental ⟨hs, hm⟩))
  | refine => exact hkeep (refine_continues .outOfRounds rounds hs hm)
  | settle =>
    exact hkeep (.ok ((settleBlocks_releases s).continues (settleBlocks_leads hs) List.nodup_nil))
  | split =>
    exact hkeep (YieldsUnless.bind (.inr (splitBlocks_continues hs)) fun t ht => .ok ht.weaken)
  | setDesired v desired =>
    refine (perform_leads rounds hs (.setDesired v desired)).mono_ok fun r hr _ => ?_
    obtain ⟨t, ht, hr⟩ := bind_eq_ok.mp hr
    cases hr
    exact (setDesired_continues hs ht).mono (Set.empty_subset F) id
  | setGap c gap =>
    refine (perform_leads rounds hs (.setGap c gap)).mono_ok fun r hr _ => ?_
    obtain ⟨t, ht, hr⟩ := bind_eq_ok.mp hr
    cases hr
    exact (setGap_continues hs ht).mono (Set.singleton_subset_iff.mpr ⟨gap, rfl⟩) id

theorem run_continues (rounds : Nat) (hs : s.Sound) (hm : s.mode = .incremental)
    (ops : List (Operation α)) : YieldsUnless (Excused s.problem ops) (s.run rounds ops) fun r =>
      s.Continues { c | ∃ gap, .setGap c gap ∈ ops } (∀ reply ∈ r.2, reply = .ok ()) r.1 := by
  induction ops generalizing s with
  | nil => exact .ok ((continues_of_eq (hs.with .refl) rfl rfl rfl rfl rfl).mono (Set.empty_subset _) id)
  | cons op ops ih =>
    refine YieldsUnless.bind ((perform_continues rounds hs hm op).mono (fun _ he => ?_)
      fun _ hr => hr) fun r hr => ?_
    · exact he.mono rfl rfl fun x hx => List.mem_cons.mpr (.inl (List.mem_singleton.mp hx))
    · obtain ⟨hv, hc⟩ := hr.leads.steps.sizes_eq hs.intact
      refine YieldsUnless.bind ((ih hr.leads.sound (hr.mode_eq.trans hm)).mono (fun _ he => ?_)
        fun _ h => h) fun r' hr' => .ok ?_
      · exact he.mono hv hc fun _ hx => List.mem_cons_of_mem _ hx
      · refine (hr.mono ?_ ?_).trans (hr'.mono ?_ ?_)
        · rintro c ⟨gap, rfl⟩
          exact ⟨gap, List.mem_cons_self⟩
        · exact fun hok => hok r.2 List.mem_cons_self
        · rintro c ⟨gap, hop⟩
          exact ⟨gap, List.mem_cons_of_mem _ hop⟩
        · exact fun hok reply hreply => hok reply (List.mem_cons_of_mem _ hreply)

theorem watchful_new {p : Problem α} {mode : Mode} {options : Options α} :
    (new p mode options).Watchful where
  nodup := List.nodup_range
  notMem c _ hc := by
    change c ∈ (ofProblem p).problem.active at hc
    rw [active_ofProblem] at hc
    exact hc
  listed c hlt _ hc := by
    change c < (ofProblem p).problem.constraints.size at hlt
    rw [Problem.size_constraints_eq given_ofProblem] at hlt
    exact absurd (List.mem_range.mpr hlt) hc

def Steadfast (s : Solver α) : Prop :=
  ∀ rounds ops, YieldsUnless (Excused s.problem ops) (s.run rounds ops) fun r =>
    ∀ c ∈ s.problem.equalities, c ∈ s.problem.active → (∀ gap, .setGap c gap ∉ ops) →
      c ∈ r.1.problem.active

theorem Sound.steadfast (hs : s.Sound) (hm : s.mode = .incremental) : s.Steadfast := by
  intro rounds ops
  apply (run_continues rounds hs hm ops).mono (fun _ he => he)
  intro r hr c hc hactive hops
  exact hr.bonds c hc (fun ⟨gap, hop⟩ => hops gap hop) hactive

/-- Whatever operations a new incremental solver performs, on whatever scalars, it loses sight of no
constraint until one of them fails, and it never gives up an equality that it holds tight. -/
theorem watchful_run {p : Problem α} (hp : p.Built) (options : Options α) (rounds : Nat)
    (ops : List (Operation α)) :
    YieldsUnless (Excused p ops) ((new p .incremental options).run rounds ops) fun r =>
      ((∀ reply ∈ r.2, reply = .ok ()) → r.1.Watchful) ∧ r.1.Steadfast := by
  have hgiven : (new p .incremental options).problem.given = p.given := given_ofProblem
  have hs := sound_new hp.consistent .incremental options
  apply (run_continues rounds hs rfl ops).mono
  · intro e he
    exact he.mono (Problem.size_vars_eq hgiven) (Problem.size_constraints_eq hgiven) fun _ hop => hop
  · intro r hr
    exact ⟨fun hok => hr.watchful hok watchful_new, hr.leads.sound.steadfast hr.mode_eq⟩

end Solver

def Problem.brace : Problem Rat :=
  (((((Problem.empty.insertVariable 0 0 1).insertVariable 1 0 1).insertVariable 2 5 1).insertConstraint
    0 1 1 true).insertConstraint 1 2 1 true).insertConstraint 0 2 2 true

theorem Problem.built_brace : Problem.brace.Built :=
  Built.empty.edits [.addVariable 0 0 1, .addVariable 1 0 1, .addVariable 2 5 1,
    .addConstraint 0 1 1 true, .addConstraint 1 2 1 true, .addConstraint 0 2 2 true] rfl

theorem Solver.watchful_run_brace : ∃ s replies,
    (Solver.new Problem.brace .incremental Options.standard).run 3
        [.solve, .setDesired 1 9, .refine, .setGap 0 1, .solve] = .ok (s, replies) ∧
      1 ∉ s.problem.active ∧ 1 ∉ s.inactive ∧ s.Watchful ∧ s.Steadfast := by
  -- The middle equality follows from the other two; it is neither held nor watched.
  have hok : Yields ((Solver.new Problem.brace .incremental Options.standard).run 3
      [.solve, .setDesired 1 9, .refine, .setGap 0 1, .solve]) fun r =>
        (∀ reply ∈ r.2, reply = .ok ()) ∧ (r.1.problem.constraintAt 1).active = false ∧
          1 ∉ r.1.inactive := by decide +kernel
  obtain ⟨⟨s, replies⟩, hr, hreplies, hactive, hwatched⟩ := hok
  obtain ⟨hwatchful, hsteadfast⟩ := (watchful_run Problem.built_brace Options.standard 3
    [.solve, .setDesired 1 9, .refine, .setGap 0 1, .solve]).of_ok hr
  refine ⟨s, replies, hr, ?_, hwatched, hwatchful hreplies, hsteadfast⟩
  rw [Problem.mem_active]
  simp [hactive]

end Spacing
