import Spacing.Proofs.Solver.Account

namespace Spacing

variable {α : Type} [Scalar α]

theorem Problem.equalities_setGap {p : Problem α} {c : ConId} (hc : c < p.constraints.size) (gap : α) :
    (p.setGap c gap).equalities = p.equalities := by
  ext d
  simp only [equalities, constraintAt_setGap hc, Set.mem_ofPred_eq]
  split <;> rfl

namespace Arrangement

theorem problem_foldl_settle (bs : List BlockId) (a : Arrangement α) :
    (bs.foldl Arrangement.settle a).problem = a.problem := by
  induction bs generalizing a with
  | nil => rfl
  | cons b bs ih => exact (ih (a.settle b)).trans rfl

end Arrangement

namespace Solver

open Arrangement

variable {s t u : Solver α} {mode : Mode} {options : Options α} {lost : Set ConId} {c : ConId}
  {cs ds : List ConId}

structure Releases (s t : Solver α) (cs : List ConId) : Prop where
  given_eq : t.problem.given = s.problem.given
  active_eq : t.problem.active = s.problem.active \ { c | c ∈ cs }
  inactive_eq : t.inactive = s.inactive ++ cs
  mem_active : ∀ c ∈ cs, c ∈ s.problem.active ∧ c ∉ s.problem.equalities
  mode_eq : t.mode = s.mode
  options_eq : t.options = s.options

theorem releases_nil (hg : t.problem.given = s.problem.given)
    (ha : t.problem.active = s.problem.active) (hi : t.inactive = s.inactive) (hm : t.mode = s.mode)
    (ho : t.options = s.options) : Releases s t [] where
  given_eq := hg
  active_eq := by simp [ha]
  inactive_eq := by simp [hi]
  mem_active := by simp
  mode_eq := hm
  options_eq := ho

theorem releases_single (hg : t.problem.given = s.problem.given)
    (ha : t.problem.active = s.problem.active \ {c}) (hi : t.inactive = s.inactive ++ [c])
    (hc : c ∈ s.problem.active) (hQ : c ∉ s.problem.equalities) (hm : t.mode = s.mode)
    (ho : t.options = s.options) : Releases s t [c] where
  given_eq := hg
  active_eq := by simp [ha]
  inactive_eq := hi
  mem_active := by simp [hc, hQ]
  mode_eq := hm
  options_eq := ho

structure Frees (s t : Solver α) (cs : List ConId) : Prop where
  edges_eq : t.problem.edges = s.problem.edges
  equalities_eq : t.problem.equalities = s.problem.equalities
  size_eq : t.problem.constraints.size = s.problem.constraints.size
  active_eq : t.problem.active = s.problem.active \ { c | c ∈ cs }
  inactive_eq : t.inactive = s.inactive ++ cs
  mem_active : ∀ c ∈ cs, c ∈ s.problem.active
  mode_eq : t.mode = s.mode
  options_eq : t.options = s.options

theorem Releases.frees (h : Releases s t cs) : Frees s t cs where
  edges_eq := Problem.edges_eq h.given_eq
  equalities_eq := Problem.equalities_eq h.given_eq
  size_eq := Problem.size_constraints_eq h.given_eq
  active_eq := h.active_eq
  inactive_eq := h.inactive_eq
  mem_active c hc := (h.mem_active c hc).1
  mode_eq := h.mode_eq
  options_eq := h.options_eq

theorem Releases.trans (h : Releases s t cs) (h' : Releases t u ds) : Releases s u (cs ++ ds) where
  given_eq := h'.given_eq.trans h.given_eq
  active_eq := by
    rw [h'.active_eq, h.active_eq, Set.sdiff_sdiff]
    congr 1
    ext c
    simp
  inactive_eq := by rw [h'.inactive_eq, h.inactive_eq, List.append_assoc]
  mem_active := by
    intro c hc
    rcases List.mem_append.mp hc with hc | hc
    · exact h.mem_active c hc
    · have hct := h'.mem_active c hc
      rw [h.active_eq, h.frees.equalities_eq] at hct
      exact ⟨hct.1.1, hct.2⟩
  mode_eq := h'.mode_eq.trans h.mode_eq
  options_eq := h'.options_eq.trans h.options_eq

structure PassInvariant (I : Solver α → Prop) : Prop where
  kept : ∀ s t, s.Sound → s.Leads t → Releases s t [] → I s → I t
  released : ∀ s t c, s.Sound → s.Leads t → Releases s t [c] → I s → I t

variable {I : Solver α → Prop}

theorem splitNegative_keeps (hI : PassInvariant I) (hs : s.Sound) (h : I s) (bs : List BlockId) :
    Yields (s.splitNegative bs) I := by
  induction bs generalizing s with
  | nil => exact .ok h
  | cons b bs ih =>
    let s₁ : Solver α := { s with arrangement := (s.arrangement.leastMultiplier b).1 }
    have h₁ : s.Leads s₁ := hs.with (steps_leastMultiplier s.arrangement b)
    have hreleases : Releases s s₁ [] :=
      releases_nil (given_writeMultipliers _) (active_writeMultipliers _) rfl rfl rfl
    have hkept := hI.kept s s₁ hs h₁ hreleases h
    unfold splitNegative
    dsimp only
    split
    · exact ih h₁.sound hkept
    · rename_i c hc
      obtain ⟨hactive, hreleasable, -⟩ := negative_of_leastMultiplier hs.intact hc
      have hactive₁ : c ∈ s₁.problem.active := hreleases.active_eq ▸ ⟨hactive, List.not_mem_nil⟩
      obtain ⟨a, l, r, B, L, R, hsplit, hhalved⟩ := exists_split h₁.sound.intact hactive₁
      let s₂ : Solver α := { s with arrangement := a, splitCount := s.splitCount + 1 }
      have hlt : c < a.problem.constraints.size :=
        (Problem.size_constraints_eq hhalved.given_eq).symm ▸ Problem.lt_size_of_mem_active hactive₁
      have h₂ : s₁.Leads s₂ :=
        h₁.sound.leads (Relation.ReflTransGen.single (.split hactive₁ hsplit)) fun _ hd => .inl hd
      have h₃ : s₁.Leads (s₂.watch c) := h₂.watch hlt
      have hone : Releases s₁ (s₂.watch c) [c] := by
        refine releases_single hhalved.given_eq hhalved.active_eq rfl hactive₁ ?_ rfl rfl
        rw [hreleases.frees.equalities_eq]
        exact isReleasable_iff.mp hreleasable
      rw [hsplit]
      exact ih h₃.sound (hI.released s₁ (s₂.watch c) c h₁.sound h₃ hone hkept)

theorem settleBlocks_releases (s : Solver α) : Releases s s.settleBlocks [] := by
  have hproblem := problem_foldl_settle s.arrangement.blockIds s.arrangement
  have hactive := congrArg Problem.active hproblem
  exact releases_nil (given_writePositions.trans (congrArg Problem.given hproblem)) hactive rfl rfl rfl

theorem splitBlocks_keeps (hI : PassInvariant I) (hs : s.Sound) (h : I s) : Yields s.splitBlocks I := by
  have hsettle := settleBlocks_releases s
  have hl := settleBlocks_leads hs
  let s₁ : Solver α := { s.settleBlocks with splitCount := 0 }
  have hreleases : Releases s s₁ [] :=
    ⟨hsettle.given_eq, hsettle.active_eq, hsettle.inactive_eq, hsettle.mem_active, rfl, rfl⟩
  have hl₁ : s.Leads s₁ := hs.leads hl.steps fun _ hc => .inl hc
  have hkept := hI.kept s s₁ hs hl₁ hreleases h
  apply ((splitNegative_leads hl₁.sound _).and (splitNegative_keeps hI hl₁.sound hkept _)).bind
  rintro t ⟨ht, hkept'⟩
  have hwrite : Releases t t.cleanUp.writePositions [] :=
    releases_nil given_writePositions rfl rfl rfl rfl
  have hl₂ : t.Leads t.cleanUp.writePositions := (ht.sound.with .refl).cleanUp.writePositions
  exact .ok (hI.kept t _ ht.sound hl₂ hwrite hkept')

theorem splitBlocks_releases (hs : s.Sound) :
    Yields s.splitBlocks fun t => ∃ cs, Releases s t cs := by
  have hI : PassInvariant fun t => ∃ cs, Releases s t cs := by
    constructor
    · rintro t u - - hu ⟨cs, ht⟩
      exact ⟨cs ++ [], ht.trans hu⟩
    · rintro t u c - - hu ⟨cs, ht⟩
      exact ⟨cs ++ [c], ht.trans hu⟩
  exact splitBlocks_keeps hI hs ⟨[], releases_nil rfl rfl rfl rfl rfl⟩

structure RoundInvariant (I : Solver α → Prop) (R : Solver α → Solver α × Reply α → Prop) : Prop where
  sound : ∀ s, I s → s.Sound
  next : ∀ s t, I s → R s (t, .ok ()) → I t
  trans : ∀ s t r, I s → R s (t, .ok ()) → R t r → R s r
  still : ∀ s t, I s → s.Leads t → Releases s t [] → R s (t, .ok ())
  pass : ∀ s, I s → Yields s.splitBlocks fun t => R s (t, .ok ())
  enforce : ∀ s, I s → Yields (s.resolve 0 >>= fun r =>
    andThen r fun t => .ok t.writePositions.verify) (R s)

namespace RoundInvariant

variable {R : Solver α → Solver α × Reply α → Prop} {E : Abort → Prop} (hI : RoundInvariant I R)
include hI

theorem andThen {r : Solver α × Reply α} {f : Solver α → Except Abort (Solver α × Reply α)}
    (hs : I s) (hr : R s r)
    (hf : ∀ t, R s (t, .ok ()) → I t → YieldsUnless E (f t) (R t)) :
    YieldsUnless E (Solver.andThen r f) (R s) := by
  obtain ⟨t, _ | _⟩ := r
  · exact .ok hr
  · apply (hf t hr (hI.next s t hs hr)).mono (fun _ he => he)
    intro r hr'
    exact hI.trans s t r hs hr hr'

theorem satisfyIncremental (hs : I s) : Yields s.satisfyIncremental (R s) := by
  apply (hI.pass s hs).bind
  intro t ht
  apply (hI.enforce t (hI.next s t hs ht)).mono
  intro r hr
  exact hI.trans s t r hs ht hr

theorem solveRounds (hE : E .outOfRounds) (rounds : Nat) (last : Option α) (done : Nat) (hs : I s) :
    YieldsUnless E (s.solveRounds rounds last done) (R s) := by
  induction rounds generalizing s last done with
  | zero => exact .error hE
  | succ rounds ih =>
    apply YieldsUnless.bind (.inr (hI.satisfyIncremental hs))
    intro r hr
    apply hI.andThen hs hr
    intro t _ ht
    let e : Event α := .round (done + 1) t.arrangement.cost
    have hlog : t.Leads (t.record e) := ((hI.sound t ht).with .refl).record ⟨rfl, rfl⟩
    dsimp only
    split
    · have hwritten := releases_nil (s := t) (t := (t.record e).writePositions) given_writePositions
        rfl rfl rfl rfl
      exact .ok (hI.still t _ ht hlog.writePositions hwritten)
    · split
      · let limit : Note α := .roundLimit (done + 1) t.arrangement.cost
        have hwritten := releases_nil (s := t) (t := ((t.record e).note limit).writePositions)
          given_writePositions rfl rfl rfl rfl
        exact .ok (hI.still t _ ht (hlog.note limit).writePositions hwritten)
      · have hrecorded : R t (t.record e, .ok ()) :=
          hI.still t _ ht hlog (releases_nil rfl rfl rfl rfl rfl)
        have he := hI.next t _ ht hrecorded
        apply YieldsUnless.bind (.inr (hI.pass _ he))
        intro u hu
        apply (ih _ _ (hI.next _ u he hu)).mono (fun _ he => he)
        intro r hr
        exact hI.trans t _ r ht hrecorded (hI.trans _ u r he hu hr)

end RoundInvariant

theorem setDesired_frees {v : VarId} {desired : α} (ht : s.setDesired v desired = .ok t) :
    Frees s t [] := by
  obtain ⟨q, hq, ht⟩ := bind_eq_ok.mp ht
  obtain ⟨-, -, hq⟩ := bind_eq_ok.mp hq
  cases hq
  cases ht
  have hactive : (s.problem.setDesired v desired).active = s.problem.active := rfl
  refine ⟨rfl, rfl, rfl, hactive.trans (by simp), (List.append_nil _).symm, by simp, rfl, rfl⟩

theorem setGap_frees {gap : α} (hs : s.Sound) (ht : s.setGap c gap = .ok t) :
    ∃ cs : List ConId, Frees s t cs ∧ cs.Nodup ∧ ∀ d ∈ cs, d = c := by
  obtain ⟨q, hq, ht⟩ := bind_eq_ok.mp ht
  obtain ⟨_, hrequired, hq⟩ := bind_eq_ok.mp hq
  cases hq
  have hlt := Problem.lt_of_requireConstraint hrequired
  have hedges : (s.problem.setGap c gap).edges = s.problem.edges := edges_setGap hlt gap
  have hequalities := Problem.equalities_setGap hlt gap
  have hsize : (s.problem.setGap c gap).constraints.size = s.problem.constraints.size :=
    Problem.size_modifyConstraint _
  have hactive : (s.problem.setGap c gap).active = s.problem.active := active_setGap gap
  dsimp only at ht
  split at ht
  · rename_i hc
    have hc : c ∈ (s.problem.setGap c gap).active := hc
    obtain ⟨⟨a, l, r⟩, hsplit, ht⟩ := bind_eq_ok.mp ht
    cases ht
    obtain ⟨B, L, R, hhalved⟩ := halved_of_split (hs.intact.setGap hlt gap) hc hsplit
    have hgiven : a.problem.given = (s.problem.setGap c gap).given := hhalved.given_eq
    have hreleased : a.problem.active = s.problem.active \ {c} := hactive ▸ hhalved.active_eq
    refine ⟨[c], ⟨?_, ?_, ?_, ?_, rfl, ?_, rfl, rfl⟩, List.nodup_singleton c, by simp⟩
    · exact (Problem.edges_eq hgiven).trans hedges
    · exact (Problem.equalities_eq hgiven).trans hequalities
    · exact (Problem.size_constraints_eq hgiven).trans hsize
    · exact hreleased.trans (by simp)
    · intro d hd
      rw [List.mem_singleton.mp hd]
      exact hactive ▸ hc
  · cases ht
    refine ⟨[], ⟨hedges, hequalities, hsize, ?_, ?_, ?_, rfl, rfl⟩, List.nodup_nil, by simp⟩
    · exact hactive.trans (by simp)
    · exact (List.append_nil _).symm
    · simp

namespace Accounted

variable (h : Accounted mode options lost s)
include h

theorem frees (hl : s.Leads t) (hr : Frees s t cs) : Accounted mode options lost t := by
  refine ⟨hl.sound, hr.mode_eq.trans h.mode_eq, hr.options_eq.trans h.options_eq, ?_⟩
  have hledger := h.ledger.release (C := { c | c ∈ cs }) hr.mem_active
  rw [ledger_congr hr.edges_eq hr.equalities_eq hr.size_eq, hr.active_eq, hr.inactive_eq]
  have hunion : { c | c ∈ s.inactive ++ cs } = { c | c ∈ s.inactive } ∪ { c | c ∈ cs } := by
    ext c
    simp
  rw [hunion]
  exact hledger

theorem releases (hl : s.Leads t) (hr : Releases s t cs) : Accounted mode options lost t :=
  h.frees hl hr.frees

theorem splitBlocks : Yields s.splitBlocks fun t => s.Leads t ∧ Accounted mode options lost t := by
  apply ((splitBlocks_leads h.sound).and (splitBlocks_releases h.sound)).mono
  intro t ⟨hl, cs, hr⟩
  exact ⟨hl, h.releases hl hr⟩

theorem still (hl : s.Leads t) (hg : t.problem.given = s.problem.given)
    (ha : t.problem.active = s.problem.active) (hi : t.inactive = s.inactive) (hm : t.mode = s.mode)
    (ho : t.options = s.options) : Accounted mode options lost t :=
  h.releases hl (releases_nil hg ha hi hm ho)

theorem setDesired {v : VarId} {desired : α} (ht : s.setDesired v desired = .ok t) :
    s.Leads t ∧ Accounted mode options lost t := by
  have hl : s.Leads t := (setDesired_leads h.sound v desired).of_ok ht
  exact ⟨hl, h.frees hl (setDesired_frees ht)⟩

theorem setGap {gap : α} (ht : s.setGap c gap = .ok t) :
    s.Leads t ∧ Accounted mode options lost t := by
  have hl : s.Leads t := (setGap_leads h.sound c gap).of_ok ht
  obtain ⟨cs, hfrees, -⟩ := setGap_frees h.sound ht
  exact ⟨hl, h.frees hl hfrees⟩

end Accounted

end Solver

end Spacing
