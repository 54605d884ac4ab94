import Spacing.Proofs.Arrangement.Loop
import Spacing.Solver.Resolve

namespace Spacing

variable {α : Type} [Scalar α]

omit [Scalar α] in
theorem mem_of_mem_swapRemove {β : Type} {xs : List β} {i : Nat} {x : β}
    (h : x ∈ swapRemove xs i) : x ∈ xs := by
  unfold swapRemove at h
  split at h
  · cases h
  · rename_i last hlast
    rcases List.mem_or_eq_of_mem_set (List.dropLast_subset _ h) with hx | hx
    · exact hx
    · exact hx ▸ List.mem_of_getLast? hlast

def Step.solver : Step α → Solver α
  | .finished s _ => s
  | .resumed s _ => s

def Step.Meets (I : Solver α → Nat → Prop) (Q : Solver α × Reply α → Prop) : Step α → Prop
  | .finished s reply => Q (s, reply)
  | .resumed s splits => I s splits

namespace Solver

variable {s : Solver α} {c : ConId}

structure Sound (s : Solver α) : Prop where
  intact : s.arrangement.Intact
  watched : ∀ c ∈ s.inactive, c < s.problem.constraints.size

theorem mem_of_nextViolated (h : s.nextViolated = some c) : c ∈ s.inactive :=
  List.mem_of_mem_filter (Arrangement.mem_of_mostUrgent h)

theorem violated_of_nextViolated (h : s.nextViolated = some c) :
    (s.problem.constraintAt c).equality = true ∨ s.arrangement.slack c < -Scalar.epsilon := by
  have hmem := List.mem_filter.mp (Arrangement.mem_of_mostUrgent h)
  simpa using hmem.2

structure Keeps (I : Arrangement α → Prop) : Prop where
  log : ∀ a c x, a.Intact → I a → I (a.record (.picked c x))
  multipliers : ∀ a b, a.Intact → I a → I (a.writeMultipliers (a.multipliersOf b))
  merge : ∀ a c a' t, a.Intact → I a → a.merge c = .ok (a', t) → I a'
  exchange : ∀ a f a' l r B L R c a'' t, a.Intact → I a → f ∈ a.problem.active →
    a.isReleasable f → a.split f = .ok (a', l, r) → a.Halved a' f l r B L R →
    a.problem.edges.left c ∈ L → a.problem.edges.right c ∈ R → a'.merge c = .ok (a'', t) → I a''
  cleanUp : ∀ a, a.Intact → I a → I a.cleanUp

variable {I : Arrangement α → Prop}

theorem Keeps.steps (a : Arrangement α) : Keeps (Arrangement.Steps a) where
  log _ _ _ _ h := h.tail (.log _ fun _ he => by cases he; exact ⟨rfl, rfl⟩)
  multipliers _ b _ h := h.tail (.writeMultipliers b)
  merge _ _ _ _ _ h hm := h.tail (.merge hm)
  exchange _ _ _ _ _ _ _ _ _ _ _ _ h hf _ hs _ _ _ hm := (h.tail (.split hf hs)).tail (.merge hm)
  cleanUp _ _ h := h.tail .cleanUp

theorem Keeps.and {J : Arrangement α → Prop} (hI : Keeps I) (hJ : Keeps J) :
    Keeps fun a => I a ∧ J a where
  log a c x ha h := ⟨hI.log a c x ha h.1, hJ.log a c x ha h.2⟩
  multipliers a b ha h := ⟨hI.multipliers a b ha h.1, hJ.multipliers a b ha h.2⟩
  merge a c a' t ha h hm := ⟨hI.merge a c a' t ha h.1 hm, hJ.merge a c a' t ha h.2 hm⟩
  exchange a f a' l r B L R c a'' t ha h hf hrel hs hh hL hR hm :=
    ⟨hI.exchange a f a' l r B L R c a'' t ha h.1 hf hrel hs hh hL hR hm,
      hJ.exchange a f a' l r B L R c a'' t ha h.2 hf hrel hs hh hL hR hm⟩
  cleanUp a ha h := ⟨hI.cleanUp a ha h.1, hJ.cleanUp a ha h.2⟩

theorem Keeps.given (p : Problem α) : Keeps fun a : Arrangement α => a.problem.given = p.given where
  log _ _ _ _ h := h
  multipliers _ _ _ h := (Arrangement.given_writeMultipliers _).trans h
  merge _ _ _ _ _ h hm := by
    obtain ⟨_, _, _, _, hmerged⟩ := Arrangement.merged_of_merge hm
    exact hmerged.given_eq.trans h
  exchange _ _ _ _ _ _ _ _ _ _ _ _ h _ _ _ hh _ _ hm := by
    obtain ⟨_, _, _, _, hmerged⟩ := Arrangement.merged_of_merge hm
    exact hmerged.given_eq.trans (hh.given_eq.trans h)
  cleanUp _ _ h := h

theorem Sound.pick (hs : s.Sound) (c : ConId) : (s.pick c).Sound where
  intact := hs.intact.log _
  watched d hd := hs.watched d (mem_of_mem_swapRemove hd)

theorem resolveInside_yields (hI : Keeps I) (hs : s.Sound) (h : I s.arrangement)
    (hc : c < s.problem.constraints.size)
    (he : s.arrangement.leftBlock c = s.arrangement.rightBlock c) (splits : Nat) :
    Yields (s.resolveInside c splits) fun r => r.solver.Sound ∧ I r.solver.arrangement := by
  have ha := hs.intact
  let a₁ := s.arrangement.writeMultipliers
    (s.arrangement.multipliersOf (s.arrangement.blockOf (s.problem.constraintAt c).left))
  have ha₁ : a₁.Intact := ha.writeMultipliers _
  have h₁ : I a₁ := hI.multipliers _ _ ha h
  have hg₁ : a₁.problem.given = s.problem.given := Arrangement.given_writeMultipliers _
  have hedges₁ := Problem.edges_eq hg₁
  rcases Arrangement.splitBetween_cases ha (ha.consistent.left_lt c hc)
    (ha.consistent.right_lt c hc) he with hn | ⟨_, f, a', l, r, B, L, R, rfl, hb, hf, hrel, hsp, hh, hL, hR⟩
  · have hsound : Sound { s with arrangement := a₁ } := by
      refine ⟨ha₁, fun d hd => ?_⟩
      exact (Problem.size_constraints_eq hg₁).symm ▸ hs.watched d hd
    by_cases hstop : s.isImplied c ∨ s.mode = .batch
    · exact ⟨.resumed { s with arrangement := a₁ } (splits + 1),
        bind_eq_ok.mpr ⟨_, hn, if_pos hstop⟩, hsound, h₁⟩
    · exact ⟨.finished { s with arrangement := a₁ } _,
        bind_eq_ok.mpr ⟨_, hn, if_neg hstop⟩, hsound, h₁⟩
  · -- The split has put the two ends into different blocks, so the merge across `c` succeeds.
    have ha' : a'.Intact := hh.intact ha₁ hf
    have hgiven := hh.given_eq.trans hg₁
    have hc' : c < a'.problem.constraints.size := (Problem.size_constraints_eq hgiven).symm ▸ hc
    have hne : a'.leftBlock c ≠ a'.rightBlock c := by
      have hl : a'.leftBlock c = l := by
        rw [Arrangement.leftBlock_eq, Problem.edges_eq hgiven]
        exact hh.blockOf_left ha₁ hf hL
      have hr : a'.rightBlock c = r := by
        rw [Arrangement.rightBlock_eq, Problem.edges_eq hgiven]
        exact hh.blockOf_right ha₁ hf hR
      rw [hl, hr]
      exact hh.left_ne_right
    obtain ⟨a'', t, hm⟩ := ha'.exists_merge hc' hne
    have hI'' : I a'' := by
      refine hI.exchange a₁ f a' l r B L R c a'' t ha₁ h₁ hf hrel hsp hh ?_ ?_ hm
      · rw [hedges₁]
        exact hL
      · rw [hedges₁]
        exact hR
    obtain ⟨_, _, _, _, hmerged⟩ := Arrangement.merged_of_merge hm
    have hsound : Sound { s with arrangement := a'', inactive := s.inactive ++ [f] } := by
      refine ⟨ha'.merge hm, fun d hd => ?_⟩
      have hsize := Problem.size_constraints_eq (hmerged.given_eq.trans hgiven)
      change d < a''.problem.constraints.size
      rw [hsize]
      rcases List.mem_append.mp hd with hd | hd
      · exact hs.watched d hd
      · rw [List.mem_singleton.mp hd, ← Problem.size_constraints_eq hg₁]
        exact Problem.lt_size_of_mem_active hf
    refine ⟨.resumed { s with arrangement := a'', inactive := s.inactive ++ [f] } (splits + 1), ?_,
      hsound, hI''⟩
    refine bind_eq_ok.mpr ⟨_, hb, bind_eq_ok.mpr ⟨_, ?_, rfl⟩⟩
    exact bind_eq_ok.mpr ⟨(a'', t), hm, rfl⟩

theorem resolvePicked_yields (hI : Keeps I) (hs : s.Sound) (h : I s.arrangement)
    (hc : c < s.problem.constraints.size) (splits : Nat) :
    Yields (s.resolvePicked c splits) fun r => r.solver.Sound ∧ I r.solver.arrangement := by
  unfold resolvePicked
  split
  · rename_i hne
    obtain ⟨a', t, hm⟩ := hs.intact.exists_merge hc hne
    refine ⟨.resumed { s with arrangement := a' } splits, ?_, ⟨hs.intact.merge hm, fun d hd => ?_⟩,
      hI.merge _ c a' t hs.intact h hm⟩
    · refine bind_eq_ok.mpr ⟨{ s with arrangement := a' }, ?_, rfl⟩
      exact bind_eq_ok.mpr ⟨(a', t), hm, rfl⟩
    · obtain ⟨_, _, _, _, hmerged⟩ := Arrangement.merged_of_merge hm
      exact (Problem.size_constraints_eq hmerged.given_eq).symm ▸ hs.watched d hd
  · rename_i he
    split
    · exact .ok ⟨hs, h⟩
    · exact resolveInside_yields hI hs h hc (not_not.mp he) splits

theorem resolveStep_yields (hI : Keeps I) (hs : s.Sound) (h : I s.arrangement) (splits : Nat) :
    Yields (s.resolveStep splits) fun r => r.solver.Sound ∧ I r.solver.arrangement := by
  unfold resolveStep
  split
  · exact .ok ⟨⟨hs.intact.cleanUp, hs.watched⟩, hI.cleanUp _ hs.intact h⟩
  · rename_i c hc
    exact resolvePicked_yields hI (hs.pick c) (hI.log _ c _ hs.intact h)
      (hs.watched c (mem_of_nextViolated hc)) splits

theorem resolve_eq (s : Solver α) (splits : Nat) :
    s.resolve splits = s.resolveStep splits >>= fun
      | .finished t reply => .ok (t, reply)
      | .resumed t splits => t.resolve splits := by
  rw [resolve]
  split <;> rename_i he <;> rw [he] <;> rfl

theorem resolve_of_steps {J : Solver α → Nat → Prop} {Q : Solver α × Reply α → Prop}
    (hstep : ∀ s splits, J s splits → Yields (s.resolveStep splits) (Step.Meets J Q)) {splits : Nat}
    (h : J s splits) : Yields (s.resolve splits) Q := by
  induction s, splits using resolve.induct with
  | case1 s splits e he =>
    obtain ⟨r, hr, -⟩ := hstep s splits h
    cases he.symm.trans hr
  | case2 s splits t reply ht =>
    rw [resolve_eq, ht]
    exact .ok ((hstep s splits h).of_ok ht)
  | case3 s splits t next ht ih =>
    rw [resolve_eq, ht]
    exact ih ((hstep s splits h).of_ok ht)

theorem resolve_yields (hI : Keeps I) (hs : s.Sound) (h : I s.arrangement) (splits : Nat) :
    Yields (s.resolve splits) fun r => r.1.Sound ∧ I r.1.arrangement := by
  refine resolve_of_steps (J := fun s _ => s.Sound ∧ I s.arrangement) (fun s splits ⟨hs, h⟩ => ?_) ⟨hs, h⟩
  apply (resolveStep_yields hI hs h splits).mono
  rintro (⟨t, reply⟩ | ⟨t, next⟩) ht
  · exact ht
  · exact ht

theorem resolve_of_none (h : s.nextViolated = none) (splits : Nat) :
    s.resolve splits = .ok (s.cleanUp, .ok ()) := by
  have hstep : s.resolveStep splits = .ok (.finished s.cleanUp (.ok ())) := by
    rw [resolveStep, h]
  rw [resolve_eq, hstep]
  rfl

end Solver

end Spacing
