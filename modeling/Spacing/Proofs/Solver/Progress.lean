import Mathlib.Data.List.Perm.Basic
import Spacing.Proofs.Arrangement.Obstacle
import Spacing.Proofs.Arrangement.Still
import Spacing.Proofs.Solver.Run

namespace Spacing

variable {α : Type} [Scalar α]

omit [Scalar α] in
theorem swapRemove_perm {β : Type} {xs : List β} {i : Nat} (hi : i < xs.length) :
    (xs[i] :: swapRemove xs i).Perm xs := by
  induction xs using List.reverseRecOn with
  | nil => exact absurd hi (Nat.not_lt_zero i)
  | append_singleton ys last =>
    have hswap : swapRemove (ys ++ [last]) i = ((ys ++ [last]).set i last).dropLast := by
      simp [swapRemove]
    rw [hswap]
    by_cases hlast : i < ys.length
    · rw [List.set_append_left _ _ hlast, List.dropLast_concat, List.getElem_append_left hlast]
      apply ((List.set_perm_cons_eraseIdx hlast last).cons _).trans
      apply (List.Perm.swap ..).trans
      apply ((List.getElem_cons_eraseIdx_perm hlast).cons last).trans
      exact (List.perm_append_singleton last ys).symm
    · obtain rfl : i = ys.length := by
        rw [List.length_append, List.length_singleton] at hi
        omega
      simpa using (List.perm_append_singleton last ys).symm

theorem swapRemove_idxOf_perm {β : Type} [BEq β] [LawfulBEq β] {xs : List β} {c : β} (hc : c ∈ xs) :
    (c :: swapRemove xs (xs.idxOf c)).Perm xs := by
  have hperm := swapRemove_perm (List.idxOf_lt_length_of_mem hc)
  rwa [List.getElem_idxOf] at hperm

theorem mem_swapRemove_of_ne {β : Type} [BEq β] [LawfulBEq β] {xs : List β} {x c : β} (hx : x ∈ xs)
    (hc : c ∈ xs) (hne : x ≠ c) : x ∈ swapRemove xs (xs.idxOf c) := by
  rw [← (swapRemove_idxOf_perm hc).mem_iff, List.mem_cons] at hx
  exact hx.resolve_left hne

theorem Arrangement.Halved.exists_exchange {a a' : Arrangement α} {l r : BlockId} {B : Block α}
    {L R : List VarId} {c f : ConId} (h : Halved a a' f l r B L R) (ha : a.Intact)
    (hf : f ∈ a.problem.active) (hc : c < a.problem.constraints.size)
    (hL : a.problem.edges.left c ∈ L) (hR : a.problem.edges.right c ∈ R) :
    ∃ a'' t, a'.merge c = .ok (a'', t) ∧ a''.problem.given = a.problem.given ∧
      a''.problem.active = insert c (a.problem.active \ {f}) ∧
      a.problem.edges.Linked (a.problem.active \ {f}) (a.problem.edges.left f)
        (a.problem.edges.left c) ∧
      a.problem.edges.Linked (a.problem.active \ {f}) (a.problem.edges.right f)
        (a.problem.edges.right c) := by
  -- The split has put the ends of `c` into different blocks.
  have hne : a'.leftBlock c ≠ a'.rightBlock c := by
    rw [leftBlock_eq, rightBlock_eq, h.edges_eq, h.blockOf_left ha hf hL, h.blockOf_right ha hf hR]
    exact h.left_ne_right
  have hlt : c < a'.problem.constraints.size := (Problem.size_constraints_eq h.given_eq).symm ▸ hc
  obtain ⟨a'', t, hm⟩ := (h.intact ha hf).exists_merge hlt hne
  obtain ⟨_, _, _, _, hmerged⟩ := merged_of_merge hm
  refine ⟨a'', t, hm, hmerged.given_eq.trans h.given_eq, ?_, (h.mem_left _).mp hL,
    (h.mem_right _).mp hR⟩
  rw [hmerged.active_eq, h.active_eq]

namespace Solver

open Arrangement

variable {s t : Solver α} {c d : ConId} {n m : Nat} {reply : Reply α}

theorem equality_of_nextViolated (h : s.nextViolated = some c) (hd : d ∈ s.inactive)
    (he : (s.problem.constraintAt d).equality = true) :
    (s.problem.constraintAt c).equality = true := by
  unfold nextViolated mostUrgent at h
  dsimp only at h
  split at h
  · rename_i c' hfound
    obtain rfl : c' = c := Option.some.inj h
    have hkeep := List.find?_some hfound
    exact hkeep
  · rename_i hnone
    have hmem : d ∈ s.inactive.filter fun c => (s.problem.constraintAt c).equality ||
        decide (s.arrangement.slack c < -Scalar.epsilon) := by
      apply List.mem_filter.mpr
      exact ⟨hd, by rw [he, Bool.true_or]⟩
    exact absurd he (List.find?_eq_none.mp hnone d hmem)

def Quiet (s : Solver α) : Prop :=
  ∀ c ∈ s.inactive, (s.problem.constraintAt c).equality = false ∧
    ¬ s.arrangement.slack c < -Scalar.epsilon

theorem quiet_of_nextViolated (h : s.nextViolated = none) : s.Quiet := by
  have hnone : (s.inactive.filter fun c => (s.problem.constraintAt c).equality ||
      decide (s.arrangement.slack c < -Scalar.epsilon)) = [] := by
    unfold nextViolated mostUrgent at h
    dsimp only at h
    split at h
    · cases h
    · generalize (s.inactive.filter _) = xs at h ⊢
      cases xs with
      | nil => rfl
      | cons x xs => cases h
  intro c hc
  have hkeep := List.filter_eq_nil_iff.mp hnone c hc
  simpa using hkeep

theorem Quiet.still {t : Solver α} (hs : s.Quiet) (h : Still s.arrangement t.arrangement)
    (hi : t.inactive = s.inactive) : t.Quiet := by
  intro c hc
  rw [hi] at hc
  obtain ⟨hequality, hslack⟩ := hs c hc
  rw [h.slack_eq]
  exact ⟨(Problem.equality_eq h.given_eq c).trans hequality, hslack⟩

inductive Resolves (s : Solver α) (n : Nat) : Step α → Prop
  | finished (h : s.nextViolated = none) : Resolves s n (.finished s.cleanUp (.ok ()))
  | merged {c : ConId} {a : Arrangement α} (hc : s.nextViolated = some c)
    (hgiven : a.problem.given = s.problem.given)
    (hactive : a.problem.active = insert c s.problem.active) :
    Resolves s n (.resumed { s.pick c with arrangement := a } n)
  | limited {c : ConId} (hc : s.nextViolated = some c)
    (htogether : s.arrangement.leftBlock c = s.arrangement.rightBlock c)
    (hlimit : s.options.maxSplits ≤ n) :
    Resolves s n (.finished (s.pick c) (.error (s.cycle c (n + 1))))
  | exchanged {c f : ConId} {a : Arrangement α} (hc : s.nextViolated = some c)
    (hf : f ∈ s.problem.active) (hreleasable : s.arrangement.isReleasable f = true)
    (hleft : s.problem.edges.Linked (s.problem.active \ {f}) (s.problem.edges.left f)
      (s.problem.edges.left c))
    (hright : s.problem.edges.Linked (s.problem.active \ {f}) (s.problem.edges.right f)
      (s.problem.edges.right c))
    (hgiven : a.problem.given = s.problem.given)
    (hactive : a.problem.active = insert c (s.problem.active \ {f})) :
    Resolves s n (.resumed ({ s.pick c with arrangement := a }.watch f) (n + 1))
  | dropped {c : ConId} {a : Arrangement α} (hc : s.nextViolated = some c)
    (htogether : s.arrangement.leftBlock c = s.arrangement.rightBlock c)
    (hwedged : s.arrangement.Wedged (s.problem.edges.left c) (s.problem.edges.right c))
    (hstill : Still s.arrangement a) (hgoes : s.isImplied c = true ∨ s.mode = .batch) :
    Resolves s n (.resumed { s.pick c with arrangement := a } (n + 1))
  | stuck {c : ConId} {a : Arrangement α} (hc : s.nextViolated = some c)
    (htogether : s.arrangement.leftBlock c = s.arrangement.rightBlock c)
    (hwedged : s.arrangement.Wedged (s.problem.edges.left c) (s.problem.edges.right c))
    (hstill : Still s.arrangement a) (hstops : ¬ (s.isImplied c = true ∨ s.mode = .batch)) :
    Resolves s n (.finished { s.pick c with arrangement := a } (.error (s.cycle c (n + 1))))

theorem cycle_writeMultipliers (s : Solver α) (ms : List (ConId × α)) (c : ConId) (n : Nat) :
    ({ s with arrangement := s.arrangement.writeMultipliers ms } : Solver α).cycle c n =
      s.cycle c n := by
  have hgiven : (s.arrangement.writeMultipliers ms).problem.given = s.problem.given :=
    given_writeMultipliers ms
  have hids := variableAt_writeMultipliers (a := s.arrangement) ms
  simp only [cycle, Problem.leftId, Problem.rightId, problem, hids, Problem.left_eq hgiven,
    Problem.right_eq hgiven]

theorem resolves_inside (hs : s.Sound) (hc : s.nextViolated = some c)
    (htogether : s.arrangement.leftBlock c = s.arrangement.rightBlock c) (n : Nat) :
    Yields ((s.pick c).resolveInside c n) (s.Resolves n) := by
  have ha : (s.pick c).arrangement.Intact := (hs.pick c).intact
  have hlt := hs.watched c (mem_of_nextViolated hc)
  let ms := (s.pick c).arrangement.multipliersOf
    ((s.pick c).arrangement.blockOf (s.problem.constraintAt c).left)
  rcases splitBetween_cases ha (ha.consistent.left_lt c hlt) (ha.consistent.right_lt c hlt) htogether
    with hnone | ⟨a₁, f, a', l, r, B, L, R, ha₁, hsome, hf, hreleasable, -, hhalved, hL, hR⟩
  · have hstill : Still s.arrangement ((s.pick c).arrangement.writeMultipliers ms) :=
      (still_record s.arrangement _).trans (still_writeMultipliers _ _)
    have hwedged := wedged_of_splitBetween hnone
    by_cases hgoes : s.isImplied c = true ∨ s.mode = .batch
    · refine ⟨_, ?_, .dropped hc htogether hwedged hstill hgoes⟩
      exact bind_eq_ok.mpr ⟨_, hnone, if_pos hgoes⟩
    · -- The report reads nothing that the search has written.
      have hcycle : _ = s.cycle c (n + 1) := cycle_writeMultipliers (s.pick c) ms c (n + 1)
      refine ⟨_, ?_, .stuck hc htogether hwedged hstill hgoes⟩
      rw [← hcycle]
      exact bind_eq_ok.mpr ⟨_, hnone, if_neg hgoes⟩
  · have hgiven : a₁.problem.given = s.problem.given := ha₁ ▸ given_writeMultipliers ms
    have hactive : a₁.problem.active = s.problem.active := ha₁ ▸ active_writeMultipliers ms
    have hedges := Problem.edges_eq hgiven
    have hlt₁ := (Problem.size_constraints_eq hgiven).symm ▸ hlt
    have hL₁ : a₁.problem.edges.left c ∈ L := by
      rw [hedges]
      exact hL
    have hR₁ : a₁.problem.edges.right c ∈ R := by
      rw [hedges]
      exact hR
    obtain ⟨a'', t, hm, hgiven', hactive', hleft, hright⟩ :=
      hhalved.exists_exchange (ha₁ ▸ ha.writeMultipliers _) hf hlt₁ hL₁ hR₁
    rw [hedges, hactive] at hleft hright
    refine ⟨.resumed ({ s.pick c with arrangement := a'' }.watch f) (n + 1), ?_, ?_⟩
    · refine bind_eq_ok.mpr ⟨_, hsome, bind_eq_ok.mpr ⟨_, ?_, rfl⟩⟩
      exact bind_eq_ok.mpr ⟨(a'', t), hm, rfl⟩
    · apply Resolves.exchanged hc (hactive ▸ hf) _ hleft hright (hgiven'.trans hgiven)
      · rw [hactive', hactive]
      · rw [← hreleasable, isReleasable, isReleasable, Problem.equality_eq hgiven]
        rfl

theorem resolveStep_resolves (hs : s.Sound) (n : Nat) :
    Yields (s.resolveStep n) fun r => s.Leads r.solver ∧ s.Resolves n r := by
  have hleads : Yields (s.resolveStep n) fun r => s.Leads r.solver :=
    (resolveStep_yields (Keeps.steps s.arrangement) hs .refl n).mono fun _ hr => ⟨hr.1, hr.2⟩
  suffices h : Yields (s.resolveStep n) (s.Resolves n) by
    obtain ⟨r, hr, hresolves⟩ := h
    exact ⟨r, hr, hleads.of_ok hr, hresolves⟩
  unfold resolveStep
  split
  · rename_i hnone
    exact .ok (.finished hnone)
  · rename_i c hc
    unfold resolvePicked
    split
    · rename_i hne
      obtain ⟨a, t, hm⟩ := (hs.pick c).intact.exists_merge (hs.watched c (mem_of_nextViolated hc)) hne
      obtain ⟨_, _, _, _, hmerged⟩ := merged_of_merge hm
      refine ⟨_, ?_, .merged hc hmerged.given_eq hmerged.active_eq⟩
      refine bind_eq_ok.mpr ⟨{ s.pick c with arrangement := a }, ?_, rfl⟩
      exact bind_eq_ok.mpr ⟨(a, t), hm, rfl⟩
    · rename_i htogether
      have htogether := not_not.mp htogether
      split
      · rename_i hlimit
        exact .ok (.limited hc htogether hlimit)
      · exact resolves_inside hs hc htogether n

theorem resolve_induct {I : Solver α → Prop} {Q : Solver α → Reply α → Prop}
    (hresumed : ∀ s n t m, s.Sound → I s → s.Leads t → s.Resolves n (.resumed t m) → I t)
    (hfinished : ∀ s n t reply, s.Sound → I s → s.Leads t → s.Resolves n (.finished t reply) →
      Q t reply)
    (hs : s.Sound) (h : I s) (n : Nat) : Yields (s.resolve n) fun r => s.Leads r.1 ∧ Q r.1 r.2 := by
  -- The steps lead on from `s`, so each of them starts from a sound solver.
  apply resolve_of_steps (J := fun t _ => s.Leads t ∧ I t) _ ⟨hs.with .refl, h⟩
  intro t m ⟨hl, ht⟩
  apply (resolveStep_resolves hl.sound m).mono
  rintro (⟨u, reply⟩ | ⟨u, k⟩) ⟨hu, hresolves⟩
  · exact ⟨hl.trans hu, hfinished t m u reply hl.sound ht hu hresolves⟩
  · exact ⟨hl.trans hu, hresumed t m u k hl.sound ht hu hresolves⟩

end Solver

end Spacing
