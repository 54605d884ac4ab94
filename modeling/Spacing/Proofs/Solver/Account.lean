import Spacing.Proofs.Graph.Ledger
import Spacing.Proofs.Solver.Progress
/-!
What becomes of constraints that no block holds tight. Incremental runs watch all of them but
equalities that follow from others, until a failure loses the constraint it names.
-/

namespace Spacing

variable {α : Type} [Scalar α]

theorem Arrangement.isReleasable_iff {a : Arrangement α} {c : ConId} :
    a.isReleasable c = true ↔ c ∉ a.problem.equalities := by
  simp [isReleasable, Problem.equalities]

def Failure.named : Failure α → Set ConId
  | .unsatisfied .. => ∅
  | .cycle c .. => {c}

def Reply.named : Reply α → Set ConId
  | .ok _ => ∅
  | .error e => e.named

namespace Solver

open Arrangement

variable {s t : Solver α} {mode : Mode} {options : Options α} {lost lost' : Set ConId} {c d : ConId}
  {n m : Nat} {reply : Reply α} {a : Arrangement α}

def Ledger (s : Solver α) (lost : Set ConId) : Prop :=
  s.problem.edges.Ledger { c | c < s.problem.constraints.size } s.problem.equalities
    s.problem.active { c | c ∈ s.inactive } lost

structure Accounted (mode : Mode) (options : Options α) (lost : Set ConId) (s : Solver α) : Prop where
  sound : s.Sound
  mode_eq : s.mode = mode
  options_eq : s.options = options
  ledger : s.Ledger lost

theorem ledger_congr (he : t.problem.edges = s.problem.edges)
    (hq : t.problem.equalities = s.problem.equalities)
    (hn : t.problem.constraints.size = s.problem.constraints.size) : t.Ledger lost ↔
    s.problem.edges.Ledger { c | c < s.problem.constraints.size } s.problem.equalities
      t.problem.active { c | c ∈ t.inactive } lost := by
  rw [Ledger, he, hq, hn]

theorem ledger_iff (h : t.problem.given = s.problem.given) : t.Ledger lost ↔
    s.problem.edges.Ledger { c | c < s.problem.constraints.size } s.problem.equalities
      t.problem.active { c | c ∈ t.inactive } lost :=
  ledger_congr (Problem.edges_eq h) (Problem.equalities_eq h) (Problem.size_constraints_eq h)

theorem mem_equalities_of_isImplied (h : s.isImplied c = true) : c ∈ s.problem.equalities :=
  (Bool.and_eq_true_iff.mp h).1

theorem mem_pick_of_ne (hc : s.nextViolated = some c) (hd : d ∈ s.inactive) (hne : d ≠ c) :
    d ∈ (s.pick c).inactive :=
  mem_swapRemove_of_ne hd (mem_of_nextViolated hc) hne

theorem mem_of_mem_pick (hd : d ∈ (s.pick c).inactive) : d ∈ s.inactive :=
  mem_of_mem_swapRemove hd

theorem kept_pick {A : Set ConId} (hc : s.nextViolated = some c) (hd : d ∈ A ∨ d ∈ s.inactive) :
    d ∈ insert c A ∨ d ∈ (s.pick c).inactive := by
  by_cases hdc : d = c
  · exact .inl (.inl hdc)
  · exact hd.imp .inr fun hd => mem_pick_of_ne hc hd hdc

theorem listed_pick {A : Set ConId} (hc : s.nextViolated = some c)
    (hd : d ∈ A ∨ d ∈ s.inactive ∨ d ∈ lost) :
    d ∈ insert c A ∨ d ∈ (s.pick c).inactive ∨ d ∈ lost := by
  rw [← or_assoc] at hd ⊢
  exact hd.imp_left (kept_pick hc)

theorem notMem_equalities (hc : s.nextViolated = some c) (hQ : c ∉ s.problem.equalities)
    (hd : d ∈ s.inactive) : d ∉ s.problem.equalities :=
  fun he => hQ (equality_of_nextViolated hc hd he)

namespace Accounted

variable (h : Accounted mode options lost s)
include h

theorem linked_of_together (hc : c ∈ s.inactive) (hQ : c ∈ s.problem.equalities)
    (htogether : s.arrangement.leftBlock c = s.arrangement.rightBlock c) :
    s.problem.edges.Linked (s.problem.equalities ∩ s.problem.active) (s.problem.edges.left c)
      (s.problem.edges.right c) := by
  have ha := h.sound.intact
  have hlt := h.sound.watched c hc
  have hl := ha.consistent.leftEnd_lt hlt
  have hr := ha.consistent.rightEnd_lt hlt
  apply linked_of_path ha hl hr htogether
  intro b hb
  obtain ⟨hf, hparent, hchild⟩ := linked_of_mem_path ha hl hr htogether hb
  refine ⟨?_, hf.active⟩
  by_contra hbQ
  exact h.ledger.not_between hf.active hbQ hQ hc hparent hchild hf.joins

theorem drop (hc : s.nextViolated = some c)
    (htogether : s.arrangement.leftBlock c = s.arrangement.rightBlock c)
    (hgiven : t.problem.given = s.problem.given) (hactive : t.problem.active = s.problem.active)
    (hinactive : t.inactive = (s.pick c).inactive) (hlost : lost ⊆ lost')
    (hQ : c ∈ s.problem.equalities ∨ c ∈ lost') : t.Ledger lost' := by
  -- `c` is watched no longer: as an equality it may go, and as an inequality it counts as lost.
  rw [ledger_iff hgiven, hactive, hinactive]
  apply h.ledger.next
  · exact Set.subset_union_left
  · intro d ⟨_, hd⟩
    exact .inr (mem_of_mem_pick hd)
  · intro d hdQ hd
    rcases hd with hd | hd | hd
    · exact .inl hd
    · by_cases hdc : d = c
      · subst hdc
        exact .inr (.inr (hQ.resolve_left hdQ))
      · exact .inr (.inl (mem_pick_of_ne hc hd hdc))
    · exact .inr (.inr (hlost hd))
  · intro d hdQ hd
    by_cases hdc : d = c
    · subst hdc
      apply (h.linked_of_together (mem_of_nextViolated hc) hdQ htogether).mono
      exact Set.inter_subset_inter_right _ Set.subset_union_left
    · apply Edges.Linked.edge
      exact ⟨hdQ, hd.imp_right fun hd => mem_pick_of_ne hc hd hdc⟩

theorem merge_equality (hc : s.nextViolated = some c) (hQ : c ∈ s.problem.equalities)
    (hgiven : t.problem.given = s.problem.given)
    (hactive : t.problem.active = insert c s.problem.active)
    (hinactive : t.inactive = (s.pick c).inactive) : t.Ledger lost := by
  rw [ledger_iff hgiven, hactive, hinactive]
  apply h.ledger.next
  · exact Set.insert_subset (.inr ⟨hQ, mem_of_nextViolated hc⟩) Set.subset_union_left
  · intro d ⟨_, hd⟩
    exact .inr (mem_of_mem_pick hd)
  · intro d _ hd
    exact listed_pick hc hd
  · intro d hdQ hd
    exact .edge ⟨hdQ, kept_pick hc hd⟩

theorem of_inequality (hc : s.nextViolated = some c) (hQ : c ∉ s.problem.equalities)
    (ht : t.Sound) (hgiven : t.problem.given = s.problem.given)
    (hbonds : ∀ d ∈ s.problem.active, d ∈ s.problem.equalities → d ∈ t.problem.active)
    (hlisted : ∀ d, d ∈ s.problem.active ∨ d ∈ s.inactive ∨ d ∈ lost →
      d ∈ t.problem.active ∨ d ∈ t.inactive ∨ d ∈ lost) : t.Ledger lost := by
  have hforest := ht.intact.forest
  have hedges : t.arrangement.problem.edges = s.problem.edges := Problem.edges_eq hgiven
  rw [hedges] at hforest
  rw [ledger_iff hgiven]
  apply Edges.Upheld.ledger _ hforest fun d hdU hdQ => hlisted d (h.ledger.listed d hdU hdQ)
  exact (h.ledger.upheld fun d hd => notMem_equalities hc hQ hd).mono hbonds

theorem exchange (hc : s.nextViolated = some c) {f : ConId} (hf : f ∈ s.problem.active)
    (hfQ : f ∉ s.problem.equalities)
    (hleft : s.problem.edges.Linked (s.problem.active \ {f}) (s.problem.edges.left f)
      (s.problem.edges.left c))
    (hright : s.problem.edges.Linked (s.problem.active \ {f}) (s.problem.edges.right f)
      (s.problem.edges.right c))
    (ht : t.Sound) (hgiven : t.problem.given = s.problem.given)
    (hactive : t.problem.active = insert c (s.problem.active \ {f}))
    (hinactive : t.inactive = (s.pick c).inactive ++ [f]) : t.Ledger lost := by
  have hQ : c ∉ s.problem.equalities := by
    intro hQ
    apply h.ledger.not_between hf hfQ hQ (mem_of_nextViolated hc) hleft.symm hright
    exact .inl ⟨rfl, rfl⟩
  apply h.of_inequality hc hQ ht hgiven
  · intro d hd hdQ
    rw [hactive]
    exact .inr ⟨hd, fun hdf => hfQ (hdf ▸ hdQ)⟩
  · intro d hd
    rw [hactive, hinactive, List.mem_append, List.mem_singleton]
    by_cases hdf : d = f
    · exact .inr (.inl (.inr hdf))
    · have hpick := listed_pick (A := s.problem.active \ {f}) hc (hd.imp_left fun hd => ⟨hd, hdf⟩)
      exact hpick.imp_right (Or.imp_left .inl)

theorem resumed (hl : s.Leads t) (hr : s.Resolves n (.resumed t m))
    (hdrop : ∀ c, s.nextViolated = some c →
      s.arrangement.leftBlock c = s.arrangement.rightBlock c →
      s.arrangement.Wedged (s.problem.edges.left c) (s.problem.edges.right c) →
      s.isImplied c = true ∨ s.mode = .batch → c ∈ s.problem.equalities) :
    Accounted mode options lost t := by
  refine ⟨hl.sound, ?_, ?_, ?_⟩
  · cases hr <;> exact h.mode_eq
  · cases hr <;> exact h.options_eq
  cases hr with
  | @merged c a hc hgiven hactive =>
    by_cases hQ : c ∈ s.problem.equalities
    · exact h.merge_equality hc hQ hgiven hactive rfl
    · apply h.of_inequality hc hQ hl.sound hgiven
      · intro d hd _
        exact hactive ▸ .inr hd
      · intro d hd
        exact hactive ▸ listed_pick hc hd
  | @exchanged c f a hc hf hreleasable hleft hright hgiven hactive =>
    exact h.exchange hc hf (isReleasable_iff.mp hreleasable) hleft hright hl.sound hgiven hactive rfl
  | @dropped c a hc htogether hwedged hstill hgoes =>
    exact h.drop hc htogether hstill.given_eq hstill.active_eq rfl (Set.Subset.refl _)
      (.inl (hdrop c hc htogether hwedged hgoes))

theorem finished (hl : s.Leads t) (hr : s.Resolves n (.finished t reply)) :
    Accounted mode options (lost ∪ reply.named) t := by
  refine ⟨hl.sound, ?_, ?_, ?_⟩
  · cases hr <;> exact h.mode_eq
  · cases hr <;> exact h.options_eq
  cases hr with
  | finished => exact h.ledger.mono Set.subset_union_left
  | limited hc htogether =>
    exact h.drop hc htogether rfl rfl rfl Set.subset_union_left (.inr (.inr rfl))
  | stuck hc htogether hwedged hstill =>
    exact h.drop hc htogether hstill.given_eq hstill.active_eq rfl Set.subset_union_left
      (.inr (.inr rfl))

end Accounted

end Solver

end Spacing
