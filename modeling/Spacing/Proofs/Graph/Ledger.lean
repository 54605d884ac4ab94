import Spacing.Proofs.Graph.Linked
/-!
Ledgers: what becomes of edges some of which are bonds. An edge is active, watched or lost, but a bond
may also be given up once other bonds link its ends.
-/

namespace Spacing.Edges

variable {g : Edges} {U Q A A' W W' L L' E F : Set ConId} {c d : ConId} {u v : VarId}

theorem Linked.through (h : g.Linked E u v)
    (hF : ∀ e ∈ E, g.Linked F (g.left e) (g.right e)) : g.Linked F u v := by
  induction h with
  | refl => exact .refl
  | tail _ he ih =>
    obtain ⟨e, he, ⟨rfl, rfl⟩ | ⟨rfl, rfl⟩⟩ := he
    · exact ih.trans (hF e he)
    · exact ih.trans (hF e he).symm

/-- Of the edges `U`, of which `Q` are bonds, `A` are active, `W` watched and `L` lost. -/
structure Ledger (g : Edges) (U Q A W L : Set ConId) : Prop where
  listed : ∀ c ∈ U, c ∉ Q → c ∈ A ∨ c ∈ W ∨ c ∈ L
  /-- An active edge that is no bond is not bypassed, not even over watched bonds. -/
  bridges : ∀ d ∈ A, d ∉ Q → ¬ g.Linked ((A ∪ Q ∩ W) \ {d}) (g.left d) (g.right d)
  bonded : ∀ c ∈ Q, g.Linked (Q ∩ (A ∪ W)) (g.left c) (g.right c)

/-- Active bonds link the ends of all bonds. -/
def Upheld (g : Edges) (Q A : Set ConId) : Prop :=
  ∀ c ∈ Q, g.Linked (Q ∩ A) (g.left c) (g.right c)

theorem Upheld.mono (h : g.Upheld Q A) (hA : ∀ d ∈ A, d ∈ Q → d ∈ A') : g.Upheld Q A' := by
  intro c hc
  apply (h c hc).mono
  intro d ⟨hd, hdA⟩
  exact ⟨hd, hA d hdA hd⟩

theorem Upheld.ledger (h : g.Upheld Q A) (hA : g.IsForest A)
    (hlisted : ∀ c ∈ U, c ∉ Q → c ∈ A ∨ c ∈ W ∨ c ∈ L) : Ledger g U Q A W L where
  listed := hlisted
  bridges := by
    intro d hd hdQ hl
    -- A watched bond is bypassed by active bonds, none of which is `d`.
    have hbypass : g.Linked (A \ {d}) (g.left d) (g.right d) := by
      apply hl.through
      intro e ⟨he, hed⟩
      rcases he with he | ⟨heQ, -⟩
      · exact .edge ⟨he, hed⟩
      · apply (h e heQ).mono
        intro f ⟨hfQ, hfA⟩
        refine ⟨hfA, fun hfd => hdQ ?_⟩
        rwa [← Set.mem_singleton_iff.mp hfd]
    exact hA d hd hbypass
  bonded := by
    intro c hc
    apply (h c hc).mono
    exact Set.inter_subset_inter_right Q Set.subset_union_left

namespace Ledger

variable (h : Ledger g U Q A W L)
include h

theorem upheld (hW : ∀ c ∈ W, c ∉ Q) : g.Upheld Q A := by
  intro c hc
  apply (h.bonded c hc).mono
  intro d ⟨hd, hAW⟩
  exact ⟨hd, hAW.resolve_right fun hdW => hW d hdW hd⟩

theorem not_between (hd : d ∈ A) (hdQ : d ∉ Q) (hc : c ∈ Q) (hcW : c ∈ W)
    (hu : g.Linked (A \ {d}) (g.left c) u) (hv : g.Linked (A \ {d}) v (g.right c)) :
    ¬ g.Joins d u v := by
  intro hj
  have hsub : A \ {d} ⊆ (A ∪ Q ∩ W) \ {d} := Set.sdiff_subset_sdiff_left Set.subset_union_left
  have hover : g.Linked ((A ∪ Q ∩ W) \ {d}) (g.left c) (g.right c) := by
    apply Linked.edge
    exact ⟨.inr ⟨hc, hcW⟩, fun he => hdQ (he ▸ hc)⟩
  have hbypass := ((hu.mono hsub).symm.trans hover).trans (hv.mono hsub).symm
  apply h.bridges d hd hdQ
  rcases hj with ⟨rfl, rfl⟩ | ⟨rfl, rfl⟩
  · exact hbypass
  · exact hbypass.symm

theorem next (hA : A' ⊆ A ∪ Q ∩ W) (hW : Q ∩ W' ⊆ A ∪ W)
    (hlisted : ∀ c, c ∉ Q → c ∈ A ∨ c ∈ W ∨ c ∈ L → c ∈ A' ∨ c ∈ W' ∨ c ∈ L')
    (hbonded : ∀ c ∈ Q, c ∈ A ∨ c ∈ W → g.Linked (Q ∩ (A' ∪ W')) (g.left c) (g.right c)) :
    Ledger g U Q A' W' L' where
  listed c hc hcQ := hlisted c hcQ (h.listed c hc hcQ)
  bridges := by
    intro d hd hdQ hl
    have hdA : d ∈ A := (hA hd).resolve_right fun hdW => hdQ hdW.1
    apply h.bridges d hdA hdQ
    apply hl.mono
    intro e ⟨he, hed⟩
    refine ⟨?_, hed⟩
    rcases he with he | ⟨heQ, heW⟩
    · exact hA he
    · exact (hW ⟨heQ, heW⟩).imp_right fun he => ⟨heQ, he⟩
  bonded := by
    intro c hc
    apply (h.bonded c hc).through
    intro e ⟨heQ, he⟩
    exact hbonded e heQ he

theorem release {C : Set ConId} (hC : C ⊆ A) : Ledger g U Q (A \ C) (W ∪ C) L := by
  apply h.next
  · exact Set.sdiff_subset.trans Set.subset_union_left
  · intro d ⟨_, hd⟩
    exact hd.symm.imp_left fun hd => hC hd
  · intro d _ hd
    rcases hd with hd | hd | hd
    · by_cases hdC : d ∈ C
      · exact .inr (.inl (.inr hdC))
      · exact .inl ⟨hd, hdC⟩
    · exact .inr (.inl (.inl hd))
    · exact .inr (.inr hd)
  · intro d hdQ hd
    apply Linked.edge
    refine ⟨hdQ, ?_⟩
    by_cases hdC : d ∈ C
    · exact .inr (.inr hdC)
    · exact hd.imp (fun hd => ⟨hd, hdC⟩) .inl

theorem mono (hL : L ⊆ L') : Ledger g U Q A W L' where
  listed c hc hcQ := (h.listed c hc hcQ).imp_right (Or.imp_right fun hcL => hL hcL)
  bridges := h.bridges
  bonded := h.bonded

end Ledger

end Spacing.Edges
