import Spacing.Proofs.Arrangement.Initial
import Spacing.Proofs.Arrangement.Loop
import Spacing.Proofs.Graph.Ledger
import Spacing.Proofs.Problem.Order
import Spacing.Solver.Batch
/-!
Gathering: merging to the left from every variable in order links the ends of every equality by active
equalities. When it is a variable's turn nothing has been merged with it, so the first merge is across
an equality to it if there is one, and further equalities to it may only say what that one says.
-/

namespace Spacing

open Relation

variable {α : Type} [Scalar α] {p : Problem α}

namespace Problem

/-- Where equalities have one right end, their left ends are linked by equalities that come before. -/
def Confluent (p : Problem α) : Prop :=
  ∀ c ∈ p.equalities, ∀ d ∈ p.equalities, p.edges.right c = p.edges.right d →
    p.edges.Linked { e | e ∈ p.equalities ∧ TransGen p.Precedes (p.edges.right e) (p.edges.right c) }
      (p.edges.left c) (p.edges.left d)

theorem confluent_of_left_eq (h : ∀ c ∈ p.equalities, ∀ d ∈ p.equalities,
    p.edges.right c = p.edges.right d → p.edges.left c = p.edges.left d) : p.Confluent := by
  intro c hc d hd hcd
  rw [h c hc d hd hcd]
  exact .refl

end Problem

namespace Arrangement

variable {a a' : Arrangement α} {b t r : BlockId} {s B : Block α} {shift : α} {c : ConId} {v : VarId}
  {done rest : List VarId}

def Bonded (p : Problem α) (vs : List VarId) (a : Arrangement α) : Prop :=
  ∀ c ∈ p.equalities, p.edges.right c ∈ vs →
    p.edges.Linked (p.equalities ∩ a.problem.active) (p.edges.left c) (p.edges.right c)

theorem Bonded.mono {vs : List VarId} (h : Bonded p vs a)
    (ha : a.problem.active ⊆ a'.problem.active) : Bonded p vs a' := by
  intro c hc hr
  exact (h c hc hr).mono (Set.inter_subset_inter_right _ ha)

theorem Bonded.concat (h : Bonded p done a) (hv : Bonded p [v] a) : Bonded p (done ++ [v]) a := by
  intro c hc hr
  exact (List.mem_append.mp hr).elim (h c hc) (hv c hc)

structure Gathered (p : Problem α) (done : List VarId) (a : Arrangement α) : Prop where
  intact : a.Intact
  given_eq : a.problem.given = p.given
  together : ∀ u < p.vars.size, ∀ v < p.vars.size, a.blockOf u = a.blockOf v →
    u = v ∨ (u ∈ done ∧ v ∈ done)
  bonded : Bonded p done a

structure Gathering (p : Problem α) (done : List VarId) (v : VarId) (a : Arrangement α)
    (b : BlockId) : Prop where
  given_eq : a.problem.given = p.given
  together : ∀ u < p.vars.size, ∀ w < p.vars.size, a.blockOf u = a.blockOf w →
    u = w ∨ (u ∈ done ++ [v] ∧ w ∈ done ++ [v])
  inside : ∀ u < p.vars.size, a.blockOf u = b → u ∈ done ++ [v]
  bonded : Bonded p done a
  reached : (∀ u < p.vars.size, a.blockOf u = b ↔ u = v) ∨ Bonded p [v] a

theorem gathered_ofProblem (hp : p.Consistent) : Gathered p [] (ofProblem p) where
  intact := intact_ofProblem hp
  given_eq := given_ofProblem
  together u hu v hv huv := by
    rw [blockOf_ofProblem hu, blockOf_ofProblem hv] at huv
    exact .inl huv
  bonded _ _ hr := absurd hr List.not_mem_nil

theorem Gathered.gathering (h : Gathered p done a) (ho : done ++ v :: rest = p.order) :
    Gathering p done v a (a.blockOf v) := by
  have hv := Problem.lt_of_order ho
  have hnew := Problem.notMem_of_order ho
  have halone (u : VarId) (hu : u < p.vars.size) : a.blockOf u = a.blockOf v ↔ u = v := by
    constructor
    · intro hub
      exact (h.together u hu v hv hub).resolve_right fun hd => hnew hd.2
    · rintro rfl
      rfl
  refine ⟨h.given_eq, ?_, ?_, h.bonded, .inl halone⟩
  · intro u hu w hw huw
    apply (h.together u hu w hw huw).imp_right
    exact And.imp (List.mem_append_left _) (List.mem_append_left _)
  · intro u hu hub
    rw [(halone u hu).mp hub]
    exact List.mem_append_right _ List.mem_cons_self

section Turn

variable (hp : p.Consistent) (hacyclic : p.Acyclic) (ho : done ++ v :: rest = p.order)
include hp hacyclic ho

theorem Gathering.crosses (h : Gathering p done v a b)
    (halone : ∀ u < p.vars.size, a.blockOf u = b ↔ u = v) (hc : c < p.constraints.size)
    (hr : p.edges.right c = v) : a.Crosses .left b c := by
  -- The left end comes before `v`, so it is elsewhere while the block holds `v` alone.
  have hleft := Problem.left_mem_of_order hp hacyclic ho hc hr
  have hnew := Problem.notMem_of_order ho
  refine ⟨(Problem.size_constraints_eq h.given_eq).symm ▸ hc, ?_, ?_⟩
  · rw [Problem.edges_eq h.given_eq]
    exact (halone _ (hp.rightEnd_lt hc)).mpr hr
  · rw [Problem.edges_eq h.given_eq]
    intro hb
    exact hnew ((halone _ (hp.leftEnd_lt hc)).mp hb ▸ hleft)

theorem Gathering.bonded_of_none (h : Gathering p done v a b) (ha : a.Intact)
    (hb : (a.block? b).isSome) (hk : a.Known .left b) (hn : a.nextMerge .left b = none) :
    Bonded p [v] a := by
  rcases h.reached with halone | hv
  · intro c hc hr
    have hlt := Problem.lt_size_of_mem_equalities hc
    have hcross := h.crosses hp hacyclic ho halone hlt (List.mem_singleton.mp hr)
    obtain ⟨d, -, hd⟩ := ha.nextMerge_of_equality hb hk hcross (Problem.equalities_eq h.given_eq ▸ hc)
    cases hn.symm.trans hd
  · exact hv

variable (hconfluent : p.Confluent)
include hconfluent

theorem Gathering.bonded_of_first (h : Gathering p done v a b) (ha : a.Intact)
    (hb : (a.block? b).isSome) (hk : a.Known .left b) (hn : a.nextMerge .left b = some c)
    (halone : ∀ u < p.vars.size, a.blockOf u = b ↔ u = v)
    (hactive : a'.problem.active = insert c a.problem.active) : Bonded p [v] a' := by
  intro d hd hr
  obtain rfl := List.mem_singleton.mp hr
  have hlt := Problem.lt_size_of_mem_equalities hd
  have hcross := h.crosses hp hacyclic ho halone hlt rfl
  obtain ⟨_, hQ, hc⟩ := ha.nextMerge_of_equality hb hk hcross (Problem.equalities_eq h.given_eq ▸ hd)
  cases hn.symm.trans hc
  rw [Problem.equalities_eq h.given_eq] at hQ
  have hclt := Problem.lt_size_of_mem_equalities hQ
  have hright : p.edges.right c = p.edges.right d := by
    have hnear := (ha.nextMerge_crosses hb hk hn).1.near
    rw [Problem.edges_eq h.given_eq] at hnear
    exact (halone _ (hp.rightEnd_lt hclt)).mp hnear
  -- From one left end to the other over equalities of earlier turns, and then over the new one.
  have hleft : p.edges.Linked (p.equalities ∩ a.problem.active) (p.edges.left d) (p.edges.left c) := by
    apply (hconfluent d hd c hQ hright.symm).through
    intro e ⟨he, hbefore⟩
    exact h.bonded e he (Problem.mem_of_precedes hp hacyclic ho hbefore)
  have hsub : a.problem.active ⊆ a'.problem.active := by
    rw [hactive]
    exact Set.subset_insert _ _
  have hmerged : p.edges.Linked (p.equalities ∩ a'.problem.active) (p.edges.left c)
      (p.edges.right c) := .edge ⟨hQ, hactive ▸ Set.mem_insert c _⟩
  rw [← hright]
  exact (hleft.mono (Set.inter_subset_inter_right _ hsub)).trans hmerged

theorem Merged.gathering (hm : Merged a a' c t r s B shift) (ha : a.Intact)
    (hb : (a.block? b).isSome) (hk : a.Known .left b) (hn : a.nextMerge .left b = some c)
    (h : Gathering p done v a b) : Gathering p done v a' t := by
  obtain ⟨hlt, hnear, -⟩ := (ha.nextMerge_crosses hb hk hn).1
  have hsize := Problem.size_vars_eq h.given_eq
  rw [Problem.edges_eq h.given_eq] at hnear
  rw [Problem.size_constraints_eq h.given_eq] at hlt
  have hsub : a.problem.active ⊆ a'.problem.active := by
    rw [hm.active_eq]
    exact Set.subset_insert _ _
  have hleft : p.edges.left c ∈ done ++ [v] := by
    have hright := h.inside _ (hp.rightEnd_lt hlt) hnear
    exact List.mem_append_left _ (Problem.left_mem_of_mem_concat hp hacyclic ho hlt hright)
  have hinside (u : VarId) (hu : u < p.vars.size) (hut : a'.blockOf u = t) : u ∈ done ++ [v] := by
    have hends := (hm.blockOf_eq_iff_ends ha (hsize.symm ▸ hu)).mp hut
    rw [leftBlock_eq, rightBlock_eq, Problem.edges_eq h.given_eq] at hends
    rcases hends with hul | hur
    · rcases h.together u hu _ (hp.leftEnd_lt hlt) hul with rfl | ⟨hd, -⟩
      · exact hleft
      · exact hd
    · exact h.inside u hu (hur.trans hnear)
  have htogether := h.together
  have hreached : Bonded p [v] a' := by
    rcases h.reached with halone | hv
    · exact h.bonded_of_first hp hacyclic ho hconfluent ha hb hk hn halone hm.active_eq
    · exact hv.mono hsub
  refine ⟨hm.given_eq.trans h.given_eq, ?_, hinside, h.bonded.mono hsub, .inr hreached⟩
  rw [← hsize] at htogether hinside ⊢
  exact hm.eq_or_of_blockOf_eq ha htogether hinside

theorem loopInvariant_gathering : LoopInvariant .left (Gathering p done v) where
  collect _ _ _ _ h := ⟨h.given_eq, h.together, h.inside, h.bonded, h.reached⟩
  merge a b c a' t ha hb hk h hn _ hm := by
    obtain ⟨r, s, B, shift, hmerged⟩ := merged_of_merge hm
    exact hmerged.gathering hp hacyclic ho hconfluent ha hb hk hn h

theorem Gathered.next (h : Gathered p done a) :
    Yields (a.mergeTowards .left (a.blockOf v)) fun r => Gathered p (done ++ [v]) r.1 := by
  have hv := Problem.lt_of_order ho
  have hb := h.intact.standing v (Problem.size_vars_eq h.given_eq ▸ hv)
  apply (mergeTowards_yields (loopInvariant_gathering hp hacyclic ho hconfluent) h.intact hb
    (h.gathering ho)).mono
  intro ⟨a', b⟩ ⟨ha', hb, hg, hk, hn⟩
  have hbonded := hg.bonded.concat (hg.bonded_of_none hp hacyclic ho ha' hb hk hn)
  exact ⟨ha', hg.given_eq, hg.together, hbonded⟩

end Turn

theorem gathered_mergeInOrder (hp : p.Consistent) (hacyclic : p.Acyclic) (hconfluent : p.Confluent)
    (h : Gathered p [] a) : Yields (a.mergeInOrder p.order) (Gathered p p.order) := by
  apply Yields.foldlM (I := Gathered p) h
  intro done v rest a ho h
  have hv := Problem.lt_of_order ho
  have hb := h.intact.standing v (Problem.size_vars_eq h.given_eq ▸ hv)
  rw [if_pos hb]
  exact (h.next hp hacyclic ho hconfluent).map fun r hr => hr

theorem Gathered.upheld (h : Gathered p p.order a) (hp : p.Consistent) :
    p.edges.Upheld p.equalities a.problem.active := by
  intro c hc
  apply h.bonded c hc
  exact Problem.mem_order.mpr (hp.rightEnd_lt (Problem.lt_size_of_mem_equalities hc))

theorem loopInvariant_upheld (p : Problem α) (side : Side) :
    LoopInvariant side fun (a : Arrangement α) _ => p.edges.Upheld p.equalities a.problem.active where
  collect _ _ _ _ h := h
  merge _ _ c _ _ _ _ _ h _ _ hm := by
    obtain ⟨_, _, _, _, hmerged⟩ := merged_of_merge hm
    rw [hmerged.active_eq]
    exact h.mono fun _ hd _ => Set.mem_insert_of_mem c hd

end Arrangement

end Spacing
