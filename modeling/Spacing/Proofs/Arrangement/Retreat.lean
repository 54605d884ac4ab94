import Spacing.Proofs.Arrangement.Rebalance
/-!
Retreats: what the left part of a split block can run into on its way to the left. It reaches the right
part only if constraints lead there from the left end of the one that was given up, each active one
crossed either way and any other from right to left.
-/

namespace Spacing.Arrangement

open Relation

variable {α : Type} [Scalar α] {a a' : Arrangement α} {p : Problem α} {b l r t : BlockId} {B s : Block α}
  {c d : ConId} {u v w : VarId} {L R : List VarId} {shift : α}

/-- What `v` takes along when it moves to the left and `c` is given up. -/
def Retreats (a : Arrangement α) (c : ConId) (v w : VarId) : Prop :=
  ∃ d < a.problem.constraints.size,
    (a.problem.edges.right d = v ∧ a.problem.edges.left d = w) ∨
      (d ∈ a.problem.active ∧ d ≠ c ∧ a.problem.edges.left d = v ∧ a.problem.edges.right d = w)

def Bypassed (a : Arrangement α) (c : ConId) : Prop :=
  ReflTransGen (a.Retreats c) (a.problem.edges.left c) (a.problem.edges.right c)

theorem retreats_of_linked (h : a.problem.edges.Linked (a.problem.active \ {c}) u v) :
    ReflTransGen (a.Retreats c) u v := by
  refine ReflTransGen.mono ?_ u v h
  rintro v w ⟨d, ⟨hd, hdc⟩, hjoins⟩
  have hlt := Problem.lt_size_of_mem_active hd
  rcases hjoins with ⟨hl, hr⟩ | ⟨hr, hl⟩
  · exact ⟨d, hlt, .inr ⟨hd, hdc, hl, hr⟩⟩
  · exact ⟨d, hlt, .inl ⟨hr, hl⟩⟩

structure Retreating (p : Problem α) (E : VarId → VarId → Prop) (u : VarId) (a : Arrangement α)
    (b : BlockId) : Prop where
  given_eq : a.problem.given = p.given
  reached : ∀ v < p.vars.size, a.blockOf v = b → ReflTransGen E u v
  together : ∀ v < p.vars.size, ∀ w < p.vars.size, a.blockOf v = a.blockOf w → a.blockOf v ≠ b →
    ReflTransGen E v w

theorem Merged.retreating {E : VarId → VarId → Prop} (h : Merged a a' c t r s B shift) (ha : a.Intact)
    (hE : ∀ d < p.constraints.size, E (p.edges.right d) (p.edges.left d)) (hc : a.Crosses .left b c)
    (hb : Retreating p E u a b) : Retreating p E u a' t := by
  have hg := hb.given_eq
  have hsize := Problem.size_vars_eq hg
  have hlt : c < p.constraints.size := Problem.size_constraints_eq hg ▸ h.lt_size
  have hleft : p.edges.left c < p.vars.size := by
    rw [← hsize, ← Problem.edges_eq hg]
    exact ha.consistent.leftEnd_lt h.lt_size
  have hright : p.edges.right c < p.vars.size := by
    rw [← hsize, ← Problem.edges_eq hg]
    exact ha.consistent.rightEnd_lt h.lt_size
  have hnear : a.rightBlock c = b := hc.near
  have hfar : a.leftBlock c ≠ b := hc.far
  rw [leftBlock_eq, Problem.edges_eq hg] at hfar
  rw [rightBlock_eq, Problem.edges_eq hg] at hnear
  have hmem (v : VarId) (hv : v < p.vars.size) : a'.blockOf v = t ↔
      a.blockOf v = a.blockOf (p.edges.left c) ∨ a.blockOf v = b := by
    rw [h.blockOf_eq_iff_ends ha (hsize.symm ▸ hv), leftBlock_eq, rightBlock_eq, Problem.edges_eq hg,
      hnear]
  refine ⟨h.given_eq.trans hg, fun v hv hvt => ?_, fun v hv w hw hvw hvt => ?_⟩
  · rcases (hmem v hv).mp hvt with hvf | hvb
    · have hend := (hb.reached _ hright hnear).tail (hE c hlt)
      exact hend.trans (hb.together _ hleft v hv hvf.symm hfar)
    · exact hb.reached v hv hvb
  · have hout := not_or.mp ((hmem v hv).not.mp hvt)
    refine hb.together v hv w hw ?_ hout.2
    rcases h.eq_or_ends_of_blockOf_eq ha (hsize.symm ▸ hv) (hsize.symm ▸ hw) hvw with he | he
    · exact he
    · refine absurd ((h.blockOf_eq_iff_ends ha (hsize.symm ▸ hv)).mpr ?_) hvt
      exact he.imp And.left And.left

theorem loopInvariant_retreating {E : VarId → VarId → Prop}
    (hE : ∀ d < p.constraints.size, E (p.edges.right d) (p.edges.left d)) :
    LoopInvariant .left (Retreating p E u) where
  collect _ _ _ _ h := ⟨h.given_eq, h.reached, h.together⟩
  merge _ _ _ _ _ ha _ _ h _ hc hm := by
    obtain ⟨_, _, _, _, hmerged⟩ := merged_of_merge hm
    exact hmerged.retreating ha hE hc h

theorem Halved.retreating (h : Halved a a' c l r B L R) (ha : a.Intact) (hc : c ∈ a.problem.active) :
    Retreating a.problem (a.Retreats c) (a.problem.edges.left c) (a'.settle l) l where
  given_eq := h.given_eq
  reached v hv hvl := by
    have hvL := (h.blockOf_eq_left_iff ha hc hv).mp hvl
    exact retreats_of_linked ((h.mem_left v).mp hvL)
  together v hv w hw hvw _ := retreats_of_linked (h.linked_of_blockOf_eq ha hc hv hw hvw)

end Spacing.Arrangement
