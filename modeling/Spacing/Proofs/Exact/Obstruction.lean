import Spacing.Proofs.Exact.Certificate
import Spacing.Proofs.Solver.Pass

namespace Spacing

open Relation

namespace Arrangement

variable {a : Arrangement Rat} {u v : VarId} {c : ConId} {y : VarId → Rat}

def lead (a : Arrangement Rat) (y : VarId → Rat) (v : VarId) : Rat :=
  y v - a.position v

theorem slackAt_eq (a : Arrangement Rat) (y : VarId → Rat) (c : ConId) : a.problem.slackAt y c =
    a.slack c + (a.lead y (a.problem.edges.right c) - a.lead y (a.problem.edges.left c)) := by
  rw [slack_exact, lead, lead]
  change y (a.problem.edges.right c) - y (a.problem.edges.left c) - _ = _
  ring

section Balanced

variable (ha : a.Intact) (hb : a.Balanced) (hy : a.problem.Satisfied y)
include ha hb hy

theorem lead_of_active (hc : c ∈ a.problem.active) :
    a.lead y (a.problem.edges.left c) ≤ a.lead y (a.problem.edges.right c) ∧
      (c ∈ a.problem.equalities →
        a.lead y (a.problem.edges.left c) = a.lead y (a.problem.edges.right c)) := by
  obtain ⟨hpos, heq⟩ := hy c (Problem.lt_size_of_mem_active hc)
  have hslack := slackAt_eq a y c
  rw [hb.slack_of_active ha hc] at hslack
  constructor
  · linarith
  · intro hQ
    have hzero := heq hQ
    linarith

theorem lead_le_of_wedged (hu : u < a.problem.vars.size) (hv : v < a.problem.vars.size)
    (huv : a.blockOf u = a.blockOf v) (hw : a.Wedged u v) : a.lead y v ≤ a.lead y u := by
  have hstep (x z : VarId) (hxz : ∃ b ∈ a.path u v, b.parent = x ∧ b.child = z) :
      a.lead y z ≤ a.lead y x := by
    obtain ⟨b, hbranch, rfl, rfl⟩ := hxz
    have hf := (linked_of_mem_path ha hu hv huv hbranch).1
    obtain ⟨hle, heq⟩ := lead_of_active ha hb hy hf.active
    rw [hf.parent, hf.child]
    by_cases hforward : b.forward = true
    · have hkept := hw b hbranch hforward
      rw [isReleasable, Bool.not_eq_false'] at hkept
      rw [if_pos hforward, if_pos hforward, heq hkept]
    · rw [if_neg hforward, if_neg hforward]
      exact hle
  have hchain (w : VarId) (h : ReflTransGen (fun x z => ∃ b ∈ a.path u v, b.parent = x ∧ b.child = z)
      u w) : a.lead y w ≤ a.lead y u := by
    induction h with
    | refl => exact le_refl _
    | tail _ hbranch ih => exact (hstep _ _ hbranch).trans ih
  exact hchain v (leads_path ha hu hv huv)

theorem lead_eq_of_linked
    (h : a.problem.edges.Linked (a.problem.equalities ∩ a.problem.active) u v) :
    a.lead y u = a.lead y v := by
  apply h.congr
  intro c ⟨hQ, hc⟩
  exact (lead_of_active ha hb hy hc).2 hQ

theorem slackAt_le_of_wedged (hc : c < a.problem.constraints.size)
    (htogether : a.leftBlock c = a.rightBlock c)
    (hw : a.Wedged (a.problem.edges.left c) (a.problem.edges.right c)) :
    a.problem.slackAt y c ≤ a.slack c := by
  have hle := lead_le_of_wedged ha hb hy (ha.consistent.leftEnd_lt hc) (ha.consistent.rightEnd_lt hc)
    htogether hw
  rw [slackAt_eq]
  linarith

theorem slack_eq_zero_of_linked (hQ : c ∈ a.problem.equalities)
    (h : a.problem.edges.Linked (a.problem.equalities ∩ a.problem.active) (a.problem.edges.left c)
      (a.problem.edges.right c)) : a.slack c = 0 := by
  have hlt : c < a.problem.constraints.size := Problem.lt_size_of_mem_equalities hQ
  have hslack := slackAt_eq a y c
  rw [(hy c hlt).2 hQ, lead_eq_of_linked ha hb hy h] at hslack
  linarith

end Balanced

end Arrangement

namespace Solver

open Arrangement

variable {s t : Solver Rat} {mode : Mode} {options : Options Rat} {lost : Set ConId} {c : ConId}
  {y : VarId → Rat} {n m : Nat}

namespace Accounted

variable (h : Accounted mode options lost s) (hb : s.arrangement.Balanced)
  (hy : s.problem.Satisfied y)
include h hb hy

theorem of_wedged (hc : s.nextViolated = some c)
    (htogether : s.arrangement.leftBlock c = s.arrangement.rightBlock c)
    (hw : s.arrangement.Wedged (s.problem.edges.left c) (s.problem.edges.right c)) :
    c ∈ s.problem.equalities ∧ s.arrangement.slack c = 0 := by
  have ha := h.sound.intact
  have hwatched := mem_of_nextViolated hc
  have hlt := h.sound.watched c hwatched
  have hQ : c ∈ s.problem.equalities := by
    by_contra hQ
    have hviolated := (violated_of_nextViolated hc).resolve_left hQ
    have hle : s.problem.slackAt y c ≤ s.arrangement.slack c :=
      slackAt_le_of_wedged ha hb hy hlt htogether hw
    have hpos := (hy c hlt).1
    have heps := epsilon_pos
    linarith
  exact ⟨hQ, slack_eq_zero_of_linked ha hb hy hQ (h.linked_of_together hwatched hQ htogether)⟩

theorem not_stuck (hc : s.nextViolated = some c)
    (htogether : s.arrangement.leftBlock c = s.arrangement.rightBlock c)
    (hw : s.arrangement.Wedged (s.problem.edges.left c) (s.problem.edges.right c)) :
    s.isImplied c = true := by
  obtain ⟨hQ, hslack⟩ := h.of_wedged hb hy hc htogether hw
  have hQ : (s.problem.constraintAt c).equality = true := hQ
  have heps := epsilon_pos.le
  simp [isImplied, hQ, hslack, Scalar.within, heps]

end Accounted

end Solver

end Spacing
