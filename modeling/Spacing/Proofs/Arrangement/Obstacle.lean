import Spacing.Proofs.Arrangement.Route

namespace Spacing

open Relation

variable {α : Type} [Scalar α]

namespace Arrangement

variable {a a' : Arrangement α} {u v : VarId}

theorem leads_path (ha : a.Intact) (hu : u < a.problem.vars.size) (hv : v < a.problem.vars.size)
    (huv : a.blockOf u = a.blockOf v) :
    ReflTransGen (fun x y => ∃ b ∈ a.path u v, b.parent = x ∧ b.child = y) u v := by
  apply (isRoute_path ha hu hv huv).chained.leads.lift id
  rintro x y ⟨b, hb, hends⟩
  exact ⟨b, List.mem_reverse.mp hb, hends⟩

theorem linked_of_path {E : Set ConId} (ha : a.Intact) (hu : u < a.problem.vars.size)
    (hv : v < a.problem.vars.size) (huv : a.blockOf u = a.blockOf v)
    (hE : ∀ b ∈ a.path u v, b.via ∈ E) : a.problem.edges.Linked E u v :=
  (isRoute_path ha hu hv huv).linked fun b hb => hE b (List.mem_reverse.mp hb)

def Wedged (a : Arrangement α) (u v : VarId) : Prop :=
  ∀ b ∈ a.path u v, b.forward = true → a.isReleasable b.via = false

theorem path_writeMultipliers (ms : List (ConId × α)) (u v : VarId) :
    (a.writeMultipliers ms).path u v = a.path u v := by
  have hblock : (a.writeMultipliers ms).blockOf u = a.blockOf u :=
    congrArg Variable.block (variableAt_writeMultipliers ms u)
  rw [path, path, hblock, tree_writeMultipliers]

theorem wedged_of_splitBetween (h : a.splitBetween u v = .ok (a', none)) : a.Wedged u v := by
  let a₁ := a.writeMultipliers (a.multipliersOf (a.blockOf u))
  let candidates := (a₁.path u v).filter fun b => b.forward && a₁.isReleasable b.via
  let key := fun b : Branch => (a₁.problem.constraintAt b.via).multiplier
  have hleast : a.leastOnPath u v = (a₁, (firstLeast key candidates).map fun b => b.via) := rfl
  have hnone : candidates = [] := by
    cases hc : candidates with
    | nil => rfl
    | cons x xs =>
      rw [splitBetween, hleast, hc] at h
      obtain ⟨r, -, hr⟩ := bind_eq_ok.mp h
      cases hr
  intro b hb hforward
  rw [← path_writeMultipliers (a.multipliersOf (a.blockOf u))] at hb
  have hkeep := List.filter_eq_nil_iff.mp hnone b hb
  rw [hforward, Bool.true_and, Bool.not_eq_true] at hkeep
  rw [← hkeep, isReleasable, isReleasable, Problem.equality_eq (given_writeMultipliers _)]

end Arrangement

end Spacing
