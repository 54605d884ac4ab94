import Mathlib.Data.List.Sort
import Spacing.Proofs.Part.Basic

namespace Spacing

variable {α : Type}

def Edit.redirects : Edit α → Bool
  | .redirectIns .. | .redirectOuts .. => true
  | _ => false

variable [Scalar α] {e e' : Renaming}

namespace Problem

variable {p q q' : Problem α} {v : VarId}

def Ascending (p : Problem α) : Prop :=
  ∀ v, (p.variableAt v).ins.Pairwise (· < ·) ∧ (p.variableAt v).outs.Pairwise (· < ·)

theorem ascending_empty : (empty : Problem α).Ascending :=
  fun _ => ⟨.nil, .nil⟩

theorem pairwise_append_ite {cs : List ConId} {n : Nat} (hcs : cs.Pairwise (· < ·))
    (hn : ∀ c ∈ cs, c < n) (b : Prop) [Decidable b] :
    (cs ++ if b then [n] else []).Pairwise (· < ·) := by
  split
  · simpa [List.pairwise_append] using ⟨hcs, hn⟩
  · simpa using hcs

theorem Ascending.edit (ha : p.Ascending) (hp : p.Consistent) {x : Edit α}
    (hx : x.redirects = false) (h : p.edit x = .ok q) : q.Ascending := by
  rcases edit_cases h with ⟨id, desired, weight, -, -, rfl⟩ | ⟨l, r, gap, equality, -, hl, hr, rfl⟩ |
    ⟨v, desired, -, hv, rfl⟩ | ⟨c, gap, -, -, rfl⟩ | ⟨u, v, shift, rfl, -⟩ | ⟨u, v, shift, rfl, -⟩
  · intro v
    rw [variableAt_insertVariable]
    split
    · exact ⟨.nil, .nil⟩
    · exact ha v
  · intro v
    rw [variableAt_insertConstraint _ _ hl hr]
    constructor
    · exact pairwise_append_ite (ha v).1 (fun c hc => ((hp.mem_ins v c).mp hc).1) _
    · exact pairwise_append_ite (ha v).2 (fun c hc => ((hp.mem_outs v c).mp hc).1) _
  · intro w
    rw [variableAt_setDesired hv]
    split
    · exact ha w
    · exact ha w
  · exact ha
  · cases hx
  · cases hx

theorem Ascending.edits (ha : p.Ascending) (hp : p.Consistent) {xs : List (Edit α)}
    (hxs : ∀ x ∈ xs, x.redirects = false) (h : p.edits xs = .ok q) : q.Ascending := by
  induction xs generalizing p with
  | nil =>
    cases h
    exact ha
  | cons x xs ih =>
    simp only [List.mem_cons, forall_eq_or_imp] at hxs
    obtain ⟨r, hr, h⟩ := bind_eq_ok.mp h
    exact ih (ha.edit hp hxs.1 hr) (hp.edit hr) hxs.2 h

theorem ascending_edits {xs : List (Edit α)} (hxs : ∀ x ∈ xs, x.redirects = false)
    (h : (empty : Problem α).edits xs = .ok p) : p.Ascending :=
  ascending_empty.edits consistent_empty hxs h

theorem Contains.towards_eq (h : p.Contains e q) (hp : p.Consistent) (hq : q.Consistent)
    (hap : p.Ascending) (haq : q.Ascending) (hv : v < q.vars.size) (side : Side)
    (hclosed : ∀ c < p.constraints.size, p.edges.endOn side.other c = e.var v →
      ∃ d < q.constraints.size, e.con d = c) :
    (p.variableAt (e.var v)).towards side = ((q.variableAt v).towards side).map e.con := by
  have hsorted {p : Problem α} (ha : p.Ascending) (v : VarId) :
      ((p.variableAt v).towards side).Pairwise (· < ·) := by
    cases side
    · exact (ha v).1
    · exact (ha v).2
  apply List.Pairwise.eq_of_mem_iff (r := (· < ·))
  · exact hsorted hap _
  · exact (hsorted haq v).map e.con fun _ _ hlt => e.con_mono hlt
  · intro c
    rw [hp.mem_towards, List.mem_map]
    constructor
    · rintro ⟨hc, hend⟩
      obtain ⟨d, hd, rfl⟩ := hclosed c hc hend
      rw [h.endOn_eq hd] at hend
      exact ⟨d, (hq.mem_towards side).mpr ⟨hd, e.var_mono.injective hend⟩, rfl⟩
    · rintro ⟨d, hd, rfl⟩
      obtain ⟨hlt, rfl⟩ := (hq.mem_towards side).mp hd
      exact ⟨h.con_lt d hlt, h.endOn_eq hlt _⟩

theorem Part.of_ascending (h : p.Contains e q) (h' : p.Contains e' q') (hp : p.Consistent)
    (hq : q.Consistent) (hq' : q'.Consistent) (hap : p.Ascending) (haq : q.Ascending)
    (hv : ∀ v < q.vars.size, ¬ e'.Reaches q'.vars.size (e.var v))
    (hc : ∀ c < p.constraints.size, (∃ d < q.constraints.size, e.con d = c) ∨
      ∃ d < q'.constraints.size, e'.con d = c) : p.Part e q := by
  -- What else there is has constraints and variables of its own, so none of its constraints is at a
  -- variable of the part.
  have hclosed (v : VarId) (hlt : v < q.vars.size) (side : Side) (c : ConId)
      (hclt : c < p.constraints.size) (hend : p.edges.endOn side c = e.var v) :
      ∃ d < q.constraints.size, e.con d = c := by
    apply (hc c hclt).resolve_right
    rintro ⟨d, hd, rfl⟩
    rw [h'.endOn_eq hd] at hend
    exact hv v hlt ⟨_, hq'.endOn_lt hd side, hend⟩
  refine ⟨h, fun v hlt => ?_, fun v hlt => ?_⟩
  · exact h.towards_eq hp hq hap haq hlt .left (hclosed v hlt .right)
  · exact h.towards_eq hp hq hap haq hlt .right (hclosed v hlt .left)

/-- The variables and constraints of `p` are those of `p₁` and those of `p₂`, each in their own order,
and there is no constraint between the two. -/
structure Interleaving (e₁ e₂ : Renaming) (p p₁ p₂ : Problem α) : Prop where
  first : p.Part e₁ p₁
  second : p.Part e₂ p₂
  var_iff : ∀ v < p.vars.size, e₁.Reaches p₁.vars.size v ↔ ¬ e₂.Reaches p₂.vars.size v
  con_iff : ∀ c < p.constraints.size,
    (∃ d < p₁.constraints.size, e₁.con d = c) ↔ ¬ ∃ d < p₂.constraints.size, e₂.con d = c

theorem Interleaving.of_ascending {e₁ e₂ : Renaming} {p₁ p₂ : Problem α} (h₁ : p.Contains e₁ p₁)
    (h₂ : p.Contains e₂ p₂) (hp : p.Consistent) (hp₁ : p₁.Consistent) (hp₂ : p₂.Consistent)
    (ha : p.Ascending) (ha₁ : p₁.Ascending) (ha₂ : p₂.Ascending)
    (hv : ∀ v < p.vars.size, e₁.Reaches p₁.vars.size v ↔ ¬ e₂.Reaches p₂.vars.size v)
    (hc : ∀ c < p.constraints.size,
      (∃ d < p₁.constraints.size, e₁.con d = c) ↔ ¬ ∃ d < p₂.constraints.size, e₂.con d = c) :
    p.Interleaving e₁ e₂ p₁ p₂ := by
  refine ⟨?_, ?_, hv, hc⟩
  · apply Part.of_ascending h₁ h₂ hp hp₁ hp₂ ha ha₁
    · intro v hlt
      exact (hv _ (h₁.var_lt v hlt)).mp (Renaming.reaches_var.mpr hlt)
    · intro c hlt
      exact or_iff_not_imp_right.mpr (hc c hlt).mpr
  · apply Part.of_ascending h₂ h₁ hp hp₂ hp₁ ha ha₂
    · intro v hlt
      rw [hv _ (h₂.var_lt v hlt), not_not]
      exact Renaming.reaches_var.mpr hlt
    · intro c hlt
      rw [hc c hlt]
      exact Classical.em _

end Problem

end Spacing
