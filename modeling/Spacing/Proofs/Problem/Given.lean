import Spacing.Problem.Edit
import Spacing.Proofs.Graph.Linked

namespace Spacing

variable {α : Type} [Scalar α]

def Variable.given (x : Variable α) : Variable α :=
  { x with position := Scalar.zero, offset := Scalar.zero, block := 0 }

def Constraint.given (k : Constraint α) : Constraint α :=
  { k with active := false, multiplier := Scalar.zero }

namespace Problem

variable {p q : Problem α} {u v : VarId} {c d : ConId}

section Sizes

omit [Scalar α]

@[simp]
theorem size_modifyVariable (f : Variable α → Variable α) :
    (p.modifyVariable u f).vars.size = p.vars.size := by
  simp [modifyVariable]

@[simp]
theorem size_modifyConstraint (f : Constraint α → Constraint α) :
    (p.modifyConstraint c f).constraints.size = p.constraints.size := by
  simp [modifyConstraint]

theorem constraints_modifyAll (f : Variable α → Variable α) (vs : List VarId) :
    (vs.foldl (fun p v => p.modifyVariable v f) p).constraints = p.constraints := by
  induction vs generalizing p with
  | nil => rfl
  | cons v vs ih => exact ih.trans rfl

end Sizes

def given (p : Problem α) : Problem α where
  vars := p.vars.map Variable.given
  constraints := p.constraints.map Constraint.given

def edges (p : Problem α) : Edges where
  left c := (p.constraintAt c).left
  right c := (p.constraintAt c).right

def active (p : Problem α) : Set ConId :=
  { c | (p.constraintAt c).active = true }

theorem mem_active : c ∈ p.active ↔ (p.constraintAt c).active = true := Iff.rfl

theorem lt_size_of_mem_active (h : c ∈ p.active) : c < p.constraints.size := by
  by_contra hc
  have : p.constraintAt c = default := by
    simp [constraintAt, Array.getD_eq_getD_getElem?, Array.getElem?_eq_none (Nat.not_lt.mp hc)]
  rw [mem_active, this] at h
  cases h

def equalities (p : Problem α) : Set ConId :=
  { c | (p.constraintAt c).equality = true }

theorem lt_size_of_mem_equalities (h : c ∈ p.equalities) : c < p.constraints.size := by
  by_contra hc
  have hk : p.constraintAt c = default := by
    simp [constraintAt, Array.getD_eq_getD_getElem?, Array.getElem?_eq_none (Nat.not_lt.mp hc)]
  have h : (p.constraintAt c).equality = true := h
  rw [hk] at h
  cases h

@[simp]
theorem default_outs : (default : Variable α).outs = [] := rfl

@[simp]
theorem default_ins : (default : Variable α).ins = [] := rfl

theorem variableAt_of_le (h : p.vars.size ≤ v) : p.variableAt v = default := by
  simp [variableAt, Array.getD_eq_getD_getElem?, Array.getElem?_eq_none h]

theorem variableAt_map {f : Variable α → Variable α} (hf : f default = default)
    (ks : Array (Constraint α)) :
    (Problem.mk (p.vars.map f) ks).variableAt v = f (p.variableAt v) := by
  simp only [variableAt, Array.getD_eq_getD_getElem?, Array.getElem?_map]
  cases p.vars[v]? <;> simp [hf]

theorem constraintAt_map {f : Constraint α → Constraint α} (hf : f default = default)
    (xs : Array (Variable α)) :
    (Problem.mk xs (p.constraints.map f)).constraintAt c = f (p.constraintAt c) := by
  simp only [constraintAt, Array.getD_eq_getD_getElem?, Array.getElem?_map]
  cases p.constraints[c]? <;> simp [hf]

theorem variableAt_modifyVariable (f : Variable α → Variable α) (hu : u < p.vars.size) :
    (p.modifyVariable u f).variableAt v = if v = u then f (p.variableAt v) else p.variableAt v := by
  simp only [variableAt, modifyVariable, Array.getD_eq_getD_getElem?, Array.getElem?_modify]
  by_cases h : v = u
  · subst h
    simp [hu]
  · simp [h, Ne.symm h]

theorem constraintAt_modifyConstraint (f : Constraint α → Constraint α)
    (hc : c < p.constraints.size) :
    (p.modifyConstraint c f).constraintAt d =
      if d = c then f (p.constraintAt d) else p.constraintAt d := by
  simp only [constraintAt, modifyConstraint, Array.getD_eq_getD_getElem?, Array.getElem?_modify]
  by_cases h : d = c
  · subst h
    simp [hc]
  · simp [h, Ne.symm h]

@[simp]
theorem constraintAt_modifyVariable (f : Variable α → Variable α) :
    (p.modifyVariable u f).constraintAt c = p.constraintAt c := rfl

@[simp]
theorem variableAt_modifyConstraint (f : Constraint α → Constraint α) :
    (p.modifyConstraint c f).variableAt v = p.variableAt v := rfl

theorem variableAt_modifyAll (f : Variable α → Variable α) {vs : List VarId} (hvs : vs.Nodup)
    (hlt : ∀ v ∈ vs, v < p.vars.size) :
    (vs.foldl (fun p v => p.modifyVariable v f) p).variableAt v =
      if v ∈ vs then f (p.variableAt v) else p.variableAt v := by
  induction vs generalizing p with
  | nil => simp
  | cons u vs ih =>
    obtain ⟨hu, hvs⟩ := List.nodup_cons.mp hvs
    have hlt' : ∀ v ∈ vs, v < (p.modifyVariable u f).vars.size := by
      simpa using fun v hv => hlt v (List.mem_cons_of_mem _ hv)
    rw [List.foldl_cons, ih hvs hlt', variableAt_modifyVariable f (hlt u List.mem_cons_self)]
    by_cases h : v = u
    · subst h
      simp [hu]
    · simp [h]

theorem active_modifyConstraint {f : Constraint α → Constraint α}
    (hf : ∀ k, (f k).active = k.active) : (p.modifyConstraint c f).active = p.active := by
  ext d
  simp only [active, constraintAt, modifyConstraint, Array.getD_eq_getD_getElem?,
    Array.getElem?_modify, Set.mem_ofPred_eq]
  split
  · cases p.constraints[d]? <;> simp [hf]
  · rfl

theorem variableAt_given : p.given.variableAt v = (p.variableAt v).given :=
  variableAt_map rfl _

theorem constraintAt_given : p.given.constraintAt c = (p.constraintAt c).given :=
  constraintAt_map rfl _

theorem edges_given : p.given.edges = p.edges := by
  ext c <;> simp only [edges, constraintAt_given] <;> rfl

section Equal

variable (h : p.given = q.given)
include h

theorem size_vars_eq : p.vars.size = q.vars.size := by
  simpa [given] using congrArg (fun r : Problem α => r.vars.size) h

theorem size_constraints_eq : p.constraints.size = q.constraints.size := by
  simpa [given] using congrArg (fun r : Problem α => r.constraints.size) h

theorem variable_given_eq (v : VarId) : (p.variableAt v).given = (q.variableAt v).given := by
  rw [← variableAt_given, ← variableAt_given, h]

theorem constraint_given_eq (c : ConId) : (p.constraintAt c).given = (q.constraintAt c).given := by
  rw [← constraintAt_given, ← constraintAt_given, h]

theorem edges_eq : p.edges = q.edges := by
  rw [← edges_given, h, edges_given]

theorem ins_eq (v : VarId) : (p.variableAt v).ins = (q.variableAt v).ins :=
  (congrArg Variable.ins (variable_given_eq h v) :)

theorem outs_eq (v : VarId) : (p.variableAt v).outs = (q.variableAt v).outs :=
  (congrArg Variable.outs (variable_given_eq h v) :)

theorem weight_eq (v : VarId) : (p.variableAt v).weight = (q.variableAt v).weight :=
  (congrArg Variable.weight (variable_given_eq h v) :)

theorem desired_eq (v : VarId) : (p.variableAt v).desired = (q.variableAt v).desired :=
  (congrArg Variable.desired (variable_given_eq h v) :)

theorem left_eq (c : ConId) : (p.constraintAt c).left = (q.constraintAt c).left :=
  (congrArg Constraint.left (constraint_given_eq h c) :)

theorem right_eq (c : ConId) : (p.constraintAt c).right = (q.constraintAt c).right :=
  (congrArg Constraint.right (constraint_given_eq h c) :)

theorem gap_eq (c : ConId) : (p.constraintAt c).gap = (q.constraintAt c).gap :=
  (congrArg Constraint.gap (constraint_given_eq h c) :)

theorem equality_eq (c : ConId) : (p.constraintAt c).equality = (q.constraintAt c).equality :=
  (congrArg Constraint.equality (constraint_given_eq h c) :)

theorem equalities_eq : p.equalities = q.equalities := by
  ext c
  simp only [equalities, equality_eq h]

end Equal

theorem given_modifyVariable {f : Variable α → Variable α} (hf : ∀ x, (f x).given = x.given) :
    (p.modifyVariable u f).given = p.given := by
  simp only [given, modifyVariable, Problem.mk.injEq, and_true]
  apply Array.ext
  · simp
  · intro i h1 h2
    by_cases h : u = i <;> simp [Array.getElem_modify, h, hf]

theorem given_modifyConstraint {f : Constraint α → Constraint α}
    (hf : ∀ k, (f k).given = k.given) : (p.modifyConstraint c f).given = p.given := by
  simp only [given, modifyConstraint, Problem.mk.injEq, true_and]
  apply Array.ext
  · simp
  · intro i h1 h2
    by_cases h : c = i <;> simp [Array.getElem_modify, h, hf]

theorem given_modifyAll {f : Variable α → Variable α} (hf : ∀ x, (f x).given = x.given)
    (vs : List VarId) : (vs.foldl (fun p v => p.modifyVariable v f) p).given = p.given := by
  induction vs generalizing p with
  | nil => rfl
  | cons v vs ih => rw [List.foldl_cons, ih, given_modifyVariable hf]

end Problem

end Spacing
