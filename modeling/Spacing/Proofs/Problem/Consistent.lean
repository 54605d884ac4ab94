import Mathlib.Data.List.Nodup
import Spacing.Proofs.Problem.Given
import Spacing.Proofs.Result

namespace Spacing.Problem

variable {α : Type} [Scalar α] {p q : Problem α}

structure Consistent (p : Problem α) : Prop where
  left_lt : ∀ c < p.constraints.size, (p.constraintAt c).left < p.vars.size
  right_lt : ∀ c < p.constraints.size, (p.constraintAt c).right < p.vars.size
  mem_outs : ∀ v c, c ∈ (p.variableAt v).outs ↔ c < p.constraints.size ∧ (p.constraintAt c).left = v
  mem_ins : ∀ v c, c ∈ (p.variableAt v).ins ↔ c < p.constraints.size ∧ (p.constraintAt c).right = v
  nodup_outs : ∀ v, (p.variableAt v).outs.Nodup
  nodup_ins : ∀ v, (p.variableAt v).ins.Nodup

theorem Consistent.leftEnd_lt (hp : p.Consistent) {c : ConId} (hc : c < p.constraints.size) :
    p.edges.left c < p.vars.size :=
  hp.left_lt c hc

theorem Consistent.rightEnd_lt (hp : p.Consistent) {c : ConId} (hc : c < p.constraints.size) :
    p.edges.right c < p.vars.size :=
  hp.right_lt c hc

def Weighted (p : Problem α) : Prop :=
  ∀ v < p.vars.size, Scalar.zero < (p.variableAt v).weight

theorem Consistent.of_given (h : q.given = p.given) (hp : p.Consistent) : q.Consistent where
  left_lt c hc := by
    rw [left_eq h, size_vars_eq h]
    exact hp.left_lt c (by rwa [← size_constraints_eq h])
  right_lt c hc := by
    rw [right_eq h, size_vars_eq h]
    exact hp.right_lt c (by rwa [← size_constraints_eq h])
  mem_outs v c := by rw [outs_eq h, left_eq h, size_constraints_eq h, hp.mem_outs]
  mem_ins v c := by rw [ins_eq h, right_eq h, size_constraints_eq h, hp.mem_ins]
  nodup_outs v := by rw [outs_eq h]; exact hp.nodup_outs v
  nodup_ins v := by rw [ins_eq h]; exact hp.nodup_ins v

theorem Weighted.of_given (h : q.given = p.given) (hp : p.Weighted) : q.Weighted := by
  intro v hv
  rw [weight_eq h]
  exact hp v (by rwa [← size_vars_eq h])

omit [Scalar α] in
theorem mem_append_ite {xs : List ConId} {b : Prop} [Decidable b] {c d : ConId} :
    c ∈ xs ++ (if b then [d] else []) ↔ c ∈ xs ∨ (b ∧ c = d) := by
  by_cases h : b <;> simp [h]

omit [Scalar α] in
theorem nodup_append_ite {xs : List ConId} (h : xs.Nodup) {d : ConId} (hd : d ∉ xs) (b : Prop)
    [Decidable b] : (xs ++ if b then [d] else []).Nodup := by
  by_cases hb : b
  · simpa [hb] using h.concat hd
  · simpa [hb] using h

theorem consistent_empty : (empty : Problem α).Consistent := by
  constructor <;> intros <;> simp_all [empty, variableAt, constraintAt]

theorem weighted_empty : (empty : Problem α).Weighted := by
  intro v hv
  simp [empty] at hv

theorem variableAt_insertVariable (id : Nat) (desired weight : α) (v : VarId) :
    (p.insertVariable id desired weight).variableAt v =
      if v = p.vars.size then ⟨id, desired, weight, desired, Scalar.zero, 0, [], []⟩
      else p.variableAt v := by
  simp only [variableAt, insertVariable, Array.getD_eq_getD_getElem?, Array.getElem?_push]
  split <;> simp

theorem Consistent.insertVariable (hp : p.Consistent) (id : Nat) (desired weight : α) :
    (p.insertVariable id desired weight).Consistent := by
  have hk (c : ConId) : (p.insertVariable id desired weight).constraintAt c = p.constraintAt c := rfl
  have hm : (p.insertVariable id desired weight).constraints.size = p.constraints.size := rfl
  have hn : (p.insertVariable id desired weight).vars.size = p.vars.size + 1 := by
    simp [Problem.insertVariable]
  -- The new variable has no constraints, as every end is an older one.
  have hne (c : ConId) (hc : c < p.constraints.size) :
      (p.constraintAt c).left ≠ p.vars.size ∧ (p.constraintAt c).right ≠ p.vars.size :=
    ⟨(hp.left_lt c hc).ne, (hp.right_lt c hc).ne⟩
  constructor
  · intro c hc
    rw [hk, hn]
    exact Nat.lt_succ_of_lt (hp.left_lt c hc)
  · intro c hc
    rw [hk, hn]
    exact Nat.lt_succ_of_lt (hp.right_lt c hc)
  · intro v c
    rw [hk, hm, variableAt_insertVariable]
    split
    · rename_i hv
      simpa [hv] using fun hc => (hne c hc).1
    · exact hp.mem_outs v c
  · intro v c
    rw [hk, hm, variableAt_insertVariable]
    split
    · rename_i hv
      simpa [hv] using fun hc => (hne c hc).2
    · exact hp.mem_ins v c
  · intro v
    rw [variableAt_insertVariable]
    split
    · exact List.nodup_nil
    · exact hp.nodup_outs v
  · intro v
    rw [variableAt_insertVariable]
    split
    · exact List.nodup_nil
    · exact hp.nodup_ins v

section InsertConstraint

variable (left right : VarId) (gap : α) (equality : Bool)

theorem constraintAt_insertConstraint (c : ConId) :
    (p.insertConstraint left right gap equality).constraintAt c =
      if c = p.constraints.size then ⟨left, right, gap, equality, false, Scalar.zero⟩
      else p.constraintAt c := by
  simp only [constraintAt, insertConstraint, modifyVariable, Array.getD_eq_getD_getElem?,
    Array.getElem?_push]
  split <;> simp

theorem variableAt_insertConstraint {left right : VarId} (hl : left < p.vars.size)
    (hr : right < p.vars.size) (v : VarId) :
    (p.insertConstraint left right gap equality).variableAt v = { p.variableAt v with
      outs := (p.variableAt v).outs ++ if v = left then [p.constraints.size] else []
      ins := (p.variableAt v).ins ++ if v = right then [p.constraints.size] else [] } := by
  let q : Problem α := { p with
    constraints := p.constraints.push ⟨left, right, gap, equality, false, Scalar.zero⟩ }
  have hq : q.variableAt v = p.variableAt v := rfl
  have hl : left < q.vars.size := hl
  have hr : right < (q.modifyVariable left fun x =>
      { x with outs := x.outs ++ [p.constraints.size] }).vars.size := by simpa using hr
  refine (variableAt_modifyVariable _ hr).trans ?_
  rw [variableAt_modifyVariable _ hl, hq]
  split_ifs <;> simp

theorem size_insertConstraint :
    (p.insertConstraint left right gap equality).constraints.size = p.constraints.size + 1 := by
  simp [insertConstraint, modifyVariable]

end InsertConstraint

theorem Consistent.insertConstraint (hp : p.Consistent) {left right : VarId}
    (hl : left < p.vars.size) (hr : right < p.vars.size) (gap : α) (equality : Bool) :
    (p.insertConstraint left right gap equality).Consistent := by
  have hn : (p.insertConstraint left right gap equality).vars.size = p.vars.size := by
    simp [Problem.insertConstraint]
  constructor
  · intro c hc
    rw [constraintAt_insertConstraint, hn]
    rw [size_insertConstraint] at hc
    split
    · exact hl
    · rename_i hne
      exact hp.left_lt c (Nat.lt_of_le_of_ne (Nat.le_of_lt_succ hc) hne)
  · intro c hc
    rw [constraintAt_insertConstraint, hn]
    rw [size_insertConstraint] at hc
    split
    · exact hr
    · rename_i hne
      exact hp.right_lt c (Nat.lt_of_le_of_ne (Nat.le_of_lt_succ hc) hne)
  · intro v c
    rw [constraintAt_insertConstraint, size_insertConstraint, variableAt_insertConstraint _ _ hl hr]
    simp only [mem_append_ite, hp.mem_outs]
    grind
  · intro v c
    rw [constraintAt_insertConstraint, size_insertConstraint, variableAt_insertConstraint _ _ hl hr]
    simp only [mem_append_ite, hp.mem_ins]
    grind
  · intro v
    rw [variableAt_insertConstraint _ _ hl hr]
    exact nodup_append_ite (hp.nodup_outs v) (by simp [hp.mem_outs]) _
  · intro v
    rw [variableAt_insertConstraint _ _ hl hr]
    exact nodup_append_ite (hp.nodup_ins v) (by simp [hp.mem_ins]) _

theorem constraintAt_modifyEach (f : Constraint α → Constraint α) {cs : List ConId} (hcs : cs.Nodup)
    (hlt : ∀ c ∈ cs, c < p.constraints.size) (c : ConId) :
    (cs.foldl (fun p c => p.modifyConstraint c f) p).constraintAt c =
      if c ∈ cs then f (p.constraintAt c) else p.constraintAt c := by
  induction cs generalizing p with
  | nil => simp
  | cons d cs ih =>
    obtain ⟨hd, hcs⟩ := List.nodup_cons.mp hcs
    have hlt' : ∀ c ∈ cs, c < (p.modifyConstraint d f).constraints.size := by
      simpa using fun c hc => hlt c (List.mem_cons_of_mem _ hc)
    rw [List.foldl_cons, ih hcs hlt', constraintAt_modifyConstraint f (hlt d List.mem_cons_self)]
    by_cases h : c = d
    · subst h
      simp [hd]
    · simp [h]

omit [Scalar α] in
theorem size_modifyEach (f : Constraint α → Constraint α) (cs : List ConId) :
    (cs.foldl (fun p c => p.modifyConstraint c f) p).constraints.size = p.constraints.size := by
  induction cs generalizing p with
  | nil => rfl
  | cons d cs ih => rw [List.foldl_cons, ih, size_modifyConstraint]

omit [Scalar α] in
theorem vars_modifyEach (f : Constraint α → Constraint α) (cs : List ConId) :
    (cs.foldl (fun p c => p.modifyConstraint c f) p).vars = p.vars := by
  induction cs generalizing p with
  | nil => rfl
  | cons d cs ih => exact ih.trans rfl

section Redirect

variable {u v : VarId} (hp : p.Consistent) (hu : u < p.vars.size) (hv : v < p.vars.size) (shift : α)
include hp

theorem constraintAt_redirectIns (c : ConId) :
    (p.redirectIns u v shift).constraintAt c = if c ∈ (p.variableAt u).ins then
      { p.constraintAt c with right := v, gap := (p.constraintAt c).gap + shift }
      else p.constraintAt c := by
  rw [redirectIns, constraintAt_modifyVariable, constraintAt_modifyEach _ (hp.nodup_ins u)]
  · rfl
  · exact fun c hc => ((hp.mem_ins u c).mp hc).1

theorem constraintAt_redirectOuts (c : ConId) :
    (p.redirectOuts u v shift).constraintAt c = if c ∈ (p.variableAt u).outs then
      { p.constraintAt c with left := v, gap := (p.constraintAt c).gap + shift }
      else p.constraintAt c := by
  rw [redirectOuts, constraintAt_modifyVariable, constraintAt_modifyEach _ (hp.nodup_outs u)]
  · rfl
  · exact fun c hc => ((hp.mem_outs u c).mp hc).1

omit hp
include hu hv

theorem variableAt_redirectIns (w : VarId) :
    (p.redirectIns u v shift).variableAt w = { p.variableAt w with
      ins := (if w = u then [] else (p.variableAt w).ins) ++
        if w = v then (p.variableAt u).ins else [] } := by
  have hfold (q : Problem α) (cs : List ConId) (f : Constraint α → Constraint α) :
      (cs.foldl (fun p c => p.modifyConstraint c f) q).variableAt w = q.variableAt w := by
    rw [variableAt, vars_modifyEach, variableAt]
  rw [redirectIns, variableAt_modifyVariable _ (by rw [vars_modifyEach]; simpa using hv), hfold,
    variableAt_modifyVariable _ hu]
  split_ifs <;> simp

theorem variableAt_redirectOuts (w : VarId) :
    (p.redirectOuts u v shift).variableAt w = { p.variableAt w with
      outs := (if w = u then [] else (p.variableAt w).outs) ++
        if w = v then (p.variableAt u).outs else [] } := by
  have hfold (q : Problem α) (cs : List ConId) (f : Constraint α → Constraint α) :
      (cs.foldl (fun p c => p.modifyConstraint c f) q).variableAt w = q.variableAt w := by
    rw [variableAt, vars_modifyEach, variableAt]
  rw [redirectOuts, variableAt_modifyVariable _ (by rw [vars_modifyEach]; simpa using hv), hfold,
    variableAt_modifyVariable _ hu]
  split_ifs <;> simp

end Redirect

theorem size_redirectIns (u v : VarId) (shift : α) :
    (p.redirectIns u v shift).vars.size = p.vars.size ∧
      (p.redirectIns u v shift).constraints.size = p.constraints.size := by
  refine ⟨?_, ?_⟩
  · rw [redirectIns, size_modifyVariable, vars_modifyEach, size_modifyVariable]
  · exact (size_modifyEach _ _).trans rfl

theorem size_redirectOuts (u v : VarId) (shift : α) :
    (p.redirectOuts u v shift).vars.size = p.vars.size ∧
      (p.redirectOuts u v shift).constraints.size = p.constraints.size := by
  refine ⟨?_, ?_⟩
  · rw [redirectOuts, size_modifyVariable, vars_modifyEach, size_modifyVariable]
  · exact (size_modifyEach _ _).trans rfl

omit [Scalar α] in
theorem mem_handedOver {u v w : VarId} {end' : ConId → VarId} {m : Nat} {lists : VarId → List ConId}
    (h : ∀ w c, c ∈ lists w ↔ c < m ∧ end' c = w) (c : ConId) :
    c ∈ (if w = u then [] else lists w) ++ (if w = v then lists u else []) ↔
      c < m ∧ (if c ∈ lists u then v else end' c) = w := by
  simp only [List.mem_append]
  split_ifs <;> grind

omit [Scalar α] in
theorem nodup_handedOver {u v w : VarId} {lists : VarId → List ConId}
    (h : ∀ w, (lists w).Nodup) (hdisj : ∀ c, c ∈ lists u → c ∈ lists v → u = v) :
    ((if w = u then [] else lists w) ++ (if w = v then lists u else [])).Nodup := by
  split_ifs with hu hv hv
  · simpa using h u
  · simp
  · subst hv
    exact List.nodup_append.mpr
      ⟨h w, h u, fun a ha b hb hab => hu (hdisj a (hab ▸ hb) ha).symm⟩
  · simpa using h w

theorem Consistent.redirectIns (hp : p.Consistent) {u v : VarId} (hu : u < p.vars.size)
    (hv : v < p.vars.size) (shift : α) : (p.redirectIns u v shift).Consistent := by
  obtain ⟨hn, hm⟩ := size_redirectIns (p := p) u v shift
  have hleft (c : ConId) : ((p.redirectIns u v shift).constraintAt c).left = (p.constraintAt c).left := by
    rw [constraintAt_redirectIns hp]
    split <;> rfl
  have hright (c : ConId) : ((p.redirectIns u v shift).constraintAt c).right =
      if c ∈ (p.variableAt u).ins then v else (p.constraintAt c).right := by
    rw [constraintAt_redirectIns hp]
    split <;> rfl
  constructor
  · intro c hc
    rw [hleft, hn]
    exact hp.left_lt c (hm ▸ hc)
  · intro c hc
    rw [hright, hn]
    split
    · exact hv
    · exact hp.right_lt c (hm ▸ hc)
  · intro w c
    rw [hleft, hm, variableAt_redirectIns hu hv]
    exact hp.mem_outs w c
  · intro w c
    rw [hright, hm, variableAt_redirectIns hu hv]
    exact mem_handedOver hp.mem_ins c
  · intro w
    rw [variableAt_redirectIns hu hv]
    exact hp.nodup_outs w
  · intro w
    rw [variableAt_redirectIns hu hv]
    refine nodup_handedOver hp.nodup_ins fun c hcu hcv => ?_
    exact ((hp.mem_ins u c).mp hcu).2.symm.trans ((hp.mem_ins v c).mp hcv).2

theorem Consistent.redirectOuts (hp : p.Consistent) {u v : VarId} (hu : u < p.vars.size)
    (hv : v < p.vars.size) (shift : α) : (p.redirectOuts u v shift).Consistent := by
  obtain ⟨hn, hm⟩ := size_redirectOuts (p := p) u v shift
  have hright (c : ConId) :
      ((p.redirectOuts u v shift).constraintAt c).right = (p.constraintAt c).right := by
    rw [constraintAt_redirectOuts hp]
    split <;> rfl
  have hleft (c : ConId) : ((p.redirectOuts u v shift).constraintAt c).left =
      if c ∈ (p.variableAt u).outs then v else (p.constraintAt c).left := by
    rw [constraintAt_redirectOuts hp]
    split <;> rfl
  constructor
  · intro c hc
    rw [hleft, hn]
    split
    · exact hv
    · exact hp.left_lt c (hm ▸ hc)
  · intro c hc
    rw [hright, hn]
    exact hp.right_lt c (hm ▸ hc)
  · intro w c
    rw [hleft, hm, variableAt_redirectOuts hu hv]
    exact mem_handedOver hp.mem_outs c
  · intro w c
    rw [hright, hm, variableAt_redirectOuts hu hv]
    exact hp.mem_ins w c
  · intro w
    rw [variableAt_redirectOuts hu hv]
    refine nodup_handedOver hp.nodup_outs fun c hcu hcv => ?_
    exact ((hp.mem_outs u c).mp hcu).2.symm.trans ((hp.mem_outs v c).mp hcv).2
  · intro w
    rw [variableAt_redirectOuts hu hv]
    exact hp.nodup_ins w

theorem variableAt_setDesired {v : VarId} (hv : v < p.vars.size) (desired : α) (w : VarId) :
    (p.setDesired v desired).variableAt w =
      if w = v then { p.variableAt w with desired } else p.variableAt w :=
  variableAt_modifyVariable _ hv

theorem constraintAt_setGap {c : ConId} (hc : c < p.constraints.size) (gap : α) (d : ConId) :
    (p.setGap c gap).constraintAt d =
      if d = c then { p.constraintAt d with gap } else p.constraintAt d :=
  constraintAt_modifyConstraint _ hc

theorem Consistent.setDesired (hp : p.Consistent) {v : VarId} (hv : v < p.vars.size) (desired : α) :
    (p.setDesired v desired).Consistent := by
  have hins (w : VarId) : ((p.setDesired v desired).variableAt w).ins = (p.variableAt w).ins := by
    rw [variableAt_setDesired hv]
    split <;> rfl
  have houts (w : VarId) : ((p.setDesired v desired).variableAt w).outs = (p.variableAt w).outs := by
    rw [variableAt_setDesired hv]
    split <;> rfl
  have hn : (p.setDesired v desired).vars.size = p.vars.size := size_modifyVariable _
  constructor
  · exact fun c hc => hn ▸ hp.left_lt c hc
  · exact fun c hc => hn ▸ hp.right_lt c hc
  · exact fun w c => by rw [houts]; exact hp.mem_outs w c
  · exact fun w c => by rw [hins]; exact hp.mem_ins w c
  · exact fun w => by rw [houts]; exact hp.nodup_outs w
  · exact fun w => by rw [hins]; exact hp.nodup_ins w

theorem Consistent.setGap (hp : p.Consistent) {c : ConId} (hc : c < p.constraints.size) (gap : α) :
    (p.setGap c gap).Consistent := by
  have hleft (d : ConId) : ((p.setGap c gap).constraintAt d).left = (p.constraintAt d).left := by
    rw [constraintAt_setGap hc]
    split <;> rfl
  have hright (d : ConId) : ((p.setGap c gap).constraintAt d).right = (p.constraintAt d).right := by
    rw [constraintAt_setGap hc]
    split <;> rfl
  have hm : (p.setGap c gap).constraints.size = p.constraints.size := size_modifyConstraint _
  constructor
  · exact fun d hd => by rw [hleft]; exact hp.left_lt d (hm ▸ hd)
  · exact fun d hd => by rw [hright]; exact hp.right_lt d (hm ▸ hd)
  · exact fun w d => by rw [hleft, hm]; exact hp.mem_outs w d
  · exact fun w d => by rw [hright, hm]; exact hp.mem_ins w d
  · exact hp.nodup_outs
  · exact hp.nodup_ins

omit [Scalar α] in
theorem lt_of_requireVariable {v : VarId} {x : Unit} (h : p.requireVariable v = .ok x) :
    v < p.vars.size := by
  unfold requireVariable at h
  split at h
  · assumption
  · cases h

omit [Scalar α] in
theorem lt_of_requireConstraint {c : ConId} {x : Unit} (h : p.requireConstraint c = .ok x) :
    c < p.constraints.size := by
  unfold requireConstraint at h
  split at h
  · assumption
  · cases h

theorem edit_setDesired {v : VarId} (hv : v < p.vars.size) (desired : α) :
    p.edit (.setDesired v desired) = .ok (p.setDesired v desired) := by
  simp [edit, requireVariable, hv, bind, Except.bind, pure, Except.pure]

theorem edit_setGap {c : ConId} (hc : c < p.constraints.size) (gap : α) :
    p.edit (.setGap c gap) = .ok (p.setGap c gap) := by
  simp [edit, requireConstraint, hc, bind, Except.bind, pure, Except.pure]

theorem edit_cases {e : Edit α} (h : p.edit e = .ok q) :
    (∃ id desired weight, e = .addVariable id desired weight ∧ Scalar.zero < weight ∧
      q = p.insertVariable id desired weight) ∨
    (∃ left right gap equality, e = .addConstraint left right gap equality ∧
      left < p.vars.size ∧ right < p.vars.size ∧ q = p.insertConstraint left right gap equality) ∨
    (∃ v desired, e = .setDesired v desired ∧ v < p.vars.size ∧ q = p.setDesired v desired) ∨
    (∃ c gap, e = .setGap c gap ∧ c < p.constraints.size ∧ q = p.setGap c gap) ∨
    (∃ u v shift, e = .redirectIns u v shift ∧ u < p.vars.size ∧ v < p.vars.size ∧
      q = p.redirectIns u v shift) ∨
    (∃ u v shift, e = .redirectOuts u v shift ∧ u < p.vars.size ∧ v < p.vars.size ∧
      q = p.redirectOuts u v shift) := by
  cases e with
  | addVariable id desired weight =>
    simp only [edit] at h
    split at h
    · rename_i hw
      cases h
      exact .inl ⟨id, desired, weight, rfl, hw, rfl⟩
    · cases h
  | addConstraint left right gap equality =>
    obtain ⟨_, hl, h⟩ := bind_eq_ok.mp h
    obtain ⟨_, hr, h⟩ := bind_eq_ok.mp h
    cases h
    exact .inr (.inl ⟨left, right, gap, equality, rfl, lt_of_requireVariable hl,
      lt_of_requireVariable hr, rfl⟩)
  | setDesired v desired =>
    obtain ⟨_, hv, h⟩ := bind_eq_ok.mp h
    cases h
    exact .inr (.inr (.inl ⟨v, desired, rfl, lt_of_requireVariable hv, rfl⟩))
  | setGap c gap =>
    obtain ⟨_, hc, h⟩ := bind_eq_ok.mp h
    cases h
    exact .inr (.inr (.inr (.inl ⟨c, gap, rfl, lt_of_requireConstraint hc, rfl⟩)))
  | redirectIns u v shift =>
    obtain ⟨_, hu, h⟩ := bind_eq_ok.mp h
    obtain ⟨_, hv, h⟩ := bind_eq_ok.mp h
    cases h
    exact .inr (.inr (.inr (.inr (.inl ⟨u, v, shift, rfl, lt_of_requireVariable hu,
      lt_of_requireVariable hv, rfl⟩))))
  | redirectOuts u v shift =>
    obtain ⟨_, hu, h⟩ := bind_eq_ok.mp h
    obtain ⟨_, hv, h⟩ := bind_eq_ok.mp h
    cases h
    exact .inr (.inr (.inr (.inr (.inr ⟨u, v, shift, rfl, lt_of_requireVariable hu,
      lt_of_requireVariable hv, rfl⟩))))

theorem Consistent.edit (hp : p.Consistent) {e : Edit α} (h : p.edit e = .ok q) : q.Consistent := by
  rcases edit_cases h with ⟨id, desired, weight, -, -, rfl⟩ | ⟨l, r, gap, equality, -, hl, hr, rfl⟩ |
    ⟨v, desired, -, hv, rfl⟩ | ⟨c, gap, -, hc, rfl⟩ | ⟨u, v, shift, -, hu, hv, rfl⟩ |
    ⟨u, v, shift, -, hu, hv, rfl⟩
  · exact hp.insertVariable id desired weight
  · exact hp.insertConstraint hl hr gap equality
  · exact hp.setDesired hv desired
  · exact hp.setGap hc gap
  · exact hp.redirectIns hu hv shift
  · exact hp.redirectOuts hu hv shift

theorem Weighted.of_weight_eq (hp : p.Weighted) (hn : q.vars.size = p.vars.size)
    (h : ∀ v, (q.variableAt v).weight = (p.variableAt v).weight) : q.Weighted := by
  intro v hv
  rw [h]
  exact hp v (hn ▸ hv)

theorem Weighted.setDesired (hp : p.Weighted) {v : VarId} (hv : v < p.vars.size) (desired : α) :
    (p.setDesired v desired).Weighted := by
  refine hp.of_weight_eq (size_modifyVariable _) fun w => ?_
  rw [variableAt_setDesired hv]
  split <;> rfl

theorem Weighted.edit (hp : p.Weighted) {e : Edit α} (h : p.edit e = .ok q) : q.Weighted := by
  rcases edit_cases h with ⟨id, desired, weight, -, hw, rfl⟩ | ⟨l, r, gap, equality, -, hl, hr, rfl⟩ |
    ⟨v, desired, -, hv, rfl⟩ | ⟨c, gap, -, hc, rfl⟩ | ⟨u, v, shift, -, hu, hv, rfl⟩ |
    ⟨u, v, shift, -, hu, hv, rfl⟩
  · intro v hv
    rw [variableAt_insertVariable]
    split
    · exact hw
    · rename_i hne
      have : v < p.vars.size + 1 := by simpa [insertVariable] using hv
      exact hp v (Nat.lt_of_le_of_ne (Nat.le_of_lt_succ this) hne)
  · refine hp.of_weight_eq (by simp [insertConstraint]) fun w => ?_
    rw [variableAt_insertConstraint _ _ hl hr]
  · exact hp.setDesired hv desired
  · exact hp
  · refine hp.of_weight_eq (size_redirectIns u v shift).1 fun w => ?_
    rw [variableAt_redirectIns hu hv]
  · refine hp.of_weight_eq (size_redirectOuts u v shift).1 fun w => ?_
    rw [variableAt_redirectOuts hu hv]

end Spacing.Problem
