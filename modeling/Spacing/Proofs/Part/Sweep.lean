import Spacing.Proofs.Part.Order
import Spacing.Proofs.Part.Split
import Spacing.Proofs.Solver.Run

namespace Spacing.Arrangement

variable {α : Type} [Scalar α] {e : Renaming} {a a' b : Arrangement α} {p q : Problem α} {v : VarId}

theorem home_ofProblem (hv : v < p.vars.size) : (ofProblem p).home v =
    (Block.place (ofProblem p).problem [v] Scalar.zero).settle (ofProblem p).problem := by
  have hblock : (ofProblem p).block? v =
      some ((Block.place (ofProblem p).problem [v] Scalar.zero).settle (ofProblem p).problem) := by
    rw [block?_ofProblem, if_pos hv]
  exact home_eq (blockOf_ofProblem hv) hblock

theorem roots_ofProblem (p : Problem α) : (ofProblem p).roots = List.range p.vars.size := by
  have hlive : (ofProblem p).live = List.range p.vars.size := by
    simp [ofProblem, Problem.variableIds]
  have hids : (ofProblem p).blockIds = List.range p.vars.size := by
    rw [blockIds, hlive, List.filter_eq_self]
    intro i hi
    rw [block?_ofProblem, if_pos (List.mem_range.mp hi)]
    rfl
  rw [roots, hids]
  calc (List.range p.vars.size).filterMap (fun i => ((ofProblem p).blockAt i).members.head?)
    _ = (List.range p.vars.size).filterMap some := by
      apply List.filterMap_congr
      intro i hi
      rw [blockAt, block?_ofProblem, if_pos (List.mem_range.mp hi)]
      rfl
    _ = List.range p.vars.size := List.filterMap_some

theorem mirrors_ofProblem (h : p.Part e q) (hp : p.Consistent) (hq : q.Consistent) :
    Mirrors e q (ofProblem p) (ofProblem q) := by
  have hpart : (ofProblem p).problem.Part e (ofProblem q).problem :=
    h.given given_ofProblem given_ofProblem
  have hn : (ofProblem q).problem.vars.size = q.vars.size := Problem.size_vars_eq given_ofProblem
  have hoffset (v : VarId) (hv : v < q.vars.size) :
      ((ofProblem p).problem.variableAt (e.var v)).offset =
        ((ofProblem q).problem.variableAt v).offset := by
    rw [variableAt_ofProblem (h.var_lt v hv), variableAt_ofProblem hv]
  constructor
  case intact => exact intact_ofProblem hp
  case intact' => exact intact_ofProblem hq
  case charted => exact charted_ofProblem p
  case charted' => exact charted_ofProblem q
  case part => exact h.given given_ofProblem rfl
  case given_eq => exact given_ofProblem
  case offset_eq => exact hoffset
  case active_iff =>
    intro c _
    rw [active_ofProblem, active_ofProblem]
    exact Iff.rfl
  case home_eq =>
    intro v hv
    have hweight (u : VarId) (hu : u ∈ [v]) : ((ofProblem p).problem.variableAt (e.var u)).weight =
        ((ofProblem q).problem.variableAt u).weight := by
      obtain rfl := List.mem_singleton.mp hu
      exact hpart.weight_eq u (hn.symm ▸ hv)
    have hplace : Block.place (ofProblem p).problem [e.var v] Scalar.zero =
        (Block.place (ofProblem q).problem [v] Scalar.zero).renamed e.var :=
      place_renamed Scalar.zero hweight
    rw [home_ofProblem (h.var_lt v hv), home_ofProblem hv, hplace]
    apply settle_renamed
    intro u hu
    obtain rfl := List.mem_singleton.mp hu
    exact ⟨hpart.desired_eq u (hn.symm ▸ hv), hoffset u hv, hpart.weight_eq u (hn.symm ▸ hv)⟩
  case roots_eq =>
    rw [roots_ofProblem, roots_ofProblem]
    exact Renaming.filter_reaches h.var_lt

theorem mergeInOrder_cons {i : BlockId} {vs : List VarId} (hb : (a.block? (a.blockOf v)).isSome)
    (hm : a.mergeTowards .left (a.blockOf v) = .ok (a', i)) :
    a.mergeInOrder (v :: vs) = a'.mergeInOrder vs := by
  simp only [mergeInOrder, List.foldlM_cons, if_pos hb, hm]
  rfl

theorem Mirrors.mergeInOrder (h : Mirrors e q a b) {ws vs : List VarId}
    (hw : ∀ w ∈ ws, w < a.problem.vars.size) (hv : ws.filter (e.Reaches q.vars.size) = vs.map e.var) :
    ∃ a' b', a.mergeInOrder ws = .ok a' ∧ b.mergeInOrder vs = .ok b' ∧ Mirrors e q a' b' := by
  induction ws generalizing a b vs with
  | nil =>
    obtain rfl : vs = [] := by simpa using hv.symm
    exact ⟨a, b, rfl, rfl, h⟩
  | cons w ws ih =>
    simp only [List.mem_cons, forall_eq_or_imp] at hw
    have hstanding := h.intact.standing w hw.1
    have hsize {a' : Arrangement α} {i : BlockId}
        (hm : a.mergeTowards .left (a.blockOf w) = .ok (a', i)) :
        ∀ w ∈ ws, w < a'.problem.vars.size := by
      have hkeep := mergeTowards_yields (loopInvariant_given a.problem .left) h.intact hstanding rfl
      exact fun w hw' => Problem.size_vars_eq (hkeep.of_ok hm).2.2.1 ▸ hw.2 w hw'
    by_cases hreach : e.Reaches q.vars.size w
    · rw [List.filter_cons_of_pos (by simpa using hreach)] at hv
      obtain ⟨v, vs, rfl, rfl, hrest⟩ := List.map_eq_cons_iff.mp hv.symm
      have hlt := Renaming.reaches_var.mp hreach
      have hstanding' := h.intact'.standing v (h.var_lt' hlt)
      obtain ⟨a₁, i, b₁, j, hm, hm', h₁⟩ := h.mergeTowards hlt .left
      rw [mergeInOrder_cons hstanding hm, mergeInOrder_cons hstanding' hm']
      exact ih h₁ (hsize hm) hrest.symm
    · rw [List.filter_cons_of_neg (by simpa using hreach)] at hv
      have hne (v : VarId) (hv : v < q.vars.size) : a.blockOf (e.var v) ≠ a.blockOf w :=
        fun hb => hreach (h.reaches_of_blockOf hv hw.1 hb.symm)
      obtain ⟨⟨a₁, i⟩, hm, -, -, h₁, -⟩ :=
        mergeTowards_yields (loopInvariant_elsewhere e q b .left) h.intact hstanding ⟨h, hne⟩
      rw [mergeInOrder_cons hstanding hm]
      exact ih h₁.mirrors (hsize hm) hv

end Spacing.Arrangement
