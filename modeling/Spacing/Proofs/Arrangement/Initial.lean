import Spacing.Proofs.Arrangement.Intact

namespace Spacing.Arrangement

variable {α : Type} [Scalar α] {p : Problem α} {b : BlockId} {v : VarId} {c : ConId}

theorem variableAt_ofProblem (hv : v < p.vars.size) : (ofProblem p).problem.variableAt v =
    { p.variableAt v with offset := Scalar.zero, block := v } := by
  simp [ofProblem, Problem.variableAt, hv]

theorem constraintAt_ofProblem : (ofProblem p).problem.constraintAt c =
    { p.constraintAt c with active := false, multiplier := Scalar.zero } :=
  Problem.constraintAt_map rfl _

theorem given_ofProblem : (ofProblem p).problem.given = p.given := by
  simp only [ofProblem, Problem.given, Problem.mk.injEq]
  constructor
  · apply Array.ext
    · simp
    · intro i h1 h2
      simp [Variable.given]
  · simp [Constraint.given, Function.comp_def]

theorem active_ofProblem : (ofProblem p).problem.active = ∅ := by
  ext c
  simp [Problem.mem_active, constraintAt_ofProblem]

theorem blockOf_ofProblem (hv : v < p.vars.size) : (ofProblem p).blockOf v = v := by
  rw [blockOf, Problem.blockOf, variableAt_ofProblem hv]

theorem block?_ofProblem : (ofProblem p).block? b = if b < p.vars.size then
    some ((Block.place (ofProblem p).problem [b] Scalar.zero).settle (ofProblem p).problem)
    else none := by
  by_cases hb : b < p.vars.size
  · simp [block?, ofProblem, hb]
  · simp [block?, ofProblem, hb]

theorem block?_ofProblem_some {B : Block α} (h : (ofProblem p).block? b = some B) :
    b < p.vars.size ∧
      B = (Block.place (ofProblem p).problem [b] Scalar.zero).settle (ofProblem p).problem := by
  rw [block?_ofProblem] at h
  split at h
  · exact ⟨‹_›, (Option.some.inj h).symm⟩
  · cases h

theorem intact_ofProblem (hp : p.Consistent) : (ofProblem p).Intact := by
  have hn : (ofProblem p).problem.vars.size = p.vars.size := Problem.size_vars_eq given_ofProblem
  constructor
  case consistent => exact hp.of_given given_ofProblem
  case nodup =>
    intro b B hB
    obtain ⟨-, rfl⟩ := block?_ofProblem_some hB
    exact List.nodup_singleton b
  case mem_iff =>
    intro b B hB v
    obtain ⟨hb, rfl⟩ := block?_ofProblem_some hB
    rw [hn]
    refine List.mem_singleton.trans ⟨?_, fun ⟨hv, hvb⟩ => (blockOf_ofProblem hv).symm.trans hvb⟩
    rintro rfl
    exact ⟨hb, blockOf_ofProblem hb⟩
  case standing =>
    intro v hv
    rw [hn] at hv
    rw [blockOf_ofProblem hv, block?_ofProblem, if_pos hv]
    rfl
  case nonempty =>
    intro b B hB
    obtain ⟨-, rfl⟩ := block?_ofProblem_some hB
    exact List.cons_ne_nil b []
  case live =>
    intro b B hB
    obtain ⟨hb, -⟩ := block?_ofProblem_some hB
    exact List.mem_range.mpr (hn.symm ▸ hb)
  case live_nodup => exact List.nodup_range
  case live_lt =>
    intro b hb
    have hlt : b < (ofProblem p).problem.vars.size := List.mem_range.mp hb
    simpa [ofProblem] using hlt
  case together =>
    intro c hc
    rw [active_ofProblem] at hc
    exact hc.elim
  case linked =>
    intro u hu v hv huv
    rw [hn] at hu hv
    rw [blockOf_ofProblem hu, blockOf_ofProblem hv] at huv
    exact huv ▸ .refl
  case forest =>
    intro c hc
    rw [active_ofProblem] at hc
    exact hc.elim
  case covers =>
    intro b B hB side cs hcs
    obtain ⟨-, rfl⟩ := block?_ofProblem_some hB
    cases side <;> cases hcs

end Spacing.Arrangement
