import Spacing.Proofs.Arrangement.Fusion
import Spacing.Proofs.Exact.Push

namespace Spacing

namespace Arrangement

variable {a a' a'' : Arrangement Rat} {b t r : BlockId} {s B : Block Rat} {c : ConId} {u v : VarId}
  {shift : Rat} {side : Side}

def Rigid (a a' : Arrangement Rat) : Prop :=
  ∀ u < a.problem.vars.size, ∀ v < a.problem.vars.size, a.blockOf u = a.blockOf v →
    a'.blockOf u = a'.blockOf v ∧ a'.position u - a'.position v = a.position u - a.position v

theorem position_sub (huv : a.blockOf u = a.blockOf v) : a.position u - a.position v =
    (a.problem.variableAt u).offset - (a.problem.variableAt v).offset := by
  rw [position_exact, position_exact, huv]
  ring

theorem Rigid.merged (h : a.Rigid a') (ha' : a'.Intact) (hg : a'.problem.given = a.problem.given)
    (hm : Merged a' a'' c t r s B shift) : a.Rigid a'' := by
  intro u hu v hv huv
  obtain ⟨hsame, hkept⟩ := h u hu v hv huv
  have hsize := Problem.size_vars_eq hg
  rw [← hsize] at hu hv
  have hsame' := hm.blockOf_congr ha' hu hv hsame
  refine ⟨hsame', ?_⟩
  calc a''.position u - a''.position v
    _ = (a''.problem.variableAt u).offset - (a''.problem.variableAt v).offset := position_sub hsame'
    _ = (a'.problem.variableAt u).offset - (a'.problem.variableAt v).offset :=
      hm.offset_sub ha' hu hv hsame
    _ = a'.position u - a'.position v := (position_sub hsame).symm
    _ = a.position u - a.position v := hkept

theorem loopInvariant_rigid (a : Arrangement Rat) (side : Side) :
    LoopInvariant side fun a' _ => a'.problem.given = a.problem.given ∧ a.Rigid a' where
  collect := by
    intro a' t i _ ⟨hg, h⟩
    refine ⟨hg, fun u hu v hv huv => ?_⟩
    rw [position_collectBoundary, position_collectBoundary]
    exact h u hu v hv huv
  merge := by
    intro a' t c a'' t' ha' _ _ ⟨hg, h⟩ _ _ hm
    obtain ⟨r, s, B, shift, hmerged⟩ := merged_of_merge hm
    exact ⟨hmerged.given_eq.trans hg, h.merged ha' hg hmerged⟩

/-- Block `b` has merged towards `side` and is now in block `t`, which nothing crosses on that side but
inequalities that hold. -/
structure Cleared (a : Arrangement Rat) (side : Side) (b : BlockId) (a' : Arrangement Rat)
    (t : BlockId) : Prop where
  calm : ∀ c, a'.Crosses side t c → (a'.problem.constraintAt c).equality = false ∧ 0 ≤ a'.slack c
  fused : ∃ bs, b ∈ bs ∧ Fused a a' bs t ∧ ∀ v < a.problem.vars.size, a'.blockOf v = t ↔ a.blockOf v ∈ bs
  outside : ∀ v < a.problem.vars.size, a'.blockOf v ≠ t →
    a'.blockOf v = a.blockOf v ∧ a'.position v = a.position v
  rigid : a.Rigid a'
  informed : a'.Informed

theorem mergeTowards_clears (ha : a.Intact) (hb : (a.block? b).isSome) (side : Side) :
    Yields (a.mergeTowards side b) fun r => Cleared a side b r.1 r.2 := by
  have hrigid : a.Rigid a := fun u _ v _ huv => ⟨huv, rfl⟩
  refine (mergeTowards_yields ((loopInvariant_fused a side b).and (loopInvariant_rigid a side)) ha hb
    ⟨⟨[b], List.mem_singleton_self b, .refl hb⟩, rfl, hrigid⟩).mono ?_
  rintro ⟨a', t⟩ ⟨ha', ht, ⟨⟨bs, hbs, hfused⟩, -, hrigid⟩, hk, hn⟩
  have hiff (v : VarId) (hv : v < a.problem.vars.size) := hfused.blockOf_iff ha ha' hv
  constructor
  case calm => exact fun c hc => slack_of_nextMerge_none ha' ht hk hn hc
  case fused => exact ⟨bs, hbs, hfused, hiff⟩
  case outside =>
    intro v hv hvt
    have hout := (hiff v hv).not.mp hvt
    exact ⟨hfused.blockOf_eq hv hout, hfused.position_eq hv hout⟩
  case rigid => exact hrigid
  case informed => exact ha'.informed

end Arrangement

namespace Solver

open Arrangement

/-- Whatever operations a new solver performs, its blocks are informed of their boundaries, and each of
them that merges towards a side clears it. -/
theorem cleared_run {p : Problem Rat} (hp : p.Built) (mode : Mode) (options : Options Rat) (rounds : Nat)
    (ops : List (Operation Rat)) :
    YieldsUnless (Excused p ops) ((new p mode options).run rounds ops) fun r =>
      ∀ s, r.1.Leads s → s.arrangement.Informed ∧
        ∀ side b, (s.arrangement.block? b).isSome →
          Yields (s.arrangement.mergeTowards side b) fun q => Cleared s.arrangement side b q.1 q.2 := by
  apply (leads_run hp mode options rounds ops).mono fun _ he => he
  intro r _ s hs
  exact ⟨hs.sound.intact.informed, fun side b hb => mergeTowards_clears hs.sound.intact hb side⟩

theorem cleared_run_fork : ∃ s replies,
    (new Problem.fork .batch Options.standard).run 0 [.setDesired 0 9] = .ok (s, replies) ∧
      Yields (s.arrangement.mergeTowards .left 1) fun q => Cleared s.arrangement .left 1 q.1 q.2 := by
  have hok : Yields ((new Problem.fork .batch Options.standard).run 0 [.setDesired 0 9]) fun r =>
      (r.1.arrangement.block? 1).isSome := by decide +kernel
  obtain ⟨⟨s, replies⟩, hrun, hb⟩ := hok
  have hs : s.Leads s := (leads_of_run Problem.built_fork.consistent hrun).sound.with .refl
  have h := (cleared_run Problem.built_fork .batch Options.standard 0 [.setDesired 0 9]).of_ok hrun s hs
  exact ⟨s, replies, hrun, h.2 .left 1 hb⟩

end Solver

end Spacing
