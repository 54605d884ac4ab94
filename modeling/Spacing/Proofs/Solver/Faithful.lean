import Spacing.Proofs.Arrangement.Chronicle
import Spacing.Proofs.Solver.Structure

namespace Spacing

variable {α : Type} [Scalar α] {p : Problem α}

/-- The events of `a`, which began with a block for each variable of `p`, tell where it is now. -/
structure Arrangement.Faithful (p : Problem α) (a : Arrangement α) : Prop where
  active_iff : ∀ c, c ∈ a.problem.active ↔
    ∃ e, Event.latest c a.events = some e ∧ e.isMerge = true
  parts_eq : a.events.filterMap Event.parts? =
    (List.range (a.events.countP Event.isSplit)).map fun k =>
      (p.vars.size + 2 * k, p.vars.size + 2 * k + 1)
  mem_blocks : ∀ b, b ∈ (Picture.ofEvents p.edges p.vars.size a.events).blocks ↔ b ∈ a.blockIds
  mem_members : ∀ b ∈ a.blockIds, ∀ v,
    v ∈ (Picture.ofEvents p.edges p.vars.size a.events).members b ↔ v ∈ (a.blockAt b).members
  nodup : a.blockIds.Nodup
  length_eq : a.blockIds.length + a.events.countP Event.isMerge =
    p.vars.size + a.events.countP Event.isSplit
  told : ∀ es e rest, a.events = es ++ e :: rest → ∃ a₀, Arrangement.Steps (.ofProblem p) a₀ ∧
    Arrangement.Steps a₀ a ∧ a₀.events = es ++ [e] ∧ a₀.Confirms e

namespace Arrangement

variable {a a₁ a' : Arrangement α} {b far t : BlockId} {c f : ConId} {side : Side}

theorem events_ensureBoundary (a : Arrangement α) (side : Side) (b : BlockId) :
    (a.ensureBoundary side b).events = a.events := by
  rcases a.ensureBoundary_cases side b with ⟨he, -⟩ | he
  · rw [he]
  · rw [he]
    rfl

/-- The merge loop tells of the block that it merges towards a side and of the far one. -/
theorem Intact.events_mergeLoop (ha : a.Intact) (hb : (a.block? b).isSome)
    (hnext : (a.ensureBoundary side b).nextMerge side b = some c)
    (hfar : far = a.blockOf (a.problem.edges.endOn side c))
    (hm : ((a.ensureBoundary side b).ensureBoundary side far).merge c = .ok (a', t)) :
    a'.events = a.events ++ [.merged c t (if t = b then far else b)] := by
  have hcross := (ha.ensureBoundary.nextMerge_crosses (isSome_ensureBoundary hb)
    (known_ensureBoundary hb) hnext).1
  have hends := hcross.blocks
  have hnear : b = ((a.ensureBoundary side b).ensureBoundary side far).leftBlock c ∧
        far = ((a.ensureBoundary side b).ensureBoundary side far).rightBlock c ∨
      b = ((a.ensureBoundary side b).ensureBoundary side far).rightBlock c ∧
        far = ((a.ensureBoundary side b).ensureBoundary side far).leftBlock c := by
    simp only [leftBlock, rightBlock, blockOf, problem_ensureBoundary] at hends ⊢
    rcases hends with ⟨-, hright, hleft⟩ | ⟨-, hleft, hright⟩
    · exact .inr ⟨hright.symm, hfar.trans hleft.symm⟩
    · exact .inl ⟨hleft.symm, hfar.trans hright.symm⟩
  rw [events_merge_of_ends hm hnear, events_ensureBoundary, events_ensureBoundary]

/-- A split between the ends of a constraint inside a block tells of the halves, which are the next two
blocks, and the merge across the constraint tells of the halves again. -/
theorem Intact.events_exchange (ha : a.Intact) (hc : c < a.problem.constraints.size)
    (htogether : a.leftBlock c = a.rightBlock c)
    (hs : a.splitBetween (a.problem.constraintAt c).left (a.problem.constraintAt c).right =
      .ok (a₁, some f))
    (hm : a₁.merge c = .ok (a', t)) {l r : BlockId} (hl : l = a.blocks.size)
    (hr : r = a.blocks.size + 1) :
    a'.events = a.events ++ [.split f (a₁.problem.constraintAt f).multiplier l r,
      .merged c t (if t = l then r else l)] := by
  rcases splitBetween_cases ha (ha.consistent.left_lt c hc) (ha.consistent.right_lt c hc) htogether with
    hnone | ⟨a₀, g, a₂, left, right, B, L, R, ha₀, hsome, hg, -, -, hh, hL, hR⟩
  · rw [hs] at hnone
    cases hnone
  · rw [hs] at hsome
    cases hsome
    -- `a₀` is `a` with multipliers written, which records nothing and fills no slot.
    have hintact : a₀.Intact := ha₀ ▸ ha.writeMultipliers _
    have hevents : a₀.events = a.events := ha₀ ▸ rfl
    have hedges : a₁.problem.edges = a.problem.edges :=
      hh.edges_eq.trans (ha₀ ▸ Problem.edges_eq (given_writeMultipliers _))
    obtain rfl : left = l := hh.left_eq.trans (ha₀ ▸ hl.symm)
    obtain rfl : right = r := hh.right_eq.trans (ha₀ ▸ hr.symm)
    have hmultiplier : (a₁.problem.constraintAt f).multiplier = (a₀.problem.constraintAt f).multiplier := by
      rw [hh.constraintAt_eq, if_pos rfl]
    have hleft : a₁.leftBlock c = left := by
      rw [← hh.blockOf_left hintact hg hL]
      exact congrArg (fun g => a₁.blockOf (g.left c)) hedges
    have hright : a₁.rightBlock c = right := by
      rw [← hh.blockOf_right hintact hg hR]
      exact congrArg (fun g => a₁.blockOf (g.right c)) hedges
    rw [events_merge_of_ends hm (.inl ⟨hleft.symm, hright.symm⟩), events_push hh.journal_eq, hevents,
      hmultiplier, List.append_assoc]
    rfl

end Arrangement

namespace Solver

theorem Leads.faithful (hp : p.Consistent) {mode : Mode} {options : Options α} {s : Solver α}
    (h : (new p mode options).Leads s) : s.arrangement.Faithful p := by
  have hstart := Arrangement.intact_ofProblem hp
  have ha := h.sound.intact
  have hc := (Arrangement.chronicled_ofProblem p).steps hstart h.steps
  constructor
  · exact hc.active_iff
  · exact hc.parts_eq
  · intro b
    rw [hc.picture.mem_blocks, Arrangement.mem_blockIds ha]
  · intro b hb v
    obtain ⟨B, hB⟩ := Option.isSome_iff_exists.mp ((Arrangement.mem_blockIds ha).mp hb)
    rw [hc.picture.mem_members b B hB, Arrangement.blockAt_eq hB]
  · exact ha.live_nodup.filter _
  · rw [Arrangement.length_blockIds ha]
    exact hc.count_eq
  · intro es e rest he
    exact Arrangement.Steps.told h.steps hstart rfl he

theorem faithful_run (hp : p.Built) (mode : Mode) (options : Options α) (rounds : Nat)
    (ops : List (Operation α)) :
    YieldsUnless (Excused p ops) ((new p mode options).run rounds ops)
      fun r => r.1.arrangement.Faithful p :=
  (leads_run hp mode options rounds ops).mono (fun _ he => he) fun _ hr => hr.faithful hp.consistent

theorem faithful_run_fork : ∃ s replies,
    (new Problem.fork .incremental Options.standard).run 3 [.solve, .setGap 0 7, .refine] =
      .ok (s, replies) ∧ s.arrangement.Faithful Problem.fork := by
  obtain ⟨s, replies, hr⟩ := exists_run_fork
  exact ⟨s, replies, hr, (faithful_run Problem.built_fork .incremental Options.standard 3
    [.solve, .setGap 0 7, .refine]).of_ok hr⟩

end Solver

end Spacing
