import Spacing.Proofs.Arrangement.Multiplier
import Spacing.Proofs.Problem.Order
import Spacing.Proofs.Solver.Structure

namespace Spacing

variable {α : Type} [Scalar α] {p : Problem α}

theorem Problem.Consistent.mem_towards_lt (hp : p.Consistent) {v : VarId} {c : ConId} (side : Side)
    (hc : c ∈ (p.variableAt v).towards side) : c < p.constraints.size :=
  ((hp.mem_towards side).mp hc).1

namespace Arrangement

variable {a a' : Arrangement α} {b : BlockId} {B : Block α} {c : ConId} {u v : VarId}

structure InRange (a : Arrangement α) : Prop where
  ends : ∀ c < a.problem.constraints.size, ∀ side,
    a.problem.edges.endOn side c < a.problem.vars.size
  towards : ∀ v side, ∀ c ∈ (a.problem.variableAt v).towards side, c < a.problem.constraints.size
  blockOf : ∀ v < a.problem.vars.size,
    a.blockOf v < a.blocks.size ∧ (a.block? (a.blockOf v)).isSome
  members : ∀ b B, a.block? b = some B → ∀ v ∈ B.members, v < a.problem.vars.size
  boundary : ∀ b B, a.block? b = some B → ∀ side cs, B.boundary side = some cs →
    ∀ c ∈ cs, c < a.problem.constraints.size
  live : ∀ b ∈ a.live, b < a.blocks.size
  order : ∀ v ∈ a.problem.order, v < a.problem.vars.size
  tree : ∀ b root, ∀ x ∈ a.problem.tree b root, x.via < a.problem.constraints.size ∧
    x.parent < a.problem.vars.size ∧ x.child < a.problem.vars.size
  multipliers : ∀ b, ∀ m ∈ a.multipliersOf b, m.1 < a.problem.constraints.size

structure Guarded (a : Arrangement α) : Prop where
  across : ∀ side b c, (a.block? b).isSome → a.Known side b → a.nextMerge side b = some c →
    a.leftBlock c ≠ a.rightBlock c ∧ Yields (a.merge c) fun _ => True
  inside : ∀ b c, (a.leastMultiplier b).2 = some c → c ∈ a.problem.active
  active : ∀ c ∈ a.problem.active, a.leftBlock c = a.rightBlock c ∧ Yields (a.split c) fun _ => True
  between : ∀ u < a.problem.vars.size, ∀ v < a.problem.vars.size, a.blockOf u = a.blockOf v →
    Yields (a.splitBetween u v) fun r => ∀ f, r.2 = some f →
      r.1.blockOf u = a.blocks.size ∧ r.1.blockOf v = a.blocks.size + 1

theorem Intact.inRange (ha : a.Intact) : a.InRange where
  ends _ hc side := ha.consistent.endOn_lt hc side
  towards _ side _ hc := ha.consistent.mem_towards_lt side hc
  blockOf _ hv := ⟨ha.blockOf_lt hv, ha.standing _ hv⟩
  members _ _ hB _ hv := ha.lt_of_mem hB hv
  boundary b B hB side cs hcs c hc := ((ha.covers b B hB side cs hcs).near c hc).1
  live := ha.live_lt
  order _ hv := Problem.mem_order.mp hv
  tree b root x hx := by
    have hfollows := Problem.follows_of_mem_tree ha.consistent x hx
    have hl := ha.left_lt hfollows.active
    have hr := ha.right_lt hfollows.active
    refine ⟨Problem.lt_size_of_mem_active hfollows.active, ?_, ?_⟩
    · rw [hfollows.parent]
      split
      · exact hl
      · exact hr
    · rw [hfollows.child]
      split
      · exact hr
      · exact hl
  multipliers _ m hm :=
    Problem.lt_size_of_mem_active (active_of_mem_multipliersOf ha.consistent (x := m.2) hm)

theorem Intact.guarded (ha : a.Intact) : a.Guarded where
  across side b c hb hk hc := by
    have hcross := (ha.nextMerge_crosses hb hk hc).1
    obtain ⟨a', t, hm⟩ := ha.exists_merge hcross.lt_size hcross.ends_ne
    exact ⟨hcross.ends_ne, _, hm, trivial⟩
  inside b c hc := by
    obtain ⟨x, hx, -⟩ := leastMultiplier_eq_some hc
    exact active_of_mem_multipliersOf ha.consistent hx
  active c hc := by
    obtain ⟨a', l, r, _, _, _, hs, -⟩ := exists_split ha hc
    exact ⟨ha.together c hc, _, hs, trivial⟩
  between u hu v hv huv := by
    rcases splitBetween_cases ha hu hv huv with hnone | ⟨a₁, f, a', l, r, B, L, R, rfl, hsome, hf, -, -, hh, hL, hR⟩
    · exact ⟨_, hnone, fun _ he => by cases he⟩
    · have ha₁ := ha.writeMultipliers (a.multipliersOf (a.blockOf u))
      refine ⟨_, hsome, fun _ _ => ⟨?_, ?_⟩⟩
      · exact (hh.blockOf_left ha₁ hf hL).trans hh.left_eq
      · exact (hh.blockOf_right ha₁ hf hR).trans hh.right_eq

end Arrangement

namespace Solver

variable {s : Solver α}

structure Guarded (s : Solver α) : Prop where
  inRange : s.arrangement.InRange
  blocks : s.arrangement.Guarded
  watched : ∀ c ∈ s.inactive, c < s.problem.constraints.size
  picked : ∀ c, s.nextViolated = some c → s.inactive.idxOf c < s.inactive.length

theorem Sound.guarded (hs : s.Sound) : s.Guarded where
  inRange := hs.intact.inRange
  blocks := hs.intact.guarded
  watched := hs.watched
  picked _ hc := List.idxOf_lt_length_of_mem (mem_of_nextViolated hc)

/-- Whatever operations a new solver performs, on whatever scalars, nothing stops it but rounds that run
out and handles that callers gave, and all that it goes through is guarded. -/
theorem guarded_run (hp : p.Built) (mode : Mode) (options : Options α) (rounds : Nat)
    (ops : List (Operation α)) :
    YieldsUnless (Excused p ops) ((new p mode options).run rounds ops)
        (fun r => (new p mode options).Leads r.1) ∧
      ∀ s, (new p mode options).Leads s → s.Guarded :=
  ⟨leads_run hp mode options rounds ops, fun _ hs => hs.sound.guarded⟩

theorem guarded_run_fork : ∃ s replies,
    (new Problem.fork .incremental Options.standard).run 3 [.solve, .setGap 0 7, .refine] =
      .ok (s, replies) ∧ s.Guarded := by
  obtain ⟨s, replies, hr⟩ := exists_run_fork
  obtain ⟨hleads, hguarded⟩ := guarded_run Problem.built_fork .incremental Options.standard 3
    [.solve, .setGap 0 7, .refine]
  exact ⟨s, replies, hr, hguarded s (hleads.of_ok hr)⟩

end Solver

end Spacing
