import Spacing.Proofs.Exact.Balance
import Spacing.Proofs.Frame.Solver

namespace Spacing

def Frame.translation (t : Rat) : Frame Rat where
  place x := x + t
  moment w x := x + t * w
  written _ x := x + t

variable {p : Problem Rat} {t : Rat}

namespace Frame

theorem place_translation (x : Rat) : (translation t).place x = x + t := rfl

theorem pullOf_translation {vs : List VarId} (hvs : ∀ v ∈ vs, v < p.vars.size) :
    Block.pullOf (p.seen (translation t)) vs = Block.pullOf p vs + t * p.mass vs := by
  rw [Block.pullOf, Block.pullOf, sum_exact, sum_exact, Problem.mass]
  induction vs with
  | nil => simp
  | cons v vs ih =>
    have hv : (p.seen (translation t)).variableAt v = (p.variableAt v).seen (translation t) v :=
      Problem.variableAt_seen (hvs v List.mem_cons_self)
    simp only [List.map_cons, List.sum_cons, ih fun w hw => hvs w (List.mem_cons_of_mem _ hw), hv,
      Variable.seen, place_translation]
    ring

theorem inertial_translation (t : Rat) : (translation t).Inertial Arrangement.Balanced where
  place_sub _ _ := add_sub_add_right_eq_sub _ _ _
  place_add x y := add_right_comm x t y
  place_mul x w := add_mul x t w
  seen_join a ha hb b i B C hB hC shift := by
    have hw : B.weight + C.weight ≠ 0 :=
      (add_pos (hb.weight_pos ha hB) (hb.weight_pos ha hC)).ne'
    have hpull : B.weightedPosition + t * B.weight +
        (C.weightedPosition + t * C.weight - shift * C.weight) =
          B.weightedPosition + (C.weightedPosition - shift * C.weight) + t * (B.weight + C.weight) := by
      ring
    simp only [Block.join, Block.seen, translation, hpull, add_div, mul_div_assoc, div_self hw, mul_one]
  seen_settle a ha hb b B hB := by
    have hw : B.weight ≠ 0 := (hb.weight_pos ha hB).ne'
    have hpull : Block.pullOf (a.problem.seen (translation t)) B.members =
        Block.pullOf a.problem B.members + t * B.weight := by
      rw [pullOf_translation fun v hv => ha.lt_of_mem hB hv, hb.weight_eq b B hB]
    simp only [Block.settle, Block.seen, translation] at hpull ⊢
    simp only [hpull, add_div, mul_div_assoc, div_self hw, mul_one]
  fit_step _ _ ha hb h := hb.step ha h

theorem edits_translation (p : Problem Rat) (t : Rat) (es : List (Edit Rat)) :
    (p.seen (translation t)).edits (es.map (Edit.seen (translation t))) =
      (p.edits es).map (Problem.seen (translation t)) := by
  induction es generalizing p with
  | nil => rfl
  | cons e es ih =>
    rw [List.map_cons, Problem.edits, Problem.edits, List.foldlM_cons, List.foldlM_cons]
    exact bind_eq_map (Problem.edit_seen fun _ _ _ _ _ => rfl) fun q _ => ih q

end Frame

namespace Solver

/-- Whatever problem a caller builds and whatever operations a new solver performs on it, if all desired
positions are moved by `t`, then so are all positions of variables and blocks, and nothing else
changes: aborts, replies, journals, blocks, and the constraints that are active or watched. -/
theorem run_translated (t : Rat) (es : List (Edit Rat)) (mode : Mode) (options : Options Rat)
    (rounds : Nat) (ops : List (Operation Rat)) :
    Alongside (fun r r' => r'.1 = r.1.seen (Frame.translation t) ∧ r'.2 = r.2 ∧
        r'.1.arrangement.journal = r.1.arrangement.journal ∧
        (∀ b, r'.1.arrangement.block? b = (r.1.arrangement.block? b).map fun B => { B with
          weightedPosition := B.weightedPosition + t * B.weight, position := B.position + t }) ∧
        ∀ v < r.1.problem.vars.size,
          r'.1.arrangement.position v = r.1.arrangement.position v + t ∧
          (r'.1.problem.variableAt v).position = (r.1.problem.variableAt v).position + t)
      (Problem.empty.edits es >>= fun p => (new p mode options).run rounds ops)
      (Problem.empty.edits (es.map (Edit.seen (Frame.translation t))) >>= fun p =>
        (new p mode options).run rounds (ops.map (Operation.seen (Frame.translation t)))) := by
  have hf := Frame.inertial_translation t
  refine Alongside.bind_map (Frame.edits_translation Problem.empty t es) fun p hp => ?_
  have hbuilt : p.Built := Problem.Built.empty.edits es hp
  have hs : (new p mode options).Fits Arrangement.Balanced :=
    ⟨sound_new hbuilt.consistent mode options, balanced_new hbuilt mode options⟩
  have hnew : new (p.seen (Frame.translation t)) mode options =
      (new p mode options).seen (Frame.translation t) := by
    rw [new, hf.ofProblem hbuilt.consistent hs.fit]
    rfl
  rw [hnew]
  refine (hf.run hs rounds ops).mono fun r r' hr _ hagrees => ?_
  have ha := (leads_of_run hbuilt.consistent hr).sound.intact
  -- What is written reads like any other place, before and after it has been written.
  obtain rfl : r' = (Frame.translation t).image r := hagrees.elim id id
  refine ⟨rfl, rfl, rfl, fun b => Arrangement.block?_seen, fun v hv => ⟨hf.position ha hv, ?_⟩⟩
  exact congrArg Variable.position (Problem.variableAt_seen hv)

end Solver

end Spacing
