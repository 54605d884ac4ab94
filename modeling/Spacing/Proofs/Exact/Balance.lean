import Mathlib.Algebra.Order.Field.Rat
import Mathlib.Tactic.FieldSimp
import Spacing.Proofs.Arrangement.Still
import Spacing.Proofs.Exact.Number
import Spacing.Proofs.Solver.Structure

namespace Spacing

namespace Arrangement

variable {a a' : Arrangement Rat} {b i t r l : BlockId} {s B B' : Block Rat} {c d : ConId} {u v : VarId}
  {shift : Rat} {L R : List VarId}

structure Balanced (a : Arrangement Rat) : Prop where
  weighted : a.problem.Weighted
  weight_eq : ∀ b B, a.block? b = some B → B.weight = a.problem.mass B.members
  moment_eq : ∀ b B, a.block? b = some B → B.weightedPosition = B.position * B.weight
  tight : ∀ c ∈ a.problem.active, (a.problem.variableAt (a.problem.edges.right c)).offset =
    (a.problem.variableAt (a.problem.edges.left c)).offset + (a.problem.constraintAt c).gap

def tension (a : Arrangement Rat) (b : BlockId) : Rat :=
  a.problem.tension a.position (a.blockAt b).members

theorem position_exact (v : VarId) :
    a.position v = (a.blockAt (a.blockOf v)).position + (a.problem.variableAt v).offset := rfl

theorem slack_exact (c : ConId) : a.slack c = a.position (a.problem.edges.right c) -
    a.position (a.problem.edges.left c) - (a.problem.constraintAt c).gap := rfl

theorem tension_of_none (h : a.block? b = none) : a.tension b = 0 := by
  rw [tension, blockAt, h]
  rfl

theorem tension_eq (hB : a.block? b = some B) :
    a.tension b = a.problem.tension a.position B.members := by
  rw [tension, blockAt_eq hB]

theorem position_of_mem (ha : a.Intact) (hB : a.block? b = some B) (hv : v ∈ B.members) :
    a.position v = B.position + (a.problem.variableAt v).offset := by
  rw [position_exact, ha.blockOf_eq hB hv, blockAt_eq hB]

namespace Balanced

variable (hb : a.Balanced)
include hb

theorem weight_pos (ha : a.Intact) (hB : a.block? b = some B) : 0 < B.weight := by
  rw [hb.weight_eq b B hB]
  exact Problem.mass_pos hb.weighted (fun v hv => ha.lt_of_mem hB hv) (ha.nonempty b B hB)

theorem slack_of_active (ha : a.Intact) (hc : c ∈ a.problem.active) : a.slack c = 0 := by
  have htight := hb.tight c hc
  rw [slack_exact, position_exact, position_exact, ← ha.together c hc, htight]
  ring

theorem still (h : Still a a') : a'.Balanced where
  weighted := hb.weighted.of_given h.given_eq
  weight_eq i B' hB' := by
    obtain ⟨B, hB, hbody⟩ := h.exists_block hB'
    have hw : B'.weight = B.weight := (congrArg Block.weight hbody :)
    have hm : B'.members = B.members := (congrArg Block.members hbody :)
    rw [hw, hm, Problem.mass_given h.given_eq]
    exact hb.weight_eq i B hB
  moment_eq i B' hB' := by
    obtain ⟨B, hB, hbody⟩ := h.exists_block hB'
    have hw : B'.weight = B.weight := (congrArg Block.weight hbody :)
    have hp : B'.position = B.position := (congrArg Block.position hbody :)
    have hm : B'.weightedPosition = B.weightedPosition := (congrArg Block.weightedPosition hbody :)
    rw [hw, hp, hm]
    exact hb.moment_eq i B hB
  tight c hc := by
    rw [h.active_eq] at hc
    rw [h.edges_eq, h.offset_eq, h.offset_eq, Problem.gap_eq h.given_eq]
    exact hb.tight c hc

theorem settle_eq_of_tension (ha : a.Intact) (hB : a.block? b = some B) (ht : a.tension b = 0) :
    B.settle a.problem = B := by
  have hW := hb.weight_pos ha hB
  have hpull := Block.pullOf_exact a.problem B.position B.members
  rw [Problem.tension_congr (y := a.position) fun v hv => (position_of_mem ha hB hv).symm,
    ← tension_eq hB, ht, ← hb.weight_eq b B hB] at hpull
  have hpull : Block.pullOf a.problem B.members = B.position * B.weight := by linarith
  rw [Block.settle, hpull]
  have hdiv : B.position * B.weight / B.weight = B.position := by
    field_simp
  have hmoment := hb.moment_eq b B hB
  cases B
  simp only [Block.mk.injEq, true_and, and_true]
  exact ⟨hmoment.symm, hdiv⟩

end Balanced

theorem Still.tension_eq (h : Still a a') (b : BlockId) : a'.tension b = a.tension b := by
  rw [tension, tension, h.members_eq, Problem.tension_given h.given_eq]
  exact Problem.tension_congr fun v _ => h.position_eq v

theorem blockAt_settle (hB : a.block? b = some B) :
    (a.settle b).block? b = some (B.settle a.problem) := by
  rw [settle, block?_modifyBlock, if_pos rfl, hB]
  rfl

theorem block?_settle_of_ne (hi : i ≠ b) : (a.settle b).block? i = a.block? i := by
  rw [settle, block?_modifyBlock, if_neg hi]

theorem position_settle_of_ne (hv : a.blockOf v ≠ b) : (a.settle b).position v = a.position v := by
  have hblock : (a.settle b).blockAt (a.blockOf v) = a.blockAt (a.blockOf v) := by
    rw [blockAt, block?_settle_of_ne hv, blockAt]
  rw [position_exact, position_exact, ← hblock]
  rfl

theorem position_settle (ha : a.Intact) (hb : a.Balanced) (hB : a.block? b = some B)
    (hv : a.blockOf v = b) : (a.settle b).position v = a.position v - a.tension b / B.weight := by
  have hW := hb.weight_pos ha hB
  have hpull := Block.pullOf_exact a.problem B.position B.members
  rw [Problem.tension_congr (y := a.position) fun v hv => (position_of_mem ha hB hv).symm,
    ← tension_eq hB, ← hb.weight_eq b B hB] at hpull
  have hleft : (a.settle b).position v =
      Block.pullOf a.problem B.members / B.weight + (a.problem.variableAt v).offset := by
    rw [position_exact]
    have : (a.settle b).blockOf v = b := hv
    rw [this, Arrangement.blockAt_eq (blockAt_settle hB)]
    rfl
  rw [hleft, position_exact, hv, Arrangement.blockAt_eq hB, ← hpull]
  field_simp
  ring

theorem tension_settle_of_ne (ha : a.Intact) (hi : i ≠ b) : (a.settle b).tension i = a.tension i := by
  cases hB : a.block? i with
  | none => rw [tension_of_none hB, tension_of_none (by rw [block?_settle_of_ne hi, hB])]
  | some B =>
    rw [tension_eq hB, tension_eq (by rw [block?_settle_of_ne hi, hB])]
    refine Problem.tension_congr fun v hv => position_settle_of_ne ?_
    rw [ha.blockOf_eq hB hv]
    exact hi

theorem tension_settle (ha : a.Intact) (hb : a.Balanced) : (a.settle b).tension b = 0 := by
  cases hB : a.block? b with
  | none =>
    refine tension_of_none ?_
    rw [settle, block?_modifyBlock, if_pos rfl, hB]
    rfl
  | some B =>
    have hW := hb.weight_pos ha hB
    have hmass := hb.weight_eq b B hB
    have hshift := Problem.tension_shift (p := a.problem) (x := a.position)
      (y := (a.settle b).position) (d := -(a.tension b / B.weight)) fun v (hv : v ∈ B.members) => by
        rw [position_settle ha hb hB (ha.blockOf_eq hB hv)]
        ring
    rw [tension_eq (blockAt_settle hB)]
    refine hshift.trans ?_
    rw [← hmass, ← tension_eq hB]
    field_simp
    ring

theorem Balanced.settle (hb : a.Balanced) (ha : a.Intact) : (a.settle b).Balanced := by
  have hcases (i : BlockId) (B' : Block Rat) (hB' : (a.settle b).block? i = some B') :
      ∃ B, a.block? i = some B ∧ (B' = B ∨ B' = B.settle a.problem) := by
    rw [Arrangement.settle, block?_modifyBlock] at hB'
    split at hB'
    · obtain ⟨B, hB, rfl⟩ := Option.map_eq_some_iff.mp hB'
      exact ⟨B, hB, .inr rfl⟩
    · exact ⟨B', hB', .inl rfl⟩
  constructor
  case weighted => exact hb.weighted
  case weight_eq =>
    intro i B' hB'
    obtain ⟨B, hB, rfl | rfl⟩ := hcases i B' hB'
    · exact hb.weight_eq i _ hB
    · exact hb.weight_eq i B hB
  case moment_eq =>
    intro i B' hB'
    obtain ⟨B, hB, rfl | rfl⟩ := hcases i B' hB'
    · exact hb.moment_eq i _ hB
    · have hW := hb.weight_pos ha hB
      simp only [Block.settle]
      field_simp
  case tight => exact hb.tight

theorem Merged.weight_join (h : Merged a a' c t r s B shift) (hb : a.Balanced) :
    (s.join B shift).weight = a.problem.mass (s.join B shift).members := by
  have hs := hb.weight_eq t s h.survivor
  have hB := hb.weight_eq r B h.absorbed
  simp only [Block.join, Problem.mass_append, ← hs, ← hB]

theorem Merged.mem_absorbed (h : Merged a a' c t r s B shift) (ha : a.Intact)
    (hv : v < a.problem.vars.size) : v ∈ B.members ↔ a.blockOf v = r := by
  rw [ha.mem_iff r B h.absorbed]
  exact and_iff_right hv

theorem Merged.tight (h : Merged a a' c t r s B shift) (ha : a.Intact) :
    (a'.problem.variableAt (a.problem.edges.right c)).offset -
      (a'.problem.variableAt (a.problem.edges.left c)).offset = (a.problem.constraintAt c).gap := by
  -- Only the absorbed members are shifted, by just what is missing between the ends.
  have hl := ha.consistent.leftEnd_lt h.lt_size
  have hr := ha.consistent.rightEnd_lt h.lt_size
  rcases h.ends with ⟨ht, hr', hshift⟩ | ⟨ht, hr', hshift⟩
  · have hright : a.problem.edges.right c ∈ B.members := (h.mem_absorbed ha hr).mpr hr'.symm
    have hleft : a.problem.edges.left c ∉ B.members := by
      rw [h.mem_absorbed ha hl]
      exact fun he => h.ne (ht.trans he)
    rw [h.offset_eq ha, h.offset_eq ha, if_pos hright, if_neg hleft, hshift]
    ring
  · have hleft : a.problem.edges.left c ∈ B.members := (h.mem_absorbed ha hl).mpr hr'.symm
    have hright : a.problem.edges.right c ∉ B.members := by
      rw [h.mem_absorbed ha hr]
      exact fun he => h.ne (ht.trans he)
    rw [h.offset_eq ha, h.offset_eq ha, if_neg hright, if_pos hleft, hshift]
    ring

theorem Merged.offset_sub (h : Merged a a' c t r s B shift) (ha : a.Intact)
    (hu : u < a.problem.vars.size) (hv : v < a.problem.vars.size) (huv : a.blockOf u = a.blockOf v) :
    (a'.problem.variableAt u).offset - (a'.problem.variableAt v).offset =
      (a.problem.variableAt u).offset - (a.problem.variableAt v).offset := by
  have hsame : u ∈ B.members ↔ v ∈ B.members := by
    rw [h.mem_absorbed ha hu, h.mem_absorbed ha hv, huv]
  rw [h.offset_eq ha, h.offset_eq ha]
  by_cases hm : v ∈ B.members
  · rw [if_pos (hsame.mpr hm), if_pos hm]
    ring
  · rw [if_neg (hsame.not.mpr hm), if_neg hm]

theorem Merged.balanced (h : Merged a a' c t r s B shift) (ha : a.Intact) (hb : a.Balanced) :
    a'.Balanced := by
  constructor
  case weighted => exact hb.weighted.of_given h.given_eq
  case weight_eq =>
    intro i B' hB'
    rw [Problem.mass_given h.given_eq]
    rcases h.block?_cases hB' with ⟨-, rfl⟩ | ⟨-, -, hB⟩
    · exact h.weight_join hb
    · exact hb.weight_eq i B' hB
  case moment_eq =>
    intro i B' hB'
    rcases h.block?_cases hB' with ⟨-, rfl⟩ | ⟨-, -, hB⟩
    · have hs := hb.weight_pos ha h.survivor
      have hB := hb.weight_pos ha h.absorbed
      simp only [Block.join]
      field_simp
    · exact hb.moment_eq i B' hB
  case tight =>
    intro d hd
    rw [h.active_eq, Set.mem_insert_iff] at hd
    rw [h.edges_eq, Problem.gap_eq h.given_eq]
    rcases hd with rfl | hd
    · have := h.tight ha
      linarith
    · have := h.offset_sub ha (ha.right_lt hd) (ha.left_lt hd) (ha.together d hd).symm
      have := hb.tight d hd
      linarith

theorem Halved.balanced_of (h : Halved a a' c l r B L R) (hw : a.problem.Weighted)
    (hweight : ∀ b B, a.block? b = some B → B.weight = a.problem.mass B.members)
    (hmoment : ∀ b B, a.block? b = some B → B.weightedPosition = B.position * B.weight)
    (htight : ∀ d ∈ a.problem.active, d ≠ c →
      (a.problem.variableAt (a.problem.edges.right d)).offset =
        (a.problem.variableAt (a.problem.edges.left d)).offset + (a.problem.constraintAt d).gap) :
    a'.Balanced := by
  constructor
  case weighted => exact hw.of_given h.given_eq
  case weight_eq =>
    intro i B' hB'
    rw [Problem.mass_given h.given_eq]
    rcases h.block?_cases hB' with ⟨-, rfl⟩ | ⟨-, rfl⟩ | ⟨-, hB⟩
    · exact Block.weigh_exact _ _
    · exact Block.weigh_exact _ _
    · exact hweight i B' hB
  case moment_eq =>
    intro i B' hB'
    rcases h.block?_cases hB' with ⟨-, rfl⟩ | ⟨-, rfl⟩ | ⟨-, hB⟩
    · rfl
    · rfl
    · exact hmoment i B' hB
  case tight =>
    intro d hd
    rw [h.active_eq] at hd
    rw [h.edges_eq, h.offset_eq, h.offset_eq, Problem.gap_eq h.given_eq]
    -- Nothing is asked of the constraint that is given up.
    exact htight d hd.1 hd.2

theorem Halved.balanced (h : Halved a a' c l r B L R) (hb : a.Balanced) : a'.Balanced :=
  h.balanced_of hb.weighted hb.weight_eq hb.moment_eq fun d hd _ => hb.tight d hd

theorem Balanced.setDesired (hb : a.Balanced) (hv : v < a.problem.vars.size) (desired : Rat) :
    Balanced { a with problem := a.problem.setDesired v desired } := by
  have hvar (w : VarId) := Problem.variableAt_setDesired hv desired w
  have hoffset (w : VarId) : ((a.problem.setDesired v desired).variableAt w).offset =
      (a.problem.variableAt w).offset := by
    rw [hvar]
    split <;> rfl
  constructor
  case weighted => exact hb.weighted.setDesired hv desired
  case weight_eq =>
    intro i B' hB'
    rw [hb.weight_eq i B' hB', Problem.mass, Problem.mass]
    refine congrArg List.sum (List.map_congr_left fun w _ => ?_)
    rw [hvar]
    split <;> rfl
  case moment_eq => exact hb.moment_eq
  case tight =>
    intro d hd
    rw [hoffset, hoffset]
    exact hb.tight d hd

theorem Balanced.step (hb : a.Balanced) (ha : a.Intact) (h : Step a a') : a'.Balanced := by
  cases h with
  | merge h =>
    obtain ⟨r, s, B, shift, hm⟩ := merged_of_merge h
    exact hm.balanced ha hb
  | split hc h =>
    obtain ⟨B, L, R, hh⟩ := halved_of_split ha hc h
    exact hh.balanced hb
  | settle b => exact hb.settle ha
  | collectBoundary side b => exact hb.still (still_collectBoundary a side b)
  | writeMultipliers b => exact hb.still (still_writeMultipliers a _)
  | writePositions => exact hb.still (still_writePositions a)
  | cleanUp => exact hb.still (still_cleanUp a)
  | log e he => exact hb.still ⟨rfl, rfl, fun _ => rfl, fun _ => rfl, fun _ => rfl⟩
  | setDesired hv desired => exact hb.setDesired hv desired
  | @setGap c hlt hc gap =>
    refine ⟨hb.weighted, hb.weight_eq, hb.moment_eq, fun d hd => ?_⟩
    have hd : d ∈ a.problem.active := active_setGap (p := a.problem) gap ▸ hd
    have hdc : d ≠ c := fun he => hc (he ▸ hd)
    rw [edges_setGap hlt, Problem.constraintAt_setGap hlt, if_neg hdc]
    exact hb.tight d hd
  | @release _ c l r hc gap h =>
    have hlt := Problem.lt_size_of_mem_active hc
    have hc' : c ∈ (a.problem.setGap c gap).active := (active_setGap gap).symm ▸ hc
    obtain ⟨B, L, R, hh⟩ := halved_of_split (ha.setGap hlt gap) hc' h
    apply hh.balanced_of hb.weighted hb.weight_eq hb.moment_eq
    intro d hd hdc
    have hd : d ∈ a.problem.active := active_setGap (p := a.problem) gap ▸ hd
    rw [edges_setGap hlt, Problem.constraintAt_setGap hlt, if_neg hdc]
    exact hb.tight d hd

theorem Balanced.steps (hb : a.Balanced) (ha : a.Intact) (h : Steps a a') : a'.Balanced := by
  induction h with
  | refl => exact hb
  | tail h' h ih => exact ih.step (ha.steps h') h

theorem balanced_ofProblem {p : Problem Rat} (hp : p.Weighted) : (ofProblem p).Balanced := by
  have hw : (ofProblem p).problem.Weighted := hp.of_given given_ofProblem
  constructor
  case weighted => exact hw
  case weight_eq =>
    intro b B hB
    obtain ⟨-, rfl⟩ := block?_ofProblem_some hB
    exact Block.weigh_exact _ _
  case moment_eq =>
    intro b B hB
    obtain ⟨hlt, rfl⟩ := block?_ofProblem_some hB
    have hW : (Block.place (ofProblem p).problem [b] Scalar.zero).weight ≠ 0 := by
      refine ne_of_gt ?_
      rw [Block.place, Block.weigh_exact]
      refine Problem.mass_pos hw ?_ (List.cons_ne_nil b [])
      intro v hv
      rw [List.mem_singleton.mp hv, Problem.size_vars_eq given_ofProblem]
      exact hlt
    simp only [Block.settle]
    exact (div_mul_cancel₀ _ hW).symm
  case tight =>
    intro c hc
    rw [active_ofProblem] at hc
    exact hc.elim

end Arrangement

namespace Solver

variable {p : Problem Rat}

theorem balanced_new (hp : p.Built) (mode : Mode) (options : Options Rat) :
    (Solver.new p mode options).arrangement.Balanced :=
  Arrangement.balanced_ofProblem hp.weighted

theorem balanced_of_leads {mode : Mode} {options : Options Rat} {s : Solver Rat} (hp : p.Built)
    (h : (Solver.new p mode options).Leads s) : s.arrangement.Balanced :=
  (balanced_new hp mode options).steps (sound_new hp.consistent mode options).intact h.steps

/-- Whatever operations a new solver performs, and whether or not they fail, the sums that its blocks
keep are right, the weights that it divides by are positive and the active constraints are tight. -/
theorem balanced_run (hp : p.Built) (mode : Mode) (options : Options Rat) (rounds : Nat)
    (ops : List (Operation Rat)) :
    YieldsUnless (Excused p ops) ((Solver.new p mode options).run rounds ops) fun r =>
      (∀ b B, r.1.arrangement.block? b = some B →
        B.weight = (B.members.map fun v => (r.1.problem.variableAt v).weight).sum ∧ 0 < B.weight ∧
          B.weightedPosition = B.position * B.weight) ∧
      ∀ c ∈ r.1.problem.active,
        (r.1.problem.variableAt (r.1.problem.constraintAt c).right).offset -
            (r.1.problem.variableAt (r.1.problem.constraintAt c).left).offset =
          (r.1.problem.constraintAt c).gap ∧ r.1.arrangement.slack c = 0 := by
  have hgiven : (Solver.new p mode options).problem.given = p.given := Arrangement.given_ofProblem
  refine (run_leads rounds (sound_new hp.consistent mode options) ops).mono (fun _ he => ?_)
    fun ⟨s, _⟩ hs => ?_
  · exact he.mono (Problem.size_vars_eq hgiven) (Problem.size_constraints_eq hgiven) fun _ hop => hop
  · have ha := hs.sound.intact
    have hb := balanced_of_leads hp hs
    refine ⟨fun b B hB => ⟨hb.weight_eq b B hB, hb.weight_pos ha hB, hb.moment_eq b B hB⟩,
      fun c hc => ⟨?_, hb.slack_of_active ha hc⟩⟩
    exact sub_eq_of_eq_add' (hb.tight c hc)

theorem balanced_run_fork : ∃ s replies,
    (Solver.new Problem.fork .incremental Options.standard).run 3
      [.solve, .setGap 0 7, .setDesired 2 (-1), .solve] = .ok (s, replies) ∧
    (∀ b B, s.arrangement.block? b = some B → 0 < B.weight) ∧
    ∀ c ∈ s.problem.active, s.arrangement.slack c = 0 := by
  have hok : Yields ((Solver.new Problem.fork .incremental Options.standard).run 3
      [.solve, .setGap 0 7, .setDesired 2 (-1), .solve]) fun _ => True := by decide +kernel
  obtain ⟨⟨s, replies⟩, hr, -⟩ := hok
  obtain ⟨hblocks, htight⟩ := (balanced_run Problem.built_fork .incremental Options.standard 3
    [.solve, .setGap 0 7, .setDesired 2 (-1), .solve]).of_ok hr
  exact ⟨s, replies, hr, fun b B hB => (hblocks b B hB).2.1, fun c hc => (htight c hc).2⟩

end Solver

end Spacing
