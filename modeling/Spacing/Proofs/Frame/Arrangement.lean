import Spacing.Proofs.Arrangement.Rebalance
import Spacing.Proofs.Frame.Basic
import Spacing.Proofs.Solver.Negative
import Spacing.Proofs.Solver.Run

namespace Spacing

variable {α : Type} [Scalar α] {f : Frame α} {a : Arrangement α} {b : BlockId} {c : ConId} {u v : VarId}
  {side : Side}

namespace Arrangement

theorem lt_of_mem_crossing (ha : a.Intact)
    (hc : c ∈ a.crossing side b (((a.blockAt b).boundary side).getD [])) :
    c < a.problem.constraints.size := by
  have hc := (mem_crossing.mp hc).1
  cases hB : a.block? b with
  | none =>
    have hdefault : a.blockAt b = default := by simp [blockAt, hB]
    rw [hdefault] at hc
    cases side <;> cases hc
  | some B =>
    rw [blockAt_eq hB] at hc
    cases hcs : B.boundary side with
    | none =>
      rw [hcs] at hc
      cases hc
    | some cs =>
      rw [hcs] at hc
      exact ((ha.covers b B hB side cs hcs).near c hc).1

theorem mostUrgent_congr {a' : Arrangement α} {cs : List ConId}
    (hp : a'.problem.constraints = a.problem.constraints) (h : ∀ c ∈ cs, a'.slack c = a.slack c) :
    a'.mostUrgent cs = a.mostUrgent cs := by
  have hequality (c : ConId) : (a'.problem.constraintAt c).equality =
      (a.problem.constraintAt c).equality := by rw [Problem.constraintAt, hp, Problem.constraintAt]
  simp only [mostUrgent, hequality, firstLeast_congr h]

theorem seen_collectBoundary (a : Arrangement α) (side : Side) (b : BlockId) :
    (a.seen f).collectBoundary side b = (a.collectBoundary side b).seen f := by
  have hfound (v : VarId) : (a.seen f).crossing side b
      (((a.seen f).problem.variableAt v).towards side) =
        a.crossing side b ((a.problem.variableAt v).towards side) := by
    have htowards : ((a.seen f).problem.variableAt v).towards side = _ := Problem.towards_seen side
    rw [crossing_seen, htowards]
  rw [collectBoundary, collectBoundary, members_seen]
  simp only [hfound]
  refine (seen_modifyBlock fun B _ => ?_).symm
  cases side <;> rfl

theorem seen_ensureBoundary (a : Arrangement α) (side : Side) (b : BlockId) :
    (a.seen f).ensureBoundary side b = (a.ensureBoundary side b).seen f := by
  unfold ensureBoundary
  rw [boundary_seen, seen_collectBoundary]
  split <;> rfl

theorem seen_collectBoundaries (a : Arrangement α) (bs : List BlockId) :
    (a.seen f).collectBoundaries bs = (a.collectBoundaries bs).seen f := by
  induction bs generalizing a with
  | nil => rfl
  | cons b bs ih =>
    refine Eq.trans ?_ (ih _)
    rw [← seen_collectBoundary, ← seen_collectBoundary]
    rfl

omit [Scalar α] in
theorem seen_writeMultipliers (a : Arrangement α) (ms : List (ConId × α)) :
    (a.seen f).writeMultipliers ms = (a.writeMultipliers ms).seen f := by
  have h (p : Problem α) : ms.foldl (fun p m =>
      p.modifyConstraint m.1 fun k => { k with multiplier := m.2 }) (p.seen f) = (ms.foldl (fun p m =>
        p.modifyConstraint m.1 fun k => { k with multiplier := m.2 }) p).seen f := by
    induction ms generalizing p with
    | nil => rfl
    | cons m ms ih => exact ih (p.modifyConstraint m.1 fun k => { k with multiplier := m.2 })
  exact congrArg (fun p => ({ a.seen f with problem := p } : Arrangement α)) (h a.problem)

theorem seen_absorb {t r : BlockId} {s B : Block α} {shift : α}
    (hjoin : (s.seen f).join (B.seen f) shift = (s.join B shift).seen f) :
    (a.seen f).absorb t r (s.seen f) (B.seen f) shift = (a.absorb t r s B shift).seen f := by
  have hproblem := Problem.seen_modifyAll (f := f) (p := a.problem)
    (h := fun x => { x with offset := x.offset + shift, block := t }) (fun _ _ => rfl) B.members
  simp only [absorb, hjoin]
  simp only [seen, hproblem, Array.map_setIfInBounds, Option.map_none, Option.map_some]
  rfl

end Arrangement

namespace Frame.Inertial

open Arrangement

variable {Fit : Arrangement α → Prop} (hf : f.Inertial Fit)
include hf

theorem ofProblem {p : Problem α} (hp : p.Consistent) (h : Fit (ofProblem p)) :
    Arrangement.ofProblem (p.seen f) = (Arrangement.ofProblem p).seen f := by
  have hproblem : (Arrangement.ofProblem (p.seen f)).problem =
      (Arrangement.ofProblem p).problem.seen f := by
    simp only [Arrangement.ofProblem, Problem.seen, Array.mapIdx_mapIdx]
    rfl
  have hblock (v : VarId) (hv : v < p.vars.size) :
      (Block.place ((Arrangement.ofProblem p).problem.seen f) [v] Scalar.zero).settle
          ((Arrangement.ofProblem p).problem.seen f) =
        ((Block.place (Arrangement.ofProblem p).problem [v] Scalar.zero).settle
          (Arrangement.ofProblem p).problem).seen f := by
    -- A block that has settled settles where it is.
    have hsettled := hf.seen_settle _ (intact_ofProblem hp) h v _ (block?_ofProblem.trans (if_pos hv))
    refine Eq.trans ?_ hsettled
    simp only [Block.place, Block.settle, Block.seen, Problem.weigh_seen]
  have hlive : (Arrangement.ofProblem (p.seen f)).live = (Arrangement.ofProblem p).live := by
    simp [Arrangement.ofProblem, Problem.variableIds]
  have hblocks : (Arrangement.ofProblem (p.seen f)).blocks =
      (Arrangement.ofProblem p).blocks.map (Option.map (Block.seen f)) := by
    apply Array.ext
    · simp [Arrangement.ofProblem]
    · intro v h₁ h₂
      have hv : v < p.vars.size := by simpa [Arrangement.ofProblem] using h₁
      simp only [Arrangement.ofProblem] at hproblem
      simp only [Arrangement.ofProblem, Array.getElem_map, Array.getElem_range, Option.map_some, hproblem]
      exact congrArg some (hblock v hv)
  change Arrangement.mk (Arrangement.ofProblem (p.seen f)).problem
    (Arrangement.ofProblem (p.seen f)).blocks (Arrangement.ofProblem (p.seen f)).live #[] = _
  rw [hproblem, hblocks, hlive]
  rfl

section Merge

variable (ha : a.Intact) (h : Fit a)
include ha

theorem nextMerge (side : Side) (b : BlockId) : (a.seen f).nextMerge side b = a.nextMerge side b := by
  let cs := a.crossing side b (((a.blockAt b).boundary side).getD [])
  have hslack (c : ConId) (hc : c ∈ cs) : (a.seen f).slack c = a.slack c :=
    hf.slack ha (lt_of_mem_crossing ha hc)
  have hurgent : (a.seen f).mostUrgent cs = a.mostUrgent cs := mostUrgent_congr rfl hslack
  have hneeds (c : ConId) (hc : c ∈ cs) : (a.seen f).needsMerge c = a.needsMerge c := by
    rw [needsMerge, needsMerge, hslack c hc]
    rfl
  rw [Arrangement.nextMerge, Arrangement.nextMerge, boundary_seen, crossing_seen]
  change ((a.seen f).mostUrgent cs).filter _ = (a.mostUrgent cs).filter _
  rw [hurgent]
  cases hx : a.mostUrgent cs with
  | none => rfl
  | some c => rw [Option.filter_some, Option.filter_some, hneeds c (mem_of_mostUrgent hx)]

include h

theorem merge (c : ConId) : (a.seen f).merge c = (a.merge c).map fun r => (r.1.seen f, r.2) := by
  have hoffset (v : VarId) : ((a.seen f).problem.variableAt v).offset =
      (a.problem.variableAt v).offset := Problem.offset_seen
  have hk : (a.seen f).problem.constraintAt c = a.problem.constraintAt c := rfl
  let a₁ : Arrangement α := { a with
    problem := a.problem.modifyConstraint c fun k => { k with active := true } }
  have ha₁ : { a.seen f with
      problem := (a.seen f).problem.modifyConstraint c fun k => { k with active := true } } =
        a₁.seen f := rfl
  simp only [Arrangement.merge, leftBlock_seen, rightBlock_seen, block?_seen, hoffset, hk, ha₁]
  split
  · rfl
  · cases hl : a.block? (a.leftBlock c) with
    | none => rfl
    | some l =>
      cases hr : a.block? (a.rightBlock c) with
      | none => rfl
      | some r =>
        have hlr := hf.seen_join a ha h _ _ l r hl hr
        have hrl := hf.seen_join a ha h _ _ r l hr hl
        simp only [Option.map_some]
        change (if l.members.length < r.members.length then _ else _) = _
        split
        · rw [seen_absorb (hrl _)]
          rfl
        · rw [seen_absorb (hlr _)]
          rfl

omit h in
theorem fit_ensureBoundary (h : Fit a) (side : Side) (b : BlockId) : Fit (a.ensureBoundary side b) := by
  rcases a.ensureBoundary_cases side b with ⟨he, -⟩ | he
  · rwa [he]
  · rw [he]
    exact hf.fit_step _ _ ha h (.collectBoundary side b)

theorem mergeLoop (side : Side) (b : BlockId) :
    (a.seen f).mergeLoop side b = (a.mergeLoop side b).map fun r => (r.1.seen f, r.2) := by
  -- Every merge leaves one block less.
  induction hn : a.standing using Nat.strong_induction_on generalizing a b with
  | _ n ih =>
    let a₁ := a.ensureBoundary side b
    have ha₁ : a₁.Intact := ha.ensureBoundary
    have h₁ : Fit a₁ := hf.fit_ensureBoundary ha h side b
    have hsame : (a.seen f).ensureBoundary side b = a₁.seen f := seen_ensureBoundary a side b
    have hnext : ((a.seen f).ensureBoundary side b).nextMerge side b = a₁.nextMerge side b := by
      rw [hsame, hf.nextMerge ha₁]
    cases hc : a₁.nextMerge side b with
    | none =>
      rw [mergeLoop_of_none hc, mergeLoop_of_none (hnext.trans hc), hsame]
      rfl
    | some c =>
      let far := a₁.blockOf ((a₁.problem.constraintAt c).endOn side)
      let a₂ := a₁.ensureBoundary side far
      have ha₂ : a₂.Intact := ha₁.ensureBoundary
      have h₂ : Fit a₂ := hf.fit_ensureBoundary ha₁ h₁ side far
      have hfar : (a₁.seen f).blockOf (((a₁.seen f).problem.constraintAt c).endOn side) = far :=
        blockOf_seen
      have hmerge := hf.merge ha₂ h₂ c
      rw [← seen_ensureBoundary, ← hfar, ← hsame] at hmerge
      cases hm : a₂.merge c with
      | error e =>
        rw [hm] at hmerge
        rw [mergeLoop_of_error hc hm, mergeLoop_of_error (hnext.trans hc) hmerge]
        rfl
      | ok r =>
        rw [hm] at hmerge
        rw [mergeLoop_of_merge hc hm, mergeLoop_of_merge (hnext.trans hc) hmerge]
        have hlt := standing_merge hm
        rw [standing_ensureBoundary, standing_ensureBoundary] at hlt
        exact ih _ (by omega) (ha₂.merge hm) (hf.fit_step _ _ ha₂ h₂ (.merge hm)) r.2 rfl

theorem mergeTowards (side : Side) (b : BlockId) :
    (a.seen f).mergeTowards side b = (a.mergeTowards side b).map fun r => (r.1.seen f, r.2) := by
  rw [Arrangement.mergeTowards, Arrangement.mergeTowards, seen_collectBoundary]
  exact hf.mergeLoop ha.collectBoundary (hf.fit_step _ _ ha h (.collectBoundary side b)) side b

theorem settle (b : BlockId) : (a.seen f).settle b = (a.settle b).seen f :=
  (seen_modifyBlock fun B hB => (hf.seen_settle a ha h b B hB).symm).symm

theorem mergeInOrder (vs : List VarId) :
    (a.seen f).mergeInOrder vs = (a.mergeInOrder vs).map (Arrangement.seen f) := by
  induction vs generalizing a with
  | nil => rfl
  | cons v vs ih =>
    unfold Arrangement.mergeInOrder
    rw [List.foldlM_cons, List.foldlM_cons]
    dsimp only
    rw [blockOf_seen, isSome_block?_seen]
    split
    · rename_i hb
      rw [hf.mergeTowards ha h]
      have hsteps := mergeTowards_yields (loopInvariant_steps a .left) ha hb .refl
      cases hm : a.mergeTowards .left (a.blockOf v) with
      | error e => rfl
      | ok r =>
        obtain ⟨ha', -, hs, -⟩ := hsteps.of_ok hm
        exact ih ha' (hf.steps ha h hs)
    · exact ih ha h

end Merge

theorem place (p : Problem α) (members : List VarId) (x : α) :
    Block.place (p.seen f) members (f.place x) = (Block.place p members x).seen f := by
  simp only [Block.place, Block.seen, Problem.weigh_seen, hf.place_mul]

theorem detach (a : Arrangement α) (old : BlockId) (start : VarId) (x : α) :
    (a.seen f).detach old start (f.place x) =
      ((a.detach old start x).1.seen f, (a.detach old start x).2) := by
  have hsize : (a.seen f).blocks.size = a.blocks.size := by simp [Arrangement.seen]
  have htree : (a.seen f).problem.tree old start = a.problem.tree old start := Problem.tree_seen _ _
  have hproblem := Problem.seen_modifyAll (f := f) (p := a.problem)
    (h := fun x => { x with block := a.blocks.size }) (fun _ _ => rfl)
    (start :: (a.problem.tree old start).map Branch.child)
  simp only [Arrangement.detach, hsize, htree]
  simp only [Arrangement.seen, Array.map_push, Option.map_some, ← hproblem, hf.place]

theorem split (a : Arrangement α) (c : ConId) :
    (a.seen f).split c = (a.split c).map fun r => (r.1.seen f, r.2) := by
  have hk : (a.seen f).problem.constraintAt c = a.problem.constraintAt c := rfl
  let a₁ : Arrangement α := { a with
    problem := a.problem.modifyConstraint c fun k => { k with active := false } }
  have ha₁ : { a.seen f with
      problem := (a.seen f).problem.modifyConstraint c fun k => { k with active := false } } =
        a₁.seen f := rfl
  simp only [Arrangement.split, leftBlock_seen, rightBlock_seen, block?_seen, hk, ha₁]
  split
  · rfl
  · cases hB : a.block? (a.leftBlock c) with
    | none => rfl
    | some B =>
      have hplace : (B.seen f).position = f.place B.position := rfl
      simp only [Option.map_some, hplace, hf.detach]
      simp only [Except.map, Arrangement.seen, Arrangement.record, Array.map_setIfInBounds,
        Option.map_none]
      rfl

theorem derivatives {B : Block α} (hB : a.block? b = some B) :
    (a.seen f).derivatives b = a.derivatives b := by
  have hx (x : Variable α) (y : α) :
      f.place y + x.offset - f.place x.desired = y + x.offset - x.desired := by
    rw [hf.place_add, hf.place_sub]
  rw [Arrangement.derivatives, Arrangement.derivatives, blockAt_seen hB, blockAt_eq hB]
  apply Array.ext
  · simp [Arrangement.seen]
  · intro i h₁ h₂
    simp [Arrangement.seen, Problem.seen, Variable.seen, Block.seen, hx]

theorem multipliersOf (a : Arrangement α) (b : BlockId) :
    (a.seen f).multipliersOf b = a.multipliersOf b := by
  have htree (root : VarId) : (a.seen f).problem.tree b root = a.problem.tree b root :=
    Problem.tree_seen _ _
  simp only [Arrangement.multipliersOf, members_seen, htree]
  cases hB : a.block? b with
  | none =>
    have hdefault : a.blockAt b = default := by simp [blockAt, hB]
    rw [hdefault]
    rfl
  | some B => rw [hf.derivatives hB]

theorem leastMultiplier (a : Arrangement α) (b : BlockId) : (a.seen f).leastMultiplier b =
    ((a.leastMultiplier b).1.seen f, (a.leastMultiplier b).2) := by
  rw [Arrangement.leastMultiplier, hf.multipliersOf, seen_writeMultipliers]
  rfl

theorem leastOnPath (a : Arrangement α) (u v : VarId) :
    (a.seen f).leastOnPath u v = ((a.leastOnPath u v).1.seen f, (a.leastOnPath u v).2) := by
  have hpath (a : Arrangement α) : (a.seen f).path u v = a.path u v := by
    have htree (b : BlockId) : (a.seen f).problem.tree b u = a.problem.tree b u := Problem.tree_seen _ _
    rw [path, path, blockOf_seen, htree]
  rw [Arrangement.leastOnPath, blockOf_seen, hf.leastMultiplier]
  dsimp only
  rw [hpath]
  rfl

theorem splitBetween (a : Arrangement α) (u v : VarId) :
    (a.seen f).splitBetween u v = (a.splitBetween u v).map fun r => (r.1.seen f, r.2) := by
  unfold Arrangement.splitBetween
  rw [hf.leastOnPath]
  cases hleast : a.leastOnPath u v with
  | mk a₁ least =>
    cases least with
    | none => rfl
    | some d =>
      exact bind_eq_map (hf.split a₁ d) fun _ _ => rfl

theorem firstNegative (a : Arrangement α) (bs : List BlockId) :
    (a.seen f).firstNegative bs = ((a.firstNegative bs).1.seen f, (a.firstNegative bs).2) := by
  induction bs generalizing a with
  | nil => rfl
  | cons b bs ih =>
    have hnegative : ((a.leastMultiplier b).1.seen f).isNegative = (a.leastMultiplier b).1.isNegative :=
      rfl
    rw [firstNegative_cons, firstNegative_cons, hf.leastMultiplier]
    dsimp only
    rw [hnegative]
    split
    · rfl
    · exact ih _

theorem rebalance (ha : a.Intact) (h : Fit a) (hc : c ∈ a.problem.active) :
    (a.seen f).rebalance c = (a.rebalance c).map (Arrangement.seen f) := by
  refine bind_eq_map (hf.split a c) ?_
  rintro ⟨a₁, l, r⟩ hs
  obtain ⟨B, L, R, hh⟩ := halved_of_split ha hc hs
  have ha₁ : a₁.Intact := hh.intact ha hc
  have h₁ := hf.fit_step _ _ ha h (.split hc hs)
  have hl : (a₁.block? l).isSome := by
    rw [hh.block?_left]
    rfl
  have h₁' := hf.fit_step _ _ ha₁ h₁ (.settle l)
  dsimp only
  rw [hf.settle ha₁ h₁]
  refine bind_eq_map (hf.mergeTowards ha₁.settle h₁' .left l) ?_
  rintro ⟨a₂, t⟩ hm
  obtain ⟨ha₂, -, hsteps, -⟩ := (mergeTowards_yields (loopInvariant_steps _ .left) ha₁.settle
    (isSome_settle hl) .refl).of_ok hm
  have h₂ := hf.steps ha₁.settle h₁' hsteps
  have h₂' := hf.fit_step _ _ ha₂ h₂ (.settle (a₂.rightBlock c))
  dsimp only
  rw [rightBlock_seen, hf.settle ha₂ h₂]
  exact bind_eq_map (hf.mergeTowards ha₂.settle h₂' .right (a₂.rightBlock c)) fun _ _ => rfl

end Frame.Inertial

end Spacing
