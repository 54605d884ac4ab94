import Spacing.Proofs.Arrangement.Multiplier
import Spacing.Solver.Operation
/-!
Frames of reference: the same state with all places read differently. In an inertial frame distances
are what they were, and blocks join and settle as before.
-/

namespace Spacing

/-- How places read in a frame, the weighted position of a block, by the block's weight, and the
position that is written for a variable. -/
structure Frame (α : Type) where
  place : α → α
  moment : α → α → α
  written : VarId → α → α

variable {α : Type} {f : Frame α}

def Frame.rewritten (f : Frame α) : Frame α :=
  { f with written := fun _ => f.place }

def Variable.seen (f : Frame α) (v : VarId) (x : Variable α) : Variable α :=
  { x with desired := f.place x.desired, position := f.written v x.position }

def Block.seen (f : Frame α) (b : Block α) : Block α :=
  { b with
    weightedPosition := f.moment b.weight b.weightedPosition
    position := f.place b.position }

def Problem.seen (f : Frame α) (p : Problem α) : Problem α :=
  { p with vars := p.vars.mapIdx fun v x => x.seen f v }

def Arrangement.seen (f : Frame α) (a : Arrangement α) : Arrangement α :=
  { a with problem := a.problem.seen f, blocks := a.blocks.map (Option.map (Block.seen f)) }

def Solver.seen (f : Frame α) (s : Solver α) : Solver α :=
  { s with arrangement := s.arrangement.seen f }

def Edit.seen (f : Frame α) : Edit α → Edit α
  | .addVariable id desired weight => .addVariable id (f.place desired) weight
  | .setDesired v desired => .setDesired v (f.place desired)
  | e => e

def Operation.seen (f : Frame α) : Operation α → Operation α
  | .setDesired v desired => .setDesired v (f.place desired)
  | op => op

theorem firstLeast_congr [Scalar α] {β : Type} {key key' : β → α} {xs : List β}
    (h : ∀ x ∈ xs, key x = key' x) : firstLeast key xs = firstLeast key' xs := by
  cases xs with
  | nil => rfl
  | cons x xs =>
    suffices hfold : ∀ (ys : List β) (y : β), (∀ z ∈ y :: ys, key z = key' z) →
        ys.foldl (fun best z => if key z < key best then z else best) y =
          ys.foldl (fun best z => if key' z < key' best then z else best) y from
      congrArg some (hfold xs x h)
    intro ys
    induction ys with
    | nil => exact fun _ _ => rfl
    | cons z ys ih =>
      intro y hy
      have hz := hy z (by simp)
      have hy' := hy y (by simp)
      rw [List.foldl_cons, List.foldl_cons, hz, hy']
      apply ih
      intro w hw
      rcases List.mem_cons.mp hw with rfl | hw
      · split
        · exact hz
        · exact hy'
      · exact hy w (by simp [hw])

variable [Scalar α]

namespace Problem

variable {p : Problem α} {u v : VarId} {c : ConId}

omit [Scalar α] in
@[simp]
theorem size_seen : (p.seen f).vars.size = p.vars.size := by
  simp [seen]

theorem variableAt_seen (hv : v < p.vars.size) :
    (p.seen f).variableAt v = (p.variableAt v).seen f v := by
  simp [seen, variableAt, hv]

theorem variableAt_seen_eq (f : Frame α) (v : VarId) : (p.seen f).variableAt v = { p.variableAt v with
    desired := ((p.seen f).variableAt v).desired, position := ((p.seen f).variableAt v).position } := by
  by_cases hv : v < p.vars.size
  · rw [variableAt_seen hv]
    rfl
  · rw [variableAt_of_le (p := p.seen f) (by simpa using hv), variableAt_of_le (Nat.not_lt.mp hv)]

theorem blockOf_seen : (p.seen f).blockOf v = p.blockOf v := by
  rw [blockOf, variableAt_seen_eq]
  rfl

theorem towards_seen (side : Side) : ((p.seen f).variableAt v).towards side =
    (p.variableAt v).towards side := by
  rw [variableAt_seen_eq]
  cases side <;> rfl

theorem offset_seen : ((p.seen f).variableAt v).offset = (p.variableAt v).offset := by
  rw [variableAt_seen_eq]

theorem weight_seen : ((p.seen f).variableAt v).weight = (p.variableAt v).weight := by
  rw [variableAt_seen_eq]

theorem leftId_seen : (p.seen f).leftId c = p.leftId c := by
  rw [leftId, variableAt_seen_eq]
  rfl

theorem rightId_seen : (p.seen f).rightId c = p.rightId c := by
  rw [rightId, variableAt_seen_eq]
  rfl

theorem crossings_seen : (p.seen f).crossings v = p.crossings v := by
  rw [crossings, crossings, variableAt_seen_eq]

theorem tree_seen (b : BlockId) (root : VarId) : (p.seen f).tree b root = p.tree b root :=
  tree_congr size_seen (fun _ => crossings_seen) (fun _ => blockOf_seen) rfl rfl b root

theorem order_seen : (p.seen f).order = p.order := by
  have hgraph : (p.seen f).graph = p.graph := by
    simp only [graph, seen, Digraph.mk.injEq]
    apply Array.ext
    · simp
    · intro i h₁ h₂
      simp [Variable.seen, constraintAt]
  have hsources (v : VarId) : ((p.seen f).variableAt v).ins = (p.variableAt v).ins :=
    towards_seen .left
  simp only [order, hgraph, variableIds, size_seen, hsources]

omit [Scalar α] in
theorem modifyVariable_seen {h h' : Variable α → Variable α}
    (hh : ∀ v x, (h x).seen f v = h' (x.seen f v)) :
    (p.seen f).modifyVariable u h' = (p.modifyVariable u h).seen f := by
  symm
  simp only [seen, modifyVariable, Problem.mk.injEq, and_true]
  apply Array.ext
  · simp
  · intro i h₁ h₂
    by_cases hi : u = i <;> simp [Array.getElem_modify, hi, hh]

omit [Scalar α] in
theorem seen_modifyVariable {h : Variable α → Variable α}
    (hh : ∀ v x, (h x).seen f v = h (x.seen f v)) :
    (p.modifyVariable u h).seen f = (p.seen f).modifyVariable u h :=
  (modifyVariable_seen hh).symm

omit [Scalar α] in
theorem seen_modifyAll {h : Variable α → Variable α} (hh : ∀ v x, (h x).seen f v = h (x.seen f v))
    (vs : List VarId) : (vs.foldl (fun p v => p.modifyVariable v h) p).seen f =
      vs.foldl (fun p v => p.modifyVariable v h) (p.seen f) := by
  induction vs generalizing p with
  | nil => rfl
  | cons v vs ih => rw [List.foldl_cons, List.foldl_cons, ih, seen_modifyVariable hh]

omit [Scalar α] in
theorem requireVariable_seen : (p.seen f).requireVariable v = p.requireVariable v := by
  rw [requireVariable, requireVariable, size_seen]

omit [Scalar α] in
theorem seen_modifyConstraints (h : Constraint α → Constraint α) (cs : List ConId) :
    (cs.foldl (fun p c => p.modifyConstraint c h) p).seen f =
      cs.foldl (fun p c => p.modifyConstraint c h) (p.seen f) := by
  induction cs generalizing p with
  | nil => rfl
  | cons c cs ih => exact ih

theorem seen_insertVariable {id : Nat} {x w : α} (hx : f.written p.vars.size x = f.place x) :
    (p.insertVariable id x w).seen f = (p.seen f).insertVariable id (f.place x) w := by
  simp only [seen, insertVariable, Array.mapIdx_push, Variable.seen, hx]

theorem seen_insertConstraint (gap : α) (equality : Bool) :
    (p.insertConstraint u v gap equality).seen f = (p.seen f).insertConstraint u v gap equality := by
  simp only [insertConstraint]
  rw [seen_modifyVariable fun _ _ => rfl, seen_modifyVariable fun _ _ => rfl]
  rfl

theorem seen_redirectIns (shift : α) :
    (p.redirectIns u v shift).seen f = (p.seen f).redirectIns u v shift := by
  have hmoved : ((p.seen f).variableAt u).ins = (p.variableAt u).ins := towards_seen .left
  simp only [redirectIns]
  rw [hmoved, seen_modifyVariable fun _ _ => rfl, seen_modifyConstraints,
    seen_modifyVariable fun _ _ => rfl]

theorem seen_redirectOuts (shift : α) :
    (p.redirectOuts u v shift).seen f = (p.seen f).redirectOuts u v shift := by
  have hmoved : ((p.seen f).variableAt u).outs = (p.variableAt u).outs := towards_seen .right
  simp only [redirectOuts]
  rw [hmoved, seen_modifyVariable fun _ _ => rfl, seen_modifyConstraints,
    seen_modifyVariable fun _ _ => rfl]

theorem edit_seen {e : Edit α}
    (he : ∀ id x w, e = .addVariable id x w → ∀ v, f.written v x = f.place x) :
    (p.seen f).edit (e.seen f) = (p.edit e).map (Problem.seen f) := by
  cases e with
  | addVariable id x w =>
    unfold edit
    dsimp only [Edit.seen]
    rw [← seen_insertVariable (he id x w rfl _)]
    split <;> rfl
  | addConstraint u v gap equality =>
    unfold edit
    dsimp only [Edit.seen]
    rw [requireVariable_seen, requireVariable_seen, ← seen_insertConstraint]
    cases p.requireVariable u <;> cases p.requireVariable v <;> rfl
  | setDesired v x =>
    have hset : (p.seen f).setDesired v (f.place x) = (p.setDesired v x).seen f :=
      modifyVariable_seen fun _ _ => rfl
    unfold edit
    dsimp only [Edit.seen]
    rw [requireVariable_seen, hset]
    cases p.requireVariable v <;> rfl
  | setGap c gap =>
    have hc : (p.seen f).requireConstraint c = p.requireConstraint c := rfl
    unfold edit
    dsimp only [Edit.seen]
    rw [hc]
    cases p.requireConstraint c <;> rfl
  | redirectIns u v shift =>
    unfold edit
    dsimp only [Edit.seen]
    rw [requireVariable_seen, requireVariable_seen, ← seen_redirectIns]
    cases p.requireVariable u <;> cases p.requireVariable v <;> rfl
  | redirectOuts u v shift =>
    unfold edit
    dsimp only [Edit.seen]
    rw [requireVariable_seen, requireVariable_seen, ← seen_redirectOuts]
    cases p.requireVariable u <;> cases p.requireVariable v <;> rfl

theorem weigh_seen (vs : List VarId) : Block.weigh (p.seen f) vs = Block.weigh p vs := by
  simp only [Block.weigh, weight_seen]

end Problem

namespace Arrangement

variable {a : Arrangement α} {b i : BlockId} {v : VarId} {c : ConId} {side : Side}

omit [Scalar α] in
theorem block?_seen : (a.seen f).block? b = (a.block? b).map (Block.seen f) := by
  simp only [seen, block?, Array.getD_eq_getD_getElem?, Array.getElem?_map]
  cases a.blocks[b]? <;> rfl

theorem blockAt_seen {B : Block α} (hB : a.block? b = some B) : (a.seen f).blockAt b = B.seen f := by
  rw [blockAt, block?_seen, hB]
  rfl

theorem members_seen : ((a.seen f).blockAt b).members = (a.blockAt b).members := by
  rw [blockAt, blockAt, block?_seen]
  cases a.block? b <;> rfl

theorem boundary_seen : ((a.seen f).blockAt b).boundary side = (a.blockAt b).boundary side := by
  rw [blockAt, blockAt, block?_seen]
  cases a.block? b <;> cases side <;> rfl

omit [Scalar α] in
theorem isSome_block?_seen : ((a.seen f).block? b).isSome = (a.block? b).isSome := by
  rw [block?_seen, Option.isSome_map]

omit [Scalar α] in
theorem blockIds_seen : (a.seen f).blockIds = a.blockIds := by
  simp only [blockIds, isSome_block?_seen]
  rfl

theorem blockOf_seen : (a.seen f).blockOf v = a.blockOf v :=
  Problem.blockOf_seen

theorem leftBlock_seen : (a.seen f).leftBlock c = a.leftBlock c :=
  blockOf_seen

theorem rightBlock_seen : (a.seen f).rightBlock c = a.rightBlock c :=
  blockOf_seen

theorem crossing_seen (cs : List ConId) : (a.seen f).crossing side b cs = a.crossing side b cs := by
  simp only [crossing, blockOf_seen]
  rfl

omit [Scalar α] in
theorem seen_modifyBlock {h h' : Block α → Block α}
    (hh : ∀ B, a.block? b = some B → (h B).seen f = h' (B.seen f)) :
    (a.modifyBlock b h).seen f = (a.seen f).modifyBlock b h' := by
  simp only [seen, modifyBlock, Arrangement.mk.injEq, true_and, and_true]
  apply Array.ext
  · simp
  · intro i h₁ h₂
    have hi : i < a.blocks.size := by simpa using h₁
    by_cases hbi : b = i
    · subst hbi
      have hlookup : a.block? b = a.blocks[b] := by simp [block?, hi]
      rw [hlookup] at hh
      simp only [Array.getElem_map, Array.getElem_modify, if_true, Option.map_map]
      cases hB : a.blocks[b] with
      | none => rfl
      | some B => exact congrArg some (hh B hB)
    · simp [Array.getElem_modify, hbi]

end Arrangement

/-- In an inertial frame distances are what they were, and so are the weights of blocks and what
becomes of them when they are joined or settle, in arrangements that `Fit`. -/
structure Frame.Inertial (f : Frame α) (Fit : Arrangement α → Prop) : Prop where
  place_sub : ∀ x y, f.place x - f.place y = x - y
  place_add : ∀ x y, f.place x + y = f.place (x + y)
  place_mul : ∀ x w, f.place x * w = f.moment w (x * w)
  seen_join : ∀ a : Arrangement α, a.Intact → Fit a → ∀ b i B C, a.block? b = some B →
    a.block? i = some C → ∀ shift, (B.seen f).join (C.seen f) shift = (B.join C shift).seen f
  seen_settle : ∀ a : Arrangement α, a.Intact → Fit a → ∀ b B, a.block? b = some B →
    (B.seen f).settle (a.problem.seen f) = (B.settle a.problem).seen f
  fit_step : ∀ a a' : Arrangement α, a.Intact → Fit a → a.Step a' → Fit a'

namespace Frame.Inertial

variable {Fit : Arrangement α → Prop} (hf : f.Inertial Fit) {a a' : Arrangement α}
include hf

theorem steps (ha : a.Intact) (h : Fit a) (hs : a.Steps a') : Fit a' := by
  induction hs with
  | refl => exact h
  | tail hs' hs ih => exact hf.fit_step _ _ (ha.steps hs') ih hs

theorem rewritten : f.rewritten.Inertial Fit where
  place_sub := hf.place_sub
  place_add := hf.place_add
  place_mul := hf.place_mul
  seen_join := hf.seen_join
  seen_settle a ha h b B hB := by
    -- What is written takes no part in the laws.
    have hpull : Block.pullOf (a.problem.seen f.rewritten) B.members =
        Block.pullOf (a.problem.seen f) B.members := by
      refine congrArg Scalar.sum (List.map_congr_left fun v hv => ?_)
      have hv := ha.lt_of_mem hB hv
      rw [Problem.variableAt_seen hv, Problem.variableAt_seen hv]
      rfl
    refine Eq.trans ?_ (hf.seen_settle a ha h b B hB)
    let settled (x : α) : Block α := { B.seen f with weightedPosition := x, position := x / B.weight }
    exact congrArg settled hpull
  fit_step := hf.fit_step

variable (ha : a.Intact)
include ha

theorem position {v : VarId} (hv : v < a.problem.vars.size) :
    (a.seen f).position v = f.place (a.position v) := by
  obtain ⟨B, hB⟩ := ha.exists_block hv
  have hoffset : ((a.seen f).problem.variableAt v).offset = (a.problem.variableAt v).offset :=
    Problem.offset_seen
  rw [Arrangement.position, Arrangement.position, Arrangement.blockOf_seen,
    Arrangement.blockAt_seen hB, Arrangement.blockAt_eq hB, hoffset]
  exact hf.place_add _ _

theorem slack {c : ConId} (hc : c < a.problem.constraints.size) : (a.seen f).slack c = a.slack c := by
  have hl := hf.position ha (ha.consistent.left_lt c hc)
  have hr := hf.position ha (ha.consistent.right_lt c hc)
  rw [Arrangement.slack, Arrangement.slack]
  change (a.seen f).position (a.problem.constraintAt c).right -
    (a.seen f).position (a.problem.constraintAt c).left - _ = _
  rw [hl, hr, hf.place_sub]
  rfl

theorem cost : (a.seen f).cost = a.cost := by
  have hids : (a.seen f).problem.variableIds = a.problem.variableIds := by
    simp [Problem.variableIds, Arrangement.seen]
  rw [Arrangement.cost, Arrangement.cost, hids]
  refine congrArg Scalar.sum (List.map_congr_left fun v hv => ?_)
  have hv : v < a.problem.vars.size := List.mem_range.mp hv
  have hx : (a.seen f).problem.variableAt v = (a.problem.variableAt v).seen f v :=
    Problem.variableAt_seen hv
  have hd : f.place (a.position v) - f.place (a.problem.variableAt v).desired =
      a.position v - (a.problem.variableAt v).desired := hf.place_sub _ _
  rw [hx, hf.position ha hv]
  simp only [Variable.seen, hd]

theorem seen_writePositions :
    (a.seen f).writePositions = a.writePositions.seen f.rewritten := by
  have hblocks : (a.seen f).writePositions.blocks = (a.writePositions.seen f.rewritten).blocks := rfl
  simp only [Arrangement.writePositions, Arrangement.seen, Problem.seen, Arrangement.mk.injEq,
    Problem.mk.injEq, and_true, Array.mapIdx_mapIdx]
  refine ⟨?_, hblocks⟩
  apply Array.ext
  · simp
  · intro v h₁ h₂
    have hv : v < a.problem.vars.size := by simpa using h₁
    have hposition := hf.position ha hv
    simp only [Arrangement.seen, Problem.seen] at hposition
    simp only [Array.getElem_mapIdx, Function.comp_apply, hposition]
    rfl

end Frame.Inertial

end Spacing
