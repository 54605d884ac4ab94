import Spacing.Arrangement.Basic
import Spacing.Slots

namespace Spacing

variable {α : Type}

inductive Side
  | left
  | right
deriving Repr, DecidableEq

def Constraint.endOn (k : Constraint α) : Side → VarId
  | .left => k.left
  | .right => k.right

def Variable.towards (x : Variable α) : Side → List ConId
  | .left => x.ins
  | .right => x.outs

namespace Block

def boundary (b : Block α) : Side → Option (List ConId)
  | .left => b.entering
  | .right => b.leaving

def setBoundary (b : Block α) (side : Side) (cs : List ConId) : Block α :=
  match side with
  | .left => { b with entering := some cs }
  | .right => { b with leaving := some cs }

variable [Scalar α]

/-- The block with the members of another one, which were moved by `shift` against each other's
reference position. A boundary is known afterwards if it was known of both. -/
def join (s b : Block α) (shift : α) : Block α :=
  let weightedPosition := s.weightedPosition + (b.weightedPosition - shift * b.weight)
  let weight := s.weight + b.weight
  { members := s.members ++ b.members
    weight
    weightedPosition
    position := weightedPosition / weight
    entering := do return (← s.entering) ++ (← b.entering)
    leaving := do return (← s.leaving) ++ (← b.leaving) }

end Block

namespace Arrangement

theorem standing_modifyBlock (a : Arrangement α) (b : BlockId) (f : Block α → Block α) :
    (a.modifyBlock b f).standing = a.standing :=
  Slots.countP_modify _ _ _

variable [Scalar α]

def absorb (a : Arrangement α) (survivor absorbed : BlockId) (s b : Block α) (shift : α) :
    Arrangement α :=
  { a with
    problem := b.members.foldl (fun p v =>
      p.modifyVariable v fun x => { x with offset := x.offset + shift, block := survivor }) a.problem
    blocks := (a.blocks.setIfInBounds absorbed none).setIfInBounds survivor
      (some (s.join b shift)) }

/-- Joins the blocks on either side of `c` so that it is tight, and makes it active. The block with
more members stays, the left one if they have equally many. Returns the block that stays. -/
def merge (a : Arrangement α) (c : ConId) : Except Abort (Arrangement α × BlockId) :=
  let k := a.problem.constraintAt c
  let left := a.leftBlock c
  let right := a.rightBlock c
  let leftOffset := (a.problem.variableAt k.left).offset
  let rightOffset := (a.problem.variableAt k.right).offset
  if left = right then .error (.endsTogether c) else
  match a.block? left, a.block? right with
  | none, _ => .error (.noBlock left)
  | some _, none => .error (.noBlock right)
  | some l, some r =>
    let a := { a with problem := a.problem.modifyConstraint c fun k => { k with active := true } }
    if l.members.length < r.members.length then
      let a := a.absorb right left r l (rightOffset - k.gap - leftOffset)
      .ok (a.record (.merged c right left), right)
    else
      let a := a.absorb left right l r (leftOffset + k.gap - rightOffset)
      .ok (a.record (.merged c left right), left)

theorem standing_absorb {a : Arrangement α} {survivor absorbed : BlockId} {s b : Block α}
    {shift : α} (hs : a.block? survivor = some s) (hb : a.block? absorbed = some b)
    (hne : survivor ≠ absorbed) :
    (a.absorb survivor absorbed s b shift).standing + 1 = a.standing := by
  simp only [absorb, standing]
  have h := Slots.getD_set_of_ne a.blocks none (Ne.symm hne)
  rw [Slots.countP_set_some (h.trans hs), Slots.countP_set_none hb]

theorem standing_merge {a a' : Arrangement α} {c : ConId} {b : BlockId}
    (h : a.merge c = .ok (a', b)) : a'.standing + 1 = a.standing := by
  simp only [merge] at h
  split at h
  · simp at h
  · rename_i hne
    split at h
    · simp at h
    · simp at h
    · rename_i l r hl hr
      split at h <;> simp only [Except.ok.injEq, Prod.mk.injEq] at h <;> rw [← h.1]
      · exact standing_absorb hr hl (Ne.symm hne)
      · exact standing_absorb hl hr hne

def crossing (a : Arrangement α) (side : Side) (b : BlockId) (cs : List ConId) : List ConId :=
  cs.filter fun c => a.blockOf ((a.problem.constraintAt c).endOn side) ≠ b

def collectBoundary (a : Arrangement α) (side : Side) (b : BlockId) : Arrangement α :=
  let found := (a.blockAt b).members.flatMap fun v =>
    a.crossing side b ((a.problem.variableAt v).towards side)
  a.modifyBlock b fun x => x.setBoundary side found

def ensureBoundary (a : Arrangement α) (side : Side) (b : BlockId) : Arrangement α :=
  if ((a.blockAt b).boundary side).isSome then a else a.collectBoundary side b

def mostUrgent (a : Arrangement α) (cs : List ConId) : Option ConId :=
  match cs.find? fun c => (a.problem.constraintAt c).equality with
  | some c => some c
  | none => firstLeast a.slack cs

/-- An equality is merged across whatever its slack, to hold it tight from then on. -/
def needsMerge (a : Arrangement α) (c : ConId) : Bool :=
  (a.problem.constraintAt c).equality || decide (a.slack c < Scalar.zero)

def nextMerge (a : Arrangement α) (side : Side) (b : BlockId) : Option ConId :=
  let known := ((a.blockAt b).boundary side).getD []
  (a.mostUrgent (a.crossing side b known)).filter fun c => a.needsMerge c

theorem standing_collectBoundary (a : Arrangement α) (side : Side) (b : BlockId) :
    (a.collectBoundary side b).standing = a.standing :=
  a.standing_modifyBlock b _

theorem standing_ensureBoundary (a : Arrangement α) (side : Side) (b : BlockId) :
    (a.ensureBoundary side b).standing = a.standing := by
  rw [ensureBoundary]
  split
  · rfl
  · exact a.standing_collectBoundary side b

/-- Merges block `b` with the block across the most urgent constraint on one side, and goes on with
the block that stays, until no constraint on that side needs a merge. Returns the last block. -/
def mergeLoop (a : Arrangement α) (side : Side) (b : BlockId) :
    Except Abort (Arrangement α × BlockId) :=
  let a₁ := a.ensureBoundary side b
  match a₁.nextMerge side b with
  | none => .ok (a₁, b)
  | some c =>
    let far := a₁.blockOf ((a₁.problem.constraintAt c).endOn side)
    match _h : (a₁.ensureBoundary side far).merge c with
    | .error e => .error e
    | .ok (a₂, survivor) => a₂.mergeLoop side survivor
termination_by a.standing
decreasing_by
  have := standing_merge _h
  rw [standing_ensureBoundary, standing_ensureBoundary] at this
  omega

def mergeTowards (a : Arrangement α) (side : Side) (b : BlockId) :
    Except Abort (Arrangement α × BlockId) :=
  (a.collectBoundary side b).mergeLoop side b

end Arrangement

end Spacing
