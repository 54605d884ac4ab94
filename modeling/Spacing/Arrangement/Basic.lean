import Spacing.Abort
import Spacing.Journal
import Spacing.Problem.Order
/-!
Arrangements: the variables of a problem, gathered in blocks that move as one. A variable's place
is the position of its block plus its own offset.
-/

namespace Spacing

variable {α : Type}

/-- Variables at fixed distances from one reference position. -/
structure Block (α : Type) where
  members : List VarId
  weight : α
  weightedPosition : α
  position : α
  /-- Constraints that enter the block from another one, once they have been collected. Some may
  have come to lie inside the block since then. -/
  entering : Option (List ConId)
  leaving : Option (List ConId)
deriving Repr, DecidableEq

structure Arrangement (α : Type) where
  problem : Problem α
  /-- A block that was merged away or split leaves its place empty, so no handle is used twice. -/
  blocks : Array (Option (Block α))
  /-- Handles in use. Retired ones stay in the list until `cleanUp`. -/
  live : List BlockId
  journal : Array (Entry α)
deriving Repr, DecidableEq

instance [Scalar α] : Inhabited (Block α) where
  default := ⟨[], Scalar.zero, Scalar.zero, Scalar.zero, none, none⟩

namespace Block

variable [Scalar α]

def weigh (p : Problem α) (members : List VarId) : α :=
  members.foldl (fun w v => w + (p.variableAt v).weight) Scalar.zero

def pullOf (p : Problem α) (members : List VarId) : α :=
  Scalar.sum <| members.map fun v =>
    let x := p.variableAt v
    (x.desired - x.offset) * x.weight

def settle (p : Problem α) (b : Block α) : Block α :=
  let pull := pullOf p b.members
  { b with weightedPosition := pull, position := pull / b.weight }

def place (p : Problem α) (members : List VarId) (position : α) : Block α :=
  let weight := weigh p members
  ⟨members, weight, position * weight, position, none, none⟩

end Block

namespace Arrangement

def standing (a : Arrangement α) : Nat :=
  a.blocks.countP Option.isSome

def block? (a : Arrangement α) (b : BlockId) : Option (Block α) :=
  a.blocks.getD b none

def record (a : Arrangement α) (e : Event α) : Arrangement α :=
  { a with journal := a.journal.push (.event e) }

def modifyBlock (a : Arrangement α) (b : BlockId) (f : Block α → Block α) : Arrangement α :=
  { a with blocks := a.blocks.modify b (Option.map f) }

def blockIds (a : Arrangement α) : List BlockId :=
  a.live.filter fun b => (a.block? b).isSome

def cleanUp (a : Arrangement α) : Arrangement α :=
  { a with live := a.blockIds }

variable [Scalar α]

def ofProblem (p : Problem α) : Arrangement α :=
  let problem : Problem α := {
    vars := p.vars.mapIdx fun v x => { x with offset := Scalar.zero, block := v }
    constraints := p.constraints.map fun k =>
      { k with active := false, multiplier := Scalar.zero } }
  { problem
    blocks := (Array.range p.vars.size).map fun v =>
      some ((Block.place problem [v] Scalar.zero).settle problem)
    live := problem.variableIds
    journal := #[] }

def blockAt (a : Arrangement α) (b : BlockId) : Block α :=
  (a.block? b).getD default

def blockOf (a : Arrangement α) (v : VarId) : BlockId :=
  a.problem.blockOf v

def leftBlock (a : Arrangement α) (c : ConId) : BlockId :=
  a.blockOf (a.problem.constraintAt c).left

def rightBlock (a : Arrangement α) (c : ConId) : BlockId :=
  a.blockOf (a.problem.constraintAt c).right

def position (a : Arrangement α) (v : VarId) : α :=
  (a.blockAt (a.blockOf v)).position + (a.problem.variableAt v).offset

def slack (a : Arrangement α) (c : ConId) : α :=
  let k := a.problem.constraintAt c
  a.position k.right - a.position k.left - k.gap

def cost (a : Arrangement α) : α :=
  Scalar.sum <| a.problem.variableIds.map fun v =>
    let x := a.problem.variableAt v
    let d := a.position v - x.desired
    x.weight * d * d

def onProblem (a : Arrangement α) (p : Problem α) : Except Abort (Arrangement α) :=
  match p.vars.find? fun x => a.blocks.size ≤ x.block with
  | some x => .error (.noBlock x.block)
  | none => .ok { a with problem := p }

def writePositions (a : Arrangement α) : Arrangement α :=
  { a with problem.vars := a.problem.vars.mapIdx fun v x =>
      { x with position := a.position v } }

def settle (a : Arrangement α) (b : BlockId) : Arrangement α :=
  a.modifyBlock b (Block.settle a.problem)

/-- The constraints between two blocks in use, each as the places of its blocks in the list. -/
def arcs (a : Arrangement α) : List (Nat × Nat) :=
  let ids := a.blockIds
  a.problem.constraints.toList.filterMap fun k =>
    let left := a.blockOf k.left
    let right := a.blockOf k.right
    if left = right then none
    else do return (← ids.idxOf? left, ← ids.idxOf? right)

def graph (a : Arrangement α) : Digraph :=
  let arcs := a.arcs
  { successors := (Array.range a.blockIds.length).map fun i =>
      (arcs.filter fun e => e.1 == i).map Prod.snd }

def isCyclic (a : Arrangement α) : Bool :=
  let arcs := a.arcs
  a.graph.isCyclic <| (Array.range a.blockIds.length).map fun i =>
    arcs.countP fun e => e.2 == i

end Arrangement

end Spacing
