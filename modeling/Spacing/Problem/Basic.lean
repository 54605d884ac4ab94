import Spacing.Handle
import Spacing.Scalar
/-!
Problems: variables with a desired position and a weight, and constraints that keep a least or an
exact distance between two of them. A problem also carries what the last run left in it.
-/

namespace Spacing

variable {α : Type}

structure Variable (α : Type) where
  id : Nat
  desired : α
  weight : α
  position : α
  offset : α
  block : BlockId
  ins : List ConId
  outs : List ConId
deriving Repr, DecidableEq

/-- The right end is at least `gap` to the right of the left end, or exactly `gap` if `equality`. -/
structure Constraint (α : Type) where
  left : VarId
  right : VarId
  gap : α
  equality : Bool
  active : Bool
  multiplier : α
deriving Repr, DecidableEq

structure Problem (α : Type) where
  vars : Array (Variable α)
  constraints : Array (Constraint α)
deriving Repr, DecidableEq

instance [Scalar α] : Inhabited (Variable α) where
  default := ⟨0, Scalar.zero, Scalar.zero, Scalar.zero, Scalar.zero, 0, [], []⟩

instance [Scalar α] : Inhabited (Constraint α) where
  default := ⟨0, 0, Scalar.zero, false, false, Scalar.zero⟩

namespace Problem

def empty : Problem α :=
  ⟨#[], #[]⟩

def variableIds (p : Problem α) : List VarId :=
  List.range p.vars.size

def constraintIds (p : Problem α) : List ConId :=
  List.range p.constraints.size

def modifyVariable (p : Problem α) (v : VarId) (f : Variable α → Variable α) : Problem α :=
  { p with vars := p.vars.modify v f }

def modifyConstraint (p : Problem α) (c : ConId) (f : Constraint α → Constraint α) : Problem α :=
  { p with constraints := p.constraints.modify c f }

variable [Scalar α]

def variableAt (p : Problem α) (v : VarId) : Variable α :=
  p.vars.getD v default

def constraintAt (p : Problem α) (c : ConId) : Constraint α :=
  p.constraints.getD c default

def blockOf (p : Problem α) (v : VarId) : BlockId :=
  (p.variableAt v).block

def leftId (p : Problem α) (c : ConId) : Nat :=
  (p.variableAt (p.constraintAt c).left).id

def rightId (p : Problem α) (c : ConId) : Nat :=
  (p.variableAt (p.constraintAt c).right).id

def slack (p : Problem α) (c : ConId) : α :=
  let k := p.constraintAt c
  (p.variableAt k.right).position - (p.variableAt k.left).position - k.gap

def cost (p : Problem α) : α :=
  Scalar.sum <| p.vars.toList.map fun x =>
    let d := x.position - x.desired
    x.weight * d * d

def insertVariable (p : Problem α) (id : Nat) (desired weight : α) : Problem α :=
  { p with vars := p.vars.push ⟨id, desired, weight, desired, Scalar.zero, 0, [], []⟩ }

def insertConstraint (p : Problem α) (left right : VarId) (gap : α) (equality : Bool) :
    Problem α :=
  let c := p.constraints.size
  let p := { p with
    constraints := p.constraints.push ⟨left, right, gap, equality, false, Scalar.zero⟩ }
  let p := p.modifyVariable left fun x => { x with outs := x.outs ++ [c] }
  p.modifyVariable right fun x => { x with ins := x.ins ++ [c] }

def setDesired (p : Problem α) (v : VarId) (desired : α) : Problem α :=
  p.modifyVariable v fun x => { x with desired }

def setGap (p : Problem α) (c : ConId) (gap : α) : Problem α :=
  p.modifyConstraint c fun k => { k with gap }

/-- Lets every constraint that ends at `u` end at `v`, its gap changed by `shift`. -/
def redirectIns (p : Problem α) (u v : VarId) (shift : α) : Problem α :=
  let moved := (p.variableAt u).ins
  let p := p.modifyVariable u fun x => { x with ins := [] }
  let p := moved.foldl (fun p c =>
    p.modifyConstraint c fun k => { k with right := v, gap := k.gap + shift }) p
  p.modifyVariable v fun x => { x with ins := x.ins ++ moved }

def redirectOuts (p : Problem α) (u v : VarId) (shift : α) : Problem α :=
  let moved := (p.variableAt u).outs
  let p := p.modifyVariable u fun x => { x with outs := [] }
  let p := moved.foldl (fun p c =>
    p.modifyConstraint c fun k => { k with left := v, gap := k.gap + shift }) p
  p.modifyVariable v fun x => { x with outs := x.outs ++ moved }

end Problem

end Spacing
