import Spacing.Abort
import Spacing.Problem.Basic

namespace Spacing

variable {α : Type}

inductive Edit (α : Type)
  | addVariable (id : Nat) (desired weight : α)
  | addConstraint (left right : VarId) (gap : α) (equality : Bool)
  | setDesired (v : VarId) (desired : α)
  | setGap (c : ConId) (gap : α)
  | redirectIns (u v : VarId) (shift : α)
  | redirectOuts (u v : VarId) (shift : α)
deriving Repr, DecidableEq

namespace Problem

def requireVariable (p : Problem α) (v : VarId) : Except Abort Unit :=
  if v < p.vars.size then .ok () else .error (.noVariable v)

def requireConstraint (p : Problem α) (c : ConId) : Except Abort Unit :=
  if c < p.constraints.size then .ok () else .error (.noConstraint c)

variable [Scalar α]

def edit (p : Problem α) : Edit α → Except Abort (Problem α)
  | .addVariable id desired weight =>
    if Scalar.zero < weight then .ok (p.insertVariable id desired weight)
    else .error .weightNotPositive
  | .addConstraint left right gap equality => do
    p.requireVariable left
    p.requireVariable right
    return p.insertConstraint left right gap equality
  | .setDesired v desired => do
    p.requireVariable v
    return p.setDesired v desired
  | .setGap c gap => do
    p.requireConstraint c
    return p.setGap c gap
  | .redirectIns u v shift => do
    p.requireVariable u
    p.requireVariable v
    return p.redirectIns u v shift
  | .redirectOuts u v shift => do
    p.requireVariable u
    p.requireVariable v
    return p.redirectOuts u v shift

def edits (p : Problem α) (es : List (Edit α)) : Except Abort (Problem α) :=
  es.foldlM edit p

end Problem

end Spacing
