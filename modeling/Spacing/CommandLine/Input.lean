import Spacing.CommandLine.Arguments
import Spacing.Json.Reader
import Spacing.Problem.Order
import Spacing.Separation

namespace Spacing

variable {α : Type}

structure VariableEntry (α : Type) where
  id : Nat
  desired : α
  weight : α
deriving Repr, DecidableEq

structure ConstraintEntry (α : Type) where
  left : Nat
  right : Nat
  gap : α
  equality : Bool
deriving Repr, DecidableEq

structure SolveDocument (α : Type) where
  mode : Option Mode
  vars : List (VariableEntry α)
  constraints : List (ConstraintEntry α)
deriving Repr, DecidableEq

structure RectanglesDocument (α : Type) where
  mode : Option Mode
  axis : Option Axis
  reduced : Bool
  rectangles : List (Rectangle α)
deriving Repr, DecidableEq

namespace Json

/-- The values of a record's fields in their declared order, where they are given. A record is an
object, in which other members are passed over but none of these may be repeated, or an array with
the fields in their order, in which the last ones may be missing. -/
def fields? (names : List String) : Json → Option (List (Option Json))
  | .array items =>
    if items.length ≤ names.length then
      some (items.map some ++ List.replicate (names.length - items.length) none)
    else none
  | .object members => do
    let members ← members.mapM fun (key, v) => do return (← key, v)
    names.mapM fun name =>
      match members.filter fun m => m.1 == name with
      | [] => some none
      | [(_, v)] => some (some v)
      | _ => none
  | _ => none

def float? : Json → Option Float
  | .number n => n.toFloat?
  | _ => none

def nat? : Json → Option Nat
  | .number n => n.toNat?
  | _ => none

def bool? : Json → Option Bool
  | .bool b => some b
  | _ => none

def array? : Json → Option (List Json)
  | .array items => some items
  | _ => none

def choice? : Json → Option String
  | .string s => s
  | .object [(key, .null)] => key
  | _ => none

def orElse {β : Type} (field : Option Json) (read : Json → Option β) (default : β) : Option β :=
  match field with
  | none => some default
  | some v => read v

def nullable? {β : Type} (read : Json → Option β) : Json → Option (Option β)
  | .null => some none
  | v => some <$> read v

def mode? (v : Json) : Option Mode := do
  Mode.ofText? (← v.choice?)

def axis? (v : Json) : Option Axis := do
  Axis.ofText? (← v.choice?)

end Json

open Json

def VariableEntry.ofJson? (v : Json) : Option (VariableEntry Float) := do
  match ← v.fields? ["id", "desired", "weight"] with
  | [some id, some desired, weight] =>
    return ⟨← id.nat?, ← desired.float?, ← orElse weight float? 1.0⟩
  | _ => none

def ConstraintEntry.ofJson? (v : Json) : Option (ConstraintEntry Float) := do
  match ← v.fields? ["left", "right", "gap", "equality"] with
  | [some left, some right, some gap, equality] =>
    return ⟨← left.nat?, ← right.nat?, ← gap.float?, ← orElse equality bool? false⟩
  | _ => none

def Rectangle.ofJson? (v : Json) : Option (Rectangle Float) := do
  match ← v.fields? ["min_x", "max_x", "min_y", "max_y"] with
  | [some minX, some maxX, some minY, some maxY] =>
    return ⟨← minX.float?, ← maxX.float?, ← minY.float?, ← maxY.float?⟩
  | _ => none

def SolveDocument.ofJson? (v : Json) : Option (SolveDocument Float) := do
  match ← v.fields? ["mode", "variables", "constraints"] with
  | [mode, some vars, constraints] =>
    return {
      mode := ← orElse mode (nullable? mode?) none
      vars := ← (← vars.array?).mapM VariableEntry.ofJson?
      constraints := ← (← orElse constraints array? []).mapM ConstraintEntry.ofJson? }
  | _ => none

def RectanglesDocument.ofJson? (v : Json) : Option (RectanglesDocument Float) := do
  match ← v.fields? ["mode", "axis", "transitive_reduction", "rectangles"] with
  | [mode, axis, reduced, some rectangles] =>
    return {
      mode := ← orElse mode (nullable? mode?) none
      axis := ← orElse axis (nullable? axis?) none
      reduced := ← orElse reduced bool? false
      rectangles := ← (← rectangles.array?).mapM Rectangle.ofJson? }
  | _ => none

inductive InputFault (α : Type)
  | weightNotPositive (id : Nat) (weight : α)
  | desiredNotFinite (id : Nat)
  | repeatedId (id : Nat)
  | unknownId (index id : Nat)
  | gapNotFinite (index : Nat)
  | cyclic
  | invertedBounds (index : Nat)
deriving Repr, DecidableEq

namespace SolveDocument

variable [Scalar α]

def ids (d : SolveDocument α) : List Nat :=
  d.vars.map VariableEntry.id

def addVariable (p : Problem α) (x : VariableEntry α) : Except (InputFault α) (Problem α) :=
  if !(Scalar.isFinite x.weight && decide (Scalar.zero < x.weight)) then
    .error (.weightNotPositive x.id x.weight)
  else if !Scalar.isFinite x.desired then .error (.desiredNotFinite x.id)
  else if p.vars.any fun y => y.id == x.id then .error (.repeatedId x.id)
  else .ok (p.insertVariable x.id x.desired x.weight)

def lookUp (d : SolveDocument α) (index id : Nat) : Except (InputFault α) VarId :=
  match d.ids.idxOf? id with
  | none => .error (.unknownId index id)
  | some v => .ok v

def addConstraint (d : SolveDocument α) (p : Problem α) (k : ConstraintEntry α × Nat) :
    Except (InputFault α) (Problem α) := do
  let (k, index) := k
  let left ← d.lookUp index k.left
  let right ← d.lookUp index k.right
  if !Scalar.isFinite k.gap then .error (.gapNotFinite index)
  else return p.insertConstraint left right k.gap k.equality

def problem (d : SolveDocument α) : Except (InputFault α) (Problem α) := do
  let p ← d.vars.foldlM addVariable Problem.empty
  let p ← d.constraints.zipIdx.foldlM d.addConstraint p
  if p.isCyclic then .error .cyclic else return p

end SolveDocument

def RectanglesDocument.problem [Scalar α] (d : RectanglesDocument α) (axis : Axis)
    (reduced : Bool) : Except (InputFault α) (Problem α) :=
  match d.rectangles.findIdx? fun r => !r.isUpright with
  | some index => .error (.invertedBounds index)
  | none => .ok (Problem.ofRectangles d.rectangles axis reduced)

end Spacing
