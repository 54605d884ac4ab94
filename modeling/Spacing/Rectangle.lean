import Spacing.Scalar

namespace Spacing

variable {α : Type}

inductive Axis
  | x
  | y
deriving Repr, DecidableEq

namespace Axis

def other : Axis → Axis
  | .x => .y
  | .y => .x

def text : Axis → String
  | .x => "x"
  | .y => "y"

end Axis

structure Rectangle (α : Type) where
  minX : α
  maxX : α
  minY : α
  maxY : α
deriving Repr, DecidableEq

namespace Rectangle

def low (r : Rectangle α) : Axis → α
  | .x => r.minX
  | .y => r.minY

def high (r : Rectangle α) : Axis → α
  | .x => r.maxX
  | .y => r.maxY

variable [Scalar α]

def ofCenter (x y width height : α) : Rectangle α :=
  ⟨x - width / Scalar.two, x + width / Scalar.two,
    y - height / Scalar.two, y + height / Scalar.two⟩

def extent (r : Rectangle α) (axis : Axis) : α :=
  r.high axis - r.low axis

def center (r : Rectangle α) (axis : Axis) : α :=
  (r.low axis + r.high axis) / Scalar.two

/-- The length that the projections onto an axis have in common, negative if they are apart. -/
def overlap (a b : Rectangle α) (axis : Axis) : α :=
  Scalar.least (a.high axis) (b.high axis) - Scalar.greatest (a.low axis) (b.low axis)

def moveTo (r : Rectangle α) (axis : Axis) (center : α) : Rectangle α :=
  let d := center - r.center axis
  match axis with
  | .x => { r with minX := r.minX + d, maxX := r.maxX + d }
  | .y => { r with minY := r.minY + d, maxY := r.maxY + d }

def isUpright (r : Rectangle α) : Bool :=
  decide (r.minX ≤ r.maxX) && decide (r.minY ≤ r.maxY)

end Rectangle

end Spacing
