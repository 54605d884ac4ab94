import Spacing.Journal
import Spacing.Problem.Basic
import Spacing.Rectangle

namespace Spacing

variable {α : Type}

/-- The center of rectangle `right` is to stay at least `gap` above that of rectangle `left`. -/
structure Separation (α : Type) where
  left : Nat
  right : Nat
  gap : α
deriving Repr, DecidableEq

namespace Separation

def before (s t : Separation α) : Bool :=
  decide (s.left < t.left) || s.left == t.left && decide (s.right ≤ t.right)

variable [Scalar α]

/-- The separation of rectangle `j` from an earlier rectangle `i`. The one with the smaller center is
on the left, and the earlier one if neither is smaller. -/
def ofPair (axis : Axis) (i j : Nat) (a b : Rectangle α) : Option (Separation α) :=
  if a.overlap b axis.other ≤ Scalar.epsilon then none
  else
    let gap := (a.extent axis + b.extent axis) / Scalar.two
    if b.center axis < a.center axis then some ⟨j, i, gap⟩ else some ⟨i, j, gap⟩

def ofFirst (axis : Axis) (i : Nat) (a : Rectangle α) (rest : List (Rectangle α)) :
    List (Separation α) :=
  (rest.zipIdx (i + 1)).filterMap fun (b, j) => ofPair axis i j a b

def ofList (axis : Axis) (i : Nat) : List (Rectangle α) → List (Separation α)
  | [] => []
  | a :: rest => ofFirst axis i a rest ++ ofList axis (i + 1) rest

/-- Whether two separations in a row keep the ends of `s` as far apart as `s` does. `outgoing` has
the separations by their left rectangle. -/
def isImplied (outgoing : Array (List (Separation α))) (s : Separation α) : Bool :=
  (outgoing.getD s.left []).any fun t =>
    t.right != s.right && (outgoing.getD t.right []).any fun u =>
      u.right == s.right && decide (s.gap ≤ t.gap + u.gap)

def reduce (size : Nat) (all : List (Separation α)) : List (Separation α) :=
  let outgoing := (Array.range size).map fun v => all.filter fun s => s.left == v
  all.filter fun s => !s.isImplied outgoing

end Separation

variable [Scalar α]

def separations (rects : List (Rectangle α)) (axis : Axis) (reduced : Bool) :
    List (Separation α) :=
  let all := Separation.ofList axis 0 rects
  let kept := if reduced then Separation.reduce rects.length all else all
  kept.mergeSort Separation.before

def separationNotes (rects : List (Rectangle α)) (axis : Axis) (reduced : Bool) :
    List (Note α) :=
  let dropped := (separations rects axis false).length - (separations rects axis reduced).length
  if dropped = 0 then [] else [.reduced dropped]

def Problem.ofRectangles (rects : List (Rectangle α)) (axis : Axis) (reduced : Bool) :
    Problem α :=
  let p := rects.zipIdx.foldl
    (fun p (r, i) => p.insertVariable i (r.center axis) Scalar.one) Problem.empty
  (separations rects axis reduced).foldl
    (fun p s => p.insertConstraint s.left s.right s.gap false) p

end Spacing
