/-!
Scalars: the numbers that positions, gaps and weights are made of. The method uses the four
operations, the two comparisons and a few constants, so it runs alike on machine floats and on
exact rationals.
-/

namespace Spacing

/-- Numbers that the method can compute with. No law is assumed: comparisons may be undecided in
both directions, as they are for a float that is not a number. -/
class Scalar (α : Type) extends Add α, Sub α, Mul α, Div α, Neg α, LT α, LE α where
  zero : α
  noTerms : α
  one : α
  two : α
  epsilon : α
  tolerance : α
  isFinite : α → Bool
  decidableLT : DecidableLT α
  decidableLE : DecidableLE α

attribute [reducible, instance] Scalar.decidableLT Scalar.decidableLE

instance : Scalar Float where
  zero := 0.0
  noTerms := -0.0
  one := 1.0
  two := 2.0
  epsilon := 1e-7
  tolerance := 1e-4
  isFinite := Float.isFinite
  decidableLT := Float.decLt
  decidableLE := Float.decLe

instance : Scalar Rat where
  toAdd := Rat.instAdd
  toSub := Rat.instSub
  toMul := Rat.instMul
  toDiv := Rat.instDiv
  toNeg := Rat.instNeg
  toLT := Rat.instLT
  toLE := Rat.instLE
  zero := mkRat 0 1
  noTerms := mkRat 0 1
  one := mkRat 1 1
  two := mkRat 2 1
  epsilon := mkRat 1 10000000
  tolerance := mkRat 1 10000
  isFinite _ := true
  decidableLT := Rat.instDecidableLt
  decidableLE := Rat.instDecidableLe

namespace Scalar

variable {α : Type} [Scalar α]

def sum (xs : List α) : α :=
  xs.foldl (· + ·) noTerms

def within (bound x : α) : Bool :=
  decide (x ≤ bound) && decide (-x ≤ bound)

/-- The smaller of two scalars, or the comparable one if only one of them is comparable with
itself. -/
def least (x y : α) : α :=
  if x ≤ x then if y < x then y else x else y

def greatest (x y : α) : α :=
  if x ≤ x then if x < y then y else x else y

end Scalar

/-- The first element of least key: a later one replaces it only if its key is strictly below. -/
def firstLeast {α β : Type} [Scalar α] (key : β → α) : List β → Option β
  | [] => none
  | x :: xs => some (xs.foldl (fun best y => if key y < key best then y else best) x)

end Spacing
