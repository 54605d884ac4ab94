namespace Spacing

structure Decimal where
  digits : Nat
  exponent : Int
deriving Repr, DecidableEq

namespace Decimal

inductive Tie
  | toEven
  | up
deriving Repr, DecidableEq

/-- A positive binary number `significand · 2 ^ exponent` with its neighbours: the next larger one
is one unit of the significand away, and so is the next smaller one, or half as far at the bottom of
a binade. -/
structure Binary where
  significand : Nat
  exponent : Int
  bottom : Bool
deriving Repr, DecidableEq

structure Ratio where
  numerator : Nat
  denominator : Nat
deriving Repr, DecidableEq

def width (n : Nat) : Nat :=
  (Nat.toDigits 10 n).length

def Ratio.magnitude (r : Ratio) : Int :=
  if r.denominator ≤ r.numerator then
    width (r.numerator / r.denominator) - 1
  else
    let w := width (r.denominator / r.numerator)
    if r.denominator ≤ r.numerator * Nat.pow 10 (w - 1) then 1 - w else -w

namespace Binary

def quarters (b : Binary) (place : Int) (n : Nat) : Ratio where
  numerator := n * Nat.pow 2 (b.exponent - 2).toNat * Nat.pow 10 (-place).toNat
  denominator := Nat.pow 2 (2 - b.exponent).toNat * Nat.pow 10 place.toNat

/-- Whether `d · 10 ^ place` reads back as `b`: it lies between the middles towards the two
neighbours, or on one of them if the significand is even. -/
def readsBack (b : Binary) (place : Int) (d : Nat) : Bool :=
  let low := b.quarters place (4 * b.significand - if b.bottom then 1 else 2)
  let high := b.quarters place (4 * b.significand + 2)
  let x := d * low.denominator
  if b.significand % 2 = 0 then decide (low.numerator ≤ x) && decide (x ≤ high.numerator)
  else decide (low.numerator < x) && decide (x < high.numerator)

/-- The nearest decimal with last digit at `place` that reads back, if there is one. It is one of the
two neighbours of the number at that place. -/
def nearest? (b : Binary) (tie : Tie) (place : Int) : Option Decimal :=
  let r := b.quarters place (4 * b.significand)
  let below := r.numerator / r.denominator
  let above := below + 1
  let chosen :=
    match b.readsBack place below, b.readsBack place above with
    | false, false => none
    | true, false => some below
    | false, true => some above
    | true, true =>
      let toBelow := r.numerator - below * r.denominator
      let toAbove := above * r.denominator - r.numerator
      if toBelow < toAbove then some below
      else if toAbove < toBelow then some above
      else match tie with
        | .up => some above
        | .toEven => some (if below % 2 = 0 then below else above)
  chosen.map (⟨·, place⟩)

/-- Tries one digit, two digits and so on up to seventeen, which are enough for significands of 53
bits. -/
def shortest (b : Binary) (tie : Tie) : Decimal :=
  let top := (b.quarters 0 (4 * b.significand)).magnitude
  ((List.range 17).findSome? fun k : Nat => b.nearest? tie (top - k)).getD ⟨b.significand, b.exponent⟩

end Binary

end Decimal

end Spacing
