namespace Spacing

structure Numeral where
  negative : Bool
  whole : List Nat
  fraction : Option (List Nat)
  exponent : Option Int
deriving Repr, DecidableEq

/-- A string is absent where its escapes name half a surrogate pair. -/
inductive Json
  | null
  | bool (b : Bool)
  | number (n : Numeral)
  | string (s : Option String)
  | array (items : List Json)
  | object (members : List (Option String × Json))

namespace Numeral

def ofDigits (ds : List Nat) : Nat :=
  ds.foldl (fun n d => 10 * n + d) 0

def toNat? (n : Numeral) : Option Nat :=
  if n.negative || n.fraction.isSome || n.exponent.isSome then none
  else
    let value := ofDigits n.whole
    if value < UInt64.size then some value else none

def absorb (significand : Nat) : List Nat → Nat × Nat
  | [] => (significand, 0)
  | d :: ds =>
    if 10 * significand + d < UInt64.size then absorb (10 * significand + d) ds
    else (significand, ds.length + 1)

/-- `x · 10 ^ exponent` in steps that a float can hold, or nothing if it is too large. Below the
range of powers the result is zero after few steps. -/
def scale : (steps : Nat) → (x : Float) → (exponent : Int) → Option Float
  | 0, x, _ => some x
  | steps + 1, x, exponent =>
    if exponent.natAbs ≤ 308 then
      let power := Float.ofScientific 1 false exponent.natAbs
      if 0 ≤ exponent then
        let y := x * power
        if y.isInf then none else some y
      else some (x / power)
    else if x == 0.0 then some x
    else if 0 ≤ exponent then none
    else scale steps (x / 1e308) (exponent + 308)

/-- A float for the number: as many leading digits as 64 bits hold, times a power of ten. Behind the
point, the digits from the first one that does not fit are left out. -/
def toFloat? (n : Numeral) : Option Float := do
  let (significand, skipped) := absorb 0 n.whole
  let fraction := n.fraction.getD []
  let (significand, unread) := absorb significand fraction
  let exponent := n.exponent.getD 0 + skipped - (fraction.length - unread : Nat)
  let x ← scale 4 (Float.ofNat significand) exponent
  return if n.negative then -x else x

end Numeral

end Spacing
