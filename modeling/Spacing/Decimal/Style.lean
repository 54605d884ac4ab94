import Spacing.Decimal.Shortest

namespace Spacing

open Decimal

structure NumberStyle where
  positional : Int → Bool
  /-- A whole number written without an exponent still gets a point and a zero. -/
  keepsPoint : Bool
  plus : Bool
  tie : Tie
  notANumber : String
  infinite : String
  minusInfinite : String

inductive FloatParts
  | notANumber
  | infinite (negative : Bool)
  | zero (negative : Bool)
  | finite (negative : Bool) (magnitude : Binary)
deriving Repr, DecidableEq

def floatParts (x : Float) : FloatParts :=
  let bits := x.toBits
  let negative := bits >>> 63 == 1
  let exponent := (bits >>> 52 &&& 0x7FF).toNat
  let fraction := (bits &&& 0xFFFFFFFFFFFFF).toNat
  if exponent = 0x7FF then
    if fraction = 0 then .infinite negative else .notANumber
  else if exponent = 0 then
    if fraction = 0 then .zero negative else .finite negative ⟨fraction, -1074, false⟩
  else
    .finite negative ⟨0x10000000000000 + fraction, (exponent : Int) - 1075,
      decide (fraction = 0) && decide (1 < exponent)⟩

namespace NumberStyle

def zeros (n : Nat) : String :=
  String.ofList (List.replicate n '0')

def scientific (s : NumberStyle) (digits : List Char) (exponent : Int) : String :=
  let mantissa :=
    match digits with
    | [] => ""
    | [d] => d.toString
    | d :: rest => d.toString ++ "." ++ String.ofList rest
  let sign := if exponent < 0 then "-" else if s.plus then "+" else ""
  mantissa ++ "e" ++ sign ++ toString exponent.natAbs

def plain (s : NumberStyle) (digits : List Char) (places : Int) : String :=
  if places ≤ 0 then
    "0." ++ zeros (-places).toNat ++ String.ofList digits
  else
    let whole := digits.take places.toNat
    let fraction := digits.drop places.toNat
    String.ofList whole ++ zeros (places.toNat - digits.length) ++
      if fraction.isEmpty then if s.keepsPoint then ".0" else ""
      else "." ++ String.ofList fraction

def decimal (s : NumberStyle) (d : Decimal) : String :=
  let all := Nat.toDigits 10 d.digits
  let digits := (all.reverse.dropWhile (· == '0')).reverse
  let exponent := d.exponent + all.length - 1
  if s.positional exponent then s.plain digits (exponent + 1) else s.scientific digits exponent

def text (s : NumberStyle) (x : Float) : String :=
  let signed (negative : Bool) (t : String) := if negative then "-" ++ t else t
  match floatParts x with
  | .notANumber => s.notANumber
  | .infinite negative => if negative then s.minusInfinite else s.infinite
  | .zero negative => signed negative (if s.keepsPoint then "0.0" else "0")
  | .finite negative b => signed negative (s.decimal (b.shortest s.tie))

end NumberStyle

def documentStyle : NumberStyle where
  positional e := decide (-5 ≤ e) && decide (e < 16)
  keepsPoint := true
  plus := true
  tie := .toEven
  notANumber := "null"
  infinite := "null"
  minusInfinite := "null"

def messageStyle : NumberStyle where
  positional _ := true
  keepsPoint := false
  plus := false
  tie := .up
  notANumber := "NaN"
  infinite := "inf"
  minusInfinite := "-inf"

def traceStyle : NumberStyle where
  positional e := decide (-4 ≤ e) && decide (e < 16)
  keepsPoint := true
  plus := false
  tie := .up
  notANumber := "NaN"
  infinite := "inf"
  minusInfinite := "-inf"

end Spacing
