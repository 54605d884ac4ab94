import Spacing.Json.Value

namespace Spacing

namespace Numeral

def digits (cs : List Char) : List Nat :=
  cs.map fun c => c.toNat - '0'.toNat

def ofExponent? (negative : Bool) (whole : List Nat) (fraction : Option (List Nat)) :
    List Char → Option Numeral
  | [] => some ⟨negative, whole, fraction, none⟩
  | e :: rest =>
    if e = 'e' ∨ e = 'E' then
      let (minus, ds) :=
        match rest with
        | '-' :: ds => (true, ds)
        | '+' :: ds => (false, ds)
        | ds => (false, ds)
      if ds.isEmpty || !ds.all Char.isDigit then none
      else
        let size : Int := ofDigits (digits ds)
        some ⟨negative, whole, fraction, some (if minus then -size else size)⟩
    else none

def ofChars? (cs : List Char) : Option Numeral :=
  let (negative, cs) :=
    match cs with
    | '-' :: cs => (true, cs)
    | cs => (false, cs)
  let whole := digits (cs.takeWhile Char.isDigit)
  let wellFormed :=
    match whole with
    | [] => false
    | [_] => true
    | d :: _ => d != 0
  if !wellFormed then none
  else
    match cs.dropWhile Char.isDigit with
    | '.' :: cs =>
      let fraction := digits (cs.takeWhile Char.isDigit)
      if fraction.isEmpty then none
      else ofExponent? negative whole (some fraction) (cs.dropWhile Char.isDigit)
    | cs => ofExponent? negative whole none cs

end Numeral

namespace Json

inductive Token
  | openArray
  | closeArray
  | openObject
  | closeObject
  | comma
  | colon
  | string (s : Option String)
  | plain (v : Json)

inductive Lexing
  | between
  | word (chars : List Char)
  | string (units : List Nat)
  | escape (units : List Nat)
  | unit (units : List Nat) (missing value : Nat)

/-- The characters of code units, in which surrogates stand in pairs of a high and a low one. -/
def ofUnits? : List Nat → Option (List Char)
  | [] => some []
  | u :: us =>
    if u < 0xD800 ∨ 0xDFFF < u then (Char.ofNat u :: ·) <$> ofUnits? us
    else match us with
      | l :: us =>
        if u < 0xDC00 ∧ 0xDC00 ≤ l ∧ l < 0xE000 then
          (Char.ofNat (0x10000 + (u - 0xD800) * 0x400 + (l - 0xDC00)) :: ·) <$> ofUnits? us
        else none
      | [] => none

def hexDigit? (c : Char) : Option Nat :=
  if c.isDigit then some (c.toNat - '0'.toNat)
  else if 'a' ≤ c ∧ c ≤ 'f' then some (c.toNat - 'a'.toNat + 10)
  else if 'A' ≤ c ∧ c ≤ 'F' then some (c.toNat - 'A'.toNat + 10)
  else none

def escaped? (c : Char) : Option Char :=
  match c with
  | '"' => some '"'
  | '\\' => some '\\'
  | '/' => some '/'
  | 'b' => some '\x08'
  | 'f' => some '\x0c'
  | 'n' => some '\n'
  | 'r' => some '\x0d'
  | 't' => some '\t'
  | _ => none

def isWordChar (c : Char) : Bool :=
  c.isAlphanum || c == '+' || c == '-' || c == '.'

def word? (cs : List Char) : Option Json :=
  match String.ofList cs with
  | "null" => some .null
  | "true" => some (.bool true)
  | "false" => some (.bool false)
  | _ => Json.number <$> Numeral.ofChars? cs

def start? (c : Char) (tokens : List Token) : Option (Lexing × List Token) :=
  match c with
  | '[' => some (.between, .openArray :: tokens)
  | ']' => some (.between, .closeArray :: tokens)
  | '\x7b' => some (.between, .openObject :: tokens)
  | '\x7d' => some (.between, .closeObject :: tokens)
  | ',' => some (.between, .comma :: tokens)
  | ':' => some (.between, .colon :: tokens)
  | '"' => some (.string [], tokens)
  | c =>
    if c = ' ' ∨ c = '\n' ∨ c = '\t' ∨ c = '\x0d' then some (.between, tokens)
    else if isWordChar c then some (.word [c], tokens)
    else none

def lexStep? : Lexing × List Token → Char → Option (Lexing × List Token)
  | (.between, tokens), c => start? c tokens
  | (.word cs, tokens), c =>
    if isWordChar c then some (.word (c :: cs), tokens)
    else do
      let v ← word? cs.reverse
      start? c (.plain v :: tokens)
  | (.string us, tokens), c =>
    if c = '"' then
      some (.between, .string (String.ofList <$> ofUnits? us.reverse) :: tokens)
    else if c = '\\' then some (.escape us, tokens)
    else if c < ' ' then none
    else some (.string (c.toNat :: us), tokens)
  | (.escape us, tokens), c =>
    if c = 'u' then some (.unit us 4 0, tokens)
    else do
      let d ← escaped? c
      return (.string (d.toNat :: us), tokens)
  | (.unit us missing value, tokens), c => do
    let value := 16 * value + (← hexDigit? c)
    return (if missing ≤ 1 then .string (value :: us) else .unit us (missing - 1) value, tokens)

def tokens? (cs : List Char) : Option (List Token) := do
  match ← cs.foldlM lexStep? (.between, []) with
  | (.between, tokens) => return tokens.reverse
  | (.word cs, tokens) => return (Token.plain (← word? cs.reverse) :: tokens).reverse
  | _ => none

end Json

end Spacing
