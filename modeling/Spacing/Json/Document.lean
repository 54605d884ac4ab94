import Spacing.Decimal.Style

namespace Spacing

inductive Document
  | null
  | bool (b : Bool)
  | count (n : Nat)
  | number (x : Float)
  | string (s : String)
  | array (items : List Document)
  | object (members : List (String × Document))

namespace Document

def escape (c : Char) : String :=
  match c with
  | '"' => "\\\""
  | '\\' => "\\\\"
  | '\x08' => "\\b"
  | '\x0c' => "\\f"
  | '\n' => "\\n"
  | '\x0d' => "\\r"
  | '\t' => "\\t"
  | c =>
    if c < ' ' then
      "\\u00" ++ String.ofList [Nat.digitChar (c.toNat / 16), Nat.digitChar (c.toNat % 16)]
    else c.toString

def quote (s : String) : String :=
  "\"" ++ String.join (s.toList.map escape) ++ "\""

def leaf : Document → String
  | .null => "null"
  | .bool b => if b then "true" else "false"
  | .count n => toString n
  | .number x => documentStyle.text x
  | .string s => quote s
  | .array _ => "[]"
  | .object _ => "\x7b\x7d"

mutual

def compact : Document → String
  | .array items => "[" ++ String.intercalate "," (compactItems items) ++ "]"
  | .object members => "\x7b" ++ String.intercalate "," (compactMembers members) ++ "\x7d"
  | d => d.leaf

def compactItems : List Document → List String
  | [] => []
  | d :: ds => compact d :: compactItems ds

def compactMembers : List (String × Document) → List String
  | [] => []
  | (key, d) :: ds => (quote key ++ ":" ++ compact d) :: compactMembers ds

end

def block (indent : Nat) (opening closing : String) (lines : List String) : String :=
  let margin (n : Nat) := "\n" ++ String.ofList (List.replicate n ' ')
  opening ++ margin (indent + 2) ++ String.intercalate ("," ++ margin (indent + 2)) lines ++
    margin indent ++ closing

mutual

def pretty (indent : Nat) : Document → String
  | .array (d :: ds) => block indent "[" "]" (prettyItems (indent + 2) (d :: ds))
  | .object (m :: ms) => block indent "\x7b" "\x7d" (prettyMembers (indent + 2) (m :: ms))
  | d => d.leaf

def prettyItems (indent : Nat) : List Document → List String
  | [] => []
  | d :: ds => pretty indent d :: prettyItems indent ds

def prettyMembers (indent : Nat) : List (String × Document) → List String
  | [] => []
  | (key, d) :: ds => (quote key ++ ": " ++ pretty indent d) :: prettyMembers indent ds

end

end Document

end Spacing
