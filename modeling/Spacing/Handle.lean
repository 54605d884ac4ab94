namespace Spacing

abbrev VarId := Nat

abbrev ConId := Nat

abbrev BlockId := Nat

def VarId.text (v : VarId) : String :=
  "v" ++ toString v

def ConId.text (c : ConId) : String :=
  "c" ++ toString c

def BlockId.text (b : BlockId) : String :=
  "b" ++ toString b

end Spacing
