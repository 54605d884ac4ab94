import Spacing.Handle

namespace Spacing

inductive Abort
  | weightNotPositive
  | noVariable (v : VarId)
  | noConstraint (c : ConId)
  | noBlock (b : BlockId)
  | endsTogether (c : ConId)
  | endsApart (c : ConId)
  | outOfRounds
deriving Repr, DecidableEq

end Spacing
