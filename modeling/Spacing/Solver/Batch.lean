import Spacing.Solver.Resolve
import Spacing.Solver.Verify

namespace Spacing

variable {α : Type} [Scalar α]

namespace Arrangement

def mergeInOrder (a : Arrangement α) (vs : List VarId) : Except Abort (Arrangement α) :=
  vs.foldlM (fun a v =>
    let b := a.blockOf v
    if (a.block? b).isSome then Prod.fst <$> a.mergeTowards .left b else .ok a) a

def collectBoundaries (a : Arrangement α) (bs : List BlockId) : Arrangement α :=
  bs.foldl (fun a b => (a.collectBoundary .left b).collectBoundary .right b) a

def firstNegative (a : Arrangement α) : List BlockId → Arrangement α × Option ConId
  | [] => (a, none)
  | b :: bs =>
    let (a, least) := a.leastMultiplier b
    match least.filter a.isNegative with
    | some c => (a, some c)
    | none => a.firstNegative bs

end Arrangement

namespace Solver

def satisfyBatch (s : Solver α) : Except Abort (Solver α × Reply α) := do
  let a ← s.arrangement.mergeInOrder s.problem.order
  let r ← { s with arrangement := a }.cleanUp.watchInactive.resolve 0
  andThen r fun s => .ok s.writePositions.verify

/-- Splits on the first negative multiplier and resolves what that violates. There is no reply if no
multiplier is negative. -/
def refineOnce (s : Solver α) : Except Abort (Solver α × Option (Reply α)) := do
  let ids := s.arrangement.blockIds
  match (s.arrangement.collectBoundaries ids).firstNegative ids with
  | (a, none) => return ({ s with arrangement := a }, none)
  | (a, some c) =>
    let a ← a.rebalance c
    let (s, reply) ← { s with arrangement := a }.cleanUp.watchInactive.resolve 0
    return (s, some reply)

def refine : (rounds : Nat) → Solver α → Except Abort (Solver α × Reply α)
  | 0, _ => .error .outOfRounds
  | rounds + 1, s => do
    match ← s.refineOnce with
    | (s, none) => return s.writePositions.verify
    | (s, some reply) => andThen (s, reply) (refine rounds)

end Solver

end Spacing
