import Spacing.Solver.Resolve
import Spacing.Solver.Verify

namespace Spacing.Solver

variable {α : Type} [Scalar α]

def settleBlocks (s : Solver α) : Solver α :=
  { s with arrangement :=
      s.arrangement.blockIds.foldl Arrangement.settle s.arrangement }.writePositions

def splitNegative (s : Solver α) : List BlockId → Except Abort (Solver α)
  | [] => .ok s
  | b :: bs => do
    let (a, least) := s.arrangement.leastMultiplier b
    match least.filter a.isNegative with
    | none => splitNegative { s with arrangement := a } bs
    | some c =>
      let (a, _) ← a.split c
      ({ s with arrangement := a, splitCount := s.splitCount + 1 }.watch c).splitNegative bs

def splitBlocks (s : Solver α) : Except Abort (Solver α) := do
  let s := { s.settleBlocks with splitCount := 0 }
  let s ← s.splitNegative s.arrangement.blockIds
  return s.cleanUp.writePositions

def satisfyIncremental (s : Solver α) : Except Abort (Solver α × Reply α) := do
  let s ← s.splitBlocks
  andThen (← s.resolve 0) fun s => .ok s.writePositions.verify

/-- Whether the cost of a round is close enough to that of the round before. Before the first round
the cost counts as infinite, which is close only if the tolerance is infinite too. -/
def isSettled (s : Solver α) (last : Option α) (cost : α) : Bool :=
  let tolerance := s.options.tolerance
  match last with
  | none =>
    Scalar.isFinite cost && !Scalar.isFinite tolerance && decide (Scalar.zero < tolerance)
  | some last => Scalar.within tolerance (last - cost)

def solveRounds : (rounds : Nat) → (last : Option α) → (done : Nat) → Solver α →
    Except Abort (Solver α × Reply α)
  | 0, _, _, _ => .error .outOfRounds
  | rounds + 1, last, done, s => do
    andThen (← s.satisfyIncremental) fun s => do
      let cost := s.arrangement.cost
      let number := done + 1
      let s := s.record (.round number cost)
      if s.isSettled last cost then
        return (s.writePositions, .ok ())
      else if s.options.maxRounds.any (· ≤ number) then
        return ((s.note (.roundLimit number cost)).writePositions, .ok ())
      else
        solveRounds rounds (some cost) number (← s.splitBlocks)

end Spacing.Solver
