import Spacing.Problem.Edit
import Spacing.Solver.Batch
import Spacing.Solver.Incremental

namespace Spacing

variable {α : Type}

inductive Operation (α : Type)
  | solve
  | satisfy
  | refine
  | settle
  | split
  | setDesired (v : VarId) (desired : α)
  | setGap (c : ConId) (gap : α)
deriving Repr, DecidableEq

namespace Solver

variable [Scalar α]

def satisfy (s : Solver α) : Except Abort (Solver α × Reply α) :=
  match s.mode with
  | .batch => s.satisfyBatch
  | .incremental => s.satisfyIncremental

def solve (rounds : Nat) (s : Solver α) : Except Abort (Solver α × Reply α) :=
  match s.mode with
  | .batch => do
    let s := s.note (.started s.problem.vars.size s.problem.constraints.size)
    andThen (← s.satisfy) (refine rounds)
  | .incremental => solveRounds rounds none 0 s

/-- An active constraint is split off and watched, so that the next run merges at the new gap. -/
def setGap (s : Solver α) (c : ConId) (gap : α) : Except Abort (Solver α) := do
  let problem ← s.problem.edit (.setGap c gap)
  let s := { s with arrangement.problem := problem }
  if (problem.constraintAt c).active then
    let (a, _) ← s.arrangement.split c
    return { s with arrangement := a }.cleanUp.watch c
  else
    return s

def setDesired (s : Solver α) (v : VarId) (desired : α) : Except Abort (Solver α) := do
  let problem ← s.problem.edit (.setDesired v desired)
  return { s with arrangement.problem := problem }

def perform (rounds : Nat) (s : Solver α) : Operation α → Except Abort (Solver α × Reply α)
  | .solve => s.solve rounds
  | .satisfy => s.satisfy
  | .refine => s.refine rounds
  | .settle => .ok (s.settleBlocks, .ok ())
  | .split => do return (← s.splitBlocks, .ok ())
  | .setDesired v desired => do return (← s.setDesired v desired, .ok ())
  | .setGap c gap => do return (← s.setGap c gap, .ok ())

def run (rounds : Nat) (s : Solver α) : List (Operation α) →
    Except Abort (Solver α × List (Reply α))
  | [] => .ok (s, [])
  | op :: ops => do
    let (s, reply) ← s.perform rounds op
    let (s, replies) ← s.run rounds ops
    return (s, reply :: replies)

end Solver

def Problem.solve [Scalar α] (rounds : Nat) (p : Problem α) (mode : Mode) :
    Except Abort (Solver α × Reply α) :=
  (Solver.new p mode Options.standard).solve rounds

end Spacing
