import Spacing.Solver.Basic

namespace Spacing.Solver

variable {α : Type} [Scalar α]

def firstUnsatisfied (s : Solver α) : Option ConId :=
  s.problem.constraintIds.find? fun c =>
    let slack := s.arrangement.slack c
    decide (slack < -Scalar.epsilon) ||
      (s.problem.constraintAt c).equality && decide (Scalar.epsilon < slack)

def verify (s : Solver α) : Solver α × Reply α :=
  match s.firstUnsatisfied with
  | none => (s, .ok ())
  | some c =>
    let slack := s.arrangement.slack c
    let failure := Failure.unsatisfied c (s.problem.leftId c) (s.problem.rightId c)
      (s.problem.constraintAt c).gap slack
    ((s.record (.unsatisfied c slack)).note (.failed failure), .error failure)

def andThen (r : Solver α × Reply α) (f : Solver α → Except Abort (Solver α × Reply α)) :
    Except Abort (Solver α × Reply α) :=
  match r with
  | (s, .ok ()) => f s
  | (s, .error e) => .ok (s, .error e)

end Spacing.Solver
