import Spacing.Arrangement.Merge
/-!
Solvers: an arrangement together with the constraints that are watched because no block holds them
tight, and with the options of the method.
-/

namespace Spacing

variable {α : Type}

inductive Mode
  | batch
  | incremental
deriving Repr, DecidableEq

def Mode.text : Mode → String
  | .batch => "batch"
  | .incremental => "incremental"

structure Options (α : Type) where
  /-- How many splits of a block that holds both ends of a violated constraint one resolution may
  make before the constraints are taken to be cyclic. -/
  maxSplits : Nat
  tolerance : α
  maxRounds : Option Nat
deriving Repr, DecidableEq

def Options.standard [Scalar α] : Options α :=
  ⟨10000, Scalar.tolerance, none⟩

structure Solver (α : Type) where
  arrangement : Arrangement α
  mode : Mode
  options : Options α
  inactive : List ConId
  splitCount : Nat
deriving Repr, DecidableEq

abbrev Reply (α : Type) := Except (Failure α) Unit

def swapRemove {β : Type} (xs : List β) (i : Nat) : List β :=
  match xs.getLast? with
  | none => []
  | some last => (xs.set i last).dropLast

namespace Solver

def problem (s : Solver α) : Problem α :=
  s.arrangement.problem

def record (s : Solver α) (e : Event α) : Solver α :=
  { s with arrangement := s.arrangement.record e }

def note (s : Solver α) (n : Note α) : Solver α :=
  { s with arrangement.journal := s.arrangement.journal.push (.note n) }

def cleanUp (s : Solver α) : Solver α :=
  { s with arrangement := s.arrangement.cleanUp }

def watch (s : Solver α) (c : ConId) : Solver α :=
  { s with inactive := s.inactive ++ [c] }

variable [Scalar α]

def new (p : Problem α) (mode : Mode) (options : Options α) : Solver α where
  arrangement := Arrangement.ofProblem p
  mode
  options
  inactive := p.constraintIds
  splitCount := 0

def writePositions (s : Solver α) : Solver α :=
  { s with arrangement := s.arrangement.writePositions }

def watchInactive (s : Solver α) : Solver α :=
  { s with inactive := s.problem.constraintIds.filter fun c => !(s.problem.constraintAt c).active }

/-- The watched constraint to resolve next: the first equality, or else the first of those with
least slack if that is violated. -/
def nextViolated (s : Solver α) : Option ConId :=
  let violated := s.inactive.filter fun c =>
    (s.problem.constraintAt c).equality || decide (s.arrangement.slack c < -Scalar.epsilon)
  s.arrangement.mostUrgent violated

end Solver

end Spacing
