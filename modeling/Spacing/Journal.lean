import Spacing.Handle

namespace Spacing

variable {α : Type}

inductive Failure (α : Type)
  | unsatisfied (c : ConId) (leftId rightId : Nat) (gap slack : α)
  | cycle (c : ConId) (leftId rightId splits : Nat)
deriving Repr, DecidableEq

inductive Event (α : Type)
  | merged (c : ConId) (survivor absorbed : BlockId)
  | split (c : ConId) (multiplier : α) (left right : BlockId)
  | picked (c : ConId) (slack : α)
  | round (number : Nat) (cost : α)
  | unsatisfied (c : ConId) (slack : α)
deriving Repr, DecidableEq

inductive Note (α : Type)
  | started (vars constraints : Nat)
  | roundLimit (number : Nat) (cost : α)
  | failed (failure : Failure α)
  | reduced (dropped : Nat)
deriving Repr, DecidableEq

inductive Entry (α : Type)
  | event (event : Event α)
  | note (note : Note α)
deriving Repr, DecidableEq

def Entry.event? : Entry α → Option (Event α)
  | .event e => some e
  | .note _ => none

def eventsOf (entries : List (Entry α)) : List (Event α) :=
  entries.filterMap Entry.event?

namespace Event

def isMerge : Event α → Bool
  | .merged .. => true
  | _ => false

def isSplit : Event α → Bool
  | .split .. => true
  | _ => false

def roundCost? : Event α → Option α
  | .round _ cost => some cost
  | _ => none

end Event

end Spacing
