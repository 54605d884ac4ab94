import Spacing.Decimal.Style
import Spacing.Journal
import Spacing.Problem.Basic

namespace Spacing

def Constraint.text (k : Constraint Float) : String :=
  VarId.text k.left ++ "+" ++ messageStyle.text k.gap ++ (if k.equality then "==" else "<=") ++
    VarId.text k.right

def Failure.message : Failure Float → String
  | .unsatisfied c left right gap slack =>
    "unsatisfied constraint " ++ ConId.text c ++ ": v" ++ toString left ++ " + " ++
      messageStyle.text gap ++ " <= v" ++ toString right ++
      " (slack " ++ messageStyle.text slack ++ ")"
  | .cycle c left right splits =>
    "constraint cycle while resolving " ++ ConId.text c ++ " between v" ++ toString left ++
      " and v" ++ toString right ++ " (after " ++ toString splits ++ " same-block splits)"

def traceRecord (name : String) (fields : List (String × String)) : String :=
  name ++ " \x7b " ++
    String.intercalate ", " (fields.map fun (key, value) => key ++ ": " ++ value) ++ " \x7d"

def Event.trace (e : Event Float) : String :=
  let constraint (c : ConId) := ("constraint", "ConstraintId(" ++ toString c ++ ")")
  let block (name : String) (b : BlockId) := (name, "BlockId(" ++ toString b ++ ")")
  let number (name : String) (x : Float) := (name, traceStyle.text x)
  match e with
  | .merged c survivor absorbed =>
    traceRecord "Merged" [constraint c, block "survivor" survivor, block "absorbed" absorbed]
  | .split c multiplier left right =>
    traceRecord "Split"
      [constraint c, number "lm" multiplier, block "left" left, block "right" right]
  | .picked c slack => traceRecord "MostViolated" [constraint c, number "slack" slack]
  | .round n cost => traceRecord "Iteration" [("iteration", toString n), number "cost" cost]
  | .unsatisfied c slack => traceRecord "Unsatisfied" [constraint c, number "slack" slack]

inductive LogLevel
  | trace
  | debug
  | warn
deriving Repr, DecidableEq

def LogLevel.text : LogLevel → String
  | .trace => "TRACE"
  | .debug => "DEBUG"
  | .warn => "WARN"

inductive LogValue
  | count (n : Nat)
  | number (x : Float)
  | text (s : String)

structure LogLine where
  level : LogLevel
  message : String
  fields : List (String × LogValue)

def Event.logLine : Event Float → LogLine
  | .merged c survivor absorbed =>
    ⟨.trace, "merge", [("constraint", .text (ConId.text c)),
      ("survivor", .text (BlockId.text survivor)), ("absorbed", .text (BlockId.text absorbed))]⟩
  | .split c multiplier left right =>
    ⟨.trace, "split", [("constraint", .text (ConId.text c)), ("lm", .number multiplier),
      ("left", .text (BlockId.text left)), ("right", .text (BlockId.text right))]⟩
  | .picked c slack =>
    ⟨.trace, "most violated", [("constraint", .text (ConId.text c)), ("slack", .number slack)]⟩
  | .round n cost =>
    ⟨.debug, "incremental iteration", [("iteration", .count n), ("cost", .number cost)]⟩
  | .unsatisfied c slack =>
    ⟨.warn, "unsatisfied constraint",
      [("constraint", .text (ConId.text c)), ("slack", .number slack)]⟩

def Note.logLine : Note Float → LogLine
  | .started vars constraints =>
    ⟨.debug, "batch solve",
      [("variables", .count vars), ("constraints", .count constraints)]⟩
  | .roundLimit n cost =>
    ⟨.debug, "incremental solve hit the iteration cap",
      [("iteration", .count n), ("cost", .number cost)]⟩
  | .failed failure =>
    ⟨.warn, "solve failed verification", [("err", .text failure.message)]⟩
  | .reduced dropped => ⟨.debug, "transitive reduction", [("dropped", .count dropped)]⟩

def logLines (withEvents : Bool) (entries : List (Entry Float)) : List LogLine :=
  entries.filterMap fun
    | .event e => if withEvents then some e.logLine else none
    | .note n => some n.logLine

end Spacing
