import Spacing.CommandLine.Input
import Spacing.Json.Document
import Spacing.Journal.Text
import Spacing.Solver.Operation

namespace Spacing

variable {α : Type}

structure SolveReport (α : Type) where
  mode : Mode
  cost : α
  positions : List (Nat × α)
deriving Repr, DecidableEq

structure RectanglesReport (α : Type) where
  mode : Mode
  axis : Axis
  constraints : Nat
  cost : α
  rectangles : List (Rectangle α)
deriving Repr, DecidableEq

inductive ReportFault (α : Type)
  | input (fault : InputFault α)
  | failed (failure : Failure α)
  | aborted (why : Abort)
deriving Repr, DecidableEq

structure Run (α β : Type) where
  mode : Mode
  events : Option (List (Event α))
  result : Except (ReportFault α) β

namespace Problem

variable [Scalar α]

def report {β : Type} (rounds : Nat) (p : Problem α) (mode : Mode) (make : Problem α → β) :
    Run α β :=
  match p.solve rounds mode with
  | .error why => ⟨mode, some [], .error (.aborted why)⟩
  | .ok (s, reply) =>
    let result :=
      match reply with
      | .ok () => .ok (make s.problem)
      | .error failure => .error (.failed failure)
    ⟨mode, some (eventsOf s.arrangement.journal.toList), result⟩

end Problem

namespace SolveDocument

variable [Scalar α]

def report (rounds : Nat) (d : SolveDocument α) (a : Arguments) : Run α (SolveReport α) :=
  let mode := (a.mode <|> d.mode).getD .batch
  match d.problem with
  | .error fault => ⟨mode, none, .error (.input fault)⟩
  | .ok p =>
    p.report rounds mode fun p =>
      ⟨mode, p.cost, p.vars.toList.map fun x => (x.id, x.position)⟩

end SolveDocument

namespace RectanglesDocument

variable [Scalar α]

def report (rounds : Nat) (d : RectanglesDocument α) (a : Arguments) :
    Run α (RectanglesReport α) :=
  let mode := (a.mode <|> d.mode).getD .batch
  let axis := (a.axis <|> d.axis).getD .x
  match d.problem axis (a.reduced || d.reduced) with
  | .error fault => ⟨mode, none, .error (.input fault)⟩
  | .ok p =>
    p.report rounds mode fun p =>
      { mode
        axis
        constraints := p.constraints.size
        cost := p.cost
        rectangles := d.rectangles.zipWith (fun r x => r.moveTo axis x.position)
          p.vars.toList }

end RectanglesDocument

namespace InputFault

def message : InputFault Float → String
  | .weightNotPositive id weight =>
    "variable " ++ toString id ++ " has non-positive weight " ++ messageStyle.text weight
  | .desiredNotFinite id => "variable " ++ toString id ++ " has a non-finite desired position"
  | .repeatedId id => "duplicate variable id " ++ toString id
  | .unknownId index id =>
    "constraint " ++ toString index ++ " references unknown variable " ++ toString id
  | .gapNotFinite index => "constraint " ++ toString index ++ " has a non-finite gap"
  | .cyclic => "constraints form a cycle"
  | .invertedBounds index => "rectangle " ++ toString index ++ " has inverted bounds"

end InputFault

def SolveReport.document (r : SolveReport Float) : Document :=
  .object [
    ("mode", .string r.mode.text),
    ("cost", .number r.cost),
    ("positions", .object (r.positions.map fun (id, x) => (toString id, .number x)))]

def RectanglesReport.document (r : RectanglesReport Float) : Document :=
  .object [
    ("mode", .string r.mode.text),
    ("axis", .string r.axis.text),
    ("constraints", .count r.constraints),
    ("cost", .number r.cost),
    ("rectangles", .array (r.rectangles.map fun r =>
      .object [("min_x", .number r.minX), ("max_x", .number r.maxX),
        ("min_y", .number r.minY), ("max_y", .number r.maxY)]))]

def traceLines (mode : Mode) (events : List (Event Float)) : List String :=
  let name :=
    match mode with
    | .batch => "Batch"
    | .incremental => "Incremental"
  events.map (fun e => "[vpsc] " ++ e.trace) ++
    ["[vpsc] mode=" ++ name ++ " events=" ++ toString events.length ++
      " merges=" ++ toString (events.countP Event.isMerge) ++
      " splits=" ++ toString (events.countP Event.isSplit)]

end Spacing
