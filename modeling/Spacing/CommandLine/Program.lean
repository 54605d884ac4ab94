import Spacing.CommandLine.Host
import Spacing.CommandLine.Report

namespace Spacing

inductive ProgramFault
  | host (message : String)
  | json
  | report (fault : ReportFault Float)

namespace ProgramFault

def message? : ProgramFault → Option String
  | .host message => some ("I/O error: " ++ message)
  | .json => some "JSON error"
  | .report (.input fault) => some ("invalid input: " ++ fault.message)
  | .report (.failed failure) => some failure.message
  | .report (.aborted _) => none

def exitCode : ProgramFault → UInt32
  | .report (.aborted _) => 101
  | _ => 1

end ProgramFault

namespace Program

def rounds : Nat :=
  1000000000000

def answer (a : Arguments) (text : String) : Option (Run Float Document) := do
  let v ← Json.ofString? text
  match a.command with
  | .solve =>
    let r := (← SolveDocument.ofJson? v).report rounds a
    return ⟨r.mode, r.events, r.result.map SolveReport.document⟩
  | .rectangles =>
    let r := (← RectanglesDocument.ofJson? v).report rounds a
    return ⟨r.mode, r.events, r.result.map RectanglesReport.document⟩

def render (a : Arguments) (d : Document) : String :=
  (if a.pretty then d.pretty 0 else d.compact) ++ "\n"

def traceSetting : String :=
  "VPSC_TRACE"

variable {m : Type → Type} [Monad m]

def readText (host : Host m) (a : Arguments) : m (Except ProgramFault String) := do
  let bytes ←
    match a.input with
    | none => host.readInput
    | some path => if path = "-" then host.readInput else host.readFile path
  match bytes with
  | .error message => return .error (.host message)
  | .ok bytes =>
    match String.fromUTF8? bytes with
    | none => return .error (.host "stream did not contain valid UTF-8")
    | some text => return .ok text

def write (host : Host m) (a : Arguments) (text : String) : m (Except ProgramFault Unit) := do
  match a.out with
  | none =>
    host.print text
    return .ok ()
  | some path => return (← host.writeFile path text).mapError .host

def perform (host : Host m) (a : Arguments) : m (Except ProgramFault Unit) := do
  match ← readText host a with
  | .error fault => return .error fault
  | .ok text =>
    match answer a text with
    | none => return .error .json
    | some run =>
      if (← host.setting traceSetting) = some "1" then
        if let some events := run.events then
          host.printError (String.join ((traceLines run.mode events).map (· ++ "\n")))
      match run.result with
      | .error fault => return .error (.report fault)
      | .ok d => write host a (render a d)

def run (host : Host m) (args : List String) : m UInt32 := do
  match Arguments.ofList? args with
  | none =>
    host.printError (Arguments.usage ++ "\n")
    return 2
  | some a =>
    match ← perform host a with
    | .ok () => return 0
    | .error fault =>
      if let some message := fault.message? then
        host.printError (message ++ "\n")
      return fault.exitCode

end Program

end Spacing
