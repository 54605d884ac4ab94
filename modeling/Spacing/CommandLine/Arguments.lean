import Spacing.Rectangle
import Spacing.Solver.Basic

namespace Spacing

inductive Command
  | solve
  | rectangles
deriving Repr, DecidableEq

structure Arguments where
  command : Command
  input : Option String
  mode : Option Mode
  axis : Option Axis
  reduced : Bool
  pretty : Bool
  out : Option String
deriving Repr, DecidableEq

def Mode.ofText? : String → Option Mode
  | "batch" => some .batch
  | "incremental" => some .incremental
  | _ => none

def Axis.ofText? : String → Option Axis
  | "x" => some .x
  | "y" => some .y
  | _ => none

namespace Arguments

def usage : String :=
  "vpsc-cli\n\nUSAGE:\n" ++
  "vpsc-cli [solve] [--mode batch|incremental] [--pretty] [--out <path>] [<path>|-]\n" ++
  "vpsc-cli rects [--axis x|y] [--transitive-reduction] [--mode batch|incremental] " ++
  "[--pretty] [--out <path>] [<path>|-]\n\nNOTES:\n" ++
  "- If <path> is omitted or '-', input is read from stdin.\n" ++
  "- solve reads \x7b\"variables\": [\x7b\"id\", \"desired\", \"weight\"?\x7d], " ++
  "\"constraints\": [\x7b\"left\", \"right\", \"gap\", \"equality\"?\x7d]\x7d\n" ++
  "where left/right are variable ids, and prints the solved position per id.\n" ++
  "- rects reads \x7b\"rectangles\": " ++
  "[\x7b\"min_x\", \"max_x\", \"min_y\", \"max_y\"\x7d], \"axis\"?\x7d and prints the\n" ++
  "rectangles moved along the axis so that none overlap.\n" ++
  "- Command-line flags override the corresponding input fields.\n" ++
  "- Set VPSC_TRACE=1 to dump solver events to stderr.\n"

def isBlank (c : Char) : Bool :=
  let n := c.toNat
  (9 ≤ n && n ≤ 13) || n == 0x20 || n == 0x85 || n == 0xA0 || n == 0x1680 ||
    (0x2000 ≤ n && n ≤ 0x200A) || n == 0x2028 || n == 0x2029 || n == 0x202F || n == 0x205F ||
    n == 0x3000

def normalize (s : String) : String :=
  let cs := s.toList.dropWhile isBlank
  String.ofList ((cs.reverse.dropWhile isBlank).reverse.map Char.toLower)

/-- Reads arguments from left to right; of repeated ones the last counts. There is no result if the
usage is to be shown. -/
def read? (a : Arguments) : List String → Option Arguments
  | [] => some a
  | "--help" :: _ => none
  | "-h" :: _ => none
  | "solve" :: rest => { a with command := .solve }.read? rest
  | "rects" :: rest => { a with command := .rectangles }.read? rest
  | "--pretty" :: rest => { a with pretty := true }.read? rest
  | "--transitive-reduction" :: rest => { a with reduced := true }.read? rest
  | "--mode" :: value :: rest => do
    let mode ← Mode.ofText? (normalize value)
    read? { a with mode } rest
  | "--axis" :: value :: rest => do
    let axis ← Axis.ofText? (normalize value)
    read? { a with axis } rest
  | "--out" :: value :: rest => { a with out := some value }.read? rest
  | path :: rest =>
    if path.startsWith "-" && path != "-" then none
    else if a.input.isSome then none
    else { a with input := some path }.read? rest

def ofList? (args : List String) : Option Arguments :=
  read? ⟨.solve, none, none, none, false, false, none⟩ args

end Arguments

end Spacing
