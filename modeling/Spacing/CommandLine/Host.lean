import Spacing.CommandLine.FileTree

namespace Spacing

structure Host (m : Type → Type) where
  readInput : m (Except String ByteArray)
  readFile : String → m (Except String ByteArray)
  writeFile : String → String → m (Except String Unit)
  print : String → m Unit
  printError : String → m Unit
  setting : String → m (Option String)

structure Machine where
  input : ByteArray
  settings : List (String × String)
  tree : FileTree
  output : String
  errors : String

def Machine.host : Host (StateM Machine) where
  readInput := do return .ok (← get).input
  readFile path := do
    return ((← get).tree.read path).mapError FileTree.Fault.message
  writeFile path text := do
    match (← get).tree.write path text.toUTF8 with
    | .ok tree =>
      modify fun s => { s with tree }
      return .ok ()
    | .error e => return .error e.message
  print text := modify fun s => { s with output := s.output ++ text }
  printError text := modify fun s => { s with errors := s.errors ++ text }
  setting name := do return (← get).settings.lookup name

end Spacing
