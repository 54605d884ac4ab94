namespace Spacing

structure FileTree where
  files : List (List String × ByteArray)
  home : List String

namespace FileTree

inductive Fault
  | missing
  | notDirectory
  | isDirectory
  | nameTooLong
deriving Repr, DecidableEq

def Fault.message : Fault → String
  | .missing => "No such file or directory (os error 2)"
  | .notDirectory => "Not a directory (os error 20)"
  | .isDirectory => "Is a directory (os error 21)"
  | .nameTooLong => "File name too long (os error 36)"

inductive Entry
  | directory
  | file (content : ByteArray)

/-- There are no directories but the working one and those that lead to it or to a file. -/
def hasDirectory (t : FileTree) (names : List String) : Bool :=
  names.isPrefixOf t.home ||
    t.files.any fun (file, _) => names.isPrefixOf file && names.length < file.length

def entry? (t : FileTree) (names : List String) : Option Entry :=
  if t.hasDirectory names then some .directory else Entry.file <$> t.files.lookup names

def child (directory : List String) (name : String) : Except Fault (List String) :=
  if 255 < name.utf8ByteSize then .error .nameTooLong else .ok (directory ++ [name])

def enter (t : FileTree) (directory : List String) (part : String) :
    Except Fault (List String) := do
  if part = "." then return directory
  else if part = ".." then return directory.dropLast
  else
    let names ← child directory part
    match t.entry? names with
    | some .directory => return names
    | some (.file _) => throw .notDirectory
    | none => throw .missing

/-- Follows a path up to its last part, which is returned with the directory that was reached. There
is none if the path leads to that directory itself. -/
def follow (t : FileTree) (path : String) : Except Fault (List String × Option String) := do
  if path.isEmpty then throw .missing
  else if 4096 ≤ path.utf8ByteSize then throw .nameTooLong
  else
    let start := if path.startsWith "/" then [] else t.home
    let parts := (path.splitOn "/").filter (· ≠ "")
    match parts.getLast? with
    | none => return (start, none)
    | some last =>
      let directory ← parts.dropLast.foldlM t.enter start
      return (directory, if last = "." ∨ last = ".." then none else some last)

def read (t : FileTree) (path : String) : Except Fault ByteArray := do
  match ← t.follow path with
  | (_, none) => throw .isDirectory
  | (directory, some name) =>
    match t.entry? (← child directory name) with
    | none => throw .missing
    | some .directory => throw .isDirectory
    | some (.file content) => if path.endsWith "/" then throw .notDirectory else return content

/-- A path that ends in a slash is refused before its last name is looked up, as no directory can be
written. -/
def write (t : FileTree) (path : String) (content : ByteArray) : Except Fault FileTree := do
  match ← t.follow path with
  | (_, none) => throw .isDirectory
  | (directory, some name) =>
    if path.endsWith "/" then throw .isDirectory
    else
      let names ← child directory name
      match t.entry? names with
      | some .directory => throw .isDirectory
      | some (.file _) =>
        return { t with files := t.files.map fun f => if f.1 = names then (names, content) else f }
      | none => return { t with files := t.files ++ [(names, content)] }

end FileTree

end Spacing
