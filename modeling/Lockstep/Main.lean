import Lockstep.CommandLine.Run

/-!
# The program

The outer layer: takes a picture of the files that the arguments name, runs the program on it,
prints what it printed, and writes the files that it changed.
-/

namespace Lockstep

namespace CommandLine

/-- The paths that a request names. -/
def Request.paths (request : Request) : List String :=
  match request with
  | .job j => [j.input] ++ j.output.toList ++ j.options.header.toList
  | _ => []

/-- A path as the system takes it. -/
def pathText : Path → String
  | [] => "."
  | "/" :: rest => "/" ++ "/".intercalate rest
  | path => "/".intercalate path

/-- What the system has under a name. -/
inductive Found where
  | file (content : ByteArray)
  | directory
  | nothing

/-- Asks the system what it has under a name. -/
def lookUp (name : String) : IO Found := do
  try
    return .file (← IO.FS.readBinFile name)
  catch
    | .inappropriateType .. => return .directory
    | _ => return .nothing

/-- Adds what stands on the way along some components, up to the first that is no directory. -/
def addFrom (tree : FileTree) (here : Path) : List String → IO FileTree
  | [] => return tree
  | component :: rest => do
      let there := FileTree.follow here component
      match ← lookUp (pathText there) with
      | .file content => return tree.put there content
      | .directory => addFrom (tree.makeDirectory there) there rest
      | .nothing => return tree

/-- Adds what stands at a path, and the directories on the way to it. -/
def addPath (tree : FileTree) (text : String) : IO FileTree :=
  addFrom tree [] (FileTree.components text)

/-- Writes the files that are not as they were. -/
def writeChanges (before after : FileTree) : IO Unit := do
  for (path, content) in after.files do
    unless before.file? path == some content do
      IO.FS.writeBinFile (pathText path) content

end CommandLine

end Lockstep

open Lockstep CommandLine in
/-- Runs the program. -/
def main (args : List String) : IO UInt32 := do
  let request := Request.ofArguments? args
  let before ← ((request.map Request.paths).getD []).foldlM addPath {}
  let report := run args before
  writeChanges before report.files
  for record in report.log do
    IO.eprintln ("[" ++ record.text ++ "]")
  IO.print report.output
  IO.eprint report.errors
  return report.exit.code
