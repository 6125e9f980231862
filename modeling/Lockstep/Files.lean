import Lockstep.Pass

/-!
# File trees

The files that a run can see, as data: directories and files, each under its path, which starts
at a working directory or, behind a slash, at the root. A path in a program's words is resolved
component by component, so a missing directory, a file used as a directory, a directory used as
a file and a name that no file can have are told apart.
-/

namespace Lockstep

/-- A resolved path from the working directory on, the outermost component first. The path of
the root is the slash alone, and paths from the root on start with it. -/
abbrev Path := List String

/-- Directories and files around a working directory. -/
structure FileTree where
  directories : List Path := []
  files : List (Path × ByteArray) := []

namespace FileTree

/-- The working directory, the root, and every directory in the tree. -/
def isDirectory (tree : FileTree) (path : Path) : Bool :=
  path.isEmpty || path = ["/"] || tree.directories.contains path

/-- The content of a file. -/
def file? (tree : FileTree) (path : Path) : Option ByteArray :=
  tree.files.lookup path

/-- Gives a file a content; the file is made if there is none. -/
def put (tree : FileTree) (path : Path) (content : ByteArray) : FileTree :=
  if (tree.file? path).isSome then
    { tree with files := tree.files.map fun (p, c) => if p = path then (p, content) else (p, c) }
  else
    { tree with files := tree.files ++ [(path, content)] }

/-- Makes a directory, and those above it. -/
def makeDirectory (tree : FileTree) (path : Path) : FileTree :=
  let above := (List.range path.length).map fun n => path.take (n + 1)
  { tree with directories := tree.directories ++ above.filter fun p => !tree.isDirectory p }

/-! ### Resolving paths -/

/-- The longest name that a file or a directory can have, in bytes. -/
def maxName : Nat := 255

/-- The longest path in words, in bytes. -/
def maxPath : Nat := 4095

/-- Is there a name in the path that nothing can have? -/
def hasLongName (path : Path) : Bool :=
  path.any fun name => maxName < name.utf8ByteSize

/-- The path behind a component, as far as names go. There is nothing above the root. -/
def follow (here : Path) (component : String) : Path :=
  if component = "" ∨ component = "." then here
  else if component = ".." ∧ here = ["/"] then here
  else if component = ".." ∧ ¬here.isEmpty ∧ here.getLast? ≠ some ".." then here.dropLast
  else here ++ [component]

/-- The components of a path in words: the slash at its head, if it has one, and the names. -/
def components (text : String) : List String :=
  (if text.toList.head? = some '/' then ["/"] else []) ++ (text.splitOn "/").filter (· ≠ "")

/-- The directory that a component leads to. -/
def enter (tree : FileTree) (here : Path) (component : String) : Except IoError Path :=
  let there := follow here component
  if tree.isDirectory there ∨ there.getLast? = some ".." then .ok there
  else if hasLongName there then .error .nameTooLong
  else if (tree.file? there).isSome then .error .notDirectory
  else .error .notFound

/-- Where a path leads: a directory, or a name in a directory that may or may not be there. -/
inductive Target where
  | directory
  /-- `slash` says that the path ends with a slash, as only that of a directory should. -/
  | entry (path : Path) (slash : Bool)

/-- Resolves a path. -/
def resolve (tree : FileTree) (text : String) : Except IoError Target := do
  if text = "" then
    throw .notFound
  if text.toList.contains (Char.ofNat 0) then
    throw .nullInName
  if maxPath < text.utf8ByteSize then
    throw .nameTooLong
  let names := components text
  let here ← names.dropLast.foldlM tree.enter []
  match names.getLast? with
  | none => return .directory
  | some name =>
      let there := follow here name
      if tree.isDirectory there ∨ name = "." ∨ name = ".." ∨ name = "/" then
        return .directory
      return .entry there (text.toList.getLast? = some '/')

/-- The content of the file that a path names. -/
def read (tree : FileTree) (text : String) : Except IoError ByteArray := do
  match ← tree.resolve text with
  | .directory => throw .isDirectory
  | .entry path slash =>
      match tree.file? path with
      | none => throw (if hasLongName path then .nameTooLong else .notFound)
      | some content => if slash then throw .notDirectory else return content

/-- The text of the file that a path names. -/
def readText (tree : FileTree) (text : String) : Except IoError String := do
  match String.fromUTF8? (← tree.read text) with
  | some s => return s
  | none => throw .notText

/-- The path of a file that can be written, whether it is there or not. -/
def writable (tree : FileTree) (text : String) : Except IoError Path := do
  match ← tree.resolve text with
  | .directory => throw .isDirectory
  | .entry path slash =>
      if slash then throw .isDirectory
      else if hasLongName path then throw .nameTooLong
      else return path

/-- Writes a text to a file, over what it held. -/
def writeText (tree : FileTree) (text content : String) : Except IoError FileTree := do
  return tree.put (← tree.writable text) content.toUTF8

end FileTree

/-- A file that text is written to at its end. -/
structure OpenFile where
  tree : FileTree
  path : Path

namespace OpenFile

/-- Opens a file for writing at its end. The file is made if there is none, and emptied on
demand. -/
def openAt (tree : FileTree) (text : String) (truncate : Bool) : Except IoError OpenFile := do
  let path ← tree.writable text
  let kept := if truncate then none else tree.file? path
  return { tree := tree.put path (kept.getD .empty), path }

/-- Writes a text at the end. -/
def append (file : OpenFile) (text : String) : OpenFile :=
  let before := (file.tree.file? file.path).getD .empty
  { file with tree := file.tree.put file.path (before ++ text.toUTF8) }

instance : Sink OpenFile where
  write file text := .ok (file.append text)
  flush := .ok

end OpenFile

end Lockstep
