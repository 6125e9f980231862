import Lockstep.Id

/-!
# Faults and errors

A fault is the end of a computation whose caller broke its contract: a block that the function
does not have, a position past the end of a block, a size that no machine word holds, or a walk
along a damaged tree that never arrives. Faults are no errors of the input: on well-formed
functions none occurs, except that a size may always overflow.

An error says what is wrong with a module, a file or a request. `Error.message` is the one place
where the wording stands. A computation that can end with either ends in a `Stop`.
-/

namespace Lockstep

/-! ### Broken contracts -/

/-- The ways in which a computation breaks off. -/
inductive Fault where
  /-- The function has no such block. -/
  | missingBlock (block : BlockId)
  /-- An instruction was to be put past the end of a block. -/
  | pastEnd (index : Nat)
  /-- A size, an alignment or a count does not fit its word. -/
  | overflow
  /-- The walk never ends. -/
  | diverges
deriving DecidableEq

/-! ### Errors -/

/-- Why a file could not be used. -/
inductive IoError where
  | notFound
  | notDirectory
  | isDirectory
  /-- The content is no UTF-8 text. -/
  | notText
  | nameTooLong
  /-- The name holds a null character, which no file name can. -/
  | nullInName
  /-- A sink that refuses, with its own words. -/
  | refused (reason : String)
deriving DecidableEq

/-- The wording of a file error. -/
def IoError.message : IoError → String
  | .notFound => "No such file or directory (os error 2)"
  | .notDirectory => "Not a directory (os error 20)"
  | .isDirectory => "Is a directory (os error 21)"
  | .nameTooLong => "File name too long (os error 36)"
  | .notText => "stream did not contain valid UTF-8"
  | .nullInName => "file name contained an unexpected NUL byte"
  | .refused reason => reason

/-- What can be malformed about a function or about a request to change it. -/
inductive Defect where
  /-- A block's identifier is not its position in the arena. -/
  | misplacedBlock (name : String) (id : BlockId) (slot : Nat)
  | layoutMissing (block : BlockId)
  | layoutRepeats (block : BlockId)
  | noTerminator (name : String)
  | missingTarget (name : String) (target : BlockId)
  | missingPhiLabel (name : String) (label : BlockId)
  | splitOutOfRange (index : Nat) (name : String)
  | unknownLoop (index : Nat)
  | noFunction
  | noBlock
  | blockNotFound (block : BlockId)
  | noHeaderFile
deriving DecidableEq

/-- The wording of a defect. -/
def Defect.message : Defect → String
  | .misplacedBlock name id slot =>
      "block '" ++ name ++ "' has id " ++ id.text ++ " in slot " ++ toString slot
  | .layoutMissing block => "layout refers to missing block " ++ block.text
  | .layoutRepeats block => "block " ++ block.text ++ " appears twice in the layout"
  | .noTerminator name => "block '" ++ name ++ "' has no terminator"
  | .missingTarget name target =>
      "block '" ++ name ++ "' branches to missing block " ++ target.text
  | .missingPhiLabel name label => "phi in '" ++ name ++ "' names missing block " ++ label.text
  | .splitOutOfRange index name =>
      "split point " ++ toString index ++ " out of range in block '" ++ name ++ "'"
  | .unknownLoop index => "unknown loop " ++ toString index
  | .noFunction => "no current function"
  | .noBlock => "no current block"
  | .blockNotFound block => "block " ++ block.text ++ " not found"
  | .noHeaderFile => "no header file given for the kernel descriptions"

/-- A block whose immediate dominator on record is not the one that the branches give. -/
structure DominatorMismatch where
  block : BlockId
  recorded : Option BlockId
  expected : Option BlockId
deriving DecidableEq

/-- An optional block as diagnostics show it. -/
def showBlock? : Option BlockId → String
  | none => "None"
  | some block => "Some(BlockId(" ++ toString block.index ++ "))"

/-- The reasons for a pass to give up. -/
inductive Error where
  /-- A loop cannot be worked on because no single block leads into it. -/
  | nonCanonicalLoop (function header : String)
  /-- The dominator tree on record does not fit the function; `block` is the block's name. -/
  | dominatorTreeMismatch (function block : String) (mismatch : DominatorMismatch)
  | headerOpen (path : String) (cause : IoError)
  | invalidIr (function : String) (defect : Defect)
  | unknownFunction (id : FunctionId)
  | io (cause : IoError)
  /-- The text is not a module. -/
  | unreadableModule
deriving DecidableEq

/-- The wording of an error. -/
def Error.message : Error → String
  | .nonCanonicalLoop function header =>
      "Non-canonicalized loop found: loop with header '" ++ header ++ "' in '" ++ function ++
        "' has no preheader"
  | .dominatorTreeMismatch function block mismatch =>
      "Dominator tree verification failed in '" ++ function ++ "': block '" ++ block ++
        "' has immediate dominator " ++ showBlock? mismatch.recorded ++ ", expected " ++
        showBlock? mismatch.expected
  | .headerOpen path cause => "Cannot open header file '" ++ path ++ "': " ++ cause.message
  | .invalidIr function defect => "Malformed IR in '" ++ function ++ "': " ++ defect.message
  | .unknownFunction id => "Unknown function " ++ id.text
  | .io cause => "IO error: " ++ cause.message
  | .unreadableModule => "Module serialization error: not the JSON form of a module"

/-- Why a computation ended without a value. -/
inductive Stop where
  | fault (fault : Fault)
  | error (error : Error)
deriving DecidableEq

/-- A computation that only breaks contracts is one that may also report errors. -/
instance : MonadLift (Except Fault) (Except Stop) where
  monadLift x := x.mapError Stop.fault

/-- A computation that only reports errors is one that may also break contracts. -/
instance : MonadLift (Except Error) (Except Stop) where
  monadLift x := x.mapError Stop.error

end Lockstep
