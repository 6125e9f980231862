import Lockstep.DataLayout
import Lockstep.Files
import Lockstep.Kernel
import Lockstep.LoopBarriers

/-!
# Running the passes

The passes as a user asks for them: over a module and the files around it, with the kernels,
the target and the header chosen by options.
-/

namespace Lockstep

namespace Pipeline

/-- What a user can choose. -/
structure Options where
  /-- Work on the kernels of this name only. -/
  kernel : Option String := none
  /-- The path of the header. -/
  header : Option String := none
  /-- The size of a pointer on the target, in bytes. -/
  pointerSize : UInt64 := 8
  /-- Start the header anew. -/
  truncateHeader : Bool := false

/-- The functions that the options make kernels. -/
def Options.accepts (options : Options) : KernelPredicate :=
  Kernel.Selection.accepts { name := options.kernel }

/-- A module and the files around it. -/
structure Workspace where
  module : Module
  files : FileTree

/-- Runs a pass on the module alone. -/
def onModule {α : Type} (x : Pass Module α) : Pass Workspace α :=
  Pass.zoom Workspace.module (fun m w => { w with module := m }) x

/-- A truth value in words. -/
def boolText (b : Bool) : String :=
  if b then "true" else "false"

/-- Gives every loop of the kernels of a well-formed module the barriers that it needs. -/
def runLoopBarriers (options : Options) : Pass Module Bool := do
  (← get).validate
  let changed ← LoopBarriers.run options.accepts
  let m ← get
  Pass.log .info (.ok ("loop-barriers: module '" ++ m.name ++ "' changed: " ++ boolText changed))
  return changed

/-- Opens the header that a path names. -/
def openHeader (files : FileTree) (path : String) (truncate : Bool) : Except Error OpenFile :=
  (OpenFile.openAt files path truncate).mapError (.headerOpen path)

/-- Runs a header pass with an open file as its sink. -/
def withSink {α : Type} (file : OpenFile) (x : Pass (Kernel.Header.Work OpenFile) α) :
    Pass Workspace α :=
  Pass.zoom (fun w => { module := w.module, sink := file : Kernel.Header.Work OpenFile })
    (fun done _ => { module := done.module, files := done.sink.tree }) x

/-- Writes the header of the kernels of a well-formed module and replaces those with automatic
locals. -/
def runHeader (options : Options) : Pass Workspace Bool := do
  let w ← get
  match options.header with
  | none => Pass.fail (.invalidIr w.module.name .noHeaderFile)
  | some path =>
      w.module.validate
      let file ← openHeader w.files path options.truncateHeader
      let changed ← withSink file
        (Kernel.Header.run (DataLayout.allocSize options.pointerSize) options.accepts)
      let w ← get
      Pass.log .info (.ok ("generate-header: module '" ++ w.module.name ++ "' changed: " ++
        boolText changed ++ ", header " ++ path))
      return changed

/-- The loop barriers, then the header. -/
def runBoth (options : Options) : Pass Workspace Bool := do
  let barriers ← onModule (runLoopBarriers options)
  let header ← runHeader options
  return barriers || header

end Pipeline

end Lockstep
