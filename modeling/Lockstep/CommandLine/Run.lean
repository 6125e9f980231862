import Lockstep.CommandLine.Arguments
import Lockstep.Interchange.Module

/-!
# A run of the program

From the arguments and the files that the program sees to its exit code, what it prints, and
the files that it leaves.
-/

namespace Lockstep

namespace CommandLine

/-- How a run ended. -/
inductive Exit where
  | done
  /-- An error was reported. -/
  | failed
  /-- The arguments were refused. -/
  | refused
  /-- The run broke off. -/
  | broken
deriving DecidableEq

/-- The exit code. -/
def Exit.code : Exit → UInt32
  | .done => 0
  | .failed => 1
  | .refused => 2
  | .broken => 101

/-- What a run leaves behind. -/
structure Report where
  exit : Exit
  output : String := ""
  errors : String := ""
  files : FileTree
  log : Log := []

/-- The version that the program names. -/
def versionText : String := "wgc 0.1.0\n"

/-- The files of a run, and what it has printed so far. -/
structure Console where
  files : FileTree
  output : String := ""
  errors : String := ""

/-- Reads the module that a path names. -/
def loadModule (path : String) : Pass Console Module := do
  match (← get).files.readText path with
  | .error e => Pass.fail (.io e)
  | .ok text => Module.load text

/-- The passes of a command. -/
def Command.pass (command : Command) (options : Pipeline.Options) :
    Pass Pipeline.Workspace Bool :=
  match command with
  | .loopBarriers => Pipeline.onModule (Pipeline.runLoopBarriers options)
  | .generateHeader => Pipeline.runHeader options
  | .run => Pipeline.runBoth options

/-- Runs the passes on a module and gives the result with whether it changed. -/
def transform (job : Job) (m : Module) : Pass Console (Module × Bool) := fun detail console =>
  let out := (job.command.pass job.options).run detail { module := m, files := console.files }
  { result := out.result.map fun changed => (out.state.module, changed)
    state := { console with files := out.state.files }
    log := out.log }

/-- Writes the module to the output file, or prints it. -/
def deliver (job : Job) (m : Module) (changed : Bool) : Pass Console Unit := do
  let console ← get
  match job.output with
  | none => set { console with output := console.output ++ m.save ++ "\n" }
  | some path =>
      match console.files.writeText path m.save with
      | .error e => Pass.fail (.io e)
      | .ok files =>
          set { console with files }
          Pass.log .info (.ok ("module written to " ++ path ++ " (changed: " ++
            Pipeline.boolText changed ++ ")"))

/-- Does a job. -/
def Job.perform (job : Job) : Pass Console Unit := do
  let m ← loadModule job.input
  Pass.log .info (.ok ("loaded module '" ++ m.name ++ "' from " ++ job.input))
  let (m, changed) ← transform job m
  if job.printIr then
    let listing ← m.text
    modify fun console => { console with errors := console.errors ++ listing ++ "\n" }
  deliver job m changed

/-- How much of the log a job wants: warnings always, and more each time it is asked for. -/
def Job.detail (job : Job) : Detail :=
  some (match job.verbosity with
    | 0 => .warn
    | 1 => .info
    | 2 => .debug
    | _ => .trace)

/-- Does a job and reports how it ended. -/
def Job.report (job : Job) (files : FileTree) : Report :=
  let out := job.perform.run job.detail { files }
  let report : Report := { exit := .done, output := out.state.output,
                           errors := out.state.errors, files := out.state.files, log := out.log }
  match out.result with
  | .ok () => report
  | .error (.error e) =>
      { report with exit := .failed, errors := report.errors ++ "Error: " ++ e.message ++ "\n" }
  | .error (.fault _) => { report with exit := .broken }

/-- Runs the program with some arguments. -/
def run (args : List String) (files : FileTree) : Report :=
  match Request.ofArguments? args with
  | none => { exit := .refused, files }
  | some .version => { exit := .done, output := versionText, files }
  | some .help => { exit := .done, files }
  | some (.job job) => job.report files

end CommandLine

end Lockstep
