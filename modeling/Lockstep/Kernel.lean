import Lockstep.Module
import Lockstep.Pass

/-!
# Kernel headers

For every kernel a header says in macros how many arguments it has, which of them are pointers,
which of those point into memory that the host does not see, and how large its automatic locals
are. The automatic locals of a kernel `k` are the global variables named `k.` and something
more.

A kernel with automatic locals is replaced by a copy that takes them as parameters behind its
own. The whole header is written before the module is touched, so a sink that fails leaves the
module as it was. The copies are added to the module first, while every table still speaks of the
kernels that were there before. Committing them then repairs the tables and erases the kernels that
were replaced.
-/

namespace Lockstep

namespace Kernel

/-! ### Replaced kernels -/

/-- A kernel and what stands in for it; the kernel itself when it is kept. -/
abbrev Pair := FunctionId × FunctionId

/-- The kernels of a module in the order they were visited, with their replacements. -/
structure Replacements where
  pairs : List Pair := []
deriving DecidableEq

/-- The copies of a row of work-group sizes for the replacements of the kernel it speaks of. -/
def rowCopies (pairs : List Pair) (node : MetadataNode) : List MetadataNode :=
  pairs.filterMap fun (old, new) =>
    if old ≠ new ∧ node.function? = some old then some (node.retarget new) else none

/-- Lets the tables of a module speak of replacements. The work-group sizes keep their rows and
get copies for the replacements at their end. The table of kernels is made anew, with a row for
each pair. -/
def regenerateTables (m : Module) (pairs : List Pair) : Module :=
  let m := m.updateTable groupSizesTable fun table =>
    { table with nodes := table.nodes ++ table.nodes.flatMap (rowCopies pairs) }
  let m := (m.eraseTable kernelsTable).ensureTable kernelsTable
  m.updateTable kernelsTable fun table =>
    { table with nodes := table.nodes ++ pairs.map fun (_, new) => .ofFunction new }

namespace Replacements

/-- The pairs whose kernel was replaced. -/
def changed (r : Replacements) : List Pair :=
  r.pairs.filter fun (old, new) => old ≠ new

/-- Was any kernel replaced? -/
def anyChanged (r : Replacements) : Bool :=
  !r.changed.isEmpty

/-- Erases a replaced kernel and reports it. -/
def eraseOld (pair : Pair) : Pass Module Unit := do
  Pass.log .debug (.ok ("erasing kernel " ++ pair.1.text ++ " replaced by " ++ pair.2.text))
  modify (·.eraseFunction pair.1)

/-- Repairs the tables and erases the replaced kernels. -/
def commit (r : Replacements) : Pass Module Unit := do
  modify (regenerateTables · r.pairs)
  r.changed.forM eraseOld

end Replacements

/-! ### The text of a header -/

/-- A list in braces. -/
def braceList (items : List String) : String :=
  "\x7b" ++ ", ".intercalate items ++ "\x7d"

/-- A macro about a kernel. -/
def define (kernel property value : String) : String :=
  "#define _" ++ kernel ++ "_" ++ property ++ " " ++ value ++ "\n"

/-- A truth value as a macro shows it. -/
def flag (b : Bool) : String :=
  if b then "1" else "0"

/-- Is the type a pointer into memory that the host does not see? -/
def isLocalPointer (ty : Ty) : Bool :=
  (ty.addressSpace?.map AddressSpace.isLocalLike).getD false

/-- The macros about the arguments of a kernel. -/
def describeArguments (f : Function) : String :=
  define f.name "NUM_ARGS" (toString f.parameters.length) ++
  define f.name "ARG_IS_POINTER" (braceList (f.parameters.map fun p => flag p.ty.isPointer)) ++
  define f.name "ARG_IS_LOCAL" (braceList (f.parameters.map fun p => flag (isLocalPointer p.ty)))

/-- The automatic locals of a kernel. -/
def automaticLocals (m : Module) (kernel : String) : List GlobalId :=
  (m.numberedGlobals.filter fun (_, g) =>
    (kernel ++ ".").toList.isPrefixOf g.name.toList).map Prod.fst

/-- How many bytes a value of a type takes on the target. -/
abbrev SizeOf := Ty → Except Fault Nat

/-- The macros about the automatic locals of a kernel. -/
def describeLocals (sizeOf : SizeOf) (m : Module) (f : Function) : Except Fault String := do
  let locals := automaticLocals m f.name
  let sizes ← (locals.filterMap m.global?).mapM fun g => sizeOf g.valueType
  return define f.name "NUM_LOCALS" (toString locals.length) ++
    define f.name "LOCAL_SIZE" (braceList (sizes.map toString))

/-! ### The replacement of a kernel -/

/-- The parameters that take the place of automatic locals. -/
def localParameters (m : Module) (locals : List GlobalId) : List Parameter :=
  (locals.filterMap m.global?).zipIdx.map fun (g, i) =>
    { name := "_local" ++ toString i, ty := g.pointerType }

/-- Sends each automatic local to its parameter; the parameters before are `count`. -/
def localMap (count : Nat) (locals : List GlobalId) : ValueMap :=
  locals.zipIdx.map fun (id, i) => (.global id, .param (count + i).toUInt32)

/-- The copy of a kernel that takes its automatic locals as parameters. -/
def widened (m : Module) (f : Function) (locals : List GlobalId) : Function :=
  let wider := { f with parameters := f.parameters ++ localParameters m locals }
  wider.cloneBody f (localMap f.parameters.length locals)

/-- Adds the replacement of a kernel to the module. It takes over the kernel's name. -/
def replaceKernel (id : FunctionId) (locals : List GlobalId) : Pass Module FunctionId := do
  let m ← get
  match m.function? id with
  | none => Pass.fail (.unknownFunction id)
  | some f =>
      Pass.log .debug (.ok ("kernel '" ++ f.name ++ "' gets " ++ toString locals.length ++
        " automatic locals as parameters"))
      let (new, m') := (m.setFunction id { f with name := "" }).addFunction (widened m f locals)
      set m'
      return new

/-! ### Writing headers -/

namespace Header

variable {σ : Type}

/-- A module and the sink that its header goes to. -/
structure Work (σ : Type) where
  module : Module
  sink : σ

/-- Runs a pass on the module alone. -/
def onModule {α : Type} (x : Pass Module α) : Pass (Work σ) α :=
  Pass.zoom Work.module (fun m w => { w with module := m }) x

/-- Writes to the sink. -/
def write [Sink σ] (text : String) : Pass (Work σ) Unit := do
  let w ← get
  match Sink.write w.sink text with
  | .ok sink => set { w with sink }
  | .error e => Pass.fail (.io e)

/-- Flushes the sink. -/
def flush [Sink σ] : Pass (Work σ) Unit := do
  let w ← get
  match Sink.flush w.sink with
  | .ok sink => set { w with sink }
  | .error e => Pass.fail (.io e)

/-- Describes a kernel, and puts it on the plan with its automatic locals. -/
def describe [Sink σ] (sizeOf : SizeOf) (accepts : KernelPredicate)
    (plan : List (FunctionId × List GlobalId)) (id : FunctionId) :
    Pass (Work σ) (List (FunctionId × List GlobalId)) := do
  let m := (← get).module
  if !accepts m id then
    return plan
  match m.function? id with
  | none => Pass.fail (.unknownFunction id)
  | some f =>
      Pass.log .info (.ok ("GenerateHeader: processing kernel '" ++ f.name ++ "'"))
      write (describeArguments f ++ (← describeLocals sizeOf m f))
      return plan ++ [(id, automaticLocals m f.name)]

/-- Replaces a kernel of the plan, if it has automatic locals. -/
def replace (r : Replacements) (planned : FunctionId × List GlobalId) :
    Pass Module Replacements := do
  let (id, locals) := planned
  if locals.isEmpty then
    return { pairs := r.pairs ++ [(id, id)] }
  let new ← replaceKernel id locals
  return { pairs := r.pairs ++ [(id, new)] }

/-- Describes every kernel, then replaces those that have automatic locals. Says whether any
was replaced. -/
def run [Sink σ] (sizeOf : SizeOf) (accepts : KernelPredicate) : Pass (Work σ) Bool := do
  let plan ← (← get).module.functionIds.foldlM (describe sizeOf accepts) []
  flush
  let replacements ← onModule (plan.foldlM replace {})
  if !replacements.anyChanged then
    return false
  onModule replacements.commit
  return true

/-- Describes the automatic locals of one kernel and adds its replacement, if it has any. Gives
the replacement, or the kernel itself, and whether it was replaced. -/
def hoistLocals [Sink σ] (sizeOf : SizeOf) (id : FunctionId) :
    Pass (Work σ) (FunctionId × Bool) := do
  let m := (← get).module
  match m.function? id with
  | none => Pass.fail (.unknownFunction id)
  | some f =>
      write (← describeLocals sizeOf m f)
      let locals := automaticLocals m f.name
      if locals.isEmpty then
        return (id, false)
      return (← onModule (replaceKernel id locals), true)

end Header

end Kernel

end Lockstep
