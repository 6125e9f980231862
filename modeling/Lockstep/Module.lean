import Lockstep.Function

/-!
# Modules

A module holds functions, global variables and metadata tables. Functions live in slots, and
erasing one leaves its slot empty, so an identifier never comes to mean another function. A
metadata table says something about the functions of the module, and a row that speaks of a
function names it by its first operand.

Some functions of a module are kernels to work on. A function without a body never is one. With
a name given, the functions of that name are; otherwise those that the table of kernels lists.
-/

namespace Lockstep

/-! ### Metadata tables -/

/-- An entry of a row. -/
inductive MetadataOperand where
  | function (id : FunctionId)
  | int (value : Int64)
  | string (text : String)
  | null
deriving DecidableEq

/-- A row of a table. -/
structure MetadataNode where
  operands : List MetadataOperand
deriving DecidableEq

/-- A named list of rows. -/
structure MetadataTable where
  name : String
  nodes : List MetadataNode := []
deriving DecidableEq

/-- The spelling of an entry in listings. -/
def MetadataOperand.text : MetadataOperand → String
  | .function id => "@" ++ id.text
  | .int value => "i32 " ++ toString value.toInt
  | .string text => "!\"" ++ text ++ "\""
  | .null => "null"

namespace MetadataNode

/-- The function that the row speaks of. -/
def function? (node : MetadataNode) : Option FunctionId :=
  match node.operands with
  | .function id :: _ => some id
  | _ => none

/-- The row that speaks of one function and says nothing else. -/
def ofFunction (id : FunctionId) : MetadataNode :=
  ⟨[.function id]⟩

/-- The same row for another function. -/
def retarget (node : MetadataNode) (id : FunctionId) : MetadataNode :=
  ⟨.function id :: node.operands.tail⟩

/-- The spelling of a row in listings. -/
def text (node : MetadataNode) : String :=
  "!\x7b" ++ ", ".intercalate (node.operands.map MetadataOperand.text) ++ "\x7d"

end MetadataNode

namespace MetadataTable

/-- The table with one more row. -/
def push (table : MetadataTable) (node : MetadataNode) : MetadataTable :=
  { table with nodes := table.nodes ++ [node] }

/-- The spelling of a table in listings. -/
def text (table : MetadataTable) : String :=
  "!" ++ table.name ++ " = !\x7b" ++ ", ".intercalate (table.nodes.map MetadataNode.text) ++
    "\x7d"

end MetadataTable

/-! ### Modules -/

/-- A global variable. Its own type is that of the stored object; as an operand it is a pointer
to it. -/
structure GlobalVar where
  name : String
  valueType : Ty
  space : AddressSpace
  isConstant : Bool := false
  initializer : Option Value := none
  linkage : Linkage := .internal
deriving DecidableEq

/-- The type of the variable as an operand. -/
def GlobalVar.pointerType (g : GlobalVar) : Ty :=
  .ptr g.valueType g.space

/-- The line of a global variable in listings, without its identifier. -/
def GlobalVar.text (g : GlobalVar) : String :=
  "@" ++ g.name ++ " = " ++ g.linkage.text ++ " addrspace(" ++
    toString g.space.number.toNat ++ ") " ++ (if g.isConstant then "constant " else "global ") ++
    g.valueType.text ++ (g.initializer.map fun v => " " ++ v.text).getD ""

/-- A unit of compilation. -/
structure Module where
  name : String
  /-- The function slots; one that was erased is empty. -/
  functions : List (Option Function) := []
  globals : List GlobalVar := []
  metadata : List MetadataTable := []
deriving DecidableEq

namespace Module

/-! ### Functions -/

/-- The function in a slot. -/
def function? (m : Module) (id : FunctionId) : Option Function :=
  m.functions[id.index]?.join

/-- The functions with their identifiers, in the order of their slots. -/
def liveFunctions (m : Module) : List (FunctionId × Function) :=
  m.functions.zipIdx.filterMap fun (slot, i) => slot.map fun f => (.ofIndex i, f)

/-- The identifiers of the functions, in the order of their slots. -/
def functionIds (m : Module) : List FunctionId :=
  m.liveFunctions.map Prod.fst

/-- The first function of that name. -/
def findFunction? (m : Module) (name : String) : Option FunctionId :=
  (m.liveFunctions.find? fun (_, f) => f.name == name).map Prod.fst

/-- The name of a function for diagnostics; an empty slot goes by its identifier. -/
def functionName (m : Module) (id : FunctionId) : String :=
  ((m.function? id).map Function.name).getD id.text

/-- The module with one more function, and its identifier. -/
def addFunction (m : Module) (f : Function) : FunctionId × Module :=
  (.ofIndex m.functions.length, { m with functions := m.functions ++ [some f] })

/-- The module with the slot emptied. -/
def eraseFunction (m : Module) (id : FunctionId) : Module :=
  { m with functions := m.functions.set id.index none }

/-- The module with another function in the slot; unchanged when the slot holds none. -/
def setFunction (m : Module) (id : FunctionId) (f : Function) : Module :=
  { m with functions := m.functions.modify id.index (·.map fun _ => f) }

/-- Accepts a module when all its functions are well-formed; otherwise names what is wrong
with the first that is not. -/
def validate (m : Module) : Except Error Unit :=
  m.liveFunctions.forM fun (_, f) => f.validate

/-! ### Global variables -/

/-- The global variable at a position. -/
def global? (m : Module) (id : GlobalId) : Option GlobalVar :=
  m.globals[id.index]?

/-- The global variables with their identifiers. -/
def numberedGlobals (m : Module) : List (GlobalId × GlobalVar) :=
  m.globals.zipIdx.map fun (g, i) => (.ofIndex i, g)

/-- The first global variable of that name. -/
def findGlobal? (m : Module) (name : String) : Option GlobalId :=
  (m.numberedGlobals.find? fun (_, g) => g.name == name).map Prod.fst

/-- The module with one more global variable, and its identifier. -/
def addGlobal (m : Module) (g : GlobalVar) : GlobalId × Module :=
  (.ofIndex m.globals.length, { m with globals := m.globals ++ [g] })

/-! ### Tables -/

/-- The first table of that name. -/
def table? (m : Module) (name : String) : Option MetadataTable :=
  m.metadata.find? (·.name == name)

/-- The module with the first table of that name replaced by its image. -/
def updateTable (m : Module) (name : String) (g : MetadataTable → MetadataTable) : Module :=
  match m.metadata.findIdx? (·.name == name) with
  | some i => { m with metadata := m.metadata.modify i g }
  | none => m

/-- The module with a table of that name: an empty one is added when there is none. -/
def ensureTable (m : Module) (name : String) : Module :=
  if m.metadata.any (·.name == name) then m
  else { m with metadata := m.metadata ++ [{ name }] }

/-- The module without its first table of that name. -/
def eraseTable (m : Module) (name : String) : Module :=
  { m with metadata := m.metadata.eraseP (·.name == name) }

/-! ### Listing -/

/-- The listing of a module: globals, functions, tables. -/
def text (m : Module) : Except Fault String := do
  let functions ← m.liveFunctions.mapM fun (id, f) => do
    return "\n; " ++ id.text ++ "\n" ++ (← f.text)
  return "; ModuleID = '" ++ m.name ++ "'\n" ++
    String.join (m.numberedGlobals.map fun (id, g) => g.text ++ "  ; " ++ id.text ++ "\n") ++
    String.join functions ++ (if m.metadata.isEmpty then "" else "\n") ++
    String.join (m.metadata.map fun table => table.text ++ "\n")

end Module

/-! ### Kernel selection -/

/-- Which functions of a module are kernels to work on. -/
abbrev KernelPredicate := Module → FunctionId → Bool

namespace Kernel

/-- The name of the table that lists the kernels of a module. -/
def kernelsTable : String := "opencl.kernels"

/-- The name of the table of work-group sizes, whose rows start with a kernel. -/
def groupSizesTable : String := "opencl.kernel_wg_size_info"

/-- Does the table of kernels list the function? -/
def isListed (m : Module) (id : FunctionId) : Bool :=
  ((m.table? kernelsTable).map fun table =>
    table.nodes.any fun node => node.function? == some id).getD false

/-- The choice of kernels by name or, without one, by the table of kernels. -/
structure Selection where
  name : Option String := none

/-- Is the function a kernel to work on? -/
def Selection.accepts (selection : Selection) : KernelPredicate := fun m id =>
  match m.function? id with
  | none => false
  | some f =>
      if f.isDeclaration then false
      else match selection.name with
        | some name => f.name == name
        | none => isListed m id

end Kernel

end Lockstep
