import Lockstep.Interchange.Instruction
import Lockstep.Json.Reader
import Lockstep.Module

/-!
# Modules in JSON form

How modules are kept in files. No module is too malformed to be written or read:
`Module.validate` is another matter.
-/

namespace Lockstep

open Codec

instance : Codec Linkage :=
  enumeration [.external, .internal, .unlisted]
    fun
    | .external => "External"
    | .internal => "Internal"
    | .unlisted => "Private"

instance : Codec Block where
  encode b :=
    .obj [("id", encode b.id), ("name", encode b.name), ("instructions", encode b.instructions)]
  decode? form := do
    let fs ← fields? ["id", "name", "instructions"] form
    return { id := ← field? fs "id", name := ← field? fs "name",
             instructions := ← field? fs "instructions" }

instance : Codec Parameter where
  encode p := .obj [("name", encode p.name), ("ty", encode p.ty)]
  decode? form := do
    let fs ← fields? ["name", "ty"] form
    return { name := ← field? fs "name", ty := ← field? fs "ty" }

instance : Codec Function where
  encode f :=
    .obj [("name", encode f.name), ("return_type", encode f.returnType),
      ("parameters", encode f.parameters), ("linkage", encode f.linkage),
      ("is_vararg", encode f.variadic), ("blocks", encode f.blocks),
      ("layout", encode f.layout)]
  decode? form := do
    let fs ← fields? ["name", "return_type", "parameters", "linkage", "is_vararg", "blocks",
      "layout"] form
    return { name := ← field? fs "name", returnType := ← field? fs "return_type",
             parameters := ← field? fs "parameters", linkage := ← field? fs "linkage",
             variadic := ← field? fs "is_vararg", blocks := ← field? fs "blocks",
             layout := ← field? fs "layout" }

/-! ### Modules -/

instance : Codec GlobalVar where
  encode g :=
    .obj [("name", encode g.name), ("value_type", encode g.valueType),
      ("addr_space", encode g.space), ("is_constant", encode g.isConstant),
      ("initializer", encode g.initializer), ("linkage", encode g.linkage)]
  decode? form := do
    let fs ← fields? ["name", "value_type", "addr_space", "is_constant", "initializer",
      "linkage"] form
    return { name := ← field? fs "name", valueType := ← field? fs "value_type",
             space := ← field? fs "addr_space", isConstant := ← field? fs "is_constant",
             initializer := ← optional? fs "initializer", linkage := ← field? fs "linkage" }

instance : Codec MetadataOperand where
  encode
    | .function id => tagged "Function" (encode id)
    | .int value => tagged "Int" (encode value)
    | .string text => tagged "String" (encode text)
    | .null => .str "Null"
  decode? form := do
    match ← variant? form with
    | ("Function", some payload) => return .function (← decode? payload)
    | ("Int", some payload) => return .int (← decode? payload)
    | ("String", some payload) => return .string (← decode? payload)
    | ("Null", payload) => if isBare payload then some .null else none
    | _ => none

instance : Codec MetadataNode where
  encode node := .obj [("operands", encode node.operands)]
  decode? form := do
    let fs ← fields? ["operands"] form
    return { operands := ← field? fs "operands" }

instance : Codec MetadataTable where
  encode table := .obj [("name", encode table.name), ("operands", encode table.nodes)]
  decode? form := do
    let fs ← fields? ["name", "operands"] form
    return { name := ← field? fs "name", nodes := ← field? fs "operands" }

instance : Codec Module where
  encode m :=
    .obj [("name", encode m.name), ("functions", encode m.functions),
      ("globals", encode m.globals), ("named_metadata", encode m.metadata)]
  decode? form := do
    let fs ← fields? ["name", "functions", "globals", "named_metadata"] form
    return { name := ← field? fs "name", functions := ← field? fs "functions",
             globals := ← field? fs "globals", metadata := ← field? fs "named_metadata" }

namespace Module

/-- The text that a module is kept as. -/
def save (m : Module) : String :=
  (encode m).pretty

/-- The number of brackets that may be open around what is read of a module. -/
def maxDepth : Nat := 127

/-- The module that a text keeps. -/
def load (text : String) : Except Error Module :=
  match (Json.parse? text).bind fun json => decode? ⟨json, maxDepth⟩ with
  | some m => .ok m
  | none => .error .unreadableModule

end Module

end Lockstep
