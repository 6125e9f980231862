import Lockstep.Interchange.Ty

/-!
# Values and instructions in JSON form

An instruction carries its fields as a record, except for the few that carry one value or none.
-/

namespace Lockstep

open Codec

instance : Codec Value where
  encode
    | .temp id => tagged "Temp" (encode id)
    | .param position => tagged "Param" (encode position)
    | .constant value => tagged "Constant" (encode value)
    | .global id => tagged "Global" (encode id)
    | .function id => tagged "Function" (encode id)
    | .constantArray values => tagged "ConstantArray" (encode values)
    | .null => .str "Null"
    | .undef => .str "Undef"
  decode? form := do
    match ← variant? form with
    | ("Temp", some payload) => return .temp (← decode? payload)
    | ("Param", some payload) => return .param (← decode? payload)
    | ("Constant", some payload) => return .constant (← decode? payload)
    | ("Global", some payload) => return .global (← decode? payload)
    | ("Function", some payload) => return .function (← decode? payload)
    | ("ConstantArray", some payload) => return .constantArray (← decode? payload)
    | ("Null", payload) => if isBare payload then some .null else none
    | ("Undef", payload) => if isBare payload then some .undef else none
    | _ => none

namespace Instruction

/-- The JSON form of an instruction. -/
def toJson : Instruction → Json
  | .binary result op lhs rhs ty =>
      tagged "Binary" (.obj [("result", encode result), ("op", encode op), ("lhs", encode lhs),
        ("rhs", encode rhs), ("result_type", encode ty)])
  | .compare result op lhs rhs =>
      tagged "Compare" (.obj [("result", encode result), ("pred", encode op), ("lhs", encode lhs),
        ("rhs", encode rhs)])
  | .load result ptr ty =>
      tagged "Load" (.obj [("result", encode result), ("ptr", encode ptr),
        ("result_type", encode ty)])
  | .store value ptr => tagged "Store" (.obj [("value", encode value), ("ptr", encode ptr)])
  | .elementPtr result ptr indices ty =>
      tagged "GetElementPtr" (.obj [("result", encode result), ("ptr", encode ptr),
        ("indices", encode indices), ("result_type", encode ty)])
  | .alloca result allocated ty =>
      tagged "Alloca" (.obj [("result", encode result), ("alloc_type", encode allocated),
        ("result_type", encode ty)])
  | .call result callee args ty =>
      tagged "Call" (.obj [("result", encode result), ("function", encode callee),
        ("args", encode args), ("result_type", encode ty)])
  | .cast result op value target =>
      tagged "Cast" (.obj [("result", encode result), ("op", encode op), ("value", encode value),
        ("target_type", encode target)])
  | .select result condition ifTrue ifFalse ty =>
      tagged "Select" (.obj [("result", encode result), ("condition", encode condition),
        ("true_value", encode ifTrue), ("false_value", encode ifFalse),
        ("result_type", encode ty)])
  | .phi result incoming ty =>
      tagged "Phi" (.obj [("result", encode result), ("incoming", encode incoming),
        ("result_type", encode ty)])
  | .barrier => .str "Barrier"
  | .ret value => tagged "Return" (encode value)
  | .branch target => tagged "Branch" (encode target)
  | .branchCond condition ifTrue ifFalse =>
      tagged "BranchCond" (.obj [("condition", encode condition), ("true_label", encode ifTrue),
        ("false_label", encode ifFalse)])
  | .unreachable => .str "Unreachable"

/-- Reads an instruction. -/
def ofForm? (form : Form) : Option Instruction := do
  match ← variant? form with
  | ("Binary", some payload) =>
      let fs ← fields? ["result", "op", "lhs", "rhs", "result_type"] payload
      return .binary (← field? fs "result") (← field? fs "op") (← field? fs "lhs")
        (← field? fs "rhs") (← field? fs "result_type")
  | ("Compare", some payload) =>
      let fs ← fields? ["result", "pred", "lhs", "rhs"] payload
      return .compare (← field? fs "result") (← field? fs "pred") (← field? fs "lhs")
        (← field? fs "rhs")
  | ("Load", some payload) =>
      let fs ← fields? ["result", "ptr", "result_type"] payload
      return .load (← field? fs "result") (← field? fs "ptr") (← field? fs "result_type")
  | ("Store", some payload) =>
      let fs ← fields? ["value", "ptr"] payload
      return .store (← field? fs "value") (← field? fs "ptr")
  | ("GetElementPtr", some payload) =>
      let fs ← fields? ["result", "ptr", "indices", "result_type"] payload
      return .elementPtr (← field? fs "result") (← field? fs "ptr") (← field? fs "indices")
        (← field? fs "result_type")
  | ("Alloca", some payload) =>
      let fs ← fields? ["result", "alloc_type", "result_type"] payload
      return .alloca (← field? fs "result") (← field? fs "alloc_type") (← field? fs "result_type")
  | ("Call", some payload) =>
      let fs ← fields? ["result", "function", "args", "result_type"] payload
      return .call (← optional? fs "result") (← field? fs "function") (← field? fs "args")
        (← field? fs "result_type")
  | ("Cast", some payload) =>
      let fs ← fields? ["result", "op", "value", "target_type"] payload
      return .cast (← field? fs "result") (← field? fs "op") (← field? fs "value")
        (← field? fs "target_type")
  | ("Select", some payload) =>
      let fs ← fields? ["result", "condition", "true_value", "false_value", "result_type"] payload
      return .select (← field? fs "result") (← field? fs "condition") (← field? fs "true_value")
        (← field? fs "false_value") (← field? fs "result_type")
  | ("Phi", some payload) =>
      let fs ← fields? ["result", "incoming", "result_type"] payload
      return .phi (← field? fs "result") (← field? fs "incoming") (← field? fs "result_type")
  | ("Barrier", payload) => if isBare payload then some .barrier else none
  | ("Return", some payload) => return .ret (← decode? payload)
  | ("Branch", some payload) => return .branch (← decode? payload)
  | ("BranchCond", some payload) =>
      let fs ← fields? ["condition", "true_label", "false_label"] payload
      return .branchCond (← field? fs "condition") (← field? fs "true_label")
        (← field? fs "false_label")
  | ("Unreachable", payload) => if isBare payload then some .unreachable else none
  | _ => none

end Instruction

instance : Codec Instruction where
  encode := Instruction.toJson
  decode? := Instruction.ofForm?

end Lockstep
