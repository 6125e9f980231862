import Lockstep.Instruction
import Lockstep.Json.Codec

/-!
# Types and operators in JSON form

The JSON form of identifiers, operators, memories and types. A type that carries nothing is its
bare name; the others carry a record. Types nest, and each level opens a bracket, so the room
that a form has also bounds how often a type is looked for inside another.
-/

namespace Lockstep

open Codec

instance {a : Arena} : Codec (ArenaId a) where
  encode id := encode id.val
  decode? form := (decode? form).map ArenaId.mk

/-! ### Operators and types -/

instance : Codec BinaryOp :=
  enumeration
    [.add, .sub, .mul, .sdiv, .udiv, .srem, .urem, .and, .or, .xor, .shl, .lshr, .ashr,
      .fadd, .fsub, .fmul, .fdiv]
    fun
    | .add => "Add" | .sub => "Sub" | .mul => "Mul"
    | .sdiv => "SDiv" | .udiv => "UDiv"
    | .srem => "SRem" | .urem => "URem"
    | .and => "And" | .or => "Or" | .xor => "Xor"
    | .shl => "Shl" | .lshr => "LShr" | .ashr => "AShr"
    | .fadd => "FAdd" | .fsub => "FSub" | .fmul => "FMul" | .fdiv => "FDiv"

instance : Codec Comparison :=
  enumeration [.eq, .ne, .slt, .sle, .sgt, .sge, .ult, .ule, .ugt, .uge]
    fun
    | .eq => "Eq" | .ne => "Ne"
    | .slt => "Slt" | .sle => "Sle" | .sgt => "Sgt" | .sge => "Sge"
    | .ult => "Ult" | .ule => "Ule" | .ugt => "Ugt" | .uge => "Uge"

instance : Codec CastOp :=
  enumeration [.zext, .sext, .trunc, .bitcast, .ptrToInt, .intToPtr, .addrSpaceCast]
    fun
    | .zext => "ZExt" | .sext => "SExt" | .trunc => "Trunc" | .bitcast => "Bitcast"
    | .ptrToInt => "PtrToInt" | .intToPtr => "IntToPtr" | .addrSpaceCast => "AddrSpaceCast"

instance : Codec AddressSpace where
  encode
    | .workItem => .str "Private"
    | .device => .str "Global"
    | .workGroup => .str "Local"
    | .constant => .str "Constant"
    | .numbered n => tagged "Other" (encode n)
  decode? form := do
    match ← variant? form with
    | ("Other", some payload) => return .numbered (← decode? payload)
    | ("Private", payload) => if isBare payload then some .workItem else none
    | ("Global", payload) => if isBare payload then some .device else none
    | ("Local", payload) => if isBare payload then some .workGroup else none
    | ("Constant", payload) => if isBare payload then some .constant else none
    | _ => none

namespace Ty

/-- The types that carry nothing, with their names. -/
def bareTypes : List (String × Ty) :=
  [("Void", .void), ("I1", .i1), ("I8", .i8), ("I16", .i16), ("I32", .i32), ("I64", .i64),
    ("F32", .f32), ("F64", .f64), ("Label", .label)]

mutual

/-- The JSON form of a type. -/
def toJson : Ty → Json
  | .void => .str "Void"
  | .i1 => .str "I1"
  | .i8 => .str "I8"
  | .i16 => .str "I16"
  | .i32 => .str "I32"
  | .i64 => .str "I64"
  | .f32 => .str "F32"
  | .f64 => .str "F64"
  | .label => .str "Label"
  | .ptr pointee space =>
      tagged "Ptr" (.obj [("pointee", toJson pointee), ("addr_space", encode space)])
  | .array size element =>
      tagged "Array" (.obj [("size", encode size), ("element_type", toJson element)])
  | .vector size element =>
      tagged "Vector" (.obj [("size", encode size), ("element_type", toJson element)])
  | .function result params variadic =>
      tagged "Function" (.obj [("return_type", toJson result),
        ("param_types", .arr (toJsons params)), ("is_vararg", encode variadic)])
  | .struct name fields packed =>
      tagged "Struct" (.obj [("name", encode name), ("fields", .arr (toJsons fields)),
        ("packed", encode packed)])

/-- The JSON forms of some types. -/
def toJsons : List Ty → List Json
  | [] => []
  | ty :: rest => toJson ty :: toJsons rest

end

/-- Reads a type that has at most `budget` types inside each other. -/
def ofForm? : Nat → Form → Option Ty
  | 0, form => do
      let (name, payload) ← variant? form
      if isBare payload then bareTypes.lookup name else none
  | budget + 1, form => do
      match ← variant? form with
      | ("Ptr", some payload) =>
          let fs ← fields? ["pointee", "addr_space"] payload
          return .ptr (← (fs.lookup "pointee").bind (ofForm? budget)) (← field? fs "addr_space")
      | ("Array", some payload) =>
          let fs ← fields? ["size", "element_type"] payload
          return .array (← field? fs "size") (← (fs.lookup "element_type").bind (ofForm? budget))
      | ("Vector", some payload) =>
          let fs ← fields? ["size", "element_type"] payload
          return .vector (← field? fs "size") (← (fs.lookup "element_type").bind (ofForm? budget))
      | ("Function", some payload) =>
          let fs ← fields? ["return_type", "param_types", "is_vararg"] payload
          return .function (← (fs.lookup "return_type").bind (ofForm? budget))
            (← (fs.lookup "param_types").bind (list? (ofForm? budget))) (← field? fs "is_vararg")
      | ("Struct", some payload) =>
          let fs ← fields? ["name", "fields", "packed"] payload
          return .struct (← optional? fs "name")
            (← (fs.lookup "fields").bind (list? (ofForm? budget))) (← field? fs "packed")
      | (name, payload) => if isBare payload then bareTypes.lookup name else none

end Ty

instance : Codec Ty where
  encode := Ty.toJson
  decode? form := Ty.ofForm? form.room form

end Lockstep
