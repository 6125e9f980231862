import Lockstep.Id
import Lockstep.Ty

/-!
# Instructions

An instruction computes a value, touches memory, marks a barrier, or ends a block. The four
that end a block are its terminators, and only two of those have successors. Operands are values;
a map from values to values serves to copy a function body. Operators are binary operators, integer
comparisons and conversions, each with its mnemonic in listings.
-/

namespace Lockstep

/-! ### Operators -/

/-- A binary operator; `s` and `u` stand for signed and unsigned, `f` for floating point. -/
inductive BinaryOp where
  | add | sub | mul
  | sdiv | udiv
  | srem | urem
  | and | or | xor
  | shl | lshr | ashr
  | fadd | fsub | fmul | fdiv
deriving DecidableEq

/-- The mnemonic of a binary operator. -/
def BinaryOp.text : BinaryOp → String
  | .add => "add"
  | .sub => "sub"
  | .mul => "mul"
  | .sdiv => "sdiv"
  | .udiv => "udiv"
  | .srem => "srem"
  | .urem => "urem"
  | .and => "and"
  | .or => "or"
  | .xor => "xor"
  | .shl => "shl"
  | .lshr => "lshr"
  | .ashr => "ashr"
  | .fadd => "fadd"
  | .fsub => "fsub"
  | .fmul => "fmul"
  | .fdiv => "fdiv"

/-- An integer comparison; its result has type `i1`. -/
inductive Comparison where
  | eq | ne
  | slt | sle | sgt | sge
  | ult | ule | ugt | uge
deriving DecidableEq

/-- The mnemonic of a comparison. -/
def Comparison.text : Comparison → String
  | .eq => "eq"
  | .ne => "ne"
  | .slt => "slt"
  | .sle => "sle"
  | .sgt => "sgt"
  | .sge => "sge"
  | .ult => "ult"
  | .ule => "ule"
  | .ugt => "ugt"
  | .uge => "uge"

/-- A conversion between types. -/
inductive CastOp where
  | zext
  | sext
  | trunc
  | bitcast
  | ptrToInt
  | intToPtr
  | addrSpaceCast
deriving DecidableEq

/-- The mnemonic of a conversion. -/
def CastOp.text : CastOp → String
  | .zext => "zext"
  | .sext => "sext"
  | .trunc => "trunc"
  | .bitcast => "bitcast"
  | .ptrToInt => "ptrtoint"
  | .intToPtr => "inttoptr"
  | .addrSpaceCast => "addrspacecast"

/-! ### Values -/

/-- An operand of an instruction. -/
inductive Value where
  /-- The result of an instruction. -/
  | temp (id : TempId)
  /-- A parameter of the function, by position. -/
  | param (position : UInt32)
  | constant (value : Int64)
  /-- The address of a global variable. -/
  | global (id : GlobalId)
  | function (id : FunctionId)
  /-- A list of constants, for initializers. -/
  | constantArray (values : List Int64)
  /-- The null pointer. -/
  | null
  /-- A value that nothing is known of. -/
  | undef
deriving DecidableEq

namespace Value

/-- The spelling of a value in listings. -/
def text : Value → String
  | .temp id => "%" ++ toString id.toNat
  | .param position => "%arg" ++ toString position.toNat
  | .constant value => toString value.toInt
  | .global id => "@" ++ id.text
  | .function id => "@" ++ id.text
  | .constantArray values =>
      "[" ++ ", ".intercalate (values.map fun v => toString v.toInt) ++ "]"
  | .null => "null"
  | .undef => "undef"

end Value

/-- A finite map from values to values. Where a value has two entries the first counts. -/
abbrev ValueMap := List (Value × Value)

/-- The image of a value; a value without an entry stays as it is. -/
def ValueMap.apply (map : ValueMap) (v : Value) : Value :=
  (map.lookup v).getD v

/-! ### Instructions -/

/-- One instruction of a block. -/
inductive Instruction where
  | binary (result : TempId) (op : BinaryOp) (lhs rhs : Value) (ty : Ty)
  | compare (result : TempId) (op : Comparison) (lhs rhs : Value)
  | load (result : TempId) (ptr : Value) (ty : Ty)
  | store (value ptr : Value)
  /-- The address of an element inside an object. -/
  | elementPtr (result : TempId) (ptr : Value) (indices : List Value) (ty : Ty)
  /-- Memory that lives as long as the call. -/
  | alloca (result : TempId) (allocated ty : Ty)
  | call (result : Option TempId) (callee : Value) (args : List Value) (ty : Ty)
  | cast (result : TempId) (op : CastOp) (value : Value) (target : Ty)
  | select (result : TempId) (condition ifTrue ifFalse : Value) (ty : Ty)
  /-- A value chosen by the block that control came from. -/
  | phi (result : TempId) (incoming : List (Value × BlockId)) (ty : Ty)
  /-- No work-item of a group goes on before all of them are here. -/
  | barrier
  | ret (value : Option Value)
  | branch (target : BlockId)
  | branchCond (condition : Value) (ifTrue ifFalse : BlockId)
  | unreachable
deriving DecidableEq

namespace Instruction

/-- Does the instruction end a block? -/
def isTerminator : Instruction → Bool
  | .ret _ | .branch _ | .branchCond .. | .unreachable => true
  | _ => false

/-- A choice by incoming block. -/
def isPhi : Instruction → Bool
  | .phi .. => true
  | _ => false

/-- A barrier marker. -/
def isBarrier : Instruction → Bool
  | .barrier => true
  | _ => false

/-- The blocks that control can go to next, in the order they are written; a block may occur
twice. -/
def successors : Instruction → List BlockId
  | .branch target => [target]
  | .branchCond _ ifTrue ifFalse => [ifTrue, ifFalse]
  | _ => []

/-- The value that the instruction defines. -/
def result? : Instruction → Option TempId
  | .binary result .. | .compare result .. | .load result .. | .elementPtr result ..
  | .alloca result .. | .cast result .. | .select result .. | .phi result .. => some result
  | .call result .. => result
  | _ => none

/-- The value operands, in the order they are written. -/
def operands : Instruction → List Value
  | .binary _ _ lhs rhs _ | .compare _ _ lhs rhs => [lhs, rhs]
  | .load _ ptr _ => [ptr]
  | .store value ptr => [value, ptr]
  | .elementPtr _ ptr indices _ => ptr :: indices
  | .call _ callee args _ => callee :: args
  | .cast _ _ value _ => [value]
  | .select _ condition ifTrue ifFalse _ => [condition, ifTrue, ifFalse]
  | .phi _ incoming _ => incoming.map Prod.fst
  | .ret value => value.toList
  | .branchCond condition _ _ => [condition]
  | .alloca .. | .barrier | .branch _ | .unreachable => []

/-- Replaces each value operand by its image under `f`. -/
def mapOperands (f : Value → Value) : Instruction → Instruction
  | .binary result op lhs rhs ty => .binary result op (f lhs) (f rhs) ty
  | .compare result op lhs rhs => .compare result op (f lhs) (f rhs)
  | .load result ptr ty => .load result (f ptr) ty
  | .store value ptr => .store (f value) (f ptr)
  | .elementPtr result ptr indices ty => .elementPtr result (f ptr) (indices.map f) ty
  | .alloca result allocated ty => .alloca result allocated ty
  | .call result callee args ty => .call result (f callee) (args.map f) ty
  | .cast result op value target => .cast result op (f value) target
  | .select result condition ifTrue ifFalse ty =>
      .select result (f condition) (f ifTrue) (f ifFalse) ty
  | .phi result incoming ty => .phi result (incoming.map fun (v, label) => (f v, label)) ty
  | .barrier => .barrier
  | .ret value => .ret (value.map f)
  | .branch target => .branch target
  | .branchCond condition ifTrue ifFalse => .branchCond (f condition) ifTrue ifFalse
  | .unreachable => .unreachable

/-- The operands of the image are the images of the operands. -/
theorem operands_mapOperands (f : Value → Value) (i : Instruction) :
    (i.mapOperands f).operands = i.operands.map f := by
  cases i with
  | ret value => cases value <;> rfl
  | phi => simp [mapOperands, operands, Function.comp_def]
  | _ => rfl

/-- In a phi, lets every choice for block `old` be one for block `new`. -/
def renameIncoming (old new : BlockId) : Instruction → Instruction
  | .phi result incoming ty =>
      .phi result (incoming.map fun (v, label) => (v, if label = old then new else label)) ty
  | i => i

/-- The blocks that a phi chooses by; none for any other instruction. -/
def phiLabels : Instruction → List BlockId
  | .phi _ incoming _ => incoming.map Prod.snd
  | _ => []

/-- The spelling of an instruction in listings. -/
def text : Instruction → String
  | .binary result op lhs rhs ty =>
      assign result ++ op.text ++ " " ++ ty.text ++ " " ++ lhs.text ++ ", " ++ rhs.text
  | .compare result op lhs rhs =>
      assign result ++ "icmp " ++ op.text ++ " " ++ lhs.text ++ ", " ++ rhs.text
  | .load result ptr ty => assign result ++ "load " ++ ty.text ++ ", " ++ ptr.text
  | .store value ptr => "store " ++ value.text ++ ", " ++ ptr.text
  | .elementPtr result ptr indices ty =>
      assign result ++ "getelementptr " ++ ty.text ++ " " ++
        ", ".intercalate ((ptr :: indices).map Value.text)
  | .alloca result allocated _ => assign result ++ "alloca " ++ allocated.text
  | .call result callee args ty =>
      (result.map assign).getD "" ++ "call " ++ ty.text ++ " " ++ callee.text ++ "(" ++
        ", ".intercalate (args.map Value.text) ++ ")"
  | .cast result op value target =>
      assign result ++ op.text ++ " " ++ value.text ++ " to " ++ target.text
  | .select result condition ifTrue ifFalse ty =>
      assign result ++ "select " ++ condition.text ++ ", " ++ ty.text ++ " " ++ ifTrue.text ++
        ", " ++ ty.text ++ " " ++ ifFalse.text
  | .phi result incoming ty =>
      assign result ++ "phi " ++ ty.text ++ " " ++
        ", ".intercalate (incoming.map fun (v, label) =>
          "[" ++ v.text ++ ", %" ++ label.text ++ "]")
  | .barrier => "call void @barrier()"
  | .ret (some value) => "ret " ++ value.text
  | .ret none => "ret void"
  | .branch target => "br label %" ++ target.text
  | .branchCond condition ifTrue ifFalse =>
      "br i1 " ++ condition.text ++ ", label %" ++ ifTrue.text ++ ", label %" ++ ifFalse.text
  | .unreachable => "unreachable"
where
  /-- The left side of a definition. -/
  assign (result : TempId) : String :=
    "%" ++ toString result.toNat ++ " = "

end Instruction

end Lockstep
