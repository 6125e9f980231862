import Lockstep.Function

/-!
# Building functions

A builder holds at most one function and a place in it, and numbers the results of the
instructions that it adds. An instruction that has no place to go is refused, but its number
stays used up.
-/

namespace Lockstep

/-- A function under construction. -/
structure Builder where
  function : Option Function := none
  /-- The block that instructions are added to. -/
  current : Option BlockId := none
  /-- The number that the next result gets. -/
  nextTemp : TempId := 0
deriving DecidableEq

/-- A step of construction; what it did before it stops stays done. -/
abbrev BuildM := ExceptT Stop (StateM Builder)

namespace Builder

/-- Does the current block end with a terminator? -/
def currentTerminated (b : Builder) : Bool :=
  match b.function, b.current with
  | some f, some id => ((f.block? id).map Block.hasTerminator).getD false
  | _, _ => false

/-- Refuses a step for a defect of the function that goes by `name`. -/
def refuse {α : Type} (name : String) (defect : Defect) : BuildM α :=
  throw (.error (.invalidIr name defect))

/-- A number for a result. -/
def newTemp : BuildM TempId := do
  let b ← get
  if b.nextTemp + 1 = 0 then
    throw (.fault .overflow)
  set { b with nextTemp := b.nextTemp + 1 }
  return b.nextTemp

/-- Starts a function; one that was under construction is dropped. -/
def createFunction (name : String) (returnType : Ty) : BuildM Function := do
  let f : Function := { name, returnType }
  set { function := some f : Builder }
  return f

/-- The function under construction. -/
def theFunction : BuildM Function := do
  match (← get).function with
  | some f => return f
  | none => refuse "<builder>" .noFunction

/-- Puts another function in place of the one under construction. -/
def setFunction (f : Function) : BuildM Unit :=
  modify ({ · with function := some f })

/-- Adds a parameter and gives it as a value. -/
def addParameter (name : String) (ty : Ty) : BuildM Value := do
  let (position, f) := (← theFunction).addParameter name ty
  setFunction f
  return .param position

/-- Adds a block; instructions still go to the block they went to before. -/
def createBlock (name : String) : BuildM BlockId := do
  let (id, f) := (← theFunction).createBlock name
  setFunction f
  return id

/-- Lets instructions go to the end of a block. -/
def positionAtEnd (block : BlockId) : BuildM Unit :=
  modify ({ · with current := some block })

/-- Adds an instruction to the current block. -/
def add (instr : Instruction) : BuildM Unit := do
  let f ← theFunction
  match (← get).current with
  | none => refuse f.name .noBlock
  | some id =>
      match f.block? id with
      | none => refuse f.name (.blockNotFound id)
      | some _ => setFunction (f.modifyBlock id (·.push instr))

/-- Adds an instruction with a new result and gives that. -/
def emit (instr : TempId → Instruction) : BuildM Value := do
  let result ← newTemp
  add (instr result)
  return .temp result

/-- Adds a binary operation. -/
def binary (op : BinaryOp) (lhs rhs : Value) (ty : Ty) : BuildM Value :=
  emit fun result => .binary result op lhs rhs ty

/-- Adds a comparison. -/
def compare (op : Comparison) (lhs rhs : Value) : BuildM Value :=
  emit fun result => .compare result op lhs rhs

/-- Adds a load. -/
def load (ptr : Value) (ty : Ty) : BuildM Value :=
  emit fun result => .load result ptr ty

/-- Adds a store. -/
def store (value ptr : Value) : BuildM Unit :=
  add (.store value ptr)

/-- Adds the computation of an element's address. -/
def elementPtr (ptr : Value) (indices : List Value) (ty : Ty) : BuildM Value :=
  emit fun result => .elementPtr result ptr indices ty

/-- Adds memory that lives as long as the call; its address points into memory of the
work-item. -/
def alloca (ty : Ty) : BuildM Value :=
  emit fun result => .alloca result ty (.ptr ty .workItem)

/-- Adds a call; one that returns nothing has no result. -/
def call (callee : Value) (args : List Value) (ty : Ty) : BuildM (Option Value) := do
  match ty with
  | .void =>
      add (.call none callee args ty)
      return none
  | _ => some <$> emit fun result => .call (some result) callee args ty

/-- Adds a conversion. -/
def cast (op : CastOp) (value : Value) (target : Ty) : BuildM Value :=
  emit fun result => .cast result op value target

/-- Adds a phi. -/
def phi (incoming : List (Value × BlockId)) (ty : Ty) : BuildM Value :=
  emit fun result => .phi result incoming ty

/-- Adds a barrier. -/
def barrier : BuildM Unit :=
  add .barrier

/-- Adds a return. -/
def ret (value : Option Value) : BuildM Unit :=
  add (.ret value)

/-- Adds a jump. -/
def branch (target : BlockId) : BuildM Unit :=
  add (.branch target)

/-- Adds a branch that depends on a value. -/
def branchCond (condition : Value) (ifTrue ifFalse : BlockId) : BuildM Unit :=
  add (.branchCond condition ifTrue ifFalse)

/-- Hands out the function and leaves the builder without one. -/
def finish : BuildM (Option Function) := do
  let b ← get
  set { b with function := none, current := none }
  return b.function

end Builder

end Lockstep
