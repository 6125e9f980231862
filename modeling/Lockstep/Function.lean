import Lockstep.Block
import Lockstep.Error
import Lockstep.Sequence

/-!
# Functions

A function owns its blocks in an arena that never shrinks, and `layout` lists the blocks that
belong to the body in program order. Nothing here relies on the two fitting together: a block
that the arena does not hold is a fault when it is looked at.

A function is well-formed when every block carries its own position, the body lists blocks of
the arena and none twice, every block of the body ends with a terminator, and branches and phis
name blocks of the body only. `Function.defect?` finds the first thing that is wrong, looking at
the arena first, then at the layout, then at the blocks in program order.

Three changes are made to bodies. A barrier goes into a block, whose terminator stays last, so no
branch changes. A block is split: its tail moves to a new block, to which the rest branches, and the
phis behind the tail choose by the new block. And a body is copied with every operand replaced by
its image, where blocks, results and labels keep their names.
-/

namespace Lockstep

/-- Who can see a symbol. -/
inductive Linkage where
  /-- Every module. -/
  | external
  /-- This module. -/
  | internal
  /-- This module, and the symbol table does not list it. -/
  | unlisted
deriving DecidableEq

/-- The spelling of a linkage in listings. -/
def Linkage.text : Linkage → String
  | .external => "external"
  | .internal => "internal"
  | .unlisted => "private"

/-- A parameter of a function. -/
structure Parameter where
  name : String
  ty : Ty
deriving DecidableEq

/-- A function: its signature, the arena of its blocks, and the order of its body. -/
structure Function where
  name : String
  returnType : Ty
  parameters : List Parameter := []
  linkage : Linkage := .external
  variadic : Bool := false
  blocks : List Block := []
  layout : List BlockId := []
deriving DecidableEq

namespace Function

/-- A function without a body that has the signature `ty`; none unless `ty` is a function
type. -/
def ofType? (name : String) (ty : Ty) (linkage : Linkage) : Option Function :=
  match ty with
  | .function result params variadic =>
      some { name, returnType := result, parameters := params.map fun ty => ⟨"", ty⟩,
             linkage, variadic }
  | _ => none

/-- The type of the function. -/
def ty (f : Function) : Ty :=
  .function f.returnType (f.parameters.map Parameter.ty) f.variadic

/-- A function without a body. -/
def isDeclaration (f : Function) : Bool :=
  f.layout.isEmpty

/-- The first block of the body. -/
def entry? (f : Function) : Option BlockId :=
  f.layout.head?

/-- The entry is what the layout lists first. -/
theorem entry?_eq_head? (f : Function) : f.entry? = f.layout.head? :=
  rfl

/-- The number of blocks in the arena. -/
def capacity (f : Function) : Nat :=
  f.blocks.length

/-! ### Looking at blocks -/

/-- The block of that name in the arena, if there is one. -/
def block? (f : Function) (id : BlockId) : Option Block :=
  f.blocks[id.index]?

/-- The block of that name in the arena. -/
def block (f : Function) (id : BlockId) : Except Fault Block :=
  match f.block? id with
  | some b => .ok b
  | none => .error (.missingBlock id)

/-- The blocks of the body in program order. -/
def body (f : Function) : Except Fault (List Block) :=
  f.layout.mapM f.block

/-- The identifier that the first block of the body with that name carries. -/
def findBlock? (f : Function) (name : String) : Except Fault (Option BlockId) :=
  f.layout.findSomeM? fun id => do
    let b ← f.block id
    return if b.name = name then some b.id else none

/-- The blocks that control can go to from a block. -/
def successors (f : Function) (id : BlockId) : Except Fault (List BlockId) :=
  return (← f.block id).successors

/-- The identifiers that the blocks leading to `id` carry, in program order. -/
def predecessors (f : Function) (id : BlockId) : Except Fault (List BlockId) :=
  return ((← f.body).filter fun b => b.successors.contains id).map Block.id

/-! ### Changing a function -/

/-- The function with one more parameter, and its position. -/
def addParameter (f : Function) (name : String) (ty : Ty) : UInt32 × Function :=
  (f.parameters.length.toUInt32, { f with parameters := f.parameters ++ [⟨name, ty⟩] })

/-- The identifier that the next new block gets. -/
def nextBlock (f : Function) : BlockId :=
  .ofIndex f.capacity

/-- The function with a new empty block at the end of its body. -/
def createBlock (f : Function) (name : String) : BlockId × Function :=
  (f.nextBlock,
    { f with
      blocks := f.blocks ++ [⟨f.nextBlock, name, []⟩]
      layout := f.layout ++ [f.nextBlock] })

/-- The function with a new empty block behind `after` in its body. -/
def createBlockAfter (f : Function) (after : BlockId) (name : String) : BlockId × Function :=
  (f.nextBlock,
    { f with
      blocks := f.blocks ++ [⟨f.nextBlock, name, []⟩]
      layout := insertAfter after f.nextBlock f.layout })

/-- The function with one of its blocks replaced by its image; unchanged when there is no such
block. -/
def modifyBlock (f : Function) (id : BlockId) (g : Block → Block) : Function :=
  { f with blocks := f.blocks.modify id.index g }

/-- The function with one of its blocks replaced by its image. -/
def updateBlock (f : Function) (id : BlockId) (g : Block → Block) : Except Fault Function := do
  let _ ← f.block id
  return f.modifyBlock id g

/-! ### Barriers -/

/-- Puts a barrier before the instruction at `index`. -/
def insertBarrier (f : Function) (id : BlockId) (index : Nat) : Except Fault Function := do
  let b ← f.block id
  if index ≤ b.instructions.length then
    return f.modifyBlock id (·.insert index .barrier)
  else
    throw (.pastEnd index)

/-- Puts a barrier right before the terminator. -/
def insertBarrierAtEnd (f : Function) (id : BlockId) : Except Stop Function := do
  let b ← f.block id
  match b.terminatorIndex? with
  | some index => f.insertBarrier id index
  | none => throw (.error (.invalidIr f.name (.noTerminator b.name)))

/-- Is there a barrier right before the terminator? -/
def endsWithBarrier (f : Function) (id : BlockId) : Except Fault Bool :=
  return (← f.block id).endsWithBarrier

/-! ### Split blocks -/

/-- In the successors of block `new`, lets the phis choose by `new` instead of `old`. -/
def renameIncoming (f : Function) (old new : BlockId) : Except Fault Function := do
  (← f.successors new).foldlM (fun g succ => g.updateBlock succ fun b =>
    { b with instructions := b.instructions.map (·.renameIncoming old new) }) f

/-- Moves the instructions from `index` on to a new block behind `id`, which then branches
there. In the successors of the moved terminator the phis choose by the new block. -/
def splitBlock (f : Function) (id : BlockId) (index : Nat) :
    Except Stop (BlockId × Function) := do
  let b ← f.block id
  if b.instructions.length ≤ index then
    throw (.error (.invalidIr f.name (.splitOutOfRange index b.name)))
  let (new, g) := f.createBlockAfter id (b.name ++ ".split")
  let g := g.modifyBlock id fun b =>
    { b with instructions := b.instructions.take index ++ [.branch new] }
  let g := g.modifyBlock new ({ · with instructions := b.instructions.drop index })
  let g ← g.renameIncoming id new
  return (new, g)

/-! ### Copied bodies -/

/-- The blocks of a function with each operand replaced by its image. -/
def mappedBlocks (f : Function) (map : ValueMap) : List Block :=
  f.blocks.map fun b =>
    { b with instructions := b.instructions.map (·.mapOperands map.apply) }

/-- Gives `dst` the body of `src` with each operand replaced by its image. Blocks and the
results of instructions keep their names. -/
def cloneBody (dst src : Function) (map : ValueMap) : Function :=
  { dst with blocks := src.mappedBlocks map, layout := src.layout }

/-! ### Well-formed functions -/

/-- The first block of the arena that carries a wrong identifier. -/
def slotDefect? (f : Function) : Option Defect :=
  f.blocks.zipIdx.findSome? fun (b, slot) =>
    if b.id.index = slot then none else some (.misplacedBlock b.name b.id slot)

/-- The first entry of a layout that names no block of an arena of that size, or that names a
block again; `seen` are the entries before. -/
def layoutDefect? (capacity : Nat) (seen : List BlockId) : List BlockId → Option Defect
  | [] => none
  | id :: rest =>
      if capacity ≤ id.index then some (.layoutMissing id)
      else if seen.contains id then some (.layoutRepeats id)
      else layoutDefect? capacity (id :: seen) rest

/-- The first thing wrong with a block in a body that consists of the blocks `layout`. -/
def blockDefect? (layout : List BlockId) (b : Block) : Option Defect :=
  if !b.hasTerminator then
    some (.noTerminator b.name)
  else
    match b.successors.find? fun target => !layout.contains target with
    | some target => some (.missingTarget b.name target)
    | none =>
        match (b.instructions.flatMap Instruction.phiLabels).find? fun label =>
            !layout.contains label with
        | some label => some (.missingPhiLabel b.name label)
        | none => none

/-- The first thing that is wrong with a function. -/
def defect? (f : Function) : Option Defect :=
  match f.slotDefect? with
  | some d => some d
  | none =>
      match layoutDefect? f.capacity [] f.layout with
      | some d => some d
      | none => (f.layout.filterMap f.block?).findSome? (blockDefect? f.layout)

/-- Accepts exactly the well-formed functions. -/
def validate (f : Function) : Except Error Unit :=
  match f.defect? with
  | some d => .error (.invalidIr f.name d)
  | none => .ok ()

/-! ### Listing -/

/-- The parameters as a listing shows them; one without a name goes by its position. -/
def parameterTexts (f : Function) : List String :=
  f.parameters.zipIdx.map fun (p, i) =>
    p.ty.text ++ " %" ++ (if p.name.isEmpty then "arg" ++ toString i else p.name)

/-- The first line of the listing, without what follows the closing bracket. -/
def headText (f : Function) : String :=
  (if f.isDeclaration then "declare " else "define ") ++ f.linkage.text ++ " " ++
    f.returnType.text ++ " @" ++ f.name ++ "(" ++ ", ".intercalate f.parameterTexts ++
    (if f.variadic then ", ..." else "") ++ ")"

/-- The listing of a function. -/
def text (f : Function) : Except Fault String := do
  if f.isDeclaration then
    return f.headText ++ "\n"
  let blocks ← f.body
  return f.headText ++ " \x7b\n" ++ String.join (blocks.map Block.text) ++ "\x7d\n"

end Function

end Lockstep
