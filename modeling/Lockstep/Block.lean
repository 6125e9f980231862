import Lockstep.Instruction

/-!
# Blocks

A block is a named list of instructions. Its last instruction is its terminator if it is of
that kind; otherwise the block has none, and no successors.
-/

namespace Lockstep

/-- A straight run of instructions. -/
structure Block where
  id : BlockId
  name : String
  instructions : List Instruction
deriving DecidableEq

namespace Block

/-- The last instruction, if it ends blocks. -/
def terminator? (b : Block) : Option Instruction :=
  b.instructions.getLast?.filter Instruction.isTerminator

/-- Does the block end with a terminator? -/
def hasTerminator (b : Block) : Bool :=
  b.terminator?.isSome

/-- The position of the terminator. -/
def terminatorIndex? (b : Block) : Option Nat :=
  if b.hasTerminator then some (b.instructions.length - 1) else none

/-- The position of the first instruction that is not a phi, or the number of instructions
when all are. -/
def firstNonPhi (b : Block) : Nat :=
  b.instructions.findIdx fun i => !i.isPhi

/-- The position of the first barrier. -/
def barrierIndex? (b : Block) : Option Nat :=
  b.instructions.findIdx? Instruction.isBarrier

/-- The blocks that control can go to from here, in the order they are written. -/
def successors (b : Block) : List BlockId :=
  (b.terminator?.map Instruction.successors).getD []

/-- Is there a barrier right before the terminator? -/
def endsWithBarrier (b : Block) : Bool :=
  match b.terminatorIndex? with
  | some (i + 1) => (b.instructions[i]?.map Instruction.isBarrier).getD false
  | _ => false

/-- The block with an instruction put before position `i`. -/
def insert (b : Block) (i : Nat) (instr : Instruction) : Block :=
  { b with instructions := b.instructions.insertIdx i instr }

/-- The block with one more instruction at its end. -/
def push (b : Block) (instr : Instruction) : Block :=
  { b with instructions := b.instructions ++ [instr] }

/-- The block with `suffix` after its name. -/
def addSuffix (b : Block) (suffix : String) : Block :=
  { b with name := b.name ++ suffix }

/-- The listing: the name with the identifier, then a line for each instruction. -/
def text (b : Block) : String :=
  b.name ++ ":  ; " ++ b.id.text ++ "\n" ++
    String.join (b.instructions.map fun i => "  " ++ i.text ++ "\n")

end Block

end Lockstep
