import Lockstep.Flow.DominatorTree

/-!
# Natural loops

A back edge goes from a block, the latch, to a block that dominates it, the header. All back
edges to one header make one loop, which consists of the header and of every block that reaches
a latch without going through the header. Loops nest: the parent of a loop is the smallest
larger loop that holds its header.
-/

namespace Lockstep

/-- A natural loop. -/
structure Loop where
  header : BlockId
  /-- The header, then the other blocks in program order. -/
  blocks : List BlockId
  /-- The set of the loop's blocks. -/
  members : List BlockId
  /-- The index of the loop around this one. -/
  parent : Option Nat := none
  /-- The indices of the loops right inside this one. -/
  children : List Nat := []
  /-- 1 for a loop with none around it. -/
  depth : Nat := 1
deriving DecidableEq

namespace Loop

/-- Is the block in the loop? -/
def contains (l : Loop) (b : BlockId) : Bool :=
  l.members.contains b

/-- The blocks of the loop that lead to its header. -/
def latches (l : Loop) (f : Function) : Except Fault (List BlockId) :=
  return (← f.predecessors l.header).filter l.contains

/-- The latch, if there is only one. -/
def latch? (l : Loop) (f : Function) : Except Fault (Option BlockId) :=
  return sole? (← l.latches f)

/-- The one block outside the loop that leads to its header. -/
def predecessor? (l : Loop) (f : Function) : Except Fault (Option BlockId) :=
  return sole? ((← f.predecessors l.header).filter fun b => !l.contains b)

/-- The one block outside the loop that leads to its header, if it leads nowhere else. -/
def preheader? (l : Loop) (f : Function) : Except Fault (Option BlockId) := do
  match ← l.predecessor? f with
  | none => return none
  | some b => return if (← f.successors b) = [l.header] then some b else none

/-- The blocks of the loop that also lead out of it, in the loop's order. -/
def exitingBlocks (l : Loop) (f : Function) : Except Fault (List BlockId) := do
  let next ← l.blocks.mapM fun b => return (b, ← f.successors b)
  return (next.filter fun (_, succs) => succs.any fun s => !l.contains s).map Prod.fst

/-- The exiting block, if there is only one. -/
def exitingBlock? (l : Loop) (f : Function) : Except Fault (Option BlockId) :=
  return sole? (← l.exitingBlocks f)

/-- The loop with the block `new`, behind `old`; unchanged when it holds `new` already. -/
def insertAfter (l : Loop) (old new : BlockId) : Loop :=
  if l.contains new then l
  else { l with members := new :: l.members, blocks := Lockstep.insertAfter old new l.blocks }

end Loop

/-- All natural loops of a function. A loop goes by its index. -/
structure LoopForest where
  loops : List Loop := []
deriving DecidableEq

namespace LoopForest

/-! ### Finding the loops -/

/-- The back edges, each as header and latch, in program order of the latches. -/
def backEdges (f : Function) (t : DominatorTree) :
    Except Fault (List (BlockId × BlockId)) := do
  let edges ← f.layout.mapM fun b => do
    if t.isReachable b then
      (← f.successors b).mapM fun s => return ((s, b), ← t.dominates s b)
    else
      return []
  return (edges.flatten.filter Prod.snd).map Prod.fst

/-- Adds to `members` every block from which one of the blocks `pending` can be reached without
going through a member. -/
def collect (f : Function) (t : DominatorTree) :
    Nat → List BlockId → List BlockId → Except Fault (List BlockId)
  | 0, _, _ => .error .diverges
  | _ + 1, [], members => .ok members
  | budget + 1, b :: pending, members =>
      if members.contains b then collect f t budget pending members
      else do
        let members := b :: members
        let preds := (← f.predecessors b).filter fun p => t.isReachable p && !members.contains p
        collect f t budget (preds ++ pending) members

/-- The loop of a header and its latches. A block is looked at once for the branch that leads
away from it, which bounds the steps. -/
def naturalLoop (f : Function) (t : DominatorTree) (header : BlockId) (latches : List BlockId) :
    Except Fault Loop := do
  let budget := (f.layout.length + 1) * (f.layout.length + latches.length + 1)
  let members ← collect f t budget latches [header]
  let others := f.layout.filter fun b => b != header && members.contains b
  return { header, blocks := header :: others, members }

/-! ### Nesting -/

/-- The smallest larger loop that holds the header of loop `i`. -/
def parentOf (loops : List Loop) (i : Nat) (l : Loop) : Option Nat :=
  (leastBy? (fun (outer, _) => outer.blocks.length)
    (loops.zipIdx.filter fun (outer, j) =>
      j != i && outer.contains l.header && l.blocks.length < outer.blocks.length)).map Prod.snd

/-- The number of loops from an index outwards, following `parents`. -/
def nesting (parents : List (Option Nat)) : Nat → Option Nat → Nat
  | 0, _ | _, none => 0
  | budget + 1, some i => 1 + nesting parents budget parents[i]?.join

/-- The loops with their places in the forest. -/
def nest (loops : List Loop) : List Loop :=
  let parents := loops.zipIdx.map fun (l, i) => parentOf loops i l
  loops.zipIdx.map fun (l, i) =>
    { l with
      parent := parents[i]?.join
      children := (List.range loops.length).filter fun j => parents[j]?.join == some i
      depth := nesting parents loops.length (some i) }

/-- The natural loops of a function, in the order in which their first latches stand. -/
def compute (f : Function) (t : DominatorTree) : Except Fault LoopForest := do
  let edges ← backEdges f t
  let headers := (edges.map Prod.fst).eraseDups
  let loops ← headers.mapM fun h =>
    naturalLoop f t h ((edges.filter fun (header, _) => header = h).map Prod.snd).eraseDups
  return { loops := nest loops }

/-! ### Using the forest -/

/-- The loop of an index. -/
def get? (forest : LoopForest) (i : Nat) : Option Loop :=
  forest.loops[i]?

/-- The innermost loop that holds a block; of equally deep ones the last. -/
def loopFor? (forest : LoopForest) (b : BlockId) : Option Nat :=
  (greatestBy? (fun (l, _) => l.depth)
    (forest.loops.zipIdx.filter fun (l, _) => l.contains b)).map Prod.snd

/-- The position of a loop's header in the arena. -/
def headerIndex (forest : LoopForest) (i : Nat) : Nat :=
  ((forest.get? i).map fun l => l.header.index).getD 0

/-- Loop indices by the positions of their headers. -/
def byHeader (forest : LoopForest) (indices : List Nat) : List Nat :=
  indices.mergeSort fun i j => forest.headerIndex i ≤ forest.headerIndex j

/-- A loop behind all loops inside it. -/
def visit (forest : LoopForest) : Nat → Nat → List Nat
  | 0, _ => []
  | budget + 1, i =>
      match forest.get? i with
      | none => []
      | some l => (forest.byHeader l.children).flatMap (visit forest budget) ++ [i]

/-- All loops, each behind the loops inside it; side by side they are in the order of their
headers. -/
def postorder (forest : LoopForest) : List Nat :=
  let roots := (forest.loops.zipIdx.filter fun (l, _) => l.parent.isNone).map Prod.snd
  (forest.byHeader roots).flatMap (forest.visit forest.loops.length)

/-- Adds `new` to every loop that holds `old`. -/
def addBlockLike (forest : LoopForest) (old new : BlockId) : LoopForest :=
  { loops := forest.loops.map fun l => if l.contains old then l.insertAfter old new else l }

end LoopForest

end Lockstep
