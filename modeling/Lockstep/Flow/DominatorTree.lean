import Lockstep.Function

/-!
# Dominator trees

A block dominates another when every path from the entry to the other goes through it. The
immediate dominators form a tree with the entry at its root. The tree is found by iteration:
going through the blocks in reverse postorder, each gets the deepest common ancestor of the
predecessors that are already in the tree, until nothing changes any more.

The order comes from a depth-first search along the branches. A block is finished once everything
that can be reached from it, and was not seen before it, is finished. The reverse postorder lists
the last finished block first, so a block comes before the blocks it dominates. The search keeps the
path it is on as a stack, each block with the successors that are still to be looked at. A block has
at most two successors, so three steps for each block of the arena are enough to empty the stack.

The tree is data like any other and may be held against a function that it was not made for, so
a walk towards the root may run in a circle. Such a walk is the fault `diverges`.

Passes rely on a tree through the class `Dominance` only.
-/

namespace Lockstep

/-! ### Reverse postorder -/

/-- The state of a depth-first search. -/
structure Search where
  /-- The blocks on the path, the innermost first, each with the successors still to be looked
  at. -/
  path : List (BlockId × List BlockId)
  /-- The blocks seen so far. -/
  visited : List BlockId
  /-- The finished blocks, the last one first. -/
  finished : List BlockId

namespace Search

/-- Goes on from a block that is new to the search. -/
def enter (f : Function) (s : Search) (b : BlockId) : Except Fault Search := do
  let next ← f.successors b
  return { s with path := (b, next) :: s.path, visited := b :: s.visited }

/-- The search from `entry` before its first step. -/
def start (f : Function) (entry : BlockId) : Except Fault Search :=
  enter f ⟨[], [], []⟩ entry

/-- One step: finishes the innermost block if it has no successor left, and otherwise looks at
the next one. -/
def step (f : Function) (s : Search) : Except Fault Search :=
  match s.path with
  | [] => return s
  | (b, []) :: path => return { s with path, finished := b :: s.finished }
  | (b, next :: rest) :: path =>
      let s := { s with path := (b, rest) :: path }
      if s.visited.contains next then return s else enter f s next

/-- Steps until the path is empty, at most `budget` times. -/
def run (f : Function) : Nat → Search → Except Fault Search
  | 0, s => if s.path.isEmpty then .ok s else .error .diverges
  | budget + 1, s => if s.path.isEmpty then .ok s else do run f budget (← step f s)

end Search

/-- The blocks that can be reached from `entry`, each after those that lead to it for the first
time. -/
def Function.reversePostorder (f : Function) (entry : BlockId) :
    Except Fault (List BlockId) := do
  let done ← Search.run f (3 * f.capacity) (← Search.start f entry)
  return done.finished

/-! ### Dominance -/

/-- Dominance as far as passes rely on it. -/
class Dominance (δ : Type) where
  /-- Does every path from the entry to the second block go through the first? -/
  dominates : δ → BlockId → BlockId → Except Fault Bool
  /-- Takes note that the second block was split off the end of the first. -/
  addSplitBlock : δ → BlockId → BlockId → δ
  /-- The first block of the function for which the record is wrong. -/
  mismatch? : δ → Function → Except Fault (Option DominatorMismatch)

/-- A stand-in that gives every question the same answer and is never found wrong. -/
structure FixedDominance where
  answer : Bool

instance : Dominance FixedDominance where
  dominates d _ _ := .ok d.answer
  addSplitBlock d _ _ := d
  mismatch? _ _ := .ok none

/-- The immediate dominators of a function's blocks. -/
structure DominatorTree where
  entry : Option BlockId
  /-- For each block of the arena its immediate dominator, and none if it cannot be reached.
  The entry is listed as its own. -/
  parents : List (Option BlockId)
deriving DecidableEq

namespace DominatorTree

/-- What a list of immediate dominators says of a block. -/
def lookup (parents : List (Option BlockId)) (b : BlockId) : Option BlockId :=
  parents[b.index]?.join

/-- The immediate dominator; none for the entry and for blocks that cannot be reached. -/
def idom? (t : DominatorTree) (b : BlockId) : Option BlockId :=
  if t.entry = some b then none else lookup t.parents b

/-- Can the block be reached from the entry? -/
def isReachable (t : DominatorTree) (b : BlockId) : Bool :=
  (lookup t.parents b).isSome

/-! ### Computing the tree -/

/-- The deepest common ancestor of two blocks: the one with the larger number goes to its
parent until the two meet. -/
def meet (parents : List (Option BlockId)) (number : BlockId → Nat) :
    Nat → BlockId → BlockId → Except Fault BlockId
  | 0, _, _ => .error .diverges
  | budget + 1, a, b =>
      if a = b then .ok a
      else if number b < number a then
        match lookup parents a with
        | some a' => meet parents number budget a' b
        | none => .error .diverges
      else if number a < number b then
        match lookup parents b with
        | some b' => meet parents number budget a b'
        | none => .error .diverges
      else .error .diverges

/-- The blocks that can be reached, in reverse postorder, each with its successors. -/
abbrev Edges := List (BlockId × List BlockId)

/-- The blocks that lead to `b`, in reverse postorder. -/
def Edges.predecessors (edges : Edges) (b : BlockId) : List BlockId :=
  (edges.filter fun (_, next) => next.contains b).map Prod.fst

/-- The position of a block in reverse postorder. -/
def Edges.number (edges : Edges) (b : BlockId) : Nat :=
  edges.findIdx fun (block, _) => block = b

/-- Takes a predecessor into account: one that is not in the tree yet is skipped, and of the
others the deepest common ancestor is kept. -/
def mergeParent (edges : Edges) (parents : List (Option BlockId)) (sofar : Option BlockId)
    (pred : BlockId) : Except Fault (Option BlockId) :=
  match lookup parents pred, sofar with
  | none, _ => return sofar
  | some _, none => return some pred
  | some _, some current =>
      return some (← meet parents edges.number (edges.number pred + edges.number current + 1)
        pred current)

/-- Gives a block the deepest common ancestor of its predecessors in the tree. -/
def refine (edges : Edges) (parents : List (Option BlockId)) (b : BlockId) :
    Except Fault (List (Option BlockId)) := do
  match ← (edges.predecessors b).foldlM (mergeParent edges parents) none with
  | some parent => return parents.set b.index (some parent)
  | none => return parents

/-- One round over all blocks but the entry, in reverse postorder. -/
def round (edges : Edges) (parents : List (Option BlockId)) :
    Except Fault (List (Option BlockId)) :=
  (edges.tail.map Prod.fst).foldlM (refine edges) parents

/-- Rounds until one of them changes nothing. -/
def settle (edges : Edges) : Nat → List (Option BlockId) → Except Fault (List (Option BlockId))
  | 0, _ => .error .diverges
  | budget + 1, parents => do
      let next ← round edges parents
      if next = parents then return parents else settle edges budget next

/-- The dominator tree of a function. -/
def compute (f : Function) : Except Fault DominatorTree := do
  let nothing := List.replicate f.capacity none
  match f.entry? with
  | none => return { entry := none, parents := nothing }
  | some entry =>
      let order ← f.reversePostorder entry
      let edges ← order.mapM fun b => return (b, ← f.successors b)
      let parents ← settle edges (order.length * order.length + 2)
        (nothing.set entry.index (some entry))
      return { entry := some entry, parents }

/-! ### Using the tree -/

/-- Is `a` met on the way from `b` to the root, `b` itself not counted? -/
def climb (t : DominatorTree) (a : BlockId) : Nat → BlockId → Except Fault Bool
  | 0, _ => .error .diverges
  | budget + 1, b =>
      match t.idom? b with
      | none => .ok false
      | some parent => if parent = a then .ok true else climb t a budget parent

/-- Does every path from the entry to `b` go through `a`? There is no path to a block that
cannot be reached, so everything dominates it, and it dominates only blocks like itself. -/
def dominates (t : DominatorTree) (a b : BlockId) : Except Fault Bool :=
  if a = b then .ok true
  else if !t.isReachable b then .ok true
  else if !t.isReachable a then .ok false
  else t.climb a (t.parents.length + 1) b

/-- The tree after block `new` was split off the end of `old`: what `old` dominated immediately
is now dominated by `new`, and `new` by `old`. -/
def addSplitBlock (t : DominatorTree) (old new : BlockId) : DominatorTree :=
  let parents := t.parents ++ List.replicate (new.index + 1 - t.parents.length) none
  let t := { t with parents }
  if t.isReachable old then
    let moved := parents.map fun d => if d = some old then some new else d
    let rooted := match t.entry with
      | some entry => moved.set entry.index (some entry)
      | none => moved
    { t with parents := rooted.set new.index (some old) }
  else t

/-- The first block of the body for which the tree does not say what a tree computed afresh
says. -/
def mismatch? (t : DominatorTree) (f : Function) : Except Fault (Option DominatorMismatch) := do
  let fresh ← compute f
  return f.layout.findSome? fun b =>
    if t.idom? b = fresh.idom? b ∧ t.isReachable b = fresh.isReachable b then none
    else some { block := b, recorded := t.idom? b, expected := fresh.idom? b }

instance : Dominance DominatorTree where
  dominates := dominates
  addSplitBlock := addSplitBlock
  mismatch? := mismatch?

end DominatorTree

end Lockstep
