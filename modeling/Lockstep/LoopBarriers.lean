import Lockstep.Flow.LoopForest
import Lockstep.Module
import Lockstep.Pass

/-!
# Loop barriers

Work-items run a kernel in lockstep between barriers. When a loop holds a barrier, every way
into an iteration, around it and out of it needs one too, so that the body can be replicated for
each work-item and all of them stay in step. A barrier goes

* before the terminator of the preheader,
* behind the phis of the header, if it has any,
* before the terminator of the exiting block, if there is only one,
* before the terminator of the latch; of several latches, of those that the barrier dominates.

A place that holds a barrier already is left alone, and a block that gets one shows it in its
name. A loop without a barrier only has its preheader split when that ends with one, so that the
loop is entered from a block without barriers.

Every kernel of a module gets the barriers that its loops need. The loops of a kernel are found
once and worked on from the inside out; what is known of the kernel's control flow is kept up to
date on the way and checked after every loop.
-/

namespace Lockstep

namespace LoopBarriers

variable {δ : Type}

/-! ### Barriers for a loop -/

/-- A function being worked on, with what is known of its control flow. -/
structure Work (δ : Type) where
  function : Function
  loops : LoopForest
  dominance : δ

/-- Replaces the function and keeps what is known of it. -/
def setFunction (f : Function) : Pass (Work δ) Unit :=
  modify fun w => { w with function := f }

/-- Puts a barrier right before the terminator unless one is there, and marks the block's name.
Says whether there was something to do. -/
def ensureBarrierAtEnd (block : BlockId) (suffix : String) : Pass (Work δ) Bool := do
  let f := (← get).function
  if ← f.endsWithBarrier block then
    Pass.log .trace do
      return "'" ++ (← f.block block).name ++ "' already ends with a barrier"
    return false
  let f ← f.insertBarrierAtEnd block
  let f ← f.updateBlock block (·.addSuffix suffix)
  setFunction f
  Pass.log .debug do
    return "added barrier to '" ++ (← f.block block).name ++ "'"
  return true

/-- Puts a barrier behind the phis of a header unless it has none or one is there. -/
def ensureBarrierBehindPhis (header : BlockId) : Pass (Work δ) Bool := do
  let f := (← get).function
  let b ← f.block header
  let place := b.firstNonPhi
  if place = 0 ∨ b.instructions[place]? = some .barrier then
    return false
  let f ← f.insertBarrier header place
  let f ← f.updateBlock header (·.addSuffix ".phibarrier")
  setFunction f
  return true

/-- The record that a split leaves. -/
def splitRecord (block : BlockId) (index : Nat) (new : BlockId) : Record :=
  ⟨.trace, "split " ++ block.text ++ " at " ++ toString index ++ " into " ++ new.text⟩

/-- Splits a preheader that ends with a barrier right behind it. -/
def isolatePreheader [Dominance δ] (preheader : BlockId) : Pass (Work δ) Bool := do
  let w ← get
  let b ← w.function.block preheader
  match b.endsWithBarrier, b.terminatorIndex? with
  | true, some index =>
      let (new, f) ← w.function.splitBlock preheader index
      let split := splitRecord preheader index new
      Pass.log split.level (.ok split.message)
      let name := (← f.block preheader).name
      let f ← f.updateBlock new ({ · with name := name ++ ".postbarrier_dummy" })
      set { function := f
            loops := w.loops.addBlockLike preheader new
            dominance := Dominance.addSplitBlock w.dominance preheader new : Work δ }
      Pass.log .debug (.ok ("split preheader '" ++ name ++ "' after its barrier"))
      return true
  | _, _ => return false

/-- The first of some blocks that holds a barrier. -/
def barrierBlock? (f : Function) (blocks : List BlockId) : Except Fault (Option BlockId) :=
  blocks.findSomeM? fun id => do
    let b ← f.block id
    return if b.barrierIndex?.isSome then some id else none

/-- Puts a barrier at the end of a latch if the barrier of the loop dominates it. -/
def visitLatch [Dominance δ] (barrier : BlockId) (changed : Bool) (latch : BlockId) :
    Pass (Work δ) Bool := do
  let w ← get
  if ← Dominance.dominates w.dominance barrier latch then
    return (← ensureBarrierAtEnd latch ".latchbarrier") || changed
  Pass.log .debug do
    return "latch '" ++ (← w.function.block latch).name ++ "' not dominated by the barrier, skipped"
  return changed

/-- Puts barriers at the ends of the latches of a loop: of a single one unless it is the exiting
block too, and of several where the barrier of the loop dominates them. -/
def guardLatches [Dominance δ] (l : Loop) (barrier : BlockId) (exiting : Option BlockId)
    (changed : Bool) : Pass (Work δ) Bool := do
  match ← l.latch? (← get).function with
  | some latch =>
      if some latch = exiting then
        return changed
      return (← ensureBarrierAtEnd latch ".latchbarrier") || changed
  | none =>
      (← l.latches (← get).function).foldlM (visitLatch barrier) changed

/-- Puts barriers at the ends of the single exiting block of a loop and of its latches. -/
def guardExits [Dominance δ] (l : Loop) (barrier : BlockId) (changed : Bool) :
    Pass (Work δ) Bool := do
  let exiting ← l.exitingBlock? (← get).function
  let left ← match exiting with
    | some block => ensureBarrierAtEnd block ".brexitbarrier"
    | none => pure false
  guardLatches l barrier exiting (changed || left)

/-- Puts barriers around the iterations of a loop that holds one in block `barrier`. -/
def surround [Dominance δ] (l : Loop) (preheader barrier : BlockId) : Pass (Work δ) Bool := do
  let f := (← get).function
  Pass.log .debug do
    return "loop '" ++ (← f.block l.header).name ++ "' has a barrier in '" ++
      (← f.block barrier).name ++ "'"
  Pass.log .trace do
    return "preheader before insertion:\n" ++ (← f.block preheader).text
  let entered ← ensureBarrierAtEnd preheader ".loopbarrier"
  let started ← ensureBarrierBehindPhis l.header
  guardExits l barrier (entered || started)

/-- Gives a loop the barriers that it needs. Says whether the function changed. -/
def processLoop [Dominance δ] (index : Nat) : Pass (Work δ) Bool := do
  let w ← get
  let f := w.function
  match w.loops.get? index with
  | none => Pass.fail (.invalidIr f.name (.unknownLoop index))
  | some l =>
      match ← l.preheader? f with
      | none => Pass.fail (.nonCanonicalLoop f.name (← f.block l.header).name)
      | some preheader =>
          match ← barrierBlock? f l.blocks with
          | none => isolatePreheader preheader
          | some barrier => surround l preheader barrier

/-! ### Barriers for a module -/

/-- A module being worked on, with what is known of the control flow of one of its functions. -/
structure ModuleWork (δ : Type) where
  module : Module
  loops : LoopForest
  dominance : δ

/-- Fails when the record of dominance does not fit a function. -/
def verify {σ : Type} [Dominance δ] (dominance : δ) (f : Function) : Pass σ Unit := do
  match ← Dominance.mismatch? dominance f with
  | none => return
  | some mismatch =>
      Pass.log .debug (.ok ("dominator tree mismatch at " ++ mismatch.block.text ++ ": have " ++
        showBlock? mismatch.recorded ++ ", expected " ++ showBlock? mismatch.expected))
      Pass.fail (.dominatorTreeMismatch f.name (← f.block mismatch.block).name mismatch)

/-- Gives a loop of a function the barriers that it needs and checks the record of dominance
afterwards. A function that is no kernel is left alone. -/
def runLoop [Dominance δ] (accepts : KernelPredicate) (id : FunctionId) (index : Nat) :
    Pass (ModuleWork δ) Bool := do
  let w ← get
  if !accepts w.module id then
    return false
  match w.module.function? id with
  | none => Pass.fail (.unknownFunction id)
  | some f =>
      let changed ← Pass.zoom
        (fun w => { function := f, loops := w.loops, dominance := w.dominance : Work δ })
        (fun done w => { module := w.module.setFunction id done.function,
                         loops := done.loops, dominance := done.dominance : ModuleWork δ })
        (processLoop index)
      let w ← get
      verify w.dominance ((w.module.function? id).getD f)
      return changed

/-- Computes the loops of a function and reports their number. -/
def findLoops {σ : Type} (f : Function) (t : DominatorTree) : Pass σ LoopForest := do
  let loops ← LoopForest.compute f t
  Pass.log .debug (.ok ("found " ++ toString loops.loops.length ++ " loops in '" ++ f.name ++ "'"))
  return loops

/-- Gives every loop of a function the barriers that it needs, inner loops first. -/
def runFunction (accepts : KernelPredicate) (changed : Bool) (id : FunctionId) :
    Pass Module Bool := do
  let m ← get
  if !accepts m id then
    return changed
  match m.function? id with
  | none => Pass.fail (.unknownFunction id)
  | some f =>
      f.validate
      let tree ← DominatorTree.compute f
      let loops ← findLoops f tree
      Pass.log .info (.ok ("LoopBarriers: '" ++ f.name ++ "' has " ++
        toString loops.loops.length ++ " loops"))
      Pass.zoom (fun m => { module := m, loops, dominance := tree : ModuleWork DominatorTree })
        (fun done _ => done.module)
        (loops.postorder.foldlM
          (fun changed index => return (← runLoop accepts id index) || changed) changed)

/-- Gives every loop of every kernel the barriers that it needs. Says whether the module
changed. -/
def run (accepts : KernelPredicate) : Pass Module Bool := do
  (← get).functionIds.foldlM (runFunction accepts) false

end LoopBarriers

end Lockstep
