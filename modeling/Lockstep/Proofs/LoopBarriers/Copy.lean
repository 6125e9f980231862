import Lockstep.Proofs.Function.Copy
import Lockstep.Proofs.LoopBarriers.Preheaders

/-!
# Processing a copy

A copy of a kernel has the blocks and branches of the kernel, so its dominator tree and its loops
are those of the kernel, its loops are visited in the same order, and every visit does to the copy
what it does to the kernel.

## Main results

* `DominatorTree.compute_copied` and `LoopForest.compute_copied`: the analyses of a copy.
* `LoopBarriers.visited_copied`: the visit of a loop of a copy.
* `LoopBarriers.Processed.copied`: processing a copy of a kernel gives the copy of what processing
  the kernel gives.
-/

namespace Lockstep

variable {φ : Value → Value} {parameters : List Parameter} {f f' : Function}

/-! ### Looking along the branches -/

namespace Function

/-- A copy branches to the same blocks. -/
@[simp]
theorem successors_copied : (f.copied φ parameters).successors = f.successors := by
  funext a
  rw [successors, successors, block, block, block?_copied]
  cases f.block? a with
  | none => rfl
  | some b => exact congrArg Except.ok Block.successors_mapOperands

/-- The body of a copy is the body with other operands. -/
theorem body_copied :
    (f.copied φ parameters).body = return (← f.body).map (Block.mapOperands φ) := by
  rw [body, body, layout_copied]
  induction f.layout with
  | nil => rfl
  | cons a layout ih =>
      rw [List.mapM_cons, List.mapM_cons, ih, block, block, block?_copied]
      cases f.block? a with
      | none => rfl
      | some b => cases layout.mapM f.block <;> rfl

/-- A copy has the same predecessors. -/
@[simp]
theorem predecessors_copied : (f.copied φ parameters).predecessors = f.predecessors := by
  funext a
  rw [predecessors, predecessors, body_copied]
  cases f.body with
  | error e => rfl
  | ok blocks =>
      simp [bind, Except.bind, pure, Except.pure, List.filter_map, Function.comp_def]

end Function

/-! ### The analyses -/

namespace Search

variable {s : Search} {b : BlockId}

/-- The search enters the same blocks in a copy. -/
theorem enter_copied : enter (f.copied φ parameters) s b = enter f s b := by
  rw [enter, enter, Function.successors_copied]

/-- A step of the search is the same in a copy. -/
theorem step_copied : step (f.copied φ parameters) s = step f s := by
  simp only [step, enter_copied]

/-- So is a search with any budget. -/
theorem run_copied {budget : Nat} : run (f.copied φ parameters) budget s = run f budget s := by
  induction budget generalizing s with
  | zero => rfl
  | succ budget ih => simp only [run, step_copied, ih]

end Search

/-- A copy has the same reverse postorder. -/
theorem Function.reversePostorder_copied {entry : BlockId} :
    (f.copied φ parameters).reversePostorder entry = f.reversePostorder entry := by
  simp only [reversePostorder, Search.start, Search.enter_copied, Search.run_copied,
    capacity_copied]

/-- The dominator tree of a copy. -/
@[simp]
theorem DominatorTree.compute_copied : compute (f.copied φ parameters) = compute f := by
  have hentry : Function.entry? (f.copied φ parameters) = f.entry? := rfl
  simp only [compute, hentry, Function.capacity_copied, Function.reversePostorder_copied,
    Function.successors_copied]

namespace LoopForest

variable {t : DominatorTree}

/-- A copy has the same back edges. -/
theorem backEdges_copied : backEdges (f.copied φ parameters) t = backEdges f t := by
  simp only [backEdges, Function.layout_copied, Function.successors_copied]

/-- The blocks that are collected backwards from the latches are the same in a copy. -/
theorem collect_copied {budget : Nat} {pending members : List BlockId} :
    collect (f.copied φ parameters) t budget pending members =
      collect f t budget pending members := by
  induction budget generalizing pending members with
  | zero => rfl
  | succ budget ih =>
      cases pending with
      | nil => rfl
      | cons b pending => simp only [collect, ih, Function.predecessors_copied]

/-- The loops of a copy. -/
@[simp]
theorem compute_copied : compute (f.copied φ parameters) t = compute f t := by
  simp only [compute, backEdges_copied, naturalLoop, collect_copied, Function.layout_copied]

end LoopForest

/-! ### Visits -/

namespace LoopBarriers

variable {w w' : Work DominatorTree} {l : Loop} {r p : BlockId} {is : List Nat}

/-- The work on a copy of the function. -/
def Work.copied (φ : Value → Value) (parameters : List Parameter) (w : Work DominatorTree) :
    Work DominatorTree :=
  { w with function := w.function.copied φ parameters }

/-- Guarding some places commutes with copying. -/
theorem guardAll_copied {places : List (BlockId × Place)} :
    (f.copied φ parameters).guardAll places = (f.guardAll places).copied φ parameters := by
  induction places generalizing f with
  | nil => rfl
  | cons place places ih =>
      rw [Function.guardAll, List.foldl_cons, Function.guard_copied]
      exact ih

/-- Splitting a preheader commutes with copying. -/
theorem isolate_copied : isolate (f.copied φ parameters) p = (isolate f p).copied φ parameters := by
  have hlength : ((f.blockAt p).mapOperands φ).instructions.length =
      (f.blockAt p).instructions.length := List.length_map ..
  simp only [isolate, Function.blockAt_copied, Function.nextBlock_copied, hlength,
    Function.split_copied, Block.name_mapOperands]
  exact Function.modifyBlock_copied fun _ => rfl

/-- The first block with a barrier is the same in a copy. -/
theorem firstBarrier?_copied {blocks : List BlockId} :
    firstBarrier? (f.copied φ parameters) blocks = firstBarrier? f blocks := by
  simp only [firstBarrier?, Function.blockAt_copied, Block.barrierIndex?_mapOperands]

/-- A loop is seen in a copy as in the function. -/
theorem places_copied {d : BlockId → Bool} :
    places (f.copied φ parameters) l d p = places f l d p := by
  rw [places, places, soleExiting_congr Function.next_copied,
    latchesToGuard_congr Function.next_copied Function.layout_copied]

/-- A loop is entered from the same block in a copy. -/
theorem soleEntry_copied : l.soleEntry (f.copied φ parameters) = l.soleEntry f := by
  simp only [Loop.soleEntry, Function.next_copied, Function.layout_copied]

/-- **The visit of a loop of a copy** does to it what it does to the function. -/
theorem visited_copied : visited (w.copied φ parameters) l p =
    (visited w l p).copied φ parameters := by
  simp only [visited, Work.copied, firstBarrier?_copied, places_copied, guardAll_copied,
    Function.blockAt_copied, Block.endsWithBarrier_mapOperands, isolate_copied,
    Function.nextBlock_copied]
  cases firstBarrier? w.function l.blocks with
  | some barrier => rfl
  | none =>
      simp only
      split <;> rfl

/-- The control flow of a copy is known if that of the function is. -/
theorem Sound.copied (hw : Sound w r) : Sound (w.copied φ parameters) r where
  wellFormed := Function.wellFormed_copied hw.wellFormed
  entry := hw.entry
  tree := hw.tree.of_edge_iff Function.capacity_copied Function.edge_copied
  forest := by
    rw [Work.copied, Function.edge_copied]
    exact hw.forest

/-- The visits of a run on a copy leave the copy of what they leave of the function. -/
theorem Visits.copied (h : Visits r w is w') :
    Visits r (w.copied φ parameters) is (w'.copied φ parameters) := by
  induction h with
  | done hw => exact .done hw.copied
  | visit hw hi hp _ ih =>
      rw [← visited_copied] at ih
      exact .visit hw.copied hi (soleEntry_copied.trans hp) ih

/-- **Processing a copy** gives the copy of what is processed. -/
theorem Processed.copied (h : Processed f f') :
    Processed (f.copied φ parameters) (f'.copied φ parameters) := by
  obtain ⟨htree, hforest, hd, hvisits⟩ := h
  refine .intro (DominatorTree.compute_copied.trans htree)
    (LoopForest.compute_copied.trans hforest) ?_ hvisits.copied
  rw [Function.edge_copied]
  exact hd

end LoopBarriers

end Lockstep
