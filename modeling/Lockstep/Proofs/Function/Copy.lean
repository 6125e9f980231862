import Lockstep.Function
import Lockstep.Proofs.Function.Edit

/-!
# Copies of functions

A copy of a function has other parameters and other operands, and is the same otherwise. Branches,
phi labels and barriers stand where they stood, so a copy is well-formed when the function is, and
an edit of the copy is the copy of the edited function.

## Main results

* `Function.wellFormed_copied`: a copy of a well-formed function is well-formed.
* `Function.guard_copied` and `Function.split_copied`: edits and copies can be exchanged.
-/

namespace Lockstep

/-! ### Instructions -/

namespace Instruction

variable {φ : Value → Value} {i : Instruction} {old new : BlockId}

/-- Instructions keep their kind. -/
@[simp]
theorem kind_mapOperands : (i.mapOperands φ).kind = i.kind := by
  cases i <;> rfl

/-- Barriers stay barriers, and nothing else becomes one. -/
@[simp]
theorem isBarrier_mapOperands : (i.mapOperands φ).isBarrier = i.isBarrier := by
  cases i <;> rfl

/-- Terminators stay terminators, and nothing else becomes one. -/
@[simp]
theorem isTerminator_mapOperands : (i.mapOperands φ).isTerminator = i.isTerminator := by
  cases i <;> rfl

/-- Instructions keep their successors. -/
@[simp]
theorem successors_mapOperands : (i.mapOperands φ).successors = i.successors := by
  cases i <;> rfl

/-- Phis keep their labels. -/
@[simp]
theorem phiLabels_mapOperands : (i.mapOperands φ).phiLabels = i.phiLabels := by
  cases i with
  | phi => simp [mapOperands, phiLabels, Function.comp_def]
  | _ => rfl

/-- Operands and labels can be changed in either order. -/
theorem renameIncoming_mapOperands :
    (i.mapOperands φ).renameIncoming old new = (i.renameIncoming old new).mapOperands φ := by
  cases i with
  | phi => simp [mapOperands, renameIncoming, Function.comp_def]
  | _ => rfl

end Instruction

/-! ### Blocks -/

namespace Block

variable {φ : Value → Value} {b : Block} {old new : BlockId}

/-- The block with each operand replaced by its image. -/
def mapOperands (φ : Value → Value) (b : Block) : Block :=
  { b with instructions := b.instructions.map (·.mapOperands φ) }

/-- Blocks keep their identifiers. -/
@[simp]
theorem id_mapOperands : (b.mapOperands φ).id = b.id := rfl

/-- Blocks keep their names. -/
@[simp]
theorem name_mapOperands : (b.mapOperands φ).name = b.name := rfl

/-- Blocks keep their shapes. -/
@[simp]
theorem shape_mapOperands : (b.mapOperands φ).shape = b.shape := by
  simp [shape, mapOperands, Function.comp_def]

/-- The terminator of the image is the image of the terminator. -/
theorem terminator?_mapOperands :
    (b.mapOperands φ).terminator? = b.terminator?.map (·.mapOperands φ) := by
  rw [terminator?, terminator?, mapOperands, List.getLast?_map, Option.filter_map]
  simp [Function.comp_def]

/-- A block ends with a terminator exactly when its image does. -/
@[simp]
theorem hasTerminator_mapOperands : (b.mapOperands φ).hasTerminator = b.hasTerminator := by
  rw [hasTerminator, hasTerminator, terminator?_mapOperands, Option.isSome_map]

/-- Blocks keep their successors. -/
@[simp]
theorem successors_mapOperands : (b.mapOperands φ).successors = b.successors := by
  rw [successors, successors, terminator?_mapOperands, Option.map_map]
  simp [Function.comp_def]

/-- The first barrier stays where it is. -/
@[simp]
theorem barrierIndex?_mapOperands : (b.mapOperands φ).barrierIndex? = b.barrierIndex? := by
  simp [barrierIndex?, mapOperands, List.findIdx?_map, Function.comp_def]

/-- A block ends with a barrier exactly when its image does. -/
@[simp]
theorem endsWithBarrier_mapOperands : (b.mapOperands φ).endsWithBarrier = b.endsWithBarrier :=
  endsWithBarrier_eq_of_shape shape_mapOperands

/-- A barrier can be put in before or after. -/
theorem insert_mapOperands {k : Nat} :
    (b.mapOperands φ).insert k .barrier = (b.insert k .barrier).mapOperands φ := by
  rw [insert, insert, mapOperands, mapOperands, List.map_insertIdx]
  rfl

/-- Guarding a place of a copied block. -/
theorem guard_mapOperands (place : Place) :
    place.guard (b.mapOperands φ) = (place.guard b).mapOperands φ := by
  have hguarded : (b.mapOperands φ).phisGuarded ↔ b.phisGuarded :=
    phisGuarded_iff_of_shape shape_mapOperands
  have hlength : (b.mapOperands φ).instructions.length = b.instructions.length :=
    List.length_map ..
  cases place with
  | behindPhis =>
      simp only [Place.guard, hguarded, firstNonPhi_eq, shape_mapOperands, insert_mapOperands]
      split <;> rfl
  | atEnd mark =>
      simp only [Place.guard, endsWithBarrier_mapOperands, hlength, insert_mapOperands]
      split <;> rfl

/-- Phis can be relabelled before or after. -/
theorem relabel_mapOperands :
    (b.mapOperands φ).relabel old new = (b.relabel old new).mapOperands φ := by
  simp [relabel, mapOperands, Function.comp_def, Instruction.renameIncoming_mapOperands]

end Block

/-! ### Functions -/

namespace Function

variable {φ : Value → Value} {parameters : List Parameter} {f : Function} {a p : BlockId} {k : Nat}

/-- The function with other parameters, and with each operand replaced by its image. -/
def copied (φ : Value → Value) (parameters : List Parameter) (f : Function) : Function :=
  { f with parameters, blocks := f.blocks.map (Block.mapOperands φ) }

/-- A copy has the layout of its original. -/
@[simp]
theorem layout_copied : (f.copied φ parameters).layout = f.layout := rfl

/-- A copy has as many blocks as its original. -/
@[simp]
theorem capacity_copied : (f.copied φ parameters).capacity = f.capacity :=
  List.length_map ..

/-- A copy and its original get the same block next. -/
@[simp]
theorem nextBlock_copied : (f.copied φ parameters).nextBlock = f.nextBlock := by
  rw [nextBlock, nextBlock, capacity_copied]

/-- The blocks of the arena of a copy are images of those of its original. -/
theorem block?_copied : (f.copied φ parameters).block? a = (f.block? a).map (Block.mapOperands φ) :=
  List.getElem?_map ..

/-- The blocks of a copy are images of those of its original. -/
@[simp]
theorem blockAt_copied : (f.copied φ parameters).blockAt a = (f.blockAt a).mapOperands φ := by
  rw [blockAt, blockAt, block?_copied]
  cases f.block? a <;> rfl

/-- A copy has the successors of its original. -/
@[simp]
theorem next_copied : (f.copied φ parameters).next = f.next := by
  funext a
  rw [next, next, blockAt_copied, Block.successors_mapOperands]

/-- A copy has the graph of its original. -/
@[simp]
theorem edge_copied : (f.copied φ parameters).Edge = f.Edge := by
  funext a b
  rw [Edge, Edge, next_copied, layout_copied]

/-- **A copy of a well-formed function is well-formed.** -/
theorem wellFormed_copied (h : f.WellFormed) : (f.copied φ parameters).WellFormed where
  fits := by
    rw [capacity_copied]
    exact h.fits
  id_blockAt a ha := by
    rw [blockAt_copied, Block.id_mapOperands, h.id_blockAt a (capacity_copied ▸ ha)]
  index_lt a ha := by
    rw [capacity_copied]
    exact h.index_lt a ha
  nodup := h.nodup
  terminated a ha := by
    rw [blockAt_copied, Block.hasTerminator_mapOperands, h.terminated a ha]
  next_mem a ha := by
    rw [next_copied]
    exact h.next_mem a ha
  label_mem a ha i hi x hx := by
    rw [blockAt_copied] at hi
    obtain ⟨j, hj, rfl⟩ := List.mem_map.mp hi
    rw [Instruction.phiLabels_mapOperands] at hx
    exact h.label_mem a ha j hj x hx

/-! ### Edits of copies -/

/-- Changing a block of a copy. -/
theorem modifyBlock_copied {g g' : Block → Block}
    (hg : ∀ b, g (b.mapOperands φ) = (g' b).mapOperands φ) :
    (f.copied φ parameters).modifyBlock a g = (f.modifyBlock a g').copied φ parameters := by
  have hblocks : (f.blocks.map (Block.mapOperands φ)).modify a.index g =
      (f.blocks.modify a.index g').map (Block.mapOperands φ) := by
    refine List.ext_getElem? fun i => ?_
    rw [List.getElem?_modify, List.getElem?_map, List.getElem?_map, List.getElem?_modify]
    cases f.blocks[i]? with
    | none => rfl
    | some b => by_cases hi : a.index = i <;> simp [hi, hg]
  rw [modifyBlock, modifyBlock, copied, copied, hblocks]

/-- A place can be guarded before or after copying. -/
theorem guard_copied (place : Place) :
    (f.copied φ parameters).guard a place = (f.guard a place).copied φ parameters :=
  modifyBlock_copied fun _ => Block.guard_mapOperands place

/-- A block can be added before or after copying. -/
theorem createBlockAfter_copied {name : String} :
    ((f.copied φ parameters).createBlockAfter p name).2 =
      (f.createBlockAfter p name).2.copied φ parameters := by
  simp [createBlockAfter, copied, nextBlock, capacity, Block.mapOperands]

/-- A block can be cut before or after copying. -/
theorem detach_copied :
    (f.copied φ parameters).detach p k = (f.detach p k).copied φ parameters := by
  rw [detach, detach, blockAt_copied, Block.name_mapOperands, nextBlock_copied,
    createBlockAfter_copied, modifyBlock_copied (fun b => ?_), modifyBlock_copied (fun b => ?_)]
  · simp [Block.mapOperands]
  · simp [Block.mapOperands, Instruction.mapOperands]

/-- **Splitting a block of a copy.** -/
theorem split_copied : (f.copied φ parameters).split p k = (f.split p k).copied φ parameters := by
  rw [split, split, next_copied, nextBlock_copied, detach_copied]
  generalize f.detach p k = g
  induction f.next p generalizing g with
  | nil => rfl
  | cons s rest ih =>
      rw [List.foldl_cons, List.foldl_cons,
        modifyBlock_copied fun _ => Block.relabel_mapOperands, ih]

end Function

end Lockstep
