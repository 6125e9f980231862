import Lockstep.Function
import Lockstep.Proofs.Block
import Lockstep.Proofs.Flow.SplitVertex
import Lockstep.Proofs.Function.WellFormed
import Lockstep.Proofs.Sequence

/-!
# Edits of well-formed functions

The edits that the passes make of a function, each as a pure function beside the computation that
may fault: changing one block, guarding a place of a block, and moving the tail of a block to a
new one. All of them keep a function well-formed. Guarding keeps the graph as well, and a split
changes it as `SplitsOff` says.

## Main results

* `Function.WellFormed.guard`: a guarded function is well-formed, with the same edges.
* `Function.WellFormed.splitBlock_eq`: splitting never faults on a block of the body.
* `Function.WellFormed.blockAt_split`: the blocks after a split.
* `Function.WellFormed.split` and `Function.WellFormed.splitsOff`: a split function is
  well-formed as long as the arena has an identifier left, and its graph is the split one.
-/

namespace Lockstep

/-! ### Renaming the labels of phis -/

namespace Instruction

variable {old new : BlockId} {i : Instruction}

/-- The labels of a phi after one of them was renamed. -/
theorem phiLabels_renameIncoming :
    (i.renameIncoming old new).phiLabels =
      i.phiLabels.map fun a => if a = old then new else a := by
  cases i <;> simp [renameIncoming, phiLabels, Function.comp_def]

/-- Nothing is left to rename after the first time. -/
theorem renameIncoming_renameIncoming (h : new ≠ old) :
    (i.renameIncoming old new).renameIncoming old new = i.renameIncoming old new := by
  cases i with
  | phi result incoming ty =>
      simp only [renameIncoming, List.map_map]
      congr 1
      refine List.map_congr_left fun ⟨v, a⟩ _ => ?_
      by_cases ha : a = old <;> simp [ha, h]
  | _ => rfl

end Instruction

namespace Block

variable {old new : BlockId} {b : Block}

/-- The block with the labels of its phis renamed. -/
def relabel (old new : BlockId) (b : Block) : Block :=
  { b with instructions := b.instructions.map (·.renameIncoming old new) }

/-- A block keeps its identifier when its phis are relabelled. -/
@[simp]
theorem id_relabel : (b.relabel old new).id = b.id := rfl

/-- A block keeps its terminator when its phis are relabelled. -/
@[simp]
theorem terminator?_relabel : (b.relabel old new).terminator? = b.terminator? := by
  rw [terminator?, terminator?, relabel, List.getLast?_map]
  cases b.instructions.getLast? with
  | none => rfl
  | some i => cases i <;> rfl

/-- A block that ends with a terminator still does when its phis are relabelled. -/
@[simp]
theorem hasTerminator_relabel : (b.relabel old new).hasTerminator = b.hasTerminator := by
  rw [hasTerminator, hasTerminator, terminator?_relabel]

/-- A block keeps its successors when its phis are relabelled. -/
@[simp]
theorem successors_relabel : (b.relabel old new).successors = b.successors := by
  rw [successors, successors, terminator?_relabel]

/-- Relabelling twice does what doing it once does. -/
theorem relabel_relabel (h : new ≠ old) :
    (b.relabel old new).relabel old new = b.relabel old new := by
  simp only [relabel, List.map_map]
  congr 1
  exact List.map_congr_left fun i _ => i.renameIncoming_renameIncoming h

end Block

namespace Function

variable {f : Function} {a b n p r x : BlockId} {g : Block → Block} {k : Nat}

/-! ### Changing a block -/

/-- Changing a block changes no number of blocks. -/
@[simp]
theorem capacity_modifyBlock : (f.modifyBlock a g).capacity = f.capacity := by
  simp [modifyBlock, capacity]

/-- Changing a block keeps the layout. -/
@[simp]
theorem layout_modifyBlock : (f.modifyBlock a g).layout = f.layout := rfl

/-- A block of the arena can be changed. -/
theorem updateBlock_eq (ha : a.index < f.capacity) :
    f.updateBlock a g = .ok (f.modifyBlock a g) := by
  rw [updateBlock, block_of_lt ha]
  rfl

/-- The blocks after one of them was changed. -/
theorem blockAt_modifyBlock (ha : a.index < f.capacity) :
    (f.modifyBlock a g).blockAt x = if x = a then g (f.blockAt a) else f.blockAt x := by
  by_cases hxa : x = a
  · subst hxa
    rw [if_pos rfl, blockAt, block?, modifyBlock, List.getElem?_modify_eq, ← block?,
      block?_of_lt ha]
    rfl
  · have hne : a.index ≠ x.index := fun h => hxa (ArenaId.index_inj h).symm
    rw [if_neg hxa, blockAt, block?, modifyBlock, List.getElem?_modify_ne _ _ hne]
    rfl

/-- What a change does to other blocks does not matter. -/
theorem modifyBlock_congr {g' : Block → Block} (ha : a.index < f.capacity)
    (h : g (f.blockAt a) = g' (f.blockAt a)) : f.modifyBlock a g = f.modifyBlock a g' := by
  have hblock : f.blocks[a.index]? = some (f.blockAt a) := block?_of_lt ha
  rw [modifyBlock, modifyBlock, modify_congr fun b hb => by
    rw [← Option.some.inj (hblock.symm.trans hb), h]]

/-- Changing a block into itself changes nothing. -/
theorem modifyBlock_id : f.modifyBlock a id = f := by
  rw [modifyBlock, List.modify_id]

/-- Two changes to one block are one change. -/
theorem modifyBlock_modifyBlock {g' : Block → Block} :
    (f.modifyBlock a g).modifyBlock a g' = f.modifyBlock a (g' ∘ g) := by
  rw [modifyBlock, modifyBlock, modifyBlock, List.modify_modify_eq]

/-- Changing several blocks in the same way, which does nothing the second time. -/
theorem blockAt_foldl_modifyBlock {l : List BlockId} (hl : ∀ a ∈ l, a.index < f.capacity)
    (hg : ∀ b, g (g b) = g b) :
    (l.foldl (fun f a => f.modifyBlock a g) f).blockAt x =
      if x ∈ l then g (f.blockAt x) else f.blockAt x := by
  induction l generalizing f with
  | nil => simp
  | cons a l ih =>
      have ha : a.index < f.capacity := hl a List.mem_cons_self
      rw [List.foldl_cons, ih fun c hc => by simpa using hl c (List.mem_cons_of_mem _ hc),
        blockAt_modifyBlock ha]
      by_cases hxa : x = a
      · subst hxa
        by_cases hxl : x ∈ l <;> simp [hxl, hg]
      · by_cases hxl : x ∈ l <;> simp [hxl, hxa]

/-- Changing some blocks changes no number of blocks. -/
theorem capacity_foldl_modifyBlock (l : List BlockId) (f : Function) :
    (l.foldl (fun f a => f.modifyBlock a g) f).capacity = f.capacity := by
  induction l generalizing f with
  | nil => rfl
  | cons a l ih => rw [List.foldl_cons, ih, capacity_modifyBlock]

/-- Changing some blocks keeps the layout. -/
theorem layout_foldl_modifyBlock (l : List BlockId) (f : Function) :
    (l.foldl (fun f a => f.modifyBlock a g) f).layout = f.layout := by
  induction l generalizing f with
  | nil => rfl
  | cons a l ih => rw [List.foldl_cons, ih, layout_modifyBlock]

/-- Blocks of the arena can be changed one after the other. -/
theorem foldlM_updateBlock_eq {l : List BlockId} (hl : ∀ a ∈ l, a.index < f.capacity) :
    l.foldlM (fun f a => f.updateBlock a g) f =
      .ok (l.foldl (fun f a => f.modifyBlock a g) f) := by
  induction l generalizing f with
  | nil => rfl
  | cons a l ih =>
      rw [List.foldlM_cons, updateBlock_eq (hl a List.mem_cons_self), List.foldl_cons]
      exact ih fun c hc => by simpa using hl c (List.mem_cons_of_mem _ hc)

/-- A change that keeps the terminator keeps all successors. -/
theorem next_modifyBlock (ha : a.index < f.capacity)
    (hterm : (g (f.blockAt a)).terminator? = (f.blockAt a).terminator?) :
    (f.modifyBlock a g).next = f.next := by
  funext x
  rw [next, blockAt_modifyBlock ha]
  by_cases hxa : x = a
  · rw [if_pos hxa, hxa, next, Block.successors, Block.successors, hterm]
  · rw [if_neg hxa, next]

/-- A change that keeps the terminator of a block keeps the graph. -/
theorem edge_modifyBlock (ha : a.index < f.capacity)
    (hterm : (g (f.blockAt a)).terminator? = (f.blockAt a).terminator?) :
    (f.modifyBlock a g).Edge = f.Edge := by
  funext x y
  rw [Edge, Edge, next_modifyBlock ha hterm, layout_modifyBlock]

/-- A change that keeps identifier, terminator and labels keeps a function well-formed. -/
theorem WellFormed.modifyBlock (h : f.WellFormed) (ha : a.index < f.capacity)
    (hid : (g (f.blockAt a)).id = (f.blockAt a).id)
    (hterm : (g (f.blockAt a)).terminator? = (f.blockAt a).terminator?)
    (hlabels : a ∈ f.layout → ∀ i ∈ (g (f.blockAt a)).instructions, ∀ x ∈ i.phiLabels,
      x ∈ f.layout) :
    (f.modifyBlock a g).WellFormed where
  fits := by rw [capacity_modifyBlock]; exact h.fits
  id_blockAt x hx := by
    rw [capacity_modifyBlock] at hx
    rw [blockAt_modifyBlock ha]
    by_cases hxa : x = a
    · rw [if_pos hxa, hid, hxa, h.id_blockAt a ha]
    · rw [if_neg hxa, h.id_blockAt x hx]
  index_lt x hx := by rw [capacity_modifyBlock]; exact h.index_lt x hx
  nodup := h.nodup
  terminated x hx := by
    rw [blockAt_modifyBlock ha]
    by_cases hxa : x = a
    · rw [if_pos hxa, Block.hasTerminator, hterm]
      exact h.terminated a (hxa ▸ hx)
    · rw [if_neg hxa]
      exact h.terminated x hx
  next_mem := by
    rw [next_modifyBlock ha hterm]
    exact h.next_mem
  label_mem x hx i hi y hy := by
    rw [blockAt_modifyBlock ha] at hi
    by_cases hxa : x = a
    · rw [if_pos hxa] at hi
      exact hlabels (hxa ▸ hx) i hi y hy
    · rw [if_neg hxa] at hi
      exact h.label_mem x hx i hi y hy

/-! ### Guarding a place -/

/-- The function with a barrier at a place of one of its blocks, unless one is there. -/
def guard (f : Function) (a : BlockId) (place : Place) : Function :=
  f.modifyBlock a place.guard

namespace WellFormed

variable {place : Place}

/-- A block of a well-formed function gains at most a barrier when it is guarded. -/
theorem gains_guard (h : f.WellFormed) (ha : a ∈ f.layout) (place : Place) :
    (f.blockAt a).Gains (place.guard (f.blockAt a)) :=
  Block.gains_guard (h.terminated a ha) place

/-- Guarding a block keeps the successors of all blocks. -/
theorem next_guard (h : f.WellFormed) (ha : a ∈ f.layout) : (f.guard a place).next = f.next :=
  next_modifyBlock (h.index_lt a ha) (h.gains_guard ha place).terminator?_eq

/-- Guarding a block keeps the graph. -/
theorem edge_guard (h : f.WellFormed) (ha : a ∈ f.layout) : (f.guard a place).Edge = f.Edge :=
  edge_modifyBlock (h.index_lt a ha) (h.gains_guard ha place).terminator?_eq

/-- The blocks after one of them was guarded. -/
theorem blockAt_guard (h : f.WellFormed) (ha : a ∈ f.layout) :
    (f.guard a place).blockAt x =
      if x = a then place.guard (f.blockAt a) else f.blockAt x :=
  blockAt_modifyBlock (h.index_lt a ha)

/-- Guarding a block keeps a function well-formed. -/
theorem guard (h : f.WellFormed) (ha : a ∈ f.layout) : (f.guard a place).WellFormed := by
  have hgains := h.gains_guard ha place
  refine h.modifyBlock (h.index_lt a ha) hgains.id_eq hgains.terminator?_eq fun _ i hi x hx => ?_
  rcases hgains.eq_barrier_or_mem hi with rfl | hi
  · exact absurd hx List.not_mem_nil
  · exact h.label_mem a ha i hi x hx

end WellFormed

/-! ### Splitting a block -/

/-- The function with the instructions of block `p` from `k` on moved to a new block, to which
the rest branches. -/
def detach (f : Function) (p : BlockId) (k : Nat) : Function :=
  ((f.createBlockAfter p ((f.blockAt p).name ++ ".split")).2.modifyBlock p fun b =>
    { b with instructions := b.instructions.take k ++ [.branch f.nextBlock] }).modifyBlock
      f.nextBlock ({ · with instructions := (f.blockAt p).instructions.drop k })

/-- The function with the tail of a block moved to a new block, by which the phis behind it
choose. -/
def split (f : Function) (p : BlockId) (k : Nat) : Function :=
  (f.next p).foldl (fun g s => g.modifyBlock s (Block.relabel p f.nextBlock)) (f.detach p k)

/-- The cut adds a block to the arena. -/
theorem capacity_detach : (f.detach p k).capacity = f.capacity + 1 := by
  rw [detach, capacity_modifyBlock, capacity_modifyBlock, capacity, createBlockAfter,
    List.length_append]
  rfl

/-- A split adds a block to the arena. -/
@[simp]
theorem capacity_split : (f.split p k).capacity = f.capacity + 1 := by
  rw [split, capacity_foldl_modifyBlock, capacity_detach]

/-- A split puts the new block behind the old one. -/
@[simp]
theorem layout_split : (f.split p k).layout = insertAfter p f.nextBlock f.layout := by
  rw [split, layout_foldl_modifyBlock]
  rfl

/-- The body after a split has one block more. -/
theorem mem_layout_split : x ∈ (f.split p k).layout ↔ x = f.nextBlock ∨ x ∈ f.layout := by
  rw [layout_split, mem_insertAfter]

/-- A function with a block has an entry. -/
theorem exists_entry (hp : p ∈ f.layout) : ∃ r, f.entry? = some r :=
  ⟨_, List.head?_eq_some_head (List.ne_nil_of_mem hp)⟩

/-- A split keeps the entry, for the new block is never the first. -/
theorem entry?_split (hp : p ∈ f.layout) : Function.entry? (f.split p k) = f.entry? := by
  rw [entry?_eq_head?, layout_split, head?_insertAfter hp, entry?_eq_head?]

/-- The next identifier is never beyond the arena, even where it does not fit its word. -/
theorem index_nextBlock_le : f.nextBlock.index ≤ f.capacity := by
  rw [nextBlock, ArenaId.index, ArenaId.ofIndex, Nat.toUInt32_eq, UInt32.toNat_ofNat']
  exact Nat.mod_le _ _

/-- What a block and its tail lead to is the same. -/
theorem successors_drop {b b' : Block} (hk : k < b.instructions.length)
    (hb : b'.instructions = b.instructions.drop k) : b'.successors = b.successors := by
  rw [Block.successors, Block.successors, Block.terminator?, Block.terminator?, hb,
    List.getLast?_drop, if_neg (by omega)]

/-- The new block leads to where the split one led. -/
theorem next_detach_new (hk : k < (f.blockAt p).instructions.length) :
    (f.detach p k).next f.nextBlock = f.next p := by
  have hn : f.nextBlock.index < f.capacity + 1 := Nat.lt_succ_of_le index_nextBlock_le
  rw [← capacity_detach (p := p) (k := k), detach, capacity_modifyBlock] at hn
  rw [next, next, detach, blockAt_modifyBlock hn, if_pos rfl]
  exact successors_drop hk rfl

namespace WellFormed

/-- Renaming the labels behind the cut completes the split. -/
theorem renameIncoming_detach (h : f.WellFormed) (hp : p ∈ f.layout)
    (hk : k < (f.blockAt p).instructions.length) :
    (f.detach p k).renameIncoming p f.nextBlock = .ok (f.split p k) := by
  have hn : f.nextBlock.index < (f.detach p k).capacity := by
    rw [capacity_detach]
    exact Nat.lt_succ_of_le index_nextBlock_le
  rw [Function.renameIncoming, successors, block_of_lt hn, split, ← next_detach_new hk]
  refine foldlM_updateBlock_eq fun a ha => ?_
  rw [← next, next_detach_new hk] at ha
  rw [capacity_detach]
  exact Nat.lt_succ_of_lt (h.index_lt a (h.next_mem p hp a ha))

/-- **Splitting succeeds** on every block of the body, at every instruction of it. -/
theorem splitBlock_eq (h : f.WellFormed) (hp : p ∈ f.layout)
    (hk : k < (f.blockAt p).instructions.length) :
    f.splitBlock p k = .ok (f.nextBlock, f.split p k) := by
  have hrename := h.renameIncoming_detach hp hk
  simp only [detach, createBlockAfter] at hrename
  rw [splitBlock, h.block_eq hp]
  simp only [liftM, monadLift, MonadLift.monadLift, bind, Except.bind, pure, Except.pure,
    Except.mapError, if_neg (Nat.not_le.mpr hk), createBlockAfter, hrename]

/-- A split that succeeded was made at an instruction of the block. -/
theorem of_splitBlock_eq_ok {f' : Function} (h : f.WellFormed) (hp : p ∈ f.layout)
    (hsplit : f.splitBlock p k = .ok (n, f')) :
    k < (f.blockAt p).instructions.length ∧ n = f.nextBlock ∧ f' = f.split p k := by
  by_cases hk : k < (f.blockAt p).instructions.length
  · obtain ⟨rfl, rfl⟩ := Prod.mk.inj (Except.ok.inj (hsplit.symm.trans (h.splitBlock_eq hp hk)))
    exact ⟨hk, rfl, rfl⟩
  · rw [splitBlock, h.block_eq hp] at hsplit
    simp only [liftM, monadLift, MonadLift.monadLift, bind, Except.bind, Except.mapError,
      if_pos (Nat.le_of_not_lt hk), throw, throwThe, MonadExceptOf.throw, reduceCtorEq] at hsplit

/-! ### The function after a split -/

section Room

variable (h : f.WellFormed) (hroom : f.capacity < 2 ^ 32) (hp : p ∈ f.layout)
include h hroom

omit h in
/-- As long as identifiers last, the next one is the number of blocks. -/
theorem index_nextBlock : f.nextBlock.index = f.capacity :=
  ArenaId.index_ofIndex hroom

/-- The next block is not in the body. -/
theorem nextBlock_not_mem : f.nextBlock ∉ f.layout := fun hmem => by
  have := h.index_lt _ hmem
  rw [index_nextBlock hroom] at this
  omega

include hp

/-- The next block is none of the body. -/
theorem nextBlock_ne : f.nextBlock ≠ p := by
  rintro heq
  exact h.nextBlock_not_mem hroom (heq ▸ hp)

/-- The blocks after the cut. -/
theorem blockAt_detach :
    (f.detach p k).blockAt x =
      if x = f.nextBlock then
        ⟨f.nextBlock, (f.blockAt p).name ++ ".split", (f.blockAt p).instructions.drop k⟩
      else if x = p then
        { f.blockAt p with
          instructions := (f.blockAt p).instructions.take k ++ [.branch f.nextBlock] }
      else f.blockAt x := by
  have hcreated : ∀ name y, (f.createBlockAfter p name).2.blockAt y =
      if y = f.nextBlock then ⟨f.nextBlock, name, []⟩ else f.blockAt y := by
    intro name y
    rw [blockAt, block?, createBlockAfter, List.getElem?_append, ← capacity]
    split
    · rename_i hlt
      rw [if_neg (by rintro rfl; rw [index_nextBlock hroom] at hlt; omega)]
      rfl
    · rename_i hge
      by_cases hy : y = f.nextBlock
      · rw [if_pos hy, hy, index_nextBlock hroom, Nat.sub_self]
        rfl
      · have hne : y.index ≠ f.capacity := fun heq =>
          hy (ArenaId.index_inj (heq.trans (index_nextBlock hroom).symm))
        have hnone : [(⟨f.nextBlock, name, []⟩ : Block)][y.index - f.capacity]? = none :=
          List.getElem?_eq_none (by simp; omega)
        rw [if_neg hy, hnone, blockAt, block?, List.getElem?_eq_none (Nat.le_of_not_lt hge)]
  have hcap : ∀ name, (f.createBlockAfter p name).2.capacity = f.capacity + 1 := by
    simp [createBlockAfter, capacity]
  have hpn := (h.nextBlock_ne hroom hp).symm
  have hlt : ∀ name, p.index < (f.createBlockAfter p name).2.capacity := by
    intro name
    rw [hcap]
    exact Nat.lt_succ_of_lt (h.index_lt p hp)
  rw [detach,
    blockAt_modifyBlock (by rw [capacity_modifyBlock, hcap, index_nextBlock hroom]; omega),
    blockAt_modifyBlock (hlt _), blockAt_modifyBlock (hlt _), hcreated, hcreated, hcreated]
  by_cases hxn : x = f.nextBlock
  · simp [hxn, hpn.symm]
  · by_cases hxp : x = p <;> simp [hxn, hxp, hpn]

/-- The blocks after a split. -/
theorem blockAt_split :
    (f.split p k).blockAt x =
      if x ∈ f.next p then ((f.detach p k).blockAt x).relabel p f.nextBlock
      else (f.detach p k).blockAt x := by
  rw [Function.split]
  refine blockAt_foldl_modifyBlock (fun a ha => ?_) fun b =>
    Block.relabel_relabel (h.nextBlock_ne hroom hp)
  rw [capacity_detach]
  exact Nat.lt_succ_of_lt (h.index_lt a (h.next_mem p hp a ha))

/-- The labels in the blocks of the body name blocks of the old body until they are renamed. -/
theorem label_mem_detach (hx : x ∈ (f.split p k).layout) {i : Instruction}
    (hi : i ∈ ((f.detach p k).blockAt x).instructions) {a : BlockId} (ha : a ∈ i.phiLabels) :
    a ∈ f.layout := by
  rw [h.blockAt_detach hroom hp] at hi
  split at hi
  · exact h.label_mem p hp i (List.mem_of_mem_drop hi) a ha
  · split at hi
    · rcases List.mem_append.mp hi with hi | hi
      · exact h.label_mem p hp i (List.mem_of_mem_take hi) a ha
      · rw [List.mem_singleton.mp hi] at ha
        exact absurd ha List.not_mem_nil
    · rename_i hxn hxp
      exact h.label_mem x ((mem_layout_split.mp hx).resolve_left hxn) i hi a ha

variable (hk : k < (f.blockAt p).instructions.length)
include hk

/-- The successors after a split: the new block has those of the old one, which leads to it
alone. -/
theorem next_split :
    (f.split p k).next x =
      if x = f.nextBlock then f.next p else if x = p then [f.nextBlock] else f.next x := by
  have hdetach : (f.split p k).next x = (f.detach p k).next x := by
    rw [next, h.blockAt_split hroom hp]
    split
    · exact Block.successors_relabel
    · rfl
  rw [hdetach, next, h.blockAt_detach hroom hp]
  split
  · exact successors_drop hk rfl
  · split
    · exact Block.successors_of_append (t := .branch f.nextBlock) rfl rfl
    · rfl

/-- A split function is well-formed. -/
theorem split : (f.split p k).WellFormed where
  fits := by rw [capacity_split]; omega
  id_blockAt x hx := by
    have hdetach : ((f.detach p k).blockAt x).id = x := by
      rw [h.blockAt_detach hroom hp]
      split
      · rename_i hxn
        exact hxn.symm
      · rename_i hxn
        have hlt : x.index < f.capacity := by
          have hne : x.index ≠ f.capacity := fun heq =>
            hxn (ArenaId.index_inj (heq.trans (index_nextBlock hroom).symm))
          rw [capacity_split] at hx
          omega
        split
        · rename_i hxp
          rw [hxp]
          exact h.id_blockAt p (h.index_lt p hp)
        · exact h.id_blockAt x hlt
    rw [h.blockAt_split hroom hp]
    split
    · rw [Block.id_relabel, hdetach]
    · exact hdetach
  index_lt x hx := by
    rw [capacity_split]
    rcases mem_layout_split.mp hx with rfl | hx
    · rw [index_nextBlock hroom]
      omega
    · exact Nat.lt_succ_of_lt (h.index_lt x hx)
  nodup := by
    rw [layout_split]
    exact nodup_insertAfter h.nodup (h.nextBlock_not_mem hroom)
  terminated x hx := by
    have hdetach : ((f.detach p k).blockAt x).hasTerminator = true := by
      rw [h.blockAt_detach hroom hp]
      split
      · rw [Block.hasTerminator, Block.terminator?, List.getLast?_drop, if_neg (by omega)]
        exact h.terminated p hp
      · split
        · exact Block.hasTerminator_of_append rfl rfl
        · rename_i hxn _
          exact h.terminated x ((mem_layout_split.mp hx).resolve_left hxn)
    rw [h.blockAt_split hroom hp]
    split
    · rw [Block.hasTerminator_relabel, hdetach]
    · exact hdetach
  next_mem x hx y hy := by
    rw [h.next_split hroom hp hk] at hy
    rw [mem_layout_split]
    split at hy
    · exact .inr (h.next_mem p hp y hy)
    · split at hy
      · exact .inl (List.mem_singleton.mp hy)
      · rename_i hxn _
        exact .inr (h.next_mem x ((mem_layout_split.mp hx).resolve_left hxn) y hy)
  label_mem x hx i hi a ha := by
    rw [h.blockAt_split hroom hp] at hi
    rw [mem_layout_split]
    split at hi
    · obtain ⟨j, hj, rfl⟩ := List.mem_map.mp hi
      rw [Instruction.phiLabels_renameIncoming] at ha
      obtain ⟨c, hc, rfl⟩ := List.mem_map.mp ha
      split
      · exact .inl rfl
      · exact .inr (h.label_mem_detach hroom hp hx hj hc)
    · exact .inr (h.label_mem_detach hroom hp hx hi ha)

/-- **The graph of a split function.** -/
theorem splitsOff (hr : r ∈ f.layout) :
    SplitsOff f.Edge (f.split p k).Edge r p f.nextBlock := by
  have hnot := h.nextBlock_not_mem hroom
  have hne := h.nextBlock_ne hroom hp
  refine ⟨fun heq => hnot (heq ▸ hr), hne, fun x hx => hnot (h.mem_of_edge hx),
    fun y hy => hnot hy.1, fun x y => ?_⟩
  rw [Edge, mem_layout_split, h.next_split hroom hp hk]
  by_cases hxn : x = f.nextBlock
  · rw [if_pos hxn]
    simp only [hxn, true_and, hne, false_and, false_or, Edge, hp, hnot, and_false,
      or_false]
  · rw [if_neg hxn]
    by_cases hxp : x = p
    · simp [hxp, hp, hne.symm]
    · simp [hxn, hxp, Edge]

end Room

end WellFormed

end Function

end Lockstep
