import Lockstep.Function
import Lockstep.Proofs.Success
import Mathlib.Algebra.Ring.Nat

/-!
# Well-formed functions, declaratively

`Function.defect?` looks for the first thing that is wrong. This module says what a function
without a defect is like, and gives the control flow of such a function as a graph: the analyses
and the passes look at blocks through computations that may fault, and on the body of a
well-formed function none of them does.

## Main results

* `Function.defect?_eq_none_iff` and `Function.validate_eq_ok_iff`: the check accepts exactly the
  well-formed functions.
* `Function.WellFormed.successors_eq` and `Function.WellFormed.predecessors_eq`: looking along
  the branches gives the edges of the graph.
-/

namespace Lockstep

namespace ArenaId

variable {a : Arena}

/-- Positions are words. -/
theorem index_lt (id : ArenaId a) : id.index < 2 ^ 32 :=
  id.val.toNat_lt

/-- The index of a position that fits its word. -/
theorem index_ofIndex {n : Nat} (h : n < 2 ^ 32) : (ofIndex n : ArenaId a).index = n := by
  simp only [ofIndex, index, Nat.toUInt32_eq, UInt32.toNat_ofNat']
  exact Nat.mod_eq_of_lt h

end ArenaId

namespace Function

variable {f : Function} {a b : BlockId}

/-- The block of that name in the arena, and an empty one if there is none. -/
def blockAt (f : Function) (a : BlockId) : Block :=
  (f.block? a).getD ⟨a, "", []⟩

/-- The blocks that control can go to from a block. -/
def next (f : Function) (a : BlockId) : List BlockId :=
  (f.blockAt a).successors

/-- Control can go from the first block to the second, both being in the body. -/
def Edge (f : Function) (a b : BlockId) : Prop :=
  a ∈ f.layout ∧ b ∈ f.next a

/-- A function without a defect. -/
structure WellFormed (f : Function) : Prop where
  /-- Every slot of the arena has an identifier. -/
  fits : f.capacity ≤ 2 ^ 32
  /-- Every block carries the identifier of its slot. -/
  id_blockAt : ∀ a : BlockId, a.index < f.capacity → (f.blockAt a).id = a
  index_lt : ∀ a ∈ f.layout, a.index < f.capacity
  nodup : f.layout.Nodup
  terminated : ∀ a ∈ f.layout, (f.blockAt a).hasTerminator = true
  next_mem : ∀ a ∈ f.layout, ∀ b ∈ f.next a, b ∈ f.layout
  label_mem : ∀ a ∈ f.layout, ∀ i ∈ (f.blockAt a).instructions, ∀ b ∈ i.phiLabels, b ∈ f.layout

/-! ### Looking at blocks -/

/-- The arena holds the blocks that its size promises. -/
theorem block?_of_lt (h : a.index < f.capacity) : f.block? a = some (f.blockAt a) := by
  rw [blockAt, block?, List.getElem?_eq_getElem h, Option.getD_some]

/-- Looking at a block of the arena is no fault. -/
theorem block_of_lt (h : a.index < f.capacity) : f.block a = .ok (f.blockAt a) := by
  rw [block, block?_of_lt h]

/-! ### What the check accepts -/

/-- No block is out of its slot exactly when all carry their positions. -/
theorem slotDefect?_eq_none_iff :
    f.slotDefect? = none ↔
      f.capacity ≤ 2 ^ 32 ∧ ∀ a : BlockId, a.index < f.capacity → (f.blockAt a).id = a := by
  have hslots : f.slotDefect? = none ↔
      ∀ (b : Block) (i : Nat), f.blocks[i]? = some b → b.id.index = i := by
    simp only [slotDefect?, List.findSome?_eq_none_iff, Prod.forall,
      List.mem_zipIdx_iff_getElem?]
    refine forall_congr' fun b => forall_congr' fun i => imp_congr_right fun _ => ?_
    split <;> simp_all
  rw [hslots]
  constructor
  · intro h
    refine ⟨?_, fun a ha => ?_⟩
    · refine Nat.le_of_not_lt fun hlt => ?_
      have hidx := h _ _ (List.getElem?_eq_getElem hlt)
      have hbound := (f.blocks[2 ^ 32]).id.index_lt
      omega
    · exact ArenaId.index_inj (h _ _ (block?_of_lt ha))
  · rintro ⟨hfits, hid⟩ b i hb
    obtain ⟨hi, rfl⟩ := List.getElem?_eq_some_iff.mp hb
    have hindex : (ArenaId.ofIndex i : BlockId).index = i :=
      ArenaId.index_ofIndex (Nat.lt_of_lt_of_le hi hfits)
    have hlt : (ArenaId.ofIndex i : BlockId).index < f.capacity := by rw [hindex]; exact hi
    have hblock : f.blockAt (ArenaId.ofIndex i) = f.blocks[i] := by
      rw [blockAt, block?, hindex, List.getElem?_eq_getElem hi, Option.getD_some]
    rw [← hblock, hid _ hlt, hindex]

/-- A layout is accepted when it lists blocks of the arena and none twice. -/
theorem layoutDefect?_eq_none_iff {capacity : Nat} {seen layout : List BlockId} :
    layoutDefect? capacity seen layout = none ↔
      (∀ a ∈ layout, a.index < capacity) ∧ layout.Nodup ∧ ∀ a ∈ layout, a ∉ seen := by
  induction layout generalizing seen with
  | nil => simp [layoutDefect?]
  | cons a rest ih =>
      rw [layoutDefect?]
      split
      · simp
        omega
      · split
        · simp_all
        · rw [ih]
          simp only [List.mem_cons, forall_eq_or_imp, List.nodup_cons, not_or]
          simp_all only [Nat.not_le, List.contains_eq_mem, decide_eq_true_eq]
          constructor
          · rintro ⟨hlt, hnodup, hseen⟩
            exact ⟨⟨trivial, hlt⟩, ⟨fun hmem => (hseen a hmem).1 rfl, hnodup⟩,
              not_false, fun x hx => (hseen x hx).2⟩
          · rintro ⟨⟨-, hlt⟩, ⟨hnot, hnodup⟩, -, hseen⟩
            exact ⟨hlt, hnodup, fun x hx => ⟨fun hxa => hnot (hxa ▸ hx), hseen x hx⟩⟩

/-- A block is accepted when it ends with a terminator and names blocks of the body only. -/
theorem blockDefect?_eq_none_iff {layout : List BlockId} {b : Block} :
    blockDefect? layout b = none ↔
      b.hasTerminator = true ∧ (∀ a ∈ b.successors, a ∈ layout) ∧
        ∀ i ∈ b.instructions, ∀ a ∈ i.phiLabels, a ∈ layout := by
  rw [blockDefect?]
  split
  · simp_all
  · split
    · rename_i target htarget
      have hmem := List.mem_of_find?_eq_some htarget
      have hnot := List.find?_some htarget
      simp only [reduceCtorEq, false_iff, not_and]
      intro _ hall
      simp [hall target hmem] at hnot
    · split
      · rename_i label hlabel
        have hmem := List.mem_of_find?_eq_some hlabel
        have hnot := List.find?_some hlabel
        obtain ⟨i, hi, hlab⟩ := List.mem_flatMap.mp hmem
        simp only [reduceCtorEq, false_iff, not_and]
        intro _ _ hall
        simp [hall i hi label hlab] at hnot
      · rename_i hterm _ hsucc _ hlabels
        simp only [List.find?_eq_none, Bool.not_eq_true, Bool.not_eq_false',
          List.contains_eq_mem, decide_eq_true_eq, List.mem_flatMap, forall_exists_index,
          and_imp] at hterm hsucc hlabels
        simp only [true_iff]
        exact ⟨hterm, hsucc, fun i hi a ha => hlabels a i hi ha⟩

/-- **What the check accepts.** A function has no defect exactly when it is well-formed. -/
theorem defect?_eq_none_iff : f.defect? = none ↔ f.WellFormed := by
  have hsplit : f.defect? = none ↔ f.slotDefect? = none ∧
      layoutDefect? f.capacity [] f.layout = none ∧
      ∀ b ∈ f.layout.filterMap f.block?, blockDefect? f.layout b = none := by
    rw [defect?]
    split
    · simp_all
    · split
      · simp_all
      · simp_all [List.findSome?_eq_none_iff]
  rw [hsplit, slotDefect?_eq_none_iff, layoutDefect?_eq_none_iff]
  constructor
  · rintro ⟨⟨hfits, hid⟩, ⟨hlt, hnodup, -⟩, hblocks⟩
    have hblock : ∀ a ∈ f.layout, blockDefect? f.layout (f.blockAt a) = none := fun a ha =>
      hblocks _ (List.mem_filterMap.mpr ⟨a, ha, block?_of_lt (hlt a ha)⟩)
    exact {
      fits := hfits
      id_blockAt := hid
      index_lt := hlt
      nodup := hnodup
      terminated := fun a ha => (blockDefect?_eq_none_iff.mp (hblock a ha)).1
      next_mem := fun a ha => (blockDefect?_eq_none_iff.mp (hblock a ha)).2.1
      label_mem := fun a ha => (blockDefect?_eq_none_iff.mp (hblock a ha)).2.2 }
  · intro h
    refine ⟨⟨h.fits, h.id_blockAt⟩, ⟨h.index_lt, h.nodup, fun a _ => List.not_mem_nil⟩, ?_⟩
    intro b hb
    obtain ⟨a, ha, hab⟩ := List.mem_filterMap.mp hb
    rw [block?_of_lt (h.index_lt a ha), Option.some.injEq] at hab
    subst hab
    exact blockDefect?_eq_none_iff.mpr ⟨h.terminated a ha, h.next_mem a ha, h.label_mem a ha⟩

/-- The check passes exactly the well-formed functions. -/
theorem validate_eq_ok_iff : f.validate = .ok () ↔ f.WellFormed := by
  rw [← defect?_eq_none_iff, validate]
  split <;> simp_all

/-! ### The graph of a well-formed function -/

/-- The blocks of the body that lead to a block are those with an edge to it. -/
theorem mem_filter_next :
    a ∈ f.layout.filter (fun a => (f.next a).contains b) ↔ f.Edge a b := by
  simp [Edge]

/-- A block has at most two successors. -/
theorem length_next_le (f : Function) (a : BlockId) : (f.next a).length ≤ 2 := by
  rw [next, Block.successors]
  cases (f.blockAt a).terminator? with
  | none => simp
  | some i => cases i <;> simp [Instruction.successors]

namespace WellFormed

/-- Looking at a block of the body is no fault. -/
theorem block_eq (h : f.WellFormed) (ha : a ∈ f.layout) : f.block a = .ok (f.blockAt a) :=
  block_of_lt (h.index_lt a ha)

/-- The successors of a block of the body. -/
theorem successors_eq (h : f.WellFormed) (ha : a ∈ f.layout) : f.successors a = .ok (f.next a) := by
  rw [successors, h.block_eq ha]
  rfl

/-- The body of a well-formed function is that of its layout. -/
theorem body_eq (h : f.WellFormed) : f.body = .ok (f.layout.map f.blockAt) :=
  mapM_ok fun _ ha => h.block_eq ha

/-- The predecessors of a block are the blocks of the body that lead to it, in program order. -/
theorem predecessors_eq (h : f.WellFormed) (b : BlockId) :
    f.predecessors b = .ok (f.layout.filter fun a => (f.next a).contains b) := by
  rw [predecessors, h.body_eq]
  simp only [bind, Except.bind, pure, Except.pure, List.filter_map, List.map_map]
  congr 1
  calc List.map (Block.id ∘ f.blockAt)
        (f.layout.filter ((fun x => x.successors.contains b) ∘ f.blockAt))
      = List.map id (f.layout.filter fun a => (f.next a).contains b) :=
        List.map_congr_left fun a ha => h.id_blockAt a (h.index_lt a (List.mem_filter.mp ha).1)
    _ = f.layout.filter fun a => (f.next a).contains b := List.map_id _

/-- Control stays in the body. -/
theorem mem_of_edge (h : f.WellFormed) (hab : f.Edge a b) : b ∈ f.layout :=
  h.next_mem a hab.1 b hab.2

end WellFormed

end Function

end Lockstep
