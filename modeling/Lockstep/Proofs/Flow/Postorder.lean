import Lockstep.Proofs.Flow.Containment

/-!
# Loops from the inside out

The loops of a function are visited by a recursion that goes from each loop to its children first.
It has a budget, the number of loops, so that it ends on forests of any kind. On a computed forest
it would end without one: children are smaller than their parents, so no chain of them is longer
than the number of loops, and a larger budget changes nothing.

While blocks are split, loops get more blocks, but a forest keeps the places of its loops. A block
that is new to all loops brings no loop inside another one, so the order stays right.

## Main results

* `LoopForest.visit_of_le`: the budget is no restriction.
* `LoopForest.postorder_perm` and `LoopForest.idxOf_postorder_lt`: every loop is visited once, and
  behind the loops inside it.
* `LoopForest.Grown.follows`: what added blocks leave as it was.
* `LoopForest.postorder_inside_out`: the order, for the forests of valid functions.
-/

namespace Lockstep

namespace LoopForest

variable {E : BlockId → BlockId → Prop} {r old new : BlockId} {forest g : LoopForest}
  {loops : List Loop} {i j : Nat}

/-! ### Computed forests -/

/-- **The budget is no restriction.** A walk whose budget covers the loops that are not larger than
the one it starts from is not cut off. -/
theorem visit_of_le {budget more : Nat} (hbudget : rank loops i ≤ budget) (hle : budget ≤ more) :
    (LoopForest.mk (nest loops)).visit more i = (LoopForest.mk (nest loops)).visit budget i := by
  induction budget generalizing i more with
  | zero =>
      have hi : loops[i]? = none := by
        refine List.getElem?_eq_none (Nat.le_of_not_lt fun hlt => ?_)
        have hpos := rank_pos hlt
        omega
      cases more with
      | zero => rfl
      | succ more => rw [visit, visit, get?, getElem?_nest, hi]; rfl
  | succ budget ih =>
      obtain ⟨more, rfl⟩ : ∃ m, more = m + 1 := ⟨more - 1, by omega⟩
      rw [visit, visit]
      cases hi : loops[i]? with
      | none => rw [get?, getElem?_nest, hi]; rfl
      | some li =>
          obtain ⟨l, hl, -, hchildren⟩ := get?_nest_eq hi
          rw [hl]
          simp only [List.append_cancel_right_eq]
          refine List.flatMap_congr fun c hc => ih ?_ (by omega)
          have hci := (mem_children_iff hchildren).mp hc
          have hrank := rank_lt (List.getElem?_eq_some_iff.mp hi).1 (size_lt_of_outer? hci)
          omega

/-- **Every loop is visited once.** -/
theorem postorder_perm (loops : List Loop) :
    (LoopForest.mk (nest loops)).postorder.Perm (List.range loops.length) := by
  have hnodup : (LoopForest.mk (nest loops)).postorder.Nodup := by
    refine (pairwise_postorder_below loops).imp fun {i j} hno heq => ?_
    exact hno (heq ▸ Below.refl loops i)
  refine (List.perm_ext_iff_of_nodup hnodup List.nodup_range).mpr fun i => ?_
  rw [mem_postorder_iff, List.mem_range]

/-- **Inner loops come first.** A loop stands behind the loops inside it. -/
theorem idxOf_postorder_lt (hd : (LoopForest.mk loops).Describes E r) {li lj : Loop}
    (hi : (LoopForest.mk (nest loops)).get? i = some li)
    (hj : (LoopForest.mk (nest loops)).get? j = some lj) (hin : li.Inside lj) :
    (LoopForest.mk (nest loops)).postorder.idxOf i <
      (LoopForest.mk (nest loops)).postorder.idxOf j := by
  rw [get?, getElem?_nest] at hi hj
  obtain ⟨li, hli, rfl⟩ := Option.map_eq_some_iff.mp hi
  obtain ⟨lj, hlj, rfl⟩ := Option.map_eq_some_iff.mp hj
  obtain ⟨hne, hin⟩ := ((hd.loop li (List.mem_of_getElem? hli)).inside_iff
    (hd.loop lj (List.mem_of_getElem? hlj))).mp hin
  have hij : i ≠ j := by
    rintro rfl
    obtain rfl := Option.some.inj (hli.symm.trans hlj)
    exact hne rfl
  exact idxOf_lt_idxOf (pairwise_postorder_below loops)
    (mem_postorder_iff.mpr (List.getElem?_eq_some_iff.mp hli).1)
    (mem_postorder_iff.mpr (List.getElem?_eq_some_iff.mp hlj).1) hij
    (not_not_intro ((below_iff hd hli hlj).mpr hin))

/-! ### Added blocks -/

/-- What a loop holds when a block was added. -/
theorem contains_added (l : Loop) (b : BlockId) :
    (if l.contains old then l.insertAfter old new else l).contains b = true ↔
      l.contains b = true ∨ b = new ∧ l.contains old = true := by
  by_cases hold : l.contains old = true
  · rw [if_pos hold, Loop.insertAfter]
    by_cases hnew : l.contains new = true
    · rw [if_pos hnew]
      exact ⟨.inl, fun h => h.elim id fun h => h.1 ▸ hnew⟩
    · rw [if_neg hnew, and_iff_left hold, or_comm]
      simp [Loop.contains]
  · simp [hold]

/-- A new block brings no loop inside another one: in its place the block that it was added for
tells the loops apart. -/
theorem inside_of_added {l l' : Loop} (hl : l.contains new = false) (hl' : l'.contains new = false)
    (h : (if l.contains old then l.insertAfter old new else l).Inside
      (if l'.contains old then l'.insertAfter old new else l')) : l.Inside l' := by
  obtain ⟨hsub, b, hb, hnot⟩ := h
  have hsub' : ∀ x, l.contains x = true → l'.contains x = true := by
    intro x hx
    rcases (contains_added l' x).mp (hsub x ((contains_added l x).mpr (.inl hx))) with h | h
    · exact h
    · rw [h.1, hl] at hx
      cases hx
  rw [← Bool.not_eq_true, contains_added, not_or] at hnot
  refine ⟨hsub', ?_⟩
  rcases (contains_added l' b).mp hb with hb | ⟨rfl, hold⟩
  · exact ⟨b, hb, Bool.not_eq_true _ ▸ hnot.1⟩
  · exact ⟨old, hold, Bool.not_eq_true _ ▸ fun h => hnot.2 ⟨rfl, h⟩⟩

/-- The place of a loop is not touched. -/
theorem place_added (l : Loop) (old new : BlockId) :
    (if l.contains old then l.insertAfter old new else l).parent = l.parent ∧
      (if l.contains old then l.insertAfter old new else l).children = l.children ∧
      (if l.contains old then l.insertAfter old new else l).depth = l.depth := by
  split
  · rw [Loop.insertAfter]
    split <;> exact ⟨rfl, rfl, rfl⟩
  · exact ⟨rfl, rfl, rfl⟩

/-- The loops after a block was added. -/
theorem get?_addBlockLike (g : LoopForest) (old new : BlockId) (i : Nat) :
    (g.addBlockLike old new).get? i =
      (g.get? i).map fun l => if l.contains old then l.insertAfter old new else l :=
  List.getElem?_map

/-- A new block changes no order by headers. -/
theorem byHeader_addBlockLike (g : LoopForest) (old new : BlockId) (indices : List Nat) :
    (g.addBlockLike old new).byHeader indices = g.byHeader indices := by
  have hheader : (g.addBlockLike old new).headerIndex = g.headerIndex := by
    funext i
    rw [headerIndex, headerIndex, get?_addBlockLike, Option.map_map]
    simp only [Function.comp_def, header_insertAfter]
  rw [byHeader, byHeader, hheader]

/-- A new block changes no walk from a loop. -/
theorem visit_addBlockLike (g : LoopForest) (old new : BlockId) (budget i : Nat) :
    (g.addBlockLike old new).visit budget i = g.visit budget i := by
  induction budget generalizing i with
  | zero => rfl
  | succ budget ih =>
      rw [visit, visit, get?_addBlockLike]
      cases g.get? i with
      | none => rfl
      | some l =>
          simp only [Option.map_some, byHeader_addBlockLike, (place_added l old new).2.1]
          rw [List.flatMap_congr fun c _ => ih c]

/-- A new block changes no walk over the forest. -/
theorem postorder_addBlockLike (g : LoopForest) (old new : BlockId) :
    (g.addBlockLike old new).postorder = g.postorder := by
  have hlen : (g.addBlockLike old new).loops.length = g.loops.length := List.length_map _
  have hroots : ((g.addBlockLike old new).loops.zipIdx.filter fun x => x.1.parent.isNone).map
      Prod.snd = (g.loops.zipIdx.filter fun x => x.1.parent.isNone).map Prod.snd := by
    rw [addBlockLike, List.zipIdx_map, List.filter_map, List.map_map]
    simp [Function.comp_def, (place_added _ old new).1]
  rw [postorder, postorder, hlen]
  change ((g.addBlockLike old new).byHeader (((g.addBlockLike old new).loops.zipIdx.filter
    fun x => x.1.parent.isNone).map Prod.snd)).flatMap _ = _
  rw [hroots, byHeader_addBlockLike]
  exact List.flatMap_congr fun c _ => visit_addBlockLike g old new _ c

/-- Blocks are added to the loops of a forest one after another, each to the loops that hold some
other block. At that time no loop holds it. -/
inductive Grown (forest : LoopForest) : LoopForest → Prop
  | refl : Grown forest forest
  | snoc {g : LoopForest} {old new : BlockId} :
      Grown forest g → (∀ l ∈ g.loops, l.contains new = false) →
      Grown forest (g.addBlockLike old new)

/-- The second forest has its loops where the first one has them, and none is inside another one
that was not so before. -/
structure Follows (forest g : LoopForest) : Prop where
  length_eq : g.loops.length = forest.loops.length
  visit_eq : ∀ budget i, g.visit budget i = forest.visit budget i
  postorder_eq : g.postorder = forest.postorder
  inside : ∀ i j li lj, g.get? i = some li → g.get? j = some lj → li.Inside lj →
    ∃ li lj, forest.get? i = some li ∧ forest.get? j = some lj ∧ li.Inside lj

/-- **One block.** What a forest follows, it follows with one more block that is new to it. -/
theorem Follows.addBlockLike (h : Follows forest g) (hnew : ∀ l ∈ g.loops, l.contains new = false) :
    Follows forest (g.addBlockLike old new) where
  length_eq := (List.length_map _).trans h.length_eq
  visit_eq budget i := (visit_addBlockLike g old new budget i).trans (h.visit_eq budget i)
  postorder_eq := (postorder_addBlockLike g old new).trans h.postorder_eq
  inside i j li lj hi hj hin := by
    rw [get?_addBlockLike] at hi hj
    obtain ⟨l, hl, rfl⟩ := Option.map_eq_some_iff.mp hi
    obtain ⟨l', hl', rfl⟩ := Option.map_eq_some_iff.mp hj
    exact h.inside i j l l' hl hl' (inside_of_added (hnew l (List.mem_of_getElem? hl))
      (hnew l' (List.mem_of_getElem? hl')) hin)

/-- **Any number of blocks.** A forest with blocks added follows the one that it comes from. -/
theorem Grown.follows (h : Grown forest g) : Follows forest g := by
  induction h with
  | refl => exact ⟨rfl, fun _ _ => rfl, rfl, fun i j li lj hi hj hin => ⟨li, lj, hi, hj, hin⟩⟩
  | snoc _ hnew ih => exact ih.addBlockLike hnew

/-! ### Forests of functions -/

/-- **Inner loops come first.** The walk over the forest of a valid function comes to its end: with
any larger budget it goes the same way. It visits every loop once, and a loop behind all loops
inside it. The same is true of every forest that comes from this one by adding blocks, each new to
all loops when it is added. -/
theorem postorder_inside_out (f : Function) (hvalid : f.validate = .ok ()) :
    ∃ t forest, DominatorTree.compute f = .ok t ∧ compute f t = .ok forest ∧
      ∀ g, Grown forest g →
        (∀ budget, g.loops.length ≤ budget →
          ∀ i, g.visit budget i = g.visit g.loops.length i) ∧
        g.postorder.Perm (List.range g.loops.length) ∧
        ∀ i j li lj, g.get? i = some li → g.get? j = some lj → li.Inside lj →
          g.postorder.idxOf i < g.postorder.idxOf j := by
  have hf := Function.validate_eq_ok_iff.mp hvalid
  obtain ⟨t, loops, r, ht, hforest, hd, -⟩ := exists_compute_eq_ok hf
  have hlen : (nest loops).length = loops.length := by simp [nest]
  refine ⟨t, ⟨nest loops⟩, ht, hforest, fun g hg => ?_⟩
  have hfollows := hg.follows
  rw [hfollows.length_eq, hfollows.postorder_eq, hlen]
  refine ⟨fun budget hle i => ?_, postorder_perm loops, fun i j li lj hi hj hin => ?_⟩
  · rw [hfollows.visit_eq, hfollows.visit_eq]
    exact visit_of_le (rank_le loops i) hle
  · obtain ⟨li, lj, hi, hj, hin⟩ := hfollows.inside i j li lj hi hj hin
    exact idxOf_postorder_lt hd hi hj hin

/-- Two blocks are added to the inner loops of `grove`, the second of them behind the first. -/
theorem postorder_inside_out_grove :
    let g := (groveLoops.addBlockLike ⟨4⟩ ⟨8⟩).addBlockLike ⟨8⟩ ⟨9⟩
    grove.validate = .ok () ∧ DominatorTree.compute grove = .ok groveTree ∧
    compute grove groveTree = .ok groveLoops ∧ Grown groveLoops g ∧
    g.postorder.Perm (List.range 5) ∧ g.postorder.idxOf 3 < g.postorder.idxOf 2 := by
  have hvalid : grove.validate = .ok () := by decide +kernel
  have htree : DominatorTree.compute grove = .ok groveTree := by decide +kernel
  have hloops : compute grove groveTree = .ok groveLoops := by decide +kernel
  obtain ⟨t, forest, ht, hforest, horder⟩ := postorder_inside_out grove hvalid
  obtain rfl := Except.ok.inj (htree.symm.trans ht)
  obtain rfl := Except.ok.inj (hloops.symm.trans hforest)
  have hgrown : Grown groveLoops ((groveLoops.addBlockLike ⟨4⟩ ⟨8⟩).addBlockLike ⟨8⟩ ⟨9⟩) :=
    (Grown.refl.snoc (by decide)).snoc (by decide)
  obtain ⟨-, hperm, hbefore⟩ := horder _ hgrown
  exact ⟨hvalid, htree, hloops, hgrown, hperm, hbefore 3 2 _ _ rfl rfl (by decide)⟩

end LoopForest

end Lockstep
