import Lockstep.Proofs.Flow.Dominance
import Lockstep.Proofs.Flow.LoopForest

/-!
# What loop forests say of valid functions

The loops that are found in a function that the check accepts, held against the paths of its graph.
There is one loop for each target of a back edge. Its blocks are found backwards from the latches,
and its latches are found again among the predecessors of its header whenever they are asked for;
both are told here by paths alone, whatever the graph looks like: cycles that are entered at several
blocks, blocks that lead to themselves, and blocks that nothing leads to.

A function without a body has no entry, hence no paths and no loops.

## Main results

* `LoopForest.compute_finds`: the loops that are found are the natural loops of the graph.
-/

namespace Lockstep

/-- The header comes first in the list of a loop's blocks, the others as they stand in the body. -/
def Loop.InOrder (l : Loop) (f : Function) : Prop :=
  ∃ others, l.blocks = l.header :: others ∧ others.Sublist f.layout

namespace LoopForest

open DominatorTree (tangled tangledTree)

variable {f : Function} {t : DominatorTree} {forest : LoopForest}

/-! ### Order -/

/-- What a natural loop is made of. -/
theorem eq_of_naturalLoop {header : BlockId} {latches : List BlockId} {l : Loop}
    (h : naturalLoop f t header latches = .ok l) :
    l.header = header ∧
      l.blocks = header :: f.layout.filter fun b => b != header && l.contains b := by
  obtain ⟨members, -, hl⟩ := exists_of_bind_eq_ok h
  cases hl
  exact ⟨rfl, rfl⟩

/-- Whatever forest is computed, its loops are natural loops, and they are in the order in which
their headers are first met along back edges. -/
theorem exists_of_compute (h : compute f t = .ok forest) :
    ∃ edges loops, backEdges f t = .ok edges ∧ forest = ⟨nest loops⟩ ∧
      loops.map Loop.header = (edges.map Prod.fst).eraseDups ∧
      ∀ l ∈ loops, ∃ header latches, naturalLoop f t header latches = .ok l := by
  obtain ⟨edges, hedges, h⟩ := exists_of_bind_eq_ok h
  obtain ⟨loops, hloops, h⟩ := exists_of_bind_eq_ok h
  cases h
  refine ⟨edges, loops, hedges, rfl,
    map_eq_of_mapM_ok hloops fun _ _ hl => (eq_of_naturalLoop hl).1, fun l hl => ?_⟩
  obtain ⟨header, -, hnatural⟩ := exists_of_mem_mapM_ok hloops hl
  exact ⟨header, _, hnatural⟩

/-- Whatever forest is computed, the list of a loop's blocks is the header and then what the body
holds of the loop. -/
theorem blocks_of_compute (h : compute f t = .ok forest) : ∀ l ∈ forest.loops,
    l.blocks = l.header :: f.layout.filter fun b => b != l.header && l.contains b := by
  obtain ⟨edges, loops, -, rfl, -, hnatural⟩ := exists_of_compute h
  intro l hl
  obtain ⟨l', hl', hheader, hblocks, hmembers⟩ := exists_of_mem_nest hl
  obtain ⟨header, latches, hl'⟩ := hnatural l' hl'
  obtain ⟨rfl, hblocks'⟩ := eq_of_naturalLoop hl'
  have hcontains : l.contains = l'.contains := by
    funext b
    rw [Loop.contains, Loop.contains, hmembers]
  rw [hblocks, hheader, hcontains, hblocks']

/-- The loops that are found list their blocks in order. -/
theorem inOrder_of_compute (h : compute f t = .ok forest) : ∀ l ∈ forest.loops, l.InOrder f :=
  fun l hl => ⟨_, blocks_of_compute h l hl, List.filter_sublist⟩

/-! ### All functions -/

/-- A graph without edges has no loops. -/
theorem describes_nil {E : BlockId → BlockId → Prop} {r : BlockId} (hE : ∀ x y, ¬E x y) :
    (LoopForest.mk []).Describes E r where
  loop _ hl := absurd hl List.not_mem_nil
  headers := List.nodup_nil
  complete _ hh := by
    obtain ⟨l, hl⟩ := hh
    exact absurd hl.edge (hE _ _)

/-- Every well-formed function has a tree and a forest, and the forest describes its graph. -/
theorem exists_compute_eq_ok (h : f.WellFormed) :
    ∃ t loops r, DominatorTree.compute f = .ok t ∧ compute f t = .ok ⟨nest loops⟩ ∧
      (LoopForest.mk loops).Describes f.Edge r ∧ (f.layout = [] ∨ f.entry? = some r) := by
  cases hr : f.entry? with
  | none =>
      have hbody : f.layout = [] := List.head?_eq_none_iff.mp hr
      obtain ⟨t, ht⟩ := DominatorTree.exists_compute_eq_ok h
      refine ⟨t, [], ⟨0⟩, ht, ?_, describes_nil fun x y hxy => ?_, .inl hbody⟩
      · rw [compute, backEdges, hbody]
        rfl
      · exact absurd (hbody ▸ hxy.1) List.not_mem_nil
  | some r =>
      obtain ⟨t, ht, hcorrect, -⟩ := DominatorTree.compute_eq_ok h hr
      obtain ⟨loops, hloops, hd⟩ := compute_eq_ok h hr hcorrect
      exact ⟨t, loops, r, ht, hloops, hd, .inr rfl⟩

/-- A function with a loop has an entry, and its forest describes its graph. -/
theorem exists_entry_of_compute {l : Loop} (h : f.WellFormed)
    (htree : DominatorTree.compute f = .ok t) (hforest : compute f t = .ok forest)
    (hl : l ∈ forest.loops) : ∃ r, f.entry? = some r ∧ forest.Describes f.Edge r := by
  obtain ⟨t', loops, r, ht', hloops, hd, hentry⟩ := exists_compute_eq_ok h
  obtain rfl := Except.ok.inj (ht'.symm.trans htree)
  obtain rfl := Except.ok.inj (hloops.symm.trans hforest)
  have hd := describes_nest hd
  obtain ⟨latch, hlatch⟩ := (hd.loop l hl).header
  exact ⟨r, hentry.resolve_left (List.ne_nil_of_mem hlatch.edge.1), hd⟩

/-- **The loops that are found.** A valid function has a forest. It holds exactly one loop for each
block with a latch, which is a block that can be reached, leads to it and is dominated by it. The
loop of a header holds the header and the blocks that can be reached and have a path to a latch
around the header; the header dominates them all. Its list of blocks is the header and then the
others in program order, and the latches that it answers with are the latches of the header. -/
theorem compute_finds (f : Function) (hvalid : f.validate = .ok ()) :
    ∃ t forest, DominatorTree.compute f = .ok t ∧ compute f t = .ok forest ∧
      (forest.loops.map Loop.header).Nodup ∧
      (∀ h, h ∈ forest.loops.map Loop.header ↔
        ∃ r, f.entry? = some r ∧ ∃ latch, IsLatch f.Edge r h latch) ∧
      ∀ l ∈ forest.loops, ∃ r, f.entry? = some r ∧
        (∀ b, l.contains b = true ↔ b = l.header ∨ Reaches f.Edge r b ∧
          ∃ latch, IsLatch f.Edge r l.header latch ∧
            ∃ path, Walk f.Edge b latch path ∧ l.header ∉ path) ∧
        (∀ b, l.contains b = true → Dominates f.Edge r l.header b) ∧
        (∃ others, l.blocks = l.header :: others ∧ others.Sublist f.layout) ∧
        l.blocks.Nodup ∧ (∀ b, b ∈ l.blocks ↔ l.contains b = true) ∧
        ∃ latches, l.latches f = .ok latches ∧ latches.Nodup ∧
          ∀ b, b ∈ latches ↔ IsLatch f.Edge r l.header b := by
  have hf := Function.validate_eq_ok_iff.mp hvalid
  obtain ⟨t, loops, r, ht, hforest, hd, hentry⟩ := exists_compute_eq_ok hf
  have hd := describes_nest hd
  have hentryOf : ∀ h, IsHeader f.Edge r h → f.entry? = some r := by
    rintro h ⟨latch, hlatch⟩
    exact hentry.resolve_left (List.ne_nil_of_mem hlatch.edge.1)
  refine ⟨t, ⟨nest loops⟩, ht, hforest, hd.headers, fun h => ⟨fun hmem => ?_, ?_⟩, fun l hl => ?_⟩
  · obtain ⟨l, hl, rfl⟩ := List.mem_map.mp hmem
    have hheader := (hd.loop l hl).header
    exact ⟨r, hentryOf _ hheader, hheader⟩
  · rintro ⟨r', hr', hheader⟩
    have hbody : f.layout ≠ [] := List.ne_nil_of_mem (List.mem_of_head? hr')
    obtain rfl : r' = r := Option.some.inj (hr'.symm.trans (hentry.resolve_left hbody))
    exact List.mem_map.mpr (hd.complete h hheader)
  · have hdl := hd.loop l hl
    refine ⟨r, hentryOf _ hdl.header, fun b => hdl.contains_iff.trans hdl.header.inLoop_iff,
      fun b hb => (hdl.contains_iff.mp hb).dominates, inOrder_of_compute hforest l hl, hdl.nodup,
      fun b => (hdl.mem_blocks b).trans hdl.contains_iff.symm, l.latchList f,
      Loop.Describes.latches_eq l hf, (hf.nodup.filter _).filter _, fun b => hdl.mem_latchList⟩

/-- The loops of `tangled`. -/
def tangledLoops : LoopForest where
  loops := [
    { header := ⟨0⟩, blocks := [⟨0⟩, ⟨1⟩, ⟨2⟩], members := [⟨2⟩, ⟨1⟩, ⟨0⟩], children := [1] },
    { header := ⟨2⟩, blocks := [⟨2⟩], members := [⟨2⟩], parent := some 0, depth := 2 }]

/-- The two blocks that lead to each other are entered both ways, so their cycle is no loop of its
own. The loop back to the entry holds them both; the block that nothing leads to is in no loop,
though it leads into one. -/
theorem compute_finds_tangled :
    tangled.validate = .ok () ∧ compute tangled tangledTree = .ok tangledLoops ∧
    IsHeader tangled.Edge ⟨0⟩ ⟨0⟩ ∧ IsHeader tangled.Edge ⟨0⟩ ⟨2⟩ ∧
    ¬IsHeader tangled.Edge ⟨0⟩ ⟨1⟩ ∧
    ∀ l ∈ tangledLoops.loops, ∀ b ∈ l.blocks, Dominates tangled.Edge ⟨0⟩ l.header b := by
  have hvalid : tangled.validate = .ok () := by decide +kernel
  have htree : DominatorTree.compute tangled = .ok tangledTree := by decide +kernel
  have hloops : compute tangled tangledTree = .ok tangledLoops := by decide +kernel
  obtain ⟨t, forest, ht, hforest, -, hheaders, hall⟩ := compute_finds tangled hvalid
  obtain rfl := Except.ok.inj (htree.symm.trans ht)
  obtain rfl := Except.ok.inj (hloops.symm.trans hforest)
  have hiff : ∀ h, IsHeader tangled.Edge ⟨0⟩ h ↔ h ∈ tangledLoops.loops.map Loop.header := by
    intro h
    rw [hheaders]
    constructor
    · intro hh
      exact ⟨_, rfl, hh⟩
    · rintro ⟨r, hr, hh⟩
      obtain rfl : ⟨0⟩ = r := Option.some.inj hr
      exact hh
  refine ⟨hvalid, hloops, (hiff _).mpr (by decide), (hiff _).mpr (by decide),
    fun hh => absurd ((hiff _).mp hh) (by decide), fun l hl b hb => ?_⟩
  obtain ⟨r, hr, -, hdom, -, -, hblocks, -⟩ := hall l hl
  obtain rfl : ⟨0⟩ = r := Option.some.inj hr
  exact hdom b ((hblocks b).mp hb)

end LoopForest

end Lockstep
