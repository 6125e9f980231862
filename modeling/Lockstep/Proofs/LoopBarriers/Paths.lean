import Lockstep.Proofs.LoopBarriers.Guarantees

/-!
# Paths through a guarded loop

The barriers that the visit of a loop puts into blocks are meant for the paths through those blocks:
no work-item enters a loop, starts another iteration or leaves the loop without a barrier. Whether
that is so depends on the loop. The only block from which a loop is entered is its preheader, unless
the loop starts at the entry; all iterations end in the latch and all ways out lead from the exiting
block if there is only one of them.

## Main results

* `Loop.Guarded.pathsGuarded`: the barriers in the blocks of a loop as barriers on paths.
* `LoopBarriers.processLoop_guards_paths`: what the visit of a loop with a barrier achieves.
-/

namespace Lockstep

/-! ### Instructions along a path -/

/-- The instructions of the blocks of a path, one block after the other. -/
def Function.trace (f : Function) (path : List BlockId) : List Instruction :=
  path.flatMap fun b => (f.blockAt b).instructions

/-- A barrier comes last but for a terminator. -/
def EndInBarrier (instructions : List Instruction) : Prop :=
  ∃ init t, instructions = init ++ [.barrier, t] ∧ t.isTerminator = true

/-- A path to a block that ends with a barrier does. -/
theorem Function.endInBarrier_trace {f : Function} {a b : BlockId} {path : List BlockId}
    (hw : Walk f.Edge a b path) (hends : (f.blockAt b).endsWithBarrier = true) :
    EndInBarrier (f.trace path) := by
  obtain ⟨before, rfl⟩ := hw.exists_eq_append
  rw [trace, List.flatMap_append, List.flatMap_singleton]
  obtain ⟨init, t, hb, ht⟩ := Block.exists_append_of_endsWithBarrier hends
  exact ⟨_, t, by rw [hb, List.append_assoc], ht⟩

namespace Loop

/-- Barriers on the paths into a loop, around it and out of it. -/
structure PathsGuarded (l : Loop) (f : Function) (r : BlockId) : Prop where
  /-- Before a path from the entry first reaches the header, the last instruction but for a
  terminator is a barrier. -/
  entering : l.header ≠ r → ∀ x path, l.contains x = true → Walk f.Edge r x path →
    ∃ before after, path = before ++ l.header :: after ∧ l.header ∉ before ∧
      EndInBarrier (f.trace before)
  /-- So it is before the header is reached again, if there is only one latch. -/
  around : ∀ latch, l.latch? f = .ok (some latch) → ∀ path, path ≠ [] →
    Walk f.Edge l.header l.header (path ++ [l.header]) → EndInBarrier (f.trace path)
  /-- The block of the loop from which a path first leaves it ends with a barrier, if there is only
  one exiting block. -/
  leaving : ∀ exiting, l.exitingBlock? f = .ok (some exiting) → ∀ x y path,
    l.contains x = true → l.contains y = false → Walk f.Edge x y path →
    ∃ before u v after, path = before ++ u :: v :: after ∧
      (∀ z ∈ before ++ [u], l.contains z = true) ∧ l.contains v = false ∧
      EndInBarrier (f.blockAt u).instructions

/-- **From blocks to paths.** From outside the loop the header is reached again by the preheader
only. -/
theorem Guarded.pathsGuarded {l : Loop} {f : Function} {r p : BlockId} (hguarded : l.Guarded f)
    (hl : l.Describes f.Edge r) (hf : f.WellFormed) (hr : f.entry? = some r)
    (hpre : l.preheader? f = .ok (some p)) : l.PathsGuarded f r := by
  have hp := (hl.preheader?_eq_some hf).mp hpre
  have hends := hguarded.preheader p hpre
  refine ⟨?_, ?_, ?_⟩
  · intro hne x path hx hw
    have hmem : l.header ∈ path := (hl.contains_iff.mp hx).dominates path hw
    obtain ⟨before, after, rfl, hnot, hbefore⟩ := hp.arrives hne hw hmem
    exact ⟨before, after, rfl, hnot, Function.endInBarrier_trace hbefore hends⟩
  · intro latch hlatch path hne hw
    have hsole := (hl.latch?_eq_some hf).mp hlatch
    obtain ⟨c, hc, hedge⟩ : ∃ c, Walk f.Edge l.header c path ∧ f.Edge c l.header := by
      rcases hw.last_edge with ⟨-, hnil⟩ | ⟨c, before, hbefore, hedge, heq⟩
      · exact absurd (List.append_left_eq_self.mp hnil) hne
      · exact ⟨c, List.append_cancel_right heq ▸ hbefore, hedge⟩
    by_cases hin : InLoop f.Edge r l.header c
    · obtain rfl := hsole.2 c (hin.isLatch hedge)
      exact Function.endInBarrier_trace hc (hguarded.latch c hlatch)
    · obtain rfl := hp.only c hedge hin
      exact Function.endInBarrier_trace hc hends
  · intro exiting hexiting x y path hx hy hw
    have hsole := (hl.exitingBlock?_eq_some hf hr).mp hexiting
    obtain ⟨u, v, inside, after, hinside, hedge, hv, hall, rfl⟩ :=
      hw.toFirst (P := (l.contains · = false)) (by simp [hx]) ⟨y, hw.finish_mem, hy⟩
    have hu : l.contains u = true := by simpa using hall u hinside.finish_mem
    have hexit : IsExiting f r l.header u :=
      ⟨hl.contains_iff.mp hu, v, hedge.2, fun hin => by
        rw [hl.contains_iff.mpr hin] at hv
        cases hv⟩
    obtain rfl := hsole.2 u hexit
    obtain ⟨before, rfl⟩ := hinside.exists_eq_append
    refine ⟨before, u, v, after, by simp, fun z hz => by simpa using hall z hz, hv, ?_⟩
    exact Block.exists_append_of_endsWithBarrier (hguarded.exiting u hexiting)

end Loop

namespace LoopBarriers

/-- **What the visit of a loop with a barrier achieves.** For a valid function with its tree and
forest, the visit of a loop that has a preheader and holds a barrier succeeds. Afterwards the
preheader ends with a barrier, one stands right behind the phis of the header, if it starts with
phis, and the only exiting block and the only latch end with one. Of several latches those do that
the first block with a barrier dominates. Hence no path enters the loop without a barrier right
before, unless the loop starts at the entry; no path goes around the loop without one, if it has
only one latch; and no path leaves the loop without one, if it has only one exiting block. -/
theorem processLoop_guards_paths (detail : Detail) (f : Function) (hvalid : f.validate = .ok ())
    (t : DominatorTree) (htree : DominatorTree.compute f = .ok t) (forest : LoopForest)
    (hforest : LoopForest.compute f t = .ok forest) (i : Nat) (l : Loop)
    (hl : forest.get? i = some l) (p : BlockId) (hpre : l.preheader? f = .ok (some p))
    (x : BlockId) (hx : l.contains x = true) (hb : .barrier ∈ (f.blockAt x).instructions) :
    ∃ changed f' r, (processLoop i).Ends detail ⟨f, forest, t⟩ (.ok changed) ⟨f', forest, t⟩ ∧
      f'.entry? = some r ∧ l.preheader? f' = .ok (some p) ∧ l.Guarded f' ∧
      (∀ pre b post, l.blocks = pre ++ b :: post → .barrier ∈ (f.blockAt b).instructions →
        (∀ y ∈ pre, .barrier ∉ (f.blockAt y).instructions) →
        ∀ latches, l.latches f' = .ok latches → ∀ y ∈ latches, Dominates f'.Edge r b y →
          (f'.blockAt y).endsWithBarrier = true) ∧
      l.PathsGuarded f' r := by
  have hf := Function.validate_eq_ok_iff.mp hvalid
  have hmem : l ∈ forest.loops := List.mem_of_getElem? hl
  obtain ⟨r, hw⟩ := exists_sound_of_compute hf htree hforest hmem
  have hd := hw.forest.loop l hmem
  have hholds : HoldsBarrier f r l.header := ⟨x, hd.contains_iff.mp hx, hb⟩
  have hp := (hd.soleEntry_eq_some hf).mpr ((hd.preheader?_eq_some hf).mp hpre)
  obtain ⟨b, hfirst⟩ : ∃ b, firstBarrier? f l.blocks = some b :=
    Option.ne_none_iff_exists'.mp fun hnone => (firstBarrier?_eq_none_iff hd).mp hnone hholds
  obtain ⟨changed, hends⟩ := processLoop_ends hw hl hp detail
  have hvisited : visited ⟨f, forest, t⟩ l p =
      ⟨f.guardAll (places f l (dominated t b) p), forest, t⟩ := by
    rw [visited, hfirst]
  obtain ⟨hready, hstep⟩ := step_visited hw hmem hp (by
    rw [hvisited, Function.capacity_guardAll]
    exact hf.fits)
  rw [hvisited] at hends hstep
  have hplaces := hready.places_mem (d := dominated t b) hd
  have hnext := hf.next_guardAll hplaces
  have hedge := hf.edge_guardAll hplaces
  have hf' := hstep.wellFormed hready
  have hr' := hstep.entry hready
  have hd' : l.Describes (f.guardAll (places f l (dominated t b) p)).Edge r := hedge.symm ▸ hd
  have hpre' := (hd'.preheader?_eq_some hf').mpr
    (isPreheader_congr hnext.symm hedge.symm hready.preheader)
  have hguarded := hd'.guarded hf' hr' (hstep.guarded hready hholds)
  refine ⟨changed, _, r, hends, hr', hpre', hguarded, ?_, hguarded.pathsGuarded hd' hf' hr' hpre'⟩
  intro pre b' post hblocks hb' hbefore latches hlatches y hy hdom
  obtain rfl : b' = b := Option.some.inj
    ((firstBarrier?_eq_some_iff.mpr ⟨hb', pre, post, hblocks, hbefore⟩).symm.trans hfirst)
  rw [Loop.Describes.latches_eq l hf'] at hlatches
  obtain rfl := Except.ok.inj hlatches
  rw [hd'.mem_latchList, hedge] at hy
  obtain ⟨mark, hguard⟩ := exists_mem_places_of_isLatch hf hd (p := p) hy
    (hw.dominated_iff.mpr (hedge ▸ hdom))
  exact hready.endsWithBarrier_of_mem_places hd hguard

/-- A loop whose header holds nothing but a phi and the branch that leaves the loop. The barrier
stands at the start of the latch. -/
def counting : Function where
  name := "counting"
  returnType := .void
  parameters := [⟨"more", .i1⟩]
  blocks := [
    ⟨⟨0⟩, "entry", [.branch ⟨1⟩]⟩,
    ⟨⟨1⟩, "loop", [.phi 0 [(.constant 0, ⟨0⟩), (.temp 1, ⟨2⟩)] .i32,
      .branchCond (.param 0) ⟨2⟩ ⟨3⟩]⟩,
    ⟨⟨2⟩, "body", [.barrier, .binary 1 .add (.temp 0) (.constant 1) .i32, .branch ⟨1⟩]⟩,
    ⟨⟨3⟩, "exit", [.ret none]⟩]
  layout := [⟨0⟩, ⟨1⟩, ⟨2⟩, ⟨3⟩]

/-- The dominator tree of `counting`. -/
def countingTree : DominatorTree where
  entry := some ⟨0⟩
  parents := [some ⟨0⟩, some ⟨0⟩, some ⟨1⟩, some ⟨1⟩]

/-- The loop of `counting`. -/
def countingLoop : Loop where
  header := ⟨1⟩
  blocks := [⟨1⟩, ⟨2⟩]
  members := [⟨2⟩, ⟨1⟩]

/-- The barrier behind the phi is also the one before the branch out of the loop. -/
theorem processLoop_guards_paths_counting :
    counting.validate = .ok () ∧ DominatorTree.compute counting = .ok countingTree ∧
    LoopForest.compute counting countingTree = .ok ⟨[countingLoop]⟩ ∧
    ∃ f', (processLoop 0).Ends none ⟨counting, ⟨[countingLoop]⟩, countingTree⟩ (.ok true)
        ⟨f', ⟨[countingLoop]⟩, countingTree⟩ ∧
      (f'.blockAt ⟨1⟩).instructions = [.phi 0 [(.constant 0, ⟨0⟩), (.temp 1, ⟨2⟩)] .i32, .barrier,
        .branchCond (.param 0) ⟨2⟩ ⟨3⟩] ∧
      countingLoop.Guarded f' ∧ countingLoop.PathsGuarded f' ⟨0⟩ := by
  have hvalid : counting.validate = .ok () := by decide +kernel
  have htree : DominatorTree.compute counting = .ok countingTree := by decide +kernel
  have hforest : LoopForest.compute counting countingTree = .ok ⟨[countingLoop]⟩ := by
    decide +kernel
  obtain ⟨changed, f', r, hends, hr, -, hguarded, -, hpaths⟩ :=
    processLoop_guards_paths none counting hvalid countingTree htree ⟨[countingLoop]⟩ hforest 0
      countingLoop rfl ⟨0⟩ (by decide +kernel) ⟨2⟩ (by decide) (by decide)
  obtain rfl : changed = true := Except.ok.inj (hends.1.symm.trans (by decide +kernel))
  obtain rfl := congrArg Work.function hends.2
  obtain rfl : r = ⟨0⟩ := Option.some.inj (hr.symm.trans (by decide +kernel))
  exact ⟨hvalid, htree, hforest, _, hends, by decide +kernel, hguarded, hpaths⟩

end LoopBarriers

end Lockstep
