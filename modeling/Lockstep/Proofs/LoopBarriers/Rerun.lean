import Lockstep.Proofs.LoopBarriers.Changes

/-!
# Visiting a loop again

A visit changes nothing exactly when the loop is finished, so what a second visit of the same loop
does is a question about the function that the first one leaves. There the loop is settled. What may
be left to do is at the latches. Of several latches, a visit guards those that the first block with
a barrier dominates. But it puts barriers into blocks itself, behind the phis of the header, into
the exiting block and into latches, so next time another block may come first. If that block
dominates a latch that the old one did not, the second visit guards the latch that the first one
passed over. A third visit finds nothing to do, because what the second one guards is dominated by
the block that came first then.

## Main results

* `LoopBarriers.visited_eq_self_iff`: the visits that change nothing.
* `LoopBarriers.finished_visited_iff`: when a loop that was visited is finished.
* `LoopBarriers.processLoop_rerun_iff`: what the second visit does.
* `LoopBarriers.processLoop_settles`: two visits are enough.
-/

namespace Lockstep

/-! ### Latches that are passed over -/

/-- The first of some blocks with a property. -/
def IsFirst (P : BlockId → Prop) (blocks : List BlockId) (b : BlockId) : Prop :=
  P b ∧ ∃ pre post, blocks = pre ++ b :: post ∧ ∀ y ∈ pre, ¬P y

/-- Properties that agree on the blocks have the same first block. -/
theorem IsFirst.congr {P Q : BlockId → Prop} {blocks : List BlockId} {b : BlockId}
    (hPQ : ∀ y ∈ blocks, (P y ↔ Q y)) (h : IsFirst P blocks b) : IsFirst Q blocks b := by
  obtain ⟨hb, pre, post, rfl, hpre⟩ := h
  refine ⟨(hPQ b (by simp)).mp hb, pre, post, rfl, fun y hy hQ => ?_⟩
  exact hpre y hy ((hPQ y (List.mem_append_left _ hy)).mpr hQ)

/-- The first block with a property is one of the blocks. -/
theorem IsFirst.mem {P : BlockId → Prop} {blocks : List BlockId} {b : BlockId}
    (h : IsFirst P blocks b) : b ∈ blocks := by
  obtain ⟨-, pre, post, rfl, -⟩ := h
  exact List.mem_append_right _ List.mem_cons_self

/-- The first block with a property is the first with a stronger one that it has. -/
theorem IsFirst.of_imp {P Q : BlockId → Prop} {blocks : List BlockId} {b : BlockId}
    (h : IsFirst Q blocks b) (hb : P b) (hPQ : ∀ y, P y → Q y) : IsFirst P blocks b := by
  obtain ⟨-, pre, post, hblocks, hpre⟩ := h
  exact ⟨hb, pre, post, hblocks, fun y hy hP => hpre y hy (hPQ y hP)⟩

namespace Loop

/-- The block holds a barrier when the loop has been visited, `b` being the first that held one
before: it held one too, or it is the header and starts with phis, or the only exiting block, or the
only latch, or a latch that `b` dominates. -/
def Barred (l : Loop) (f : Function) (r b y : BlockId) : Prop :=
  .barrier ∈ (f.blockAt y).instructions ∨ y = l.header ∧ (f.blockAt y).firstNonPhi ≠ 0 ∨
    IsSoleExiting f r l.header y ∨ IsSoleLatch f r l.header y ∨
    IsLatch f.Edge r l.header y ∧ Dominates f.Edge r b y

/-- A visit passes over the latch `x`, and the block that comes first afterwards dominates it. -/
structure Overlooked (l : Loop) (f : Function) (r x : BlockId) : Prop where
  latch : IsLatch f.Edge r l.header x
  moved : ∃ b c, IsFirst (fun y => .barrier ∈ (f.blockAt y).instructions) l.blocks b ∧
    IsFirst (l.Barred f r b) l.blocks c ∧ ¬Dominates f.Edge r b x ∧ Dominates f.Edge r c x
  bare : (f.blockAt x).endsWithBarrier = false
  not_sole : ¬IsSoleLatch f r l.header x
  not_exiting : ¬IsSoleExiting f r l.header x
  not_phisOnly : ¬(x = l.header ∧ (f.blockAt x).PhisOnly)

end Loop

namespace LoopBarriers

variable {w : Work DominatorTree} {l l' : Loop} {r p b x : BlockId} {i : Nat}

/-! ### Visits that change nothing -/

/-- **The visits that change nothing** are those of finished loops. -/
theorem visited_eq_self_iff (hw : Sound w r) (hl : l ∈ w.loops.loops)
    (hp : l.soleEntry w.function = some p) : visited w l p = w ↔ l.Finished w.function := by
  refine ⟨finished_of_visited_eq hw hl hp, fun hfinished => ?_⟩
  have hf := hw.wellFormed
  have hd := hw.forest.loop l hl
  have hpre := (hd.soleEntry_eq_some hf).mp hp
  have hholds := hd.holdsBarrier_iff (SameLoops.refl w.function r) hf hw.entry
  rw [visited]
  cases hb : firstBarrier? w.function l.blocks with
  | none =>
      have hends := hfinished.settled.2 (mt hholds.mp ((firstBarrier?_eq_none_iff hd).mp hb)) p
        ((hd.preheader?_eq_some hf).mpr hpre)
      simp [hends]
  | some b =>
      have hguarded := hfinished.settled.1 (hholds.mpr
        ⟨b, (hd.mem_blocks b).mp (List.mem_of_find?_eq_some hb),
          (firstBarrier?_eq_some_iff.mp hb).1⟩)
      have hsame : w.function.guardAll (places w.function l (dominated w.dominance b) p) =
          w.function := by
        refine hf.guardAll_eq_self (mem_layout_of_mem_places hf hw.entry hd hpre.edge.1 _) ?_
        rintro ⟨x, place⟩ hmem
        cases place with
        | behindPhis =>
            obtain rfl := behindPhis_mem_places_iff.mp hmem
            exact if_pos hguarded.phis
        | atEnd mark =>
            refine if_pos ?_
            rcases (exists_mem_places_iff hf hd).mp ⟨mark, hmem⟩ with
              rfl | hexit | hsole | ⟨hlatch, hdom⟩
            · exact hguarded.preheader x ((hd.preheader?_eq_some hf).mpr hpre)
            · exact hguarded.exiting x ((hd.exitingBlock?_eq_some hf hw.entry).mpr hexit)
            · exact hguarded.latch x ((hd.latch?_eq_some hf).mpr hsole)
            · exact hfinished.latches r b _ hw.entry hb (Loop.Describes.latches_eq l hf) x
                (hd.mem_latchList.mpr hlatch) (hw.dominated_iff.mp hdom)
      simp only [hsame]

/-! ### What a visit leaves -/

/-- The function with a loop guarded, `b` being the block with the barrier. -/
def surrounded (w : Work DominatorTree) (l : Loop) (p b : BlockId) : Function :=
  w.function.guardAll (places w.function l (dominated w.dominance b) p)

section Surrounded

variable (hw : Sound w r) (hready : Ready w.function r l.header p)
  (hl : l.Describes w.function.Edge r)
include hw hready hl

/-- The latches that end with a barrier afterwards. -/
theorem endsWithBarrier_surrounded_iff (hx : IsLatch w.function.Edge r l.header x) :
    ((surrounded w l p b).blockAt x).endsWithBarrier = true ↔
      (w.function.blockAt x).endsWithBarrier = true ∨ IsSoleExiting w.function r l.header x ∨
        IsSoleLatch w.function r l.header x ∨ Dominates w.function.Edge r b x ∨
        x = l.header ∧ (w.function.blockAt x).PhisOnly := by
  have hne : x ≠ p := fun heq => hready.preheader.not_isLatch (heq ▸ hx)
  rw [surrounded, hw.wellFormed.blockAt_guardAll (hready.places_mem hl),
    Block.endsWithBarrier_guardAll_iff (hw.wellFormed.terminated x hx.edge.1)]
  simp only [mem_map_snd_filter, behindPhis_mem_places_iff, exists_mem_places_iff hw.wellFormed hl,
    hw.dominated_iff, hne, hx, false_or, true_and, or_assoc]

/-- The blocks of the loop that hold a barrier afterwards. -/
theorem barrier_mem_surrounded_iff (hx : InLoop w.function.Edge r l.header x) :
    .barrier ∈ ((surrounded w l p b).blockAt x).instructions ↔ l.Barred w.function r b x := by
  have hne : x ≠ p := fun heq => hready.preheader.outside (heq ▸ hx)
  rw [surrounded, hw.wellFormed.blockAt_guardAll (hready.places_mem hl),
    Block.barrier_mem_guardAll_iff (hw.wellFormed.terminated x (hready.mem_of_inLoop hx))]
  simp only [mem_map_snd_filter, behindPhis_mem_places_iff, exists_mem_places_iff hw.wellFormed hl,
    hw.dominated_iff, hne, false_or, Loop.Barred]
  tauto

/-- The block that comes first afterwards. -/
theorem firstBarrier?_surrounded_iff {c : BlockId} :
    firstBarrier? (surrounded w l p b) l.blocks = some c ↔
      IsFirst (l.Barred w.function r b) l.blocks c := by
  have hmem : ∀ y ∈ l.blocks, (.barrier ∈ ((surrounded w l p b).blockAt y).instructions ↔
      l.Barred w.function r b y) := fun y hy =>
    barrier_mem_surrounded_iff hw hready hl ((hl.mem_blocks y).mp hy)
  rw [firstBarrier?_eq_some_iff]
  exact ⟨IsFirst.congr hmem, IsFirst.congr fun y hy => (hmem y hy).symm⟩

end Surrounded

section Visited

variable (hw : Sound w r) (hi : w.loops.get? i = some l) (hp : l.soleEntry w.function = some p)
  (hfits : (visited w l p).function.capacity ≤ 2 ^ 32)
  (hi' : (visited w l p).loops.get? i = some l')

include hi hi' in
/-- The loop keeps its header when it has been visited. -/
theorem header_visited : l'.header = l.header := by
  obtain ⟨k, hk, hheader⟩ := exists_getElem?_visited l p hi
  obtain rfl := Option.some.inj (hk.symm.trans hi')
  exact hheader

include hw hi hp hfits hi'

/-- A visit gives no barrier to a loop that has none. -/
theorem holdsBarrier_visited_iff :
    l'.HoldsBarrier (visited w l p).function ↔ HoldsBarrier w.function r l.header := by
  have hl := List.mem_of_getElem? hi
  have hw' := hw.visited hl hp hfits
  have hd' := hw'.forest.loop l' (List.mem_of_getElem? hi')
  obtain ⟨hready, hstep⟩ := step_visited hw hl hp hfits
  rw [hd'.holdsBarrier_iff (SameLoops.refl _ r) hw'.wellFormed hw'.entry, header_visited hi hi',
    hstep.holdsBarrier_self_iff hready]

/-- A loop that was visited has a preheader and is settled. -/
theorem settled_visited : (∃ q, l'.preheader? (visited w l p).function = .ok (some q)) ∧
    l'.Settled (visited w l p).function := by
  have hl := List.mem_of_getElem? hi
  have hw' := hw.visited hl hp hfits
  have hf' := hw'.wellFormed
  have hd' := hw'.forest.loop l' (List.mem_of_getElem? hi')
  obtain ⟨hready, hstep⟩ := step_visited hw hl hp hfits
  have hheader := header_visited hi hi'
  have hholds := holdsBarrier_visited_iff hw hi hp hfits hi'
  refine ⟨?_, fun hheld => ?_, fun hnot q hq => ?_⟩
  · obtain ⟨q, hq⟩ := (enterable_visited_iff hw hl hp hfits hready.header).mpr
      ⟨p, hready.preheader⟩
    exact ⟨q, (hd'.preheader?_eq_some hf').mpr (hheader ▸ hq)⟩
  · exact hd'.guarded hf' hw'.entry (hheader ▸ hstep.guarded hready (hholds.mp hheld))
  · exact (hstep.unguarded hready (mt hholds.mpr hnot)
      (hheader ▸ (hd'.preheader?_eq_some hf').mp hq)).1

/-- A loop without a barrier is finished after a visit. -/
theorem finished_visited_of_not (hnot : ¬HoldsBarrier w.function r l.header) :
    l'.Finished (visited w l p).function := by
  have hw' := hw.visited (List.mem_of_getElem? hi) hp hfits
  have hd' := hw'.forest.loop l' (List.mem_of_getElem? hi')
  obtain ⟨hpre', hsettled⟩ := settled_visited hw hi hp hfits hi'
  refine ⟨hpre', hsettled, ?_⟩
  intro r' c latches _ hc
  refine absurd ((holdsBarrier_visited_iff hw hi hp hfits hi').mp ?_) hnot
  have hmem := List.mem_of_find?_eq_some hc
  exact ⟨c, hmem, hd'.mem_layout hw'.wellFormed hw'.entry hmem, (firstBarrier?_eq_some_iff.mp hc).1⟩

/-- **When a loop that was visited is finished**: unless the visit passes over a latch that the
block dominates which comes first afterwards. -/
theorem finished_visited_iff :
    l'.Finished (visited w l p).function ↔ ¬∃ x, l.Overlooked w.function r x := by
  have hl := List.mem_of_getElem? hi
  have hd := hw.forest.loop l hl
  cases hb : firstBarrier? w.function l.blocks with
  | none =>
      have hnot := (firstBarrier?_eq_none_iff hd).mp hb
      refine iff_of_true (finished_visited_of_not hw hi hp hfits hi' hnot) ?_
      rintro ⟨x, hx⟩
      obtain ⟨b, c, hfirst, -⟩ := hx.moved
      rw [firstBarrier?_eq_some_iff.mpr hfirst] at hb
      cases hb
  | some b =>
      obtain ⟨hready, -⟩ := step_visited hw hl hp hfits
      have hw' := hw.visited hl hp hfits
      obtain ⟨hpre', hsettled⟩ := settled_visited hw hi hp hfits hi'
      have hvisited : visited w l p = { w with function := surrounded w l p b } := by
        rw [visited, hb]
        rfl
      rw [hvisited] at hi' hw' hpre' hsettled ⊢
      obtain rfl : l = l' := Option.some.inj (hi.symm.trans hi')
      have hedge : (surrounded w l p b).Edge = w.function.Edge :=
        hw.wellFormed.edge_guardAll (hready.places_mem hd)
      have hlatches := Loop.Describes.latches_eq l hw'.wellFormed
      have hmem : ∀ x, x ∈ l.latchList (surrounded w l p b) ↔
          IsLatch w.function.Edge r l.header x := fun x => by
        rw [(hw'.forest.loop l hl).mem_latchList]
        exact hedge ▸ Iff.rfl
      constructor
      · rintro hfinished ⟨x, hx⟩
        obtain ⟨b', c, hb', hc, hnot, hdom⟩ := hx.moved
        obtain rfl := Option.some.inj ((firstBarrier?_eq_some_iff.mpr hb').symm.trans hb)
        have hends := hfinished.latches r c _ hw'.entry
          ((firstBarrier?_surrounded_iff hw hready hd).mpr hc) hlatches x ((hmem x).mpr hx.latch)
          (hedge ▸ hdom)
        rcases (endsWithBarrier_surrounded_iff hw hready hd hx.latch).mp hends with
          h | h | h | h | h
        · exact absurd h (Bool.eq_false_iff.mp hx.bare)
        · exact hx.not_exiting h
        · exact hx.not_sole h
        · exact hnot h
        · exact hx.not_phisOnly h
      · intro hnone
        refine ⟨hpre', hsettled, ?_⟩
        intro r' c latches hr' hc hlatches' x hx hdom
        obtain rfl := Option.some.inj (hw'.entry.symm.trans hr')
        obtain rfl := Except.ok.inj (hlatches.symm.trans hlatches')
        have hlatch := (hmem x).mp hx
        by_contra hbare
        rw [endsWithBarrier_surrounded_iff hw hready hd hlatch] at hbare
        push Not at hbare
        obtain ⟨hbare, hexit, hsole, hnot, honly⟩ := hbare
        exact hnone ⟨x, hlatch, ⟨b, c, firstBarrier?_eq_some_iff.mp hb,
          (firstBarrier?_surrounded_iff hw hready hd).mp hc, hnot, hedge ▸ hdom⟩,
          Bool.eq_false_iff.mpr hbare, hsole, hexit, fun h => honly h.1 h.2⟩

end Visited

/-- **The second visit.** Let the visit of a loop of a valid function succeed, and visit the loop
again in what it leaves. The second visit succeeds too, and what it says is true. It changes
something exactly when the first one passed over a latch and the block dominates the latch that now
comes first among those with a barrier. Identifiers of blocks have 32 bits, so a visit that splits
the last block they have room for is left out. -/
theorem processLoop_rerun_iff (detail : Detail) (f : Function) (hvalid : f.validate = .ok ())
    (t : DominatorTree) (htree : DominatorTree.compute f = .ok t) (forest : LoopForest)
    (hforest : LoopForest.compute f t = .ok forest) (i : Nat) (changed : Bool)
    (w' : Work DominatorTree)
    (hrun : (processLoop i).Ends detail ⟨f, forest, t⟩ (.ok changed) w')
    (hfits : w'.function.capacity ≤ 2 ^ 32) :
    ∃ l r again w'', forest.get? i = some l ∧ f.entry? = some r ∧
      (processLoop i).Ends detail w' (.ok again) w'' ∧ (again = false → w'' = w') ∧
      (again = true → w''.function ≠ w'.function) ∧
      (again = true ↔ ∃ x, l.Overlooked f r x) := by
  have hf := Function.validate_eq_ok_iff.mp hvalid
  cases hi : forest.get? i with
  | none => cases (hrun.unique (processLoop_ends_of_unknown hi detail)).1
  | some l =>
      have hl : l ∈ forest.loops := List.mem_of_getElem? hi
      obtain ⟨r, hw⟩ := exists_sound_of_compute hf htree hforest hl
      cases hp : l.soleEntry f with
      | none => cases (hrun.unique (processLoop_ends_of_none hw hi hp detail)).1
      | some p =>
          obtain ⟨_, hends⟩ := processLoop_ends hw hi hp detail
          obtain ⟨-, rfl⟩ := hrun.unique hends
          have hw' := hw.visited hl hp hfits
          obtain ⟨l', hi', -⟩ := exists_getElem?_visited (w := ⟨f, forest, t⟩) l p hi
          obtain ⟨⟨q, hq⟩, -⟩ := settled_visited hw hi hp hfits hi'
          rw [Loop.Describes.preheader?_eq l' hw'.wellFormed] at hq
          have hq := Except.ok.inj hq
          obtain ⟨again, hagain⟩ := processLoop_ends hw' hi' hq detail
          refine ⟨l, r, again, _, rfl, hw.entry, hagain, ?_, ?_, ?_⟩
          · rintro rfl
            exact ((processLoop_reports i _).eq_of_false hagain).2
          · rintro rfl heq
            have hlt := (processLoop_reports i _).lt_of_true hagain
            rw [Work.weight, Work.weight, heq] at hlt
            exact lt_irrefl _ hlt
          · rw [(processLoop_reports i _).iff_ne hagain, Ne,
              visited_eq_self_iff hw' (List.mem_of_getElem? hi') hq,
              finished_visited_iff hw hi hp hfits hi', not_not]

/-- A loop with a phi and two latches, of which only the first holds a barrier. -/
def uneven : Function where
  name := "uneven"
  returnType := .void
  parameters := [⟨"more", .i1⟩]
  blocks := [
    ⟨⟨0⟩, "entry", [.branch ⟨1⟩]⟩,
    ⟨⟨1⟩, "loop", [.phi 0 [(.constant 0, ⟨0⟩), (.constant 1, ⟨2⟩), (.constant 2, ⟨3⟩)] .i32,
      .branchCond (.param 0) ⟨2⟩ ⟨3⟩]⟩,
    ⟨⟨2⟩, "left", [.barrier, .branchCond (.param 0) ⟨1⟩ ⟨4⟩]⟩,
    ⟨⟨3⟩, "right", [.branchCond (.param 0) ⟨1⟩ ⟨4⟩]⟩,
    ⟨⟨4⟩, "exit", [.ret none]⟩]
  layout := [⟨0⟩, ⟨1⟩, ⟨2⟩, ⟨3⟩, ⟨4⟩]

/-- The dominator tree of `uneven`. -/
def unevenTree : DominatorTree where
  entry := some ⟨0⟩
  parents := [some ⟨0⟩, some ⟨0⟩, some ⟨1⟩, some ⟨1⟩, some ⟨1⟩]

/-- The loop of `uneven`. -/
def unevenLoop : Loop where
  header := ⟨1⟩
  blocks := [⟨1⟩, ⟨2⟩, ⟨3⟩]
  members := [⟨3⟩, ⟨2⟩, ⟨1⟩]

/-- What is known of `uneven` when its loop has been visited a number of times. -/
def unevenVisited : Nat → Work DominatorTree
  | 0 => ⟨uneven, ⟨[unevenLoop]⟩, unevenTree⟩
  | n + 1 => ((processLoop 0).run none (unevenVisited n)).state

/-- A second visit is not idle. The first one puts a barrier behind the phi of the header, which
dominates the other latch; the second one guards that latch. -/
theorem processLoop_uneven_not_idle :
    uneven.validate = .ok () ∧ DominatorTree.compute uneven = .ok unevenTree ∧
    LoopForest.compute uneven unevenTree = .ok ⟨[unevenLoop]⟩ ∧
    (processLoop 0).Ends none (unevenVisited 0) (.ok true) (unevenVisited 1) ∧
    (processLoop 0).Ends none (unevenVisited 1) (.ok true) (unevenVisited 2) ∧
    ((unevenVisited 1).function.blockAt ⟨3⟩).instructions =
      [.branchCond (.param 0) ⟨1⟩ ⟨4⟩] ∧
    ((unevenVisited 2).function.blockAt ⟨3⟩).instructions =
      [.barrier, .branchCond (.param 0) ⟨1⟩ ⟨4⟩] :=
  ⟨by decide +kernel, by decide +kernel, by decide +kernel, ⟨by decide +kernel, rfl⟩,
    ⟨by decide +kernel, rfl⟩, by decide +kernel, by decide +kernel⟩

/-- The latch without a barrier is the one that the first visit passes over. -/
theorem processLoop_rerun_iff_uneven :
    uneven.validate = .ok () ∧ DominatorTree.compute uneven = .ok unevenTree ∧
    LoopForest.compute uneven unevenTree = .ok ⟨[unevenLoop]⟩ ∧
    (processLoop 0).Ends none (unevenVisited 0) (.ok true) (unevenVisited 1) ∧
    (unevenVisited 1).function.capacity ≤ 2 ^ 32 ∧
    (unevenVisited 2).function ≠ (unevenVisited 1).function ∧
    ∃ x, unevenLoop.Overlooked uneven ⟨0⟩ x := by
  have hvalid : uneven.validate = .ok () := by decide +kernel
  have htree : DominatorTree.compute uneven = .ok unevenTree := by decide +kernel
  have hforest : LoopForest.compute uneven unevenTree = .ok ⟨[unevenLoop]⟩ := by decide +kernel
  have hrun : (processLoop 0).Ends none (unevenVisited 0) (.ok true) (unevenVisited 1) :=
    ⟨by decide +kernel, rfl⟩
  have hfits : (unevenVisited 1).function.capacity ≤ 2 ^ 32 := by decide +kernel
  obtain ⟨l, r, again, w'', hl, hr, hagain, -, hne, hiff⟩ := processLoop_rerun_iff none uneven
    hvalid unevenTree htree ⟨[unevenLoop]⟩ hforest 0 true (unevenVisited 1) hrun hfits
  obtain rfl : unevenLoop = l := Option.some.inj hl
  obtain rfl : ⟨0⟩ = r := Option.some.inj hr
  obtain rfl : again = true := Except.ok.inj (hagain.1.symm.trans (by decide +kernel))
  obtain rfl : unevenVisited 2 = w'' := hagain.2
  exact ⟨hvalid, htree, hforest, hrun, hfits, hne rfl, hiff.mp rfl⟩

/-! ### The third visit -/

/-- A visit adds a block at most. -/
theorem capacity_visited_le (w : Work DominatorTree) (l : Loop) (p : BlockId) :
    (visited w l p).function.capacity ≤ w.function.capacity + 1 := by
  rw [visited]
  split
  · exact Function.capacity_guardAll.le.trans (Nat.le_succ _)
  · split
    · exact capacity_isolate.le
    · exact Nat.le_succ _

/-- A visit of a finished loop says that nothing changed, and nothing did. -/
theorem processLoop_ends_of_finished (hw : Sound w r) (hi : w.loops.get? i = some l)
    (hp : l.soleEntry w.function = some p) (hfinished : l.Finished w.function) (detail : Detail) :
    (processLoop i).Ends detail w (.ok false) w := by
  have hsame := (visited_eq_self_iff hw (List.mem_of_getElem? hi) hp).mpr hfinished
  obtain ⟨changed, hends⟩ := processLoop_ends hw hi hp detail
  rw [hsame] at hends
  obtain rfl : changed = false := by
    rw [← Bool.not_eq_true, (processLoop_reports i w).iff_ne hends, not_not]
  exact hends

/-- A visit passes over no latch when the loop has only one, or when it holds no barrier. -/
theorem not_overlooked_of_simple (hw : Sound w r) (hi : w.loops.get? i = some l)
    (hsimple : (∃ x, l.latch? w.function = .ok (some x)) ∨ ¬l.HoldsBarrier w.function) :
    ¬∃ x, l.Overlooked w.function r x := by
  have hd := hw.forest.loop l (List.mem_of_getElem? hi)
  rintro ⟨x, hx⟩
  rcases hsimple with ⟨y, hy⟩ | hnot
  · have hsole := (hd.latch?_eq_some hw.wellFormed).mp hy
    obtain rfl := hsole.2 x hx.latch
    exact hx.not_sole hsole
  · obtain ⟨b, -, hb, -⟩ := hx.moved
    have hmem := hb.mem
    exact hnot ⟨b, hmem, hd.mem_layout hw.wellFormed hw.entry hmem, hb.1⟩

section Visited

variable (hw : Sound w r) (hi : w.loops.get? i = some l) (hp : l.soleEntry w.function = some p)
  (hfits : (visited w l p).function.capacity ≤ 2 ^ 32)
  (hi' : (visited w l p).loops.get? i = some l')
include hw hi hp hfits hi'

/-- **Nothing is passed over twice.** The second visit gives barriers to latches only that the block
dominates which comes first then. So the block that comes first afterwards is that one, or a latch
that it dominates. -/
theorem not_overlooked_visited : ¬∃ x, l'.Overlooked (visited w l p).function r x := by
  rintro ⟨x, hx⟩
  obtain ⟨b, c, hb, hc, hnot, hdom⟩ := hx.moved
  have hw' := hw.visited (List.mem_of_getElem? hi) hp hfits
  have hd' := hw'.forest.loop l' (List.mem_of_getElem? hi')
  have hmem : b ∈ l'.blocks := hb.mem
  have hguarded := (settled_visited hw hi hp hfits hi').2.1
    ⟨b, hmem, hd'.mem_layout hw'.wellFormed hw'.entry hmem, hb.1⟩
  have hcases : .barrier ∈ ((visited w l p).function.blockAt c).instructions ∨
      Dominates (visited w l p).function.Edge r b c := by
    rcases hc.1 with hbarrier | ⟨rfl, hphis⟩ | hexit | hsole | ⟨-, hbc⟩
    · exact .inl hbarrier
    · exact .inl (List.mem_of_getElem? (hguarded.phis.resolve_left hphis))
    · exact .inl (Block.barrier_mem_of_endsWithBarrier
        (hguarded.exiting c ((hd'.exitingBlock?_eq_some hw'.wellFormed hw'.entry).mpr hexit)))
    · exact .inl (Block.barrier_mem_of_endsWithBarrier
        (hguarded.latch c ((hd'.latch?_eq_some hw'.wellFormed).mpr hsole)))
    · exact .inr hbc
  rcases hcases with hbarrier | hbc
  · have hfirst := firstBarrier?_eq_some_iff.mpr (hc.of_imp hbarrier fun _ => .inl)
    obtain rfl := Option.some.inj (hfirst.symm.trans (firstBarrier?_eq_some_iff.mpr hb))
    exact hnot hdom
  · exact hnot (hbc.trans hdom)

/-- The loop can be entered from one block after a visit too. -/
theorem exists_soleEntry_visited : ∃ q, l'.soleEntry (visited w l p).function = some q := by
  have hw' := hw.visited (List.mem_of_getElem? hi) hp hfits
  obtain ⟨⟨q, hq⟩, -⟩ := settled_visited hw hi hp hfits hi'
  rw [Loop.Describes.preheader?_eq l' hw'.wellFormed] at hq
  exact ⟨q, Except.ok.inj hq⟩

/-- Two visits of a loop split at most one block. The first one splits only if the loop holds no
barrier, and then it is finished. -/
theorem capacity_revisited_le {q : BlockId} (hq : l'.soleEntry (visited w l p).function = some q)
    (hroom : w.function.capacity < 2 ^ 32) :
    (visited (visited w l p) l' q).function.capacity ≤ 2 ^ 32 := by
  have hl := List.mem_of_getElem? hi
  cases hb : firstBarrier? w.function l.blocks with
  | none =>
      have hnot := (firstBarrier?_eq_none_iff (hw.forest.loop l hl)).mp hb
      have hsame := (visited_eq_self_iff (hw.visited hl hp hfits) (List.mem_of_getElem? hi') hq).mpr
        (finished_visited_of_not hw hi hp hfits hi' hnot)
      rwa [hsame]
  | some b =>
      have hcap : (visited w l p).function.capacity = w.function.capacity := by
        rw [visited, hb]
        exact Function.capacity_guardAll
      exact (capacity_visited_le _ l' q).trans (by omega)

end Visited

/-- **Two visits are enough.** Visit a loop of a valid function that has a preheader, and visit it
again in what the first visit leaves. Both visits succeed, and a third one has nothing to do. If the
loop has only one latch, or if it holds no barrier, the second one has nothing to do either. -/
theorem processLoop_settles (detail : Detail) (f : Function) (hvalid : f.validate = .ok ())
    (hroom : f.capacity < 2 ^ 32) (t : DominatorTree) (htree : DominatorTree.compute f = .ok t)
    (forest : LoopForest) (hforest : LoopForest.compute f t = .ok forest) (i : Nat) (l : Loop)
    (hi : forest.get? i = some l) (p : BlockId) (hpre : l.preheader? f = .ok (some p)) :
    ∃ first second w' w'',
      (processLoop i).Ends detail ⟨f, forest, t⟩ (.ok first) w' ∧
      (processLoop i).Ends detail w' (.ok second) w'' ∧
      (processLoop i).Ends detail w'' (.ok false) w'' ∧
      ((∃ x, l.latch? f = .ok (some x)) ∨ ¬l.HoldsBarrier f → second = false ∧ w'' = w') := by
  have hf := Function.validate_eq_ok_iff.mp hvalid
  have hl : l ∈ forest.loops := List.mem_of_getElem? hi
  obtain ⟨r, hw⟩ := exists_sound_of_compute hf htree hforest hl
  have hp : l.soleEntry f = some p := by
    rw [Loop.Describes.preheader?_eq l hf] at hpre
    exact Except.ok.inj hpre
  obtain ⟨first, hfirst⟩ := processLoop_ends hw hi hp detail
  have hfits := (capacity_visited_le ⟨f, forest, t⟩ l p).trans hroom
  have hw' := hw.visited hl hp hfits
  obtain ⟨l', hi', -⟩ := exists_getElem?_visited (w := ⟨f, forest, t⟩) l p hi
  obtain ⟨q, hq⟩ := exists_soleEntry_visited hw hi hp hfits hi'
  obtain ⟨second, hsecond⟩ := processLoop_ends hw' hi' hq detail
  have hfits' := capacity_revisited_le hw hi hp hfits hi' hq hroom
  obtain ⟨l'', hi'', -⟩ := exists_getElem?_visited l' q hi'
  obtain ⟨q', hq'⟩ := exists_soleEntry_visited hw' hi' hq hfits' hi''
  refine ⟨first, second, _, _, hfirst, hsecond, ?_, fun hsimple => ?_⟩
  · refine processLoop_ends_of_finished (hw'.visited (List.mem_of_getElem? hi') hq hfits') hi'' hq'
      ?_ detail
    exact (finished_visited_iff hw' hi' hq hfits' hi'').mpr
      (not_overlooked_visited hw hi hp hfits hi')
  · have hidle := processLoop_ends_of_finished hw' hi' hq ((finished_visited_iff hw hi hp hfits
      hi').mpr (not_overlooked_of_simple hw hi hsimple)) detail
    obtain ⟨heq, hsame⟩ := hsecond.unique hidle
    exact ⟨Except.ok.inj heq, hsame⟩

/-- The third visit of the loop of `uneven` is idle. -/
theorem processLoop_settles_uneven :
    uneven.validate = .ok () ∧ uneven.capacity < 2 ^ 32 ∧
    DominatorTree.compute uneven = .ok unevenTree ∧
    LoopForest.compute uneven unevenTree = .ok ⟨[unevenLoop]⟩ ∧
    unevenLoop.preheader? uneven = .ok (some ⟨0⟩) ∧
    (processLoop 0).Ends none (unevenVisited 0) (.ok true) (unevenVisited 1) ∧
    (processLoop 0).Ends none (unevenVisited 1) (.ok true) (unevenVisited 2) ∧
    (processLoop 0).Ends none (unevenVisited 2) (.ok false) (unevenVisited 2) := by
  have hvalid : uneven.validate = .ok () := by decide +kernel
  have hroom : uneven.capacity < 2 ^ 32 := by decide +kernel
  have htree : DominatorTree.compute uneven = .ok unevenTree := by decide +kernel
  have hforest : LoopForest.compute uneven unevenTree = .ok ⟨[unevenLoop]⟩ := by decide +kernel
  have hpre : unevenLoop.preheader? uneven = .ok (some ⟨0⟩) := by decide +kernel
  have hone : (processLoop 0).Ends none (unevenVisited 0) (.ok true) (unevenVisited 1) :=
    ⟨by decide +kernel, rfl⟩
  have htwo : (processLoop 0).Ends none (unevenVisited 1) (.ok true) (unevenVisited 2) :=
    ⟨by decide +kernel, rfl⟩
  obtain ⟨_, _, w', w'', hfirst, hsecond, hthird, -⟩ := processLoop_settles none uneven hvalid
    hroom unevenTree htree ⟨[unevenLoop]⟩ hforest 0 unevenLoop rfl ⟨0⟩ hpre
  obtain ⟨-, rfl⟩ := hone.unique hfirst
  obtain ⟨-, rfl⟩ := htwo.unique hsecond
  exact ⟨hvalid, hroom, htree, hforest, hpre, hone, htwo, hthird⟩

end LoopBarriers

end Lockstep
