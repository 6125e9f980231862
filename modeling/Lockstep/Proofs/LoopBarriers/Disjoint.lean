import Lockstep.Proofs.LoopBarriers.Erasure
import Lockstep.Proofs.LoopBarriers.Rerun
import Mathlib.Data.List.Find
import Mathlib.Logic.Equiv.Basic

/-!
# Visiting loops that have no block in common

Two loops with preheaders that have no block in common are out of each other's way. A preheader
leads to its header alone, so a loop that holds it holds the header as well: neither preheader is in
the other loop. And a visit touches the blocks of its loop, the preheader, and a new block that
takes over where the preheader led. So the visit of one loop changes nothing that the visit of the
other looks at, and what is then done is the same.

If both visits split a preheader, the first one gets the identifier that comes next, and the order
of the visits decides which block has it. All else is as before.

## Main results

* `LoopBarriers.Apart.outside` and `LoopBarriers.Step.blockAt_apart`: neither preheader is in the
  other loop, and a visit keeps the blocks of the other loop.
* `LoopBarriers.LoopPair.deed_visited`: what is done about a loop is decided before the other is
  visited.
* `LoopBarriers.LoopPair.visited_comm` and `LoopBarriers.Apart.isolate_comm`: the two visits in
  either order.
* `LoopBarriers.processLoop_comm`: visits of loops of a valid function.
-/

namespace Lockstep

/-! ### Functions told by their blocks -/

namespace Function

variable {e f g : Function} {places places' : List (BlockId × Place)} {x : BlockId}

/-- Two functions that have the signature of a third differ in their bodies only. -/
theorem eq_with_body (hf : e.Extends f) (hg : e.Extends g) :
    g = { f with blocks := g.blocks, layout := g.layout } := by
  cases f
  cases g
  simp only [Function.mk.injEq]
  exact ⟨hg.name.trans hf.name.symm, hg.returnType.trans hf.returnType.symm,
    hg.parameters.trans hf.parameters.symm, hg.linkage.trans hf.linkage.symm,
    hg.variadic.trans hf.variadic.symm, trivial, trivial⟩

/-- Two functions with the same signature are the same if they have the same blocks in the same
order. -/
theorem eq_of_blockAt (hf : e.Extends f) (hg : e.Extends g) (hlayout : g.layout = f.layout)
    (hcapacity : g.capacity = f.capacity) (hfits : f.capacity ≤ 2 ^ 32)
    (h : ∀ x, g.blockAt x = f.blockAt x) : g = f := by
  have hblocks : g.blocks = f.blocks := by
    refine List.ext_getElem? fun i => ?_
    by_cases hi : i < f.capacity
    · have hindex : (ArenaId.ofIndex i : BlockId).index = i :=
        ArenaId.index_ofIndex (Nat.lt_of_lt_of_le hi hfits)
      have hslot : ∀ k : Function, k.capacity = f.capacity →
          k.blocks[i]? = some (k.blockAt (.ofIndex i)) := fun k hk => by
        rw [← block?_of_lt (by rwa [hindex, hk]), block?, hindex]
      rw [hslot g hcapacity, hslot f rfl, h]
    · rw [List.getElem?_eq_none (Nat.le_of_not_lt hi),
        List.getElem?_eq_none (by rw [← capacity, hcapacity]; exact Nat.le_of_not_lt hi)]
  rw [eq_with_body hf hg, hblocks, hlayout]

/-- Guarding some places extends a function. -/
theorem extends_guardAll : f.Extends (f.guardAll places) := by
  induction places generalizing f with
  | nil => exact .refl f
  | cons place places ih => exact (Extends.modifyBlock f _ _).trans ih

/-- Guarding some places takes no identifier. -/
theorem nextBlock_guardAll : (f.guardAll places).nextBlock = f.nextBlock := by
  rw [nextBlock, nextBlock, capacity_guardAll]

namespace WellFormed

variable (hf : f.WellFormed) (hp : ∀ z ∈ places, z.1 ∈ f.layout)
  (hp' : ∀ z ∈ places', z.1 ∈ f.layout)
include hf hp

/-- Blocks without a place to guard are left alone. -/
theorem blockAt_guardAll_of_not_mem (hx : ∀ place, (x, place) ∉ places) :
    (f.guardAll places).blockAt x = f.blockAt x := by
  have hnil : (places.filter (·.1 = x)).map Prod.snd = [] := List.eq_nil_iff_forall_not_mem.mpr
    fun place hplace => hx place (mem_map_snd_filter.mp hplace)
  rw [hf.blockAt_guardAll hp, hnil]
  rfl

/-- Whether anything is left to guard is told by the blocks. -/
theorem guardAll_eq_self_iff : f.guardAll places = f ↔
    ∀ x, (∃ place, (x, place) ∈ places) →
      (f.blockAt x).guardAll ((places.filter (·.1 = x)).map Prod.snd) = f.blockAt x := by
  constructor
  · intro heq x _
    rw [← hf.blockAt_guardAll hp, heq]
  · intro hall
    refine eq_of_blockAt (.refl f) extends_guardAll layout_guardAll capacity_guardAll hf.fits
      fun x => ?_
    by_cases hx : ∃ place, (x, place) ∈ places
    · rw [hf.blockAt_guardAll hp, hall x hx]
    · exact hf.blockAt_guardAll_of_not_mem hp (not_exists.mp hx)

include hp'

/-- Places of different blocks can be guarded in either order. -/
theorem guardAll_comm (hdisjoint : ∀ x, (∃ place, (x, place) ∈ places) →
    ∀ place, (x, place) ∉ places') :
    (f.guardAll places).guardAll places' = (f.guardAll places').guardAll places := by
  have hfirst := hf.guardAll hp
  have hsecond := hf.guardAll hp'
  have hp₁ : ∀ z ∈ places', z.1 ∈ (f.guardAll places).layout := by simpa using hp'
  have hp₂ : ∀ z ∈ places, z.1 ∈ (f.guardAll places').layout := by simpa using hp
  refine eq_of_blockAt (extends_guardAll.trans extends_guardAll)
    (extends_guardAll.trans extends_guardAll) (by simp) (by simp) (by simpa using hf.fits)
    fun x => ?_
  by_cases hx : ∃ place, (x, place) ∈ places
  · rw [hfirst.blockAt_guardAll_of_not_mem hp₁ (hdisjoint x hx), hsecond.blockAt_guardAll hp₂,
      hf.blockAt_guardAll_of_not_mem hp' (hdisjoint x hx), hf.blockAt_guardAll hp]
  · rw [hsecond.blockAt_guardAll_of_not_mem hp₂ (not_exists.mp hx), hfirst.blockAt_guardAll hp₁,
      hf.blockAt_guardAll_of_not_mem hp (not_exists.mp hx), hf.blockAt_guardAll hp']

end WellFormed

end Function

namespace LoopBarriers

variable {w : Work DominatorTree} {f f' : Function} {l k : Loop} {r h p o q x : BlockId}
  {d d' : BlockId → Bool} {i j : Nat}

/-! ### Loops apart -/

/-- A block of the loop, or its preheader. -/
def Near (f : Function) (r h p x : BlockId) : Prop :=
  x = p ∨ InLoop f.Edge r h x

/-- Two loops with preheaders that have no block in common. -/
structure Apart (f : Function) (r h p o q : BlockId) : Prop where
  left : Ready f r h p
  right : Ready f r o q
  disjoint : ∀ x, InLoop f.Edge r h x → ¬InLoop f.Edge r o x

namespace Apart

variable (ha : Apart f r h p o q)
include ha

/-- Either loop may come first. -/
theorem symm : Apart f r o q h p :=
  ⟨ha.right, ha.left, fun x hx hx' => ha.disjoint x hx' hx⟩

/-- Loops apart have different headers. -/
theorem header_ne : h ≠ o := by
  rintro rfl
  exact ha.disjoint h ha.left.header.inLoop ha.left.header.inLoop

/-- **A preheader is not in the other loop**, or its header would be. -/
theorem outside : ¬InLoop f.Edge r o p := fun hin =>
  ha.disjoint h ha.left.header.inLoop (ha.left.preheader.inLoop_header hin)

/-- Loops apart have different preheaders. -/
theorem preheader_ne : p ≠ q := by
  rintro rfl
  exact ha.header_ne (ha.left.preheader.header_eq ha.right.preheader)

/-- No block is near both loops. -/
theorem not_near (hx : Near f r h p x) : ¬Near f r o q x := by
  rintro (rfl | hx')
  · rcases hx with heq | hin
    · exact ha.preheader_ne heq.symm
    · exact ha.symm.outside hin
  · rcases hx with rfl | hin
    · exact ha.outside hx'
    · exact ha.disjoint x hin hx'

/-- A block near the second loop is neither preheader nor header of the first. -/
theorem ne_of_near (hx : Near f r o q x) : x ≠ p ∧ x ≠ h :=
  ⟨fun hxp => ha.not_near (.inl hxp) hx,
    fun hxh => ha.not_near (.inr (hxh ▸ ha.left.header.inLoop)) hx⟩

end Apart

/-- A block near a loop that is about to be visited is in the body. -/
theorem Ready.mem_of_near (hready : Ready f r h p) (hx : Near f r h p x) : x ∈ f.layout := by
  rcases hx with rfl | hin
  · exact hready.mem_layout
  · exact hready.mem_of_inLoop hin

/-- What is guarded is the preheader or in the loop. -/
theorem near_of_mem_places (hf : f.WellFormed) (hl : l.Describes f.Edge r) {place : Place}
    (hx : (x, place) ∈ places f l d p) : Near f r l.header p x := by
  rcases of_mem_places hf hl hx with ⟨hxp, -⟩ | ⟨rfl, -⟩ | ⟨hexit | hlatch, -⟩
  · exact .inl hxp
  · exact .inr hl.header.inLoop
  · exact .inr hexit.1.1
  · exact .inr hlatch.inLoop

/-! ### What a visit keeps of the other loop -/

namespace Step

/-- Dominance between the blocks that there are is as before. -/
theorem dominates_iff (hready : Ready f r h p) (hstep : Step f r h p f') {y : BlockId}
    (hx : x ∈ f.layout) (hy : y ∈ f.layout) :
    Dominates f'.Edge r x y ↔ Dominates f.Edge r x y := by
  cases hstep with
  | surround hl _ _ => rw [hready.wellFormed.edge_guardAll (hready.places_mem hl)]
  | isolate hroom _ _ =>
      exact (hready.splitsOff hroom).dominates_iff (hready.ne_nextBlock hroom hx)
        (hready.ne_nextBlock hroom hy)
  | pass => exact Iff.rfl

variable (ha : Apart f r h p o q) (hstep : Step f r h p f')
include ha hstep

/-- **A visit keeps the blocks of the other loop**, and its preheader. -/
theorem blockAt_apart (hx : Near f r o q x) : f'.blockAt x = f.blockAt x := by
  have hf := ha.left.wellFormed
  cases hstep with
  | surround hl hheader _ =>
      refine hf.blockAt_guardAll_of_not_mem (ha.left.places_mem hl) fun place hplace => ?_
      exact ha.not_near (hheader ▸ near_of_mem_places hf hl hplace) hx
  | isolate hroom _ _ =>
      obtain ⟨hxp, hxh⟩ := ha.ne_of_near hx
      exact ha.left.blockAt_isolate_of_ne hroom
        (ha.left.ne_nextBlock hroom (ha.right.mem_of_near hx)) hxp hxh
  | pass => rfl

/-- The visit of a loop leaves the branches of blocks near the other one as they are. -/
theorem next_apart (hx : Near f r o q x) : f'.next x = f.next x := by
  rw [Function.next, Function.next, hstep.blockAt_apart ha hx]

/-- The other loop keeps its blocks in their order. -/
theorem filter_layout_apart (hk : k.Describes f.Edge r) :
    f'.layout.filter k.contains = f.layout.filter k.contains := by
  cases hstep with
  | surround => rw [Function.layout_guardAll]
  | isolate hroom _ _ =>
      rw [layout_isolate]
      refine filter_insertAfter_of_not (Bool.eq_false_iff.mpr fun hin => ?_)
      exact ha.left.ne_nextBlock hroom (ha.left.mem_of_inLoop (hk.contains_iff.mp hin)) rfl
  | pass => rfl

variable (hk : k.Describes f.Edge r) (hheader : k.header = o)
include hk hheader

/-- The other loop keeps its latches. -/
theorem latchList_apart : k.latchList f' = k.latchList f := by
  have hswap : ∀ g : Function, k.latchList g =
      (g.layout.filter k.contains).filter fun a => (g.next a).contains k.header := fun g => by
    rw [Loop.latchList, List.filter_filter, List.filter_filter]
    exact List.filter_congr fun a _ => Bool.and_comm _ _
  rw [hswap, hswap, hstep.filter_layout_apart ha hk]
  refine List.filter_congr fun a hmem => ?_
  rw [hstep.next_apart ha (.inr (hheader ▸ hk.contains_iff.mp (List.mem_filter.mp hmem).2))]

/-- The other loop keeps its only exiting block. -/
theorem soleExiting_apart : k.soleExiting f' = k.soleExiting f := by
  rw [Loop.soleExiting, Loop.soleExiting]
  refine congrArg sole? (List.filter_congr fun a hmem => ?_)
  rw [hstep.next_apart ha (.inr (hheader ▸ (hk.mem_blocks a).mp hmem))]

/-- The other loop has the same places to guard. -/
theorem places_apart (hd : ∀ x, InLoop f.Edge r o x → d' x = d x) :
    places f' k d' q = places f k d q := by
  have hfilter : (k.latchList f).filter d' = (k.latchList f).filter d :=
    List.filter_congr fun x hx => hd x (hheader ▸ (hk.mem_latchList.mp hx).inLoop)
  rw [places, places, latchesToGuard, latchesToGuard, hstep.latchList_apart ha hk hheader,
    hstep.soleExiting_apart ha hk hheader, hfilter]

end Step

/-! ### What is done about a loop -/

/-- What a visit does. -/
inductive Deed where
  /-- Places are guarded; there may be none. -/
  | guard (places : List (BlockId × Place))
  /-- A preheader is split. -/
  | isolate (preheader : BlockId)

/-- What the visit of a loop with that preheader does. -/
def deed (w : Work DominatorTree) (l : Loop) (preheader : BlockId) : Deed :=
  match firstBarrier? w.function l.blocks with
  | some barrier => .guard (places w.function l (dominated w.dominance barrier) preheader)
  | none =>
      if (w.function.blockAt preheader).endsWithBarrier then .isolate preheader else .guard []

/-- The function after a deed, with what is known of its control flow. -/
def Deed.perform (w : Work DominatorTree) : Deed → Work DominatorTree
  | .guard places => { w with function := w.function.guardAll places }
  | .isolate preheader =>
      { function := LoopBarriers.isolate w.function preheader
        loops := w.loops.addBlockLike preheader w.function.nextBlock
        dominance := w.dominance.addSplitBlock preheader w.function.nextBlock }

/-- The visit of a loop performs its deed. -/
theorem visited_eq_perform (w : Work DominatorTree) (l : Loop) (p : BlockId) :
    visited w l p = (deed w l p).perform w := by
  rw [visited, deed]
  cases firstBarrier? w.function l.blocks with
  | some b => rfl
  | none => cases (w.function.blockAt p).endsWithBarrier <;> rfl

/-- A deed is about the loop and its preheader. -/
theorem near_of_deed (hw : Sound w r) (hl : l ∈ w.loops.loops) {places : List (BlockId × Place)}
    (hdeed : deed w l p = .guard places) {place : Place} (hx : (x, place) ∈ places) :
    Near w.function r l.header p x := by
  rw [deed] at hdeed
  split at hdeed
  · cases hdeed
    exact near_of_mem_places hw.wellFormed (hw.forest.loop l hl) hx
  · split at hdeed
    · cases hdeed
    · cases hdeed
      cases hx

/-- The preheader that is split is the one of the loop. -/
theorem eq_of_deed {a : BlockId} (hdeed : deed w l p = .isolate a) : a = p := by
  rw [deed] at hdeed
  split at hdeed
  · cases hdeed
  · split at hdeed <;> cases hdeed
    rfl

/-! ### The other loop after a visit -/

/-- Two loops with preheaders that have no block in common, in a function whose control flow is
known. -/
structure LoopPair (w : Work DominatorTree) (r : BlockId) (l : Loop) (p : BlockId) (k : Loop)
    (q : BlockId) : Prop where
  sound : Sound w r
  left_mem : l ∈ w.loops.loops
  left_entry : l.soleEntry w.function = some p
  right_mem : k ∈ w.loops.loops
  right_entry : k.soleEntry w.function = some q
  disjoint : ∀ x ∈ l.blocks, x ∉ k.blocks

namespace LoopPair

variable (hpair : LoopPair w r l p k q)
include hpair

/-- Either loop may come first. -/
theorem symm : LoopPair w r k q l p :=
  ⟨hpair.sound, hpair.right_mem, hpair.right_entry, hpair.left_mem, hpair.left_entry,
    fun x hx hx' => hpair.disjoint x hx' hx⟩

/-- The first loop is described as it is in the function. -/
theorem left_describes : l.Describes w.function.Edge r :=
  hpair.sound.forest.loop l hpair.left_mem

/-- The first loop is about to be visited. -/
theorem left_ready : Ready w.function r l.header p :=
  ⟨hpair.sound.wellFormed, hpair.sound.entry, hpair.left_describes.header,
    (hpair.left_describes.soleEntry_eq_some hpair.sound.wellFormed).mp hpair.left_entry⟩

/-- The loops are apart in the function. -/
theorem apart : Apart w.function r l.header p k.header q where
  left := hpair.left_ready
  right := hpair.symm.left_ready
  disjoint x hx hx' := hpair.disjoint x ((hpair.left_describes.mem_blocks x).mpr hx)
    ((hpair.symm.left_describes.mem_blocks x).mpr hx')

/-- The second loop stays as it is when the first is visited. -/
theorem get?_visited (hj : w.loops.get? j = some k) : (visited w l p).loops.get? j = some k := by
  have hout : k.contains p = false := Bool.eq_false_iff.mpr fun hin =>
    hpair.apart.outside (hpair.symm.left_describes.contains_iff.mp hin)
  rw [visited_eq_perform]
  cases hdeed : deed w l p with
  | guard places => exact hj
  | isolate a =>
      obtain rfl := eq_of_deed hdeed
      have hget : (w.loops.loops.map fun l' => if l'.contains a then
          l'.insertAfter a w.function.nextBlock else l')[j]? = some k := by
        rw [List.getElem?_map, show w.loops.loops[j]? = some k from hj, Option.map_some, hout]
        rfl
      exact hget

variable (hfits : (visited w l p).function.capacity ≤ 2 ^ 32)
include hfits

/-- The control flow is still known when the first loop has been visited. -/
theorem sound_visited : Sound (visited w l p) r :=
  hpair.sound.visited hpair.left_mem hpair.left_entry hfits

/-- The visit of the first loop is a step. -/
theorem step : Step w.function r l.header p (visited w l p).function :=
  (step_visited hpair.sound hpair.left_mem hpair.left_entry hfits).2

/-- The second loop keeps its preheader when the first is visited. -/
theorem soleEntry_visited (hj : w.loops.get? j = some k) :
    k.soleEntry (visited w l p).function = some q := by
  have hw' := hpair.sound_visited hfits
  have hk' := hw'.forest.loop k (List.mem_of_getElem? (hpair.get?_visited hj))
  rw [hk'.soleEntry_eq_some hw'.wellFormed, (hpair.step hfits).isPreheader_iff hpair.left_ready
    hpair.symm.left_describes.header hpair.apart.header_ne.symm]
  exact hpair.apart.right.preheader

/-- **What is done about a loop is decided before the other is visited.** -/
theorem deed_visited : deed (visited w l p) k q = deed w k q := by
  have ha := hpair.apart
  have hk := hpair.symm.left_describes
  have hstep := hpair.step hfits
  have hfirst : firstBarrier? (visited w l p).function k.blocks =
      firstBarrier? w.function k.blocks := by
    refine List.find?_congr fun x hx => ?_
    rw [hstep.blockAt_apart ha (.inr ((hk.mem_blocks x).mp hx))]
  rw [deed, deed, hfirst, hstep.blockAt_apart ha (.inl rfl)]
  cases hb : firstBarrier? w.function k.blocks with
  | none => rfl
  | some b =>
      have hbk := ha.right.mem_of_inLoop ((hk.mem_blocks b).mp (List.mem_of_find?_eq_some hb))
      refine congrArg Deed.guard (hstep.places_apart ha hk rfl fun x hx => ?_)
      rw [Bool.eq_iff_iff, (hpair.sound_visited hfits).dominated_iff, hpair.sound.dominated_iff]
      exact hstep.dominates_iff ha.left hbk (ha.right.mem_of_inLoop hx)

/-- Two visits do what was decided about either loop in the beginning. -/
theorem visited_visited :
    visited (visited w l p) k q = (deed w k q).perform ((deed w l p).perform w) := by
  rw [visited_eq_perform (visited w l p) k q, hpair.deed_visited hfits, visited_eq_perform w l p]

/-- Whether the visit of a loop changes anything does not depend on the visit of the other. -/
theorem visited_eq_self_iff_apart :
    visited (visited w l p) k q = visited w l p ↔ visited w k q = w := by
  have ha := hpair.apart
  rw [visited_eq_perform _ k q, visited_eq_perform w k q, hpair.deed_visited hfits]
  cases hdeed : deed w k q with
  | guard places =>
      have hnear : ∀ {x}, (∃ place, (x, place) ∈ places) → Near w.function r k.header q x :=
        fun ⟨_, hx⟩ => near_of_deed hpair.sound hpair.right_mem hdeed hx
      have hmem : ∀ z ∈ places, z.1 ∈ w.function.layout := fun z hz =>
        ha.right.mem_of_near (hnear ⟨z.2, hz⟩)
      have hsame : ∀ v : Work DominatorTree,
          Deed.perform v (.guard places) = v ↔ v.function.guardAll places = v.function := by
        rintro ⟨g, loops, tree⟩
        simp [Deed.perform]
      rw [hsame, hsame, hpair.sound.wellFormed.guardAll_eq_self_iff hmem,
        (hpair.sound_visited hfits).wellFormed.guardAll_eq_self_iff
          fun z hz => (hpair.step hfits).mem_layout (hmem z hz)]
      refine forall₂_congr fun x hx => ?_
      rw [(hpair.step hfits).blockAt_apart ha (hnear hx)]
  | isolate a =>
      have hne : ∀ v : Work DominatorTree, Deed.perform v (.isolate a) ≠ v := fun v heq => by
        have hcapacity := congrArg (fun v => v.function.capacity) heq
        simp [Deed.perform] at hcapacity
      exact iff_of_false (hne _) (hne _)

end LoopPair

/-! ### Two visits in either order -/

/-- Splitting a preheader extends a function. -/
theorem extends_isolate (hf : f.WellFormed) (hp : p ∈ f.layout) : f.Extends (isolate f p) :=
  (Function.Extends.splitBlock (hf.splitBlock_eq hp (length_pred_lt hf hp))).trans
    (.modifyBlock _ _ _)

/-- A preheader can be split before or after places elsewhere are guarded. -/
theorem isolate_guardAll (hready : Ready f r h p) (hroom : f.capacity < 2 ^ 32)
    {places : List (BlockId × Place)} (hmem : ∀ z ∈ places, z.1 ∈ f.layout)
    (hne : ∀ z ∈ places, z.1 ≠ p ∧ z.1 ≠ h) :
    isolate (f.guardAll places) p = (isolate f p).guardAll places := by
  have hf := hready.wellFormed
  have hready' : Ready (f.guardAll places) r h p := by
    refine ⟨hf.guardAll hmem, Function.entry?_guardAll.trans hready.entry, ?_, ?_⟩
    · rw [hf.edge_guardAll hmem]
      exact hready.header
    · exact isPreheader_congr (hf.next_guardAll hmem).symm (hf.edge_guardAll hmem).symm
        hready.preheader
  have hroom' : (f.guardAll places).capacity < 2 ^ 32 := by rwa [Function.capacity_guardAll]
  have hmem' : ∀ z ∈ places, z.1 ∈ (isolate f p).layout := fun z hz => by
    rw [layout_isolate, mem_insertAfter]
    exact .inr (hmem z hz)
  have hisolated := wellFormed_isolate hf hroom hready.mem_layout
  refine Function.eq_of_blockAt ((extends_isolate hf hready.mem_layout).trans
    Function.extends_guardAll) (Function.extends_guardAll.trans
      (extends_isolate hready'.wellFormed hready'.mem_layout)) ?_ (by simp)
    (by rw [Function.capacity_guardAll, capacity_isolate]; exact hroom) fun x => ?_
  · rw [layout_isolate, Function.layout_guardAll, Function.layout_guardAll, layout_isolate,
      Function.nextBlock_guardAll]
  · by_cases hx : ∃ place, (x, place) ∈ places
    · obtain ⟨place, hplace⟩ := hx
      obtain ⟨hxp, hxh⟩ := hne _ hplace
      have hxn := hready.ne_nextBlock hroom (hmem _ hplace)
      rw [hready'.blockAt_isolate_of_ne hroom' (by rwa [Function.nextBlock_guardAll]) hxp hxh,
        hf.blockAt_guardAll hmem, hisolated.blockAt_guardAll hmem',
        hready.blockAt_isolate_of_ne hroom hxn hxp hxh]
    · have hkept : ∀ {y}, (∀ place, (y, place) ∉ places) →
          (f.guardAll places).blockAt y = f.blockAt y := hf.blockAt_guardAll_of_not_mem hmem
      have hp := hkept fun place hplace => (hne _ hplace).1 rfl
      obtain ⟨init, t, hb, -⟩ := Block.exists_eq_append (hf.terminated p hready.mem_layout)
      rw [hisolated.blockAt_guardAll_of_not_mem hmem' (not_exists.mp hx),
        hready.blockAt_isolate hroom hb, hready'.blockAt_isolate hroom' (by rw [hp, hb]),
        Function.nextBlock_guardAll, hp, hkept fun place hplace => (hne _ hplace).2 rfl,
        hkept (not_exists.mp hx)]

namespace LoopPair

variable (hpair : LoopPair w r l p k q) (hroom : w.function.capacity < 2 ^ 32)
include hpair

/-- What is guarded in and around the one loop is not in the way of the other. -/
theorem mem_of_deed {places : List (BlockId × Place)} (hdeed : deed w l p = .guard places) :
    (∀ z ∈ places, z.1 ∈ w.function.layout) ∧ ∀ z ∈ places, z.1 ≠ q ∧ z.1 ≠ k.header := by
  have hnear : ∀ z ∈ places, Near w.function r l.header p z.1 := fun z hz =>
    near_of_deed hpair.sound hpair.left_mem hdeed (show (z.1, z.2) ∈ places from hz)
  exact ⟨fun z hz => hpair.left_ready.mem_of_near (hnear z hz),
    fun z hz => hpair.symm.apart.ne_of_near (hnear z hz)⟩

include hroom

/-- Guarding the first loop commutes with whatever is done about the second. -/
theorem perform_comm_of_guard {places : List (BlockId × Place)}
    (hdeed : deed w l p = .guard places) :
    (deed w k q).perform ((Deed.guard places).perform w) =
      (Deed.guard places).perform ((deed w k q).perform w) := by
  obtain ⟨hmem, hne⟩ := hpair.mem_of_deed hdeed
  cases hdeed' : deed w k q with
  | guard places' =>
      obtain ⟨hmem', -⟩ := hpair.symm.mem_of_deed hdeed'
      have hcomm := hpair.sound.wellFormed.guardAll_comm hmem hmem' fun x ⟨place, hx⟩ place' hx' =>
        hpair.apart.not_near (near_of_deed hpair.sound hpair.left_mem hdeed hx)
          (near_of_deed hpair.sound hpair.right_mem hdeed' hx')
      simp only [Deed.perform, hcomm]
  | isolate a =>
      obtain rfl := eq_of_deed hdeed'
      simp only [Deed.perform, isolate_guardAll hpair.apart.right hroom hmem hne,
        Function.nextBlock_guardAll]

/-- **Two visits in either order**, unless both split a preheader. -/
theorem visited_comm (hfits : (visited w l p).function.capacity ≤ 2 ^ 32)
    (hfits' : (visited w k q).function.capacity ≤ 2 ^ 32)
    (hone : ¬(deed w l p = .isolate p ∧ deed w k q = .isolate q)) :
    visited (visited w l p) k q = visited (visited w k q) l p := by
  rw [hpair.visited_visited hfits, hpair.symm.visited_visited hfits']
  cases hdeed : deed w l p with
  | guard places => exact hpair.perform_comm_of_guard hroom hdeed
  | isolate a =>
      cases hdeed' : deed w k q with
      | guard places =>
          have hcomm := hpair.symm.perform_comm_of_guard hroom hdeed'
          rw [hdeed] at hcomm
          exact hcomm.symm
      | isolate b =>
          obtain rfl := eq_of_deed hdeed
          obtain rfl := eq_of_deed hdeed'
          exact absurd ⟨hdeed, hdeed'⟩ hone

end LoopPair

end LoopBarriers

/-! ### Exchanging two blocks -/

namespace Instruction

/-- The instruction with the blocks that it branches to replaced by their images. -/
def mapTargets (g : BlockId → BlockId) : Instruction → Instruction
  | .branch target => .branch (g target)
  | .branchCond condition ifTrue ifFalse => .branchCond condition (g ifTrue) (g ifFalse)
  | i => i

variable {i : Instruction} {g : BlockId → BlockId} {old new : BlockId}

/-- Renaming keeps an instruction that branches to no renamed block. -/
theorem mapTargets_eq_self (h : ∀ a ∈ i.successors, g a = a) : i.mapTargets g = i := by
  cases i with
  | branch target => simp [mapTargets, h target (by simp [successors])]
  | branchCond condition ifTrue ifFalse =>
      simp [mapTargets, h ifTrue (by simp [successors]), h ifFalse (by simp [successors])]
  | _ => rfl

/-- A terminator has no labels to rename. -/
theorem mapLabels_of_isTerminator (h : i.isTerminator = true) : i.mapLabels g = i := by
  cases i with
  | phi => cases h
  | _ => rfl

/-- Renaming keeps an instruction that chooses by no renamed block. -/
theorem mapLabels_eq_self (h : ∀ a ∈ i.phiLabels, g a = a) : i.mapLabels g = i :=
  (mapLabels_congr h).trans mapLabels_id

/-- Labels renamed twice are renamed by the composition. -/
theorem mapLabels_mapLabels {g' : BlockId → BlockId} :
    (i.mapLabels g').mapLabels g = i.mapLabels fun a => g (g' a) := by
  cases i with
  | phi result incoming ty => simp [mapLabels, Function.comp_def]
  | _ => rfl

/-- Renaming one label is renaming the labels by a map that moves that block alone. -/
theorem renameIncoming_eq_mapLabels :
    i.renameIncoming old new = i.mapLabels fun a => if a = old then new else a := by
  cases i <;> rfl

end Instruction

namespace Block

variable {b : Block} {g φ ψ : BlockId → BlockId} {init : List Instruction} {t : Instruction}

/-- The block with other names for blocks, in the labels of phis and where its terminator
branches to. -/
def rename (g : BlockId → BlockId) (b : Block) : Block :=
  { b with
    id := g b.id
    instructions := b.instructions.dropLast.map (Instruction.mapLabels g) ++
      b.instructions.getLast?.toList.map (Instruction.mapTargets g) }

/-- The instructions before the terminator are renamed in their labels and the terminator where it
branches to. -/
theorem rename_of_append (hb : b.instructions = init ++ [t]) :
    b.rename g = { b with
      id := g b.id
      instructions := init.map (Instruction.mapLabels g) ++ [t.mapTargets g] } := by
  simp [rename, hb]

/-- Renaming in a block whose labels are images already. -/
theorem rename_mapLabels (hterm : b.hasTerminator = true) (hid : g b.id = b.id)
    (hnext : ∀ a ∈ b.successors, g a = a)
    (hlabels : ∀ i ∈ b.instructions, ∀ a ∈ i.phiLabels, g (φ a) = ψ a) :
    ({ b with instructions := b.instructions.map (Instruction.mapLabels φ) } : Block).rename g =
      { b with instructions := b.instructions.map (Instruction.mapLabels ψ) } := by
  obtain ⟨init, t, hb, ht⟩ := exists_eq_append hterm
  rw [successors_of_append hb ht] at hnext
  have hmapped : ∀ χ : BlockId → BlockId, b.instructions.map (Instruction.mapLabels χ) =
      init.map (Instruction.mapLabels χ) ++ [t] := fun χ => by
    rw [hb, List.map_append, List.map_singleton, Instruction.mapLabels_of_isTerminator ht]
  rw [rename_of_append (hmapped φ), Instruction.mapTargets_eq_self hnext, hmapped ψ, List.map_map]
  have hinit : init.map (Instruction.mapLabels g ∘ Instruction.mapLabels φ) =
      init.map (Instruction.mapLabels ψ) := by
    refine List.map_congr_left fun i hi => ?_
    rw [Function.comp_apply, Instruction.mapLabels_mapLabels]
    exact Instruction.mapLabels_congr (hlabels i (hb ▸ List.mem_append_left _ hi))
  simp only [hid, hinit]

/-- Renaming where nothing has another name. -/
theorem rename_eq_self (hterm : b.hasTerminator = true) (hid : g b.id = b.id)
    (hnext : ∀ a ∈ b.successors, g a = a)
    (hlabels : ∀ i ∈ b.instructions, ∀ a ∈ i.phiLabels, g a = a) : b.rename g = b := by
  have hsame : b.instructions.map (Instruction.mapLabels fun a => a) = b.instructions :=
    (List.map_congr_left fun i _ => i.mapLabels_id).trans (List.map_id' _)
  have hrename := rename_mapLabels (φ := fun a => a) (ψ := fun a => a) hterm hid hnext hlabels
  rwa [hsame] at hrename

/-- Renaming where the labels of one block were renamed before. -/
theorem rename_relabel {old new : BlockId} (hterm : b.hasTerminator = true) (hid : g b.id = b.id)
    (hnext : ∀ a ∈ b.successors, g a = a)
    (hlabels : ∀ i ∈ b.instructions, ∀ a ∈ i.phiLabels, g a = a) :
    (b.relabel old new).rename g = b.relabel old (g new) := by
  have hrelabel : ∀ n, b.relabel old n = { b with
      instructions :=
        b.instructions.map (Instruction.mapLabels fun a => if a = old then n else a) } := by
    intro n
    rw [relabel, List.map_congr_left fun i _ => Instruction.renameIncoming_eq_mapLabels]
  rw [hrelabel, hrelabel]
  refine rename_mapLabels hterm hid hnext fun i hi a ha => ?_
  split
  · rfl
  · exact hlabels i hi a ha

end Block

/-- The second function is the first with other names for the blocks of the body. -/
structure Function.Renames (g : BlockId → BlockId) (f f' : Function) : Prop where
  signature : f' = { f with blocks := f'.blocks, layout := f'.layout }
  capacity : f'.capacity = f.capacity
  layout : f'.layout = f.layout.map g
  body : ∀ x ∈ f.layout, f'.blockAt (g x) = (f.blockAt x).rename g
  rest : ∀ x, x ∉ f.layout → f'.blockAt x = f.blockAt x

namespace LoopBarriers

/-- In the second function the preheader of the first is split, and the new block is `n`. -/
structure IsIsolate (f : Function) (p h n : BlockId) (f' : Function) : Prop where
  new : f'.blockAt n = ⟨n, (f.blockAt p).name ++ ".postbarrier_dummy",
    (f.blockAt p).instructions.getLast?.toList⟩
  kept : f'.blockAt p = { f.blockAt p with
    instructions := (f.blockAt p).instructions.dropLast ++ [.branch n] }
  header : f'.blockAt h = (f.blockAt h).relabel p n

variable {w : Work DominatorTree} {f f' g : Function} {l k : Loop} {r h p o q x m n : BlockId}
  {i j : Nat}

/-- Splitting the preheader of a loop about to be visited gives the new block the next
identifier. -/
theorem Ready.isIsolate (hready : Ready f r h p) (hroom : f.capacity < 2 ^ 32) :
    IsIsolate f p h f.nextBlock (isolate f p) := by
  have hph := hready.preheader.ne_header hready.header
  have hpn := hready.ne_nextBlock hroom hready.mem_layout
  have hhn := hready.ne_nextBlock hroom (hready.mem_of_inLoop hready.header.inLoop)
  obtain ⟨init, t, hb, -⟩ :=
    Block.exists_eq_append (hready.wellFormed.terminated p hready.mem_layout)
  refine ⟨?_, ?_, ?_⟩ <;> rw [hready.blockAt_isolate hroom hb]
  · simp [hb]
  · simp [hb, hpn]
  · simp [hph.symm, hhn]

/-- The two splittings of one preheader have other names for the new block. -/
theorem IsIsolate.rename_eq (hready : Ready f r h p) (hg : IsIsolate f p h m g)
    (hf' : IsIsolate f p h n f') {φ : BlockId → BlockId} (hφ : φ m = n)
    (hfixed : ∀ a ∈ f.layout, φ a = a) (hx : x = m ∨ x = p ∨ x = h) :
    f'.blockAt (φ x) = (g.blockAt x).rename φ := by
  have hf := hready.wellFormed
  have hh := hready.mem_of_inLoop hready.header.inLoop
  have hlabels : ∀ a ∈ f.layout, ∀ i ∈ (f.blockAt a).instructions, ∀ c ∈ i.phiLabels, φ c = c :=
    fun a ha i hi c hc => hfixed c (hf.label_mem a ha i hi c hc)
  have hid : ∀ a ∈ f.layout, (f.blockAt a).id = a := fun a ha =>
    hf.id_blockAt a (hf.index_lt a ha)
  obtain ⟨init, t, hb, ht⟩ := Block.exists_eq_append (hf.terminated p hready.mem_layout)
  rcases hx with rfl | rfl | rfl
  · have htargets : t.mapTargets φ = t := Instruction.mapTargets_eq_self fun a ha =>
      hfixed a (hf.next_mem p hready.mem_layout a (by
        rwa [Function.next, Block.successors_of_append hb ht]))
    rw [hφ, hg.new, hf'.new]
    simp [Block.rename, hb, htargets, hφ]
  · have hinit : (f.blockAt x).instructions.dropLast.map (Instruction.mapLabels φ) =
        (f.blockAt x).instructions.dropLast :=
      (List.map_congr_left fun i hi => Instruction.mapLabels_eq_self
        (hlabels x hready.mem_layout i ((List.dropLast_sublist _).mem hi))).trans (List.map_id' _)
    rw [hfixed x hready.mem_layout, hg.kept, hf'.kept, Block.rename_of_append rfl, hinit]
    simp [Instruction.mapTargets, hφ, hid x hready.mem_layout, hfixed x hready.mem_layout]
  · rw [hfixed _ hh, hg.header, hf'.header, Block.rename_relabel (hf.terminated _ hh)
      (by rw [hid _ hh, hfixed _ hh]) (fun a ha => hfixed a (hf.next_mem _ hh a ha))
      (hlabels _ hh), hφ]

namespace IsIsolate

/-- Only the preheader and the header matter in the function before. -/
theorem of_blockAt_left (hg : IsIsolate f p h n g) (hp : f'.blockAt p = f.blockAt p)
    (hh : f'.blockAt h = f.blockAt h) : IsIsolate f' p h n g :=
  ⟨by rw [hp, hg.new], by rw [hp, hg.kept], by rw [hh, hg.header]⟩

/-- Only the new block, the preheader and the header matter in the function after. -/
theorem of_blockAt_right (hf : IsIsolate f p h n f') (hn : g.blockAt n = f'.blockAt n)
    (hp : g.blockAt p = f'.blockAt p) (hh : g.blockAt h = f'.blockAt h) : IsIsolate f p h n g :=
  ⟨hn.trans hf.new, hp.trans hf.kept, hh.trans hf.header⟩

end IsIsolate

namespace Apart

variable (ha : Apart f r h p o q) (hroom : f.capacity + 1 < 2 ^ 32)
include ha hroom

/-- The second preheader can be split after the first. -/
theorem ready_isolate : Ready (isolate f p) r o q where
  wellFormed := wellFormed_isolate ha.left.wellFormed (Nat.lt_of_succ_lt hroom) ha.left.mem_layout
  entry := by
    rw [Function.entry?_eq_head?, layout_isolate, head?_insertAfter ha.left.mem_layout]
    exact ha.left.entry
  header := (ha.left.splitsOff (Nat.lt_of_succ_lt hroom)).isHeader_iff.mpr ha.right.header
  preheader := isPreheader_isolate ha.left.wellFormed (Nat.lt_of_succ_lt hroom) ha.left.root_mem
    ha.left.preheader ha.right.header ha.header_ne.symm ha.right.preheader

/-- **The blocks when both preheaders were split.** -/
theorem isIsolate_both :
    IsIsolate f p h f.nextBlock (isolate (isolate f p) q) ∧
    IsIsolate f q o (isolate f p).nextBlock (isolate (isolate f p) q) ∧
    ∀ x, x ≠ f.nextBlock → x ≠ p → x ≠ h → x ≠ (isolate f p).nextBlock → x ≠ q → x ≠ o →
      (isolate (isolate f p) q).blockAt x = f.blockAt x := by
  have hroom₁ : f.capacity < 2 ^ 32 := Nat.lt_of_succ_lt hroom
  have hroom₂ : (isolate f p).capacity < 2 ^ 32 := by rwa [capacity_isolate]
  have hready := ha.ready_isolate hroom
  have hnew : ∀ {x}, x ∈ f.layout → x ≠ f.nextBlock := ha.left.ne_nextBlock hroom₁
  have hmem : ∀ {x}, x = f.nextBlock ∨ x ∈ f.layout → x ∈ (isolate f p).layout := fun hx => by
    rwa [layout_isolate, mem_insertAfter]
  have hfirst : ∀ {x}, Near f r o q x → (isolate f p).blockAt x = f.blockAt x := fun hx =>
    ha.left.blockAt_isolate_of_ne hroom₁ (hnew (ha.right.mem_of_near hx)) (ha.ne_of_near hx).1
      (ha.ne_of_near hx).2
  have hsecond : ∀ {x}, x ∈ (isolate f p).layout → x ≠ q → x ≠ o →
      (isolate (isolate f p) q).blockAt x = (isolate f p).blockAt x := fun hx =>
    hready.blockAt_isolate_of_ne hroom₂ (hready.ne_nextBlock hroom₂ hx)
  have hq := ha.right.mem_layout
  have ho := ha.right.mem_of_inLoop ha.right.header.inLoop
  have hh := ha.left.mem_of_inLoop ha.left.header.inLoop
  obtain ⟨hpq, hpo⟩ := ha.symm.ne_of_near (.inl rfl)
  obtain ⟨hhq, hho⟩ := ha.symm.ne_of_near (.inr ha.left.header.inLoop)
  refine ⟨(ha.left.isIsolate hroom₁).of_blockAt_right
      (hsecond (hmem (.inl rfl)) (hnew hq).symm (hnew ho).symm)
      (hsecond (hmem (.inr ha.left.mem_layout)) hpq hpo) (hsecond (hmem (.inr hh)) hhq hho),
    (hready.isIsolate hroom₂).of_blockAt_left (hfirst (.inl rfl)).symm
      (hfirst (.inr ha.right.header.inLoop)).symm, fun x hxn hxp hxh hxn' hxq hxo => ?_⟩
  rw [hready.blockAt_isolate_of_ne hroom₂ hxn' hxq hxo,
    ha.left.blockAt_isolate_of_ne hroom₁ hxn hxp hxh]

omit ha hroom in
/-- When one preheader is split, the next identifier is the second free one. -/
theorem nextBlock_isolate : (isolate f p).nextBlock = .ofIndex (f.capacity + 1) := by
  rw [Function.nextBlock, capacity_isolate]

/-- The blocks that were there before keep their names when the new blocks exchange theirs. -/
theorem swap_eq_self (hx : x ∈ f.layout) :
    Equiv.swap f.nextBlock (.ofIndex (f.capacity + 1)) x = x := by
  refine Equiv.swap_apply_of_ne_of_ne (ha.left.ne_nextBlock (Nat.lt_of_succ_lt hroom) hx) ?_
  rintro rfl
  have hlt := ha.left.wellFormed.index_lt _ hx
  rw [ArenaId.index_ofIndex hroom] at hlt
  omega

omit ha hroom in
/-- With both preheaders split, each new block stands behind its own preheader. -/
theorem layout_isolate_isolate : (isolate (isolate f p) q).layout =
    insertAfter q (.ofIndex (f.capacity + 1)) (insertAfter p f.nextBlock f.layout) := by
  rw [layout_isolate, layout_isolate, nextBlock_isolate]

/-- In the other order the body is the same with the two new blocks exchanged. -/
theorem layout_isolate_comm : (isolate (isolate f q) p).layout =
    (isolate (isolate f p) q).layout.map (Equiv.swap f.nextBlock (.ofIndex (f.capacity + 1))) := by
  have hp := ha.left.mem_layout
  have hq := ha.right.mem_layout
  have hnames : f.layout.map (Equiv.swap f.nextBlock (.ofIndex (f.capacity + 1))) = f.layout :=
    (List.map_congr_left fun x hx => ha.swap_eq_self hroom hx).trans (List.map_id' _)
  rw [layout_isolate_isolate, layout_isolate_isolate, map_insertAfter (Equiv.injective _),
    map_insertAfter (Equiv.injective _), hnames, Equiv.swap_apply_left, Equiv.swap_apply_right,
    ha.swap_eq_self hroom hp, ha.swap_eq_self hroom hq]
  refine insertAfter_comm hq hp ha.preheader_ne.symm
    (ha.left.ne_nextBlock (Nat.lt_of_succ_lt hroom) hp).symm ?_
  rintro heq
  have hlt := ha.left.wellFormed.index_lt q hq
  rw [← heq, ArenaId.index_ofIndex hroom] at hlt
  omega

/-- A block that neither splitting touches has no name in it that is exchanged. -/
theorem rename_blockAt (hx : x ∈ f.layout) :
    (f.blockAt x).rename (Equiv.swap f.nextBlock (.ofIndex (f.capacity + 1))) = f.blockAt x := by
  have hf := ha.left.wellFormed
  have hfixed : ∀ a ∈ f.layout, Equiv.swap f.nextBlock (.ofIndex (f.capacity + 1)) a = a :=
    fun a hmem => ha.swap_eq_self hroom hmem
  refine Block.rename_eq_self (hf.terminated x hx) ?_ (fun a hxa => hfixed a
    (hf.next_mem x hx a hxa)) fun i hi a hia => hfixed a (hf.label_mem x hx i hi a hia)
  rw [hf.id_blockAt x (hf.index_lt x hx), hfixed x hx]

/-- Splitting both preheaders extends a function. -/
theorem extends_isolate_isolate : f.Extends (isolate (isolate f p) q) :=
  (extends_isolate ha.left.wellFormed ha.left.mem_layout).trans
    (extends_isolate (ha.ready_isolate hroom).wellFormed (ha.ready_isolate hroom).mem_layout)

/-- **Two preheaders split in either order**: the new blocks have exchanged their names. -/
theorem isolate_comm :
    Function.Renames (Equiv.swap f.nextBlock (.ofIndex (f.capacity + 1)))
      (isolate (isolate f p) q) (isolate (isolate f q) p) := by
  obtain ⟨hp, hq, hrest⟩ := ha.isIsolate_both hroom
  obtain ⟨hq', hp', hrest'⟩ := ha.symm.isIsolate_both hroom
  rw [nextBlock_isolate] at hq hrest hp' hrest'
  have hfixed : ∀ a ∈ f.layout, Equiv.swap f.nextBlock (.ofIndex (f.capacity + 1)) a = a :=
    fun a hmem => ha.swap_eq_self hroom hmem
  have hmem : ∀ x, x ∈ (isolate (isolate f p) q).layout ↔
      x = .ofIndex (f.capacity + 1) ∨ x = f.nextBlock ∨ x ∈ f.layout := fun x => by
    rw [layout_isolate_isolate, mem_insertAfter, mem_insertAfter]
  refine ⟨Function.eq_with_body (ha.extends_isolate_isolate hroom)
    (ha.symm.extends_isolate_isolate hroom), by simp, ha.layout_isolate_comm hroom,
    fun x hx => ?_, fun x hx => ?_⟩
  · by_cases hxp : x = f.nextBlock ∨ x = p ∨ x = h
    · exact hp.rename_eq ha.left hp' (Equiv.swap_apply_left ..) hfixed hxp
    by_cases hxq : x = .ofIndex (f.capacity + 1) ∨ x = q ∨ x = o
    · exact hq.rename_eq ha.right hq' (Equiv.swap_apply_right ..) hfixed hxq
    push Not at hxp hxq
    have hxf : x ∈ f.layout := ((hmem x).mp hx).resolve_left hxq.1 |>.resolve_left hxp.1
    rw [hfixed x hxf, hrest x hxp.1 hxp.2.1 hxp.2.2 hxq.1 hxq.2.1 hxq.2.2,
      hrest' x hxp.1 hxq.2.1 hxq.2.2 hxq.1 hxp.2.1 hxp.2.2, ha.rename_blockAt hroom hxf]
  · rw [hmem] at hx
    push Not at hx
    have hne : ∀ {a}, a ∈ f.layout → x ≠ a := fun hmem heq => hx.2.2 (heq ▸ hmem)
    have hh := ha.left.mem_of_inLoop ha.left.header.inLoop
    have ho := ha.right.mem_of_inLoop ha.right.header.inLoop
    rw [hrest x hx.2.1 (hne ha.left.mem_layout) (hne hh) hx.1 (hne ha.right.mem_layout) (hne ho),
      hrest' x hx.2.1 (hne ha.right.mem_layout) (hne ho) hx.1 (hne ha.left.mem_layout) (hne hh)]

end Apart

/-! ### Loops of a valid function -/

/-- A deed makes the arena larger when it splits a preheader. -/
theorem capacity_lt_perform_iff {a : Deed} :
    w.function.capacity < (a.perform w).function.capacity ↔ ∃ b, a = .isolate b := by
  cases a <;> simp [Deed.perform]

namespace LoopPair

variable (hpair : LoopPair w r l p k q) (hfits : (visited w l p).function.capacity ≤ 2 ^ 32)
include hpair hfits

/-- The visit of the second loop says the same before and after that of the first. -/
theorem processLoop_ends_apart (hj : w.loops.get? j = some k) (detail : Detail) :
    ∃ changed, (processLoop j).Ends detail w (.ok changed) (visited w k q) ∧
      (processLoop j).Ends detail (visited w l p) (.ok changed)
        (visited (visited w l p) k q) := by
  obtain ⟨changed, hends⟩ := processLoop_ends hpair.sound hj hpair.right_entry detail
  obtain ⟨changed', hends'⟩ := processLoop_ends (hpair.sound_visited hfits)
    (hpair.get?_visited hj) (hpair.soleEntry_visited hfits hj) detail
  obtain rfl : changed' = changed := by
    rw [Bool.eq_iff_iff, (processLoop_reports j _).iff_ne hends',
      (processLoop_reports j w).iff_ne hends]
    exact not_congr (hpair.visited_eq_self_iff_apart hfits)
  exact ⟨changed', hends, hends'⟩

/-- Both visits split a preheader if that was decided about both loops. -/
theorem capacity_lt_iff : w.function.capacity < (visited w l p).function.capacity ∧
    (visited w l p).function.capacity < (visited (visited w l p) k q).function.capacity ↔
      deed w l p = .isolate p ∧ deed w k q = .isolate q := by
  have hiff : ∀ {l p}, (∃ a, deed w l p = .isolate a) ↔ deed w l p = .isolate p := fun {l p} =>
    ⟨fun ⟨a, ha⟩ => eq_of_deed ha ▸ ha, fun ha => ⟨p, ha⟩⟩
  rw [hpair.visited_visited hfits, visited_eq_perform w l p, capacity_lt_perform_iff,
    capacity_lt_perform_iff, hiff, hiff]

end LoopPair

/-- **Loops that have no block in common can be visited in either order.** Let two loops of a valid
function have preheaders and no block in common. Visit them one after the other, in either order.
All visits succeed, and that of each loop says the same in both orders. Unless both visits split a
preheader, the same function is left, and the same is known of its control flow. If both do, the
functions are the same but for the names of the two new blocks, which are exchanged. -/
theorem processLoop_comm (detail : Detail) (f : Function) (hvalid : f.validate = .ok ())
    (hroom : f.capacity + 1 < 2 ^ 32) (t : DominatorTree)
    (htree : DominatorTree.compute f = .ok t) (forest : LoopForest)
    (hforest : LoopForest.compute f t = .ok forest) (i j : Nat) (l k : Loop)
    (hi : forest.get? i = some l) (hj : forest.get? j = some k) (p q : BlockId)
    (hp : l.preheader? f = .ok (some p)) (hq : k.preheader? f = .ok (some q))
    (hdisjoint : ∀ x ∈ l.blocks, x ∉ k.blocks) :
    ∃ changed changed' w₁ w₁₂ w₂ w₂₁,
      (processLoop i).Ends detail ⟨f, forest, t⟩ (.ok changed) w₁ ∧
      (processLoop j).Ends detail w₁ (.ok changed') w₁₂ ∧
      (processLoop j).Ends detail ⟨f, forest, t⟩ (.ok changed') w₂ ∧
      (processLoop i).Ends detail w₂ (.ok changed) w₂₁ ∧
      (¬(f.capacity < w₁.function.capacity ∧ w₁.function.capacity < w₁₂.function.capacity) →
        w₂₁ = w₁₂) ∧
      (f.capacity < w₁.function.capacity ∧ w₁.function.capacity < w₁₂.function.capacity →
        Function.Renames (Equiv.swap f.nextBlock (.ofIndex (f.capacity + 1))) w₁₂.function
          w₂₁.function) := by
  have hf := Function.validate_eq_ok_iff.mp hvalid
  have hl : l ∈ forest.loops := List.mem_of_getElem? hi
  obtain ⟨r, hw⟩ := exists_sound_of_compute hf htree hforest hl
  rw [Loop.Describes.preheader?_eq _ hf] at hp hq
  have hpair : LoopPair ⟨f, forest, t⟩ r l p k q := ⟨hw, hl, Except.ok.inj hp,
    List.mem_of_getElem? hj, Except.ok.inj hq, hdisjoint⟩
  have hroom₁ : f.capacity < 2 ^ 32 := Nat.lt_of_succ_lt hroom
  have hfits : ∀ l p, (visited ⟨f, forest, t⟩ l p).function.capacity ≤ 2 ^ 32 := fun l p =>
    (capacity_visited_le _ l p).trans hroom₁
  obtain ⟨changed', hright, hright'⟩ := hpair.processLoop_ends_apart (hfits l p) hj detail
  obtain ⟨changed, hleft, hleft'⟩ := hpair.symm.processLoop_ends_apart (hfits k q) hi detail
  refine ⟨changed, changed', _, _, _, _, hleft, hright', hright, hleft', fun hone => ?_,
    fun hboth => ?_⟩
  · exact (hpair.visited_comm hroom₁ (hfits l p) (hfits k q)
      (mt (hpair.capacity_lt_iff (hfits l p)).mpr hone)).symm
  · obtain ⟨hdeed, hdeed'⟩ := (hpair.capacity_lt_iff (hfits l p)).mp hboth
    rw [hpair.visited_visited (hfits l p), hpair.symm.visited_visited (hfits k q), hdeed, hdeed']
    exact hpair.apart.isolate_comm hroom

/-- Two loops one behind the other, both entered from blocks that end with barriers. -/
def sequel : Function where
  name := "sequel"
  returnType := .void
  parameters := [⟨"more", .i1⟩]
  blocks := [
    ⟨⟨0⟩, "entry", [.barrier, .branch ⟨1⟩]⟩,
    ⟨⟨1⟩, "first", [.phi 0 [(.constant 0, ⟨0⟩), (.constant 1, ⟨1⟩)] .i32,
      .branchCond (.param 0) ⟨1⟩ ⟨2⟩]⟩,
    ⟨⟨2⟩, "between", [.barrier, .branch ⟨3⟩]⟩,
    ⟨⟨3⟩, "second", [.phi 1 [(.constant 0, ⟨2⟩), (.constant 1, ⟨3⟩)] .i32,
      .branchCond (.param 0) ⟨3⟩ ⟨4⟩]⟩,
    ⟨⟨4⟩, "exit", [.ret none]⟩]
  layout := [⟨0⟩, ⟨1⟩, ⟨2⟩, ⟨3⟩, ⟨4⟩]

/-- The dominator tree of `sequel`. -/
def sequelTree : DominatorTree where
  entry := some ⟨0⟩
  parents := [some ⟨0⟩, some ⟨0⟩, some ⟨1⟩, some ⟨2⟩, some ⟨3⟩]

/-- A loop of `sequel`. -/
def sequelLoop (header : BlockId) : Loop where
  header := header
  blocks := [header]
  members := [header]

/-- What is known of `sequel` when loops of it have been visited, the last one first in the list. -/
def sequelVisited : List Nat → Work DominatorTree
  | [] => ⟨sequel, ⟨[sequelLoop ⟨1⟩, sequelLoop ⟨3⟩]⟩, sequelTree⟩
  | i :: is => ((processLoop i).run none (sequelVisited is)).state

/-- Both visits split a preheader, and the order decides which new block comes sixth in the
arena. -/
theorem processLoop_comm_sequel :
    sequel.validate = .ok () ∧ sequel.capacity + 1 < 2 ^ 32 ∧
    DominatorTree.compute sequel = .ok sequelTree ∧
    LoopForest.compute sequel sequelTree = .ok ⟨[sequelLoop ⟨1⟩, sequelLoop ⟨3⟩]⟩ ∧
    (sequelLoop ⟨1⟩).preheader? sequel = .ok (some ⟨0⟩) ∧
    (sequelLoop ⟨3⟩).preheader? sequel = .ok (some ⟨2⟩) ∧
    (processLoop 0).Ends none (sequelVisited []) (.ok true) (sequelVisited [0]) ∧
    (processLoop 1).Ends none (sequelVisited [0]) (.ok true) (sequelVisited [1, 0]) ∧
    (processLoop 1).Ends none (sequelVisited []) (.ok true) (sequelVisited [1]) ∧
    (processLoop 0).Ends none (sequelVisited [1]) (.ok true) (sequelVisited [0, 1]) ∧
    (sequelVisited [1, 0]).function.layout = [⟨0⟩, ⟨5⟩, ⟨1⟩, ⟨2⟩, ⟨6⟩, ⟨3⟩, ⟨4⟩] ∧
    Function.Renames (Equiv.swap sequel.nextBlock (.ofIndex (sequel.capacity + 1)))
      (sequelVisited [1, 0]).function (sequelVisited [0, 1]).function := by
  have hvalid : sequel.validate = .ok () := by decide +kernel
  have hroom : sequel.capacity + 1 < 2 ^ 32 := by decide +kernel
  have htree : DominatorTree.compute sequel = .ok sequelTree := by decide +kernel
  have hforest : LoopForest.compute sequel sequelTree =
      .ok ⟨[sequelLoop ⟨1⟩, sequelLoop ⟨3⟩]⟩ := by decide +kernel
  have hp : (sequelLoop ⟨1⟩).preheader? sequel = .ok (some ⟨0⟩) := by decide +kernel
  have hq : (sequelLoop ⟨3⟩).preheader? sequel = .ok (some ⟨2⟩) := by decide +kernel
  have hleft : (processLoop 0).Ends none (sequelVisited []) (.ok true) (sequelVisited [0]) :=
    ⟨by decide +kernel, rfl⟩
  have hright : (processLoop 1).Ends none (sequelVisited []) (.ok true) (sequelVisited [1]) :=
    ⟨by decide +kernel, rfl⟩
  have hlayout : (sequelVisited [1, 0]).function.layout =
      [⟨0⟩, ⟨5⟩, ⟨1⟩, ⟨2⟩, ⟨6⟩, ⟨3⟩, ⟨4⟩] := by decide +kernel
  have hsplit : sequel.capacity < (sequelVisited [0]).function.capacity ∧
      (sequelVisited [0]).function.capacity < (sequelVisited [1, 0]).function.capacity := by
    decide +kernel
  obtain ⟨_, _, w₁, w₁₂, w₂, w₂₁, hfirst, hsecond, hfirst', hsecond', -, hrenames⟩ :=
    processLoop_comm none sequel hvalid hroom sequelTree htree _ hforest 0 1 (sequelLoop ⟨1⟩)
      (sequelLoop ⟨3⟩) rfl rfl ⟨0⟩ ⟨2⟩ hp hq (by decide)
  obtain ⟨hchanged, rfl⟩ := hfirst.unique hleft
  obtain ⟨hchanged', rfl⟩ := hfirst'.unique hright
  rw [hchanged'] at hsecond
  rw [hchanged] at hsecond'
  obtain rfl : sequelVisited [1, 0] = w₁₂ := hsecond.2
  obtain rfl : sequelVisited [0, 1] = w₂₁ := hsecond'.2
  exact ⟨hvalid, hroom, htree, hforest, hp, hq, hleft, hsecond, hright, hsecond', hlayout,
    hrenames hsplit⟩

end LoopBarriers

end Lockstep
