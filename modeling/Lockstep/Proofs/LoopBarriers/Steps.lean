import Lockstep.Proofs.Flow.Preheader
import Lockstep.Proofs.LoopBarriers.Preheaders

/-!
# The pass as a sequence of steps

What the visits of loops do to a function, without the records that the pass keeps beside it.
`LoopBarriers.Step` is the visit of one loop, named by its header, and `LoopBarriers.Steps` a
sequence of such visits. A step keeps the loops with their latches and exiting blocks, and the
preheaders of all other loops; what it does to blocks is said by `blockAt_guardAll` and
`blockAt_isolate`.

## Main results

* `LoopBarriers.Processed.exists_steps`: a kernel is processed by a sequence of steps, one for
  each header, and no loop comes before one inside it.
* `LoopBarriers.Step.inLoop_iff`, `LoopBarriers.Step.isExiting_iff`,
  `LoopBarriers.Step.isLatch_iff`, `LoopBarriers.Step.isPreheader_iff`: what a step keeps.
* `LoopBarriers.Step.touched`: where a step puts barriers.
-/

namespace Lockstep

/-! ### Loops in a function -/

/-- Some block of the loop holds a barrier. -/
def HoldsBarrier (f : Function) (r h : BlockId) : Prop :=
  ∃ x, InLoop f.Edge r h x ∧ .barrier ∈ (f.blockAt x).instructions

/-- A block whose loop holds a barrier is a header. -/
theorem HoldsBarrier.isHeader {f : Function} {r h : BlockId} (hholds : HoldsBarrier f r h) :
    IsHeader f.Edge r h := by
  obtain ⟨x, hx, -⟩ := hholds
  exact hx.isHeader

/-- The index of a barrier is found exactly if there is one. -/
theorem Block.barrierIndex?_isSome_iff {b : Block} :
    b.barrierIndex?.isSome = true ↔ .barrier ∈ b.instructions := by
  rw [barrierIndex?, List.findIdx?_isSome, List.any_eq_true]
  simp only [Instruction.isBarrier_iff, exists_eq_right]

namespace LoopBarriers

variable {f f' : Function} {l : Loop} {d : BlockId → Bool} {r h h' o p q n x : BlockId}
  {hs : List BlockId} {place : Place}

/-! ### The first barrier of a loop -/

/-- The first block with a barrier holds one, and none does before it. -/
theorem firstBarrier?_eq_some_iff {blocks : List BlockId} {b : BlockId} :
    firstBarrier? f blocks = some b ↔ .barrier ∈ (f.blockAt b).instructions ∧
      ∃ pre post, blocks = pre ++ b :: post ∧ ∀ y ∈ pre, .barrier ∉ (f.blockAt y).instructions := by
  simp only [firstBarrier?, List.find?_eq_some_iff_append, Block.barrierIndex?_isSome_iff,
    Bool.not_eq_true', ← Bool.not_eq_true]

/-- No block with a barrier is found exactly if the loop holds none. -/
theorem firstBarrier?_eq_none_iff (hl : l.Describes f.Edge r) :
    firstBarrier? f l.blocks = none ↔ ¬HoldsBarrier f r l.header := by
  simp only [firstBarrier?, List.find?_eq_none, Block.barrierIndex?_isSome_iff, hl.mem_blocks,
    HoldsBarrier, not_exists, not_and]

/-- What is computed of a function with a loop is right. -/
theorem exists_sound_of_compute {t : DominatorTree} {forest : LoopForest} (hf : f.WellFormed)
    (htree : DominatorTree.compute f = .ok t) (hforest : LoopForest.compute f t = .ok forest)
    (hl : l ∈ forest.loops) : ∃ r, Sound ⟨f, forest, t⟩ r := by
  obtain ⟨r, hr, hd⟩ := LoopForest.exists_entry_of_compute hf htree hforest hl
  exact ⟨r, hf, hr, DominatorTree.correct_of_compute hf hr htree, hd⟩

/-! ### Steps -/

/-- A function whose loop with header `h` is about to be visited. -/
structure Ready (f : Function) (r h p : BlockId) : Prop where
  wellFormed : f.WellFormed
  entry : f.entry? = some r
  header : IsHeader f.Edge r h
  preheader : IsPreheader f r h p

/-- The visit of the loop with header `h` and preheader `p`. -/
inductive Step (f : Function) (r h p : BlockId) : Function → Prop
  | surround {l : Loop} {d : BlockId → Bool} : l.Describes f.Edge r → l.header = h →
      HoldsBarrier f r h → Step f r h p (f.guardAll (places f l d p))
  | isolate : f.capacity < 2 ^ 32 → ¬HoldsBarrier f r h → (f.blockAt p).endsWithBarrier = true →
      Step f r h p (isolate f p)
  | pass : ¬HoldsBarrier f r h → (f.blockAt p).endsWithBarrier = false → Step f r h p f

/-- The visits of the loops with these headers, one after the other. -/
inductive Steps (r : BlockId) : Function → List BlockId → Function → Prop
  | done {f : Function} : f.WellFormed → f.entry? = some r → Steps r f [] f
  | step {f f₁ f' : Function} {h p : BlockId} {hs : List BlockId} :
      Ready f r h p → Step f r h p f₁ → Steps r f₁ hs f' → Steps r f (h :: hs) f'

/-- The visit of a loop, as a step. -/
theorem step_visited {w : Work DominatorTree} (hw : Sound w r) (hl : l ∈ w.loops.loops)
    (hp : l.soleEntry w.function = some p)
    (hfits : (visited w l p).function.capacity ≤ 2 ^ 32) :
    Ready w.function r l.header p ∧
      Step w.function r l.header p (visited w l p).function := by
  have hd := hw.forest.loop l hl
  refine ⟨⟨hw.wellFormed, hw.entry, hd.header, (hd.soleEntry_eq_some hw.wellFormed).mp hp⟩, ?_⟩
  rw [visited] at hfits ⊢
  cases hb : firstBarrier? w.function l.blocks with
  | some b =>
      exact .surround hd rfl ⟨b, (hd.mem_blocks b).mp (List.mem_of_find?_eq_some hb),
        (firstBarrier?_eq_some_iff.mp hb).1⟩
  | none =>
      have hnot := (firstBarrier?_eq_none_iff hd).mp hb
      cases hends : (w.function.blockAt p).endsWithBarrier with
      | true =>
          simp only [hb, hends, if_true, capacity_isolate] at hfits ⊢
          exact .isolate hfits hnot hends
      | false => exact .pass hnot hends

/-- The headers of some loops. -/
def headersAt (loops : List Loop) (is : List Nat) : List BlockId :=
  is.filterMap fun i => (loops.map Loop.header)[i]?

/-- A sequence of visits, as steps. -/
theorem Visits.steps {w w' : Work DominatorTree} {is : List Nat} (h : Visits r w is w') :
    Steps r w.function (headersAt w.loops.loops is) w'.function := by
  induction h with
  | done hw => exact .done hw.wellFormed hw.entry
  | @visit w w' i is l p hw hi hp hrest ih =>
      obtain ⟨hready, hstep⟩ := step_visited hw (List.mem_of_getElem? hi) hp
        hrest.sound.wellFormed.fits
      have hi' : w.loops.loops[i]? = some l := hi
      have hheader : (w.loops.loops.map Loop.header)[i]? = some l.header := by
        rw [List.getElem?_map, hi', Option.map_some]
      rw [headersAt, map_header_visited] at ih
      rw [headersAt, List.filterMap_cons_some hheader]
      exact .step hready hstep ih

/-- **A kernel is processed by steps**, one for each header. No loop comes before one inside
it. -/
theorem Processed.exists_steps (h : Processed f f') :
    ∃ r hs, f.entry? = some r ∧ Steps r f hs f' ∧ (∀ h, h ∈ hs ↔ IsHeader f.Edge r h) ∧
      hs.Pairwise fun h h' => ¬InLoop f.Edge r h h' := by
  obtain ⟨-, -, hd, hvisits⟩ := h
  rename_i r tree loops w'
  have hheaders : headersAt (LoopForest.nest loops)
      (LoopForest.mk (LoopForest.nest loops)).postorder =
        headersAt loops (LoopForest.mk (LoopForest.nest loops)).postorder := by
    rw [headersAt, headersAt, LoopForest.map_header_nest]
  have hsteps := hvisits.steps
  simp only [hheaders] at hsteps
  refine ⟨r, _, hvisits.sound.entry, hsteps, fun h => ?_, ?_⟩
  · simp only [headersAt, List.mem_filterMap, List.getElem?_map, Option.map_eq_some_iff]
    constructor
    · rintro ⟨i, -, l, hl, rfl⟩
      exact (hd.loop l (List.mem_of_getElem? hl)).header
    · intro hh
      obtain ⟨l, hl, rfl⟩ := hd.complete h hh
      obtain ⟨i, hi, rfl⟩ := List.getElem_of_mem hl
      exact ⟨i, LoopForest.mem_postorder_iff.mpr hi, _, List.getElem?_eq_getElem hi, rfl⟩
  · rw [headersAt, List.pairwise_filterMap]
    refine (LoopForest.pairwise_postorder hd).imp fun hij h hh h' hh' => ?_
    simp only [List.getElem?_map, Option.map_eq_some_iff] at hh hh'
    obtain ⟨li, hli, rfl⟩ := hh
    obtain ⟨lj, hlj, rfl⟩ := hh'
    exact hij li lj hli hlj

/-! ### What a step keeps -/

/-- Preheaders depend on the branches only. -/
theorem isPreheader_congr {f₁ f₂ : Function} (hnext : f₁.next = f₂.next) (hedge : f₁.Edge = f₂.Edge)
    (hq : IsPreheader f₁ r h q) : IsPreheader f₂ r h q :=
  ⟨hedge ▸ hq.edge, hedge ▸ hq.outside, hedge ▸ hq.only, hnext ▸ hq.next_eq⟩

namespace Ready

variable (hready : Ready f r h p)
include hready

/-- The preheader is in the body. -/
theorem mem_layout : p ∈ f.layout :=
  hready.preheader.edge.1

/-- The entry is in the body. -/
theorem root_mem : r ∈ f.layout :=
  List.mem_of_head? hready.entry

/-- All places that are guarded are in the body. -/
theorem places_mem (hl : l.Describes f.Edge r) : ∀ q ∈ places f l d p, q.1 ∈ f.layout :=
  mem_layout_of_mem_places hready.wellFormed hready.entry hl hready.mem_layout d

/-- The blocks of all loops are in the body. -/
theorem mem_of_inLoop (hx : InLoop f.Edge r o x) : x ∈ f.layout :=
  Search.mem_layout_of_reaches hready.wellFormed hready.root_mem hx.reaches

/-- Splitting the preheader splits it off in the graph. -/
theorem splitsOff (hroom : f.capacity < 2 ^ 32) :
    SplitsOff f.Edge (LoopBarriers.isolate f p).Edge r p f.nextBlock :=
  splitsOff_isolate hready.wellFormed hroom hready.mem_layout hready.root_mem

/-- No block of the body has the next identifier. -/
theorem ne_nextBlock (hroom : f.capacity < 2 ^ 32) (hx : x ∈ f.layout) : x ≠ f.nextBlock :=
  fun hxn => hready.wellFormed.nextBlock_not_mem hroom (hxn ▸ hx)

end Ready

namespace Step

variable (hready : Ready f r h p) (hstep : Step f r h p f')
include hready hstep

/-- A visit leaves a well-formed function. -/
theorem wellFormed : f'.WellFormed := by
  cases hstep with
  | surround hl _ _ => exact hready.wellFormed.guardAll (hready.places_mem hl)
  | isolate hroom _ _ => exact wellFormed_isolate hready.wellFormed hroom hready.mem_layout
  | pass => exact hready.wellFormed

/-- A visit keeps the entry. -/
theorem entry : f'.entry? = some r := by
  cases hstep with
  | surround => exact Function.entry?_guardAll.trans hready.entry
  | isolate =>
      rw [Function.entry?_eq_head?, layout_isolate, head?_insertAfter hready.mem_layout]
      exact hready.entry
  | pass => exact hready.entry

omit hready in
/-- A visit keeps the blocks of the body. -/
theorem mem_layout (hx : x ∈ f.layout) : x ∈ f'.layout := by
  cases hstep with
  | surround => rwa [Function.layout_guardAll]
  | isolate =>
      rw [layout_isolate, mem_insertAfter]
      exact .inr hx
  | pass => exact hx

/-- A visit leaves the headers as they are. -/
theorem isHeader_iff : IsHeader f'.Edge r o ↔ IsHeader f.Edge r o := by
  cases hstep with
  | surround hl _ _ => rw [hready.wellFormed.edge_guardAll (hready.places_mem hl)]
  | isolate hroom _ _ => exact (hready.splitsOff hroom).isHeader_iff
  | pass => exact Iff.rfl

/-- The loops keep their blocks. -/
theorem inLoop_iff (hx : x ∈ f.layout) : InLoop f'.Edge r o x ↔ InLoop f.Edge r o x := by
  cases hstep with
  | surround hl _ _ => rw [hready.wellFormed.edge_guardAll (hready.places_mem hl)]
  | isolate hroom _ _ => exact (hready.splitsOff hroom).inLoop_iff (hready.ne_nextBlock hroom hx)
  | pass => exact Iff.rfl

/-- The loops keep their latches: a preheader is none, and so is what is split off it. -/
theorem isLatch_iff : IsLatch f'.Edge r o x ↔ IsLatch f.Edge r o x := by
  cases hstep with
  | surround hl _ _ => rw [hready.wellFormed.edge_guardAll (hready.places_mem hl)]
  | isolate hroom _ _ =>
      have hs := hready.splitsOff hroom
      by_cases ho : o = f.nextBlock
      · subst ho
        exact ⟨fun hl => absurd ⟨x, hl⟩ hs.not_isHeader, fun hl => absurd hl.edge (hs.no_edge_to x)⟩
      by_cases hxp : x = p
      · subst hxp
        exact ⟨fun hl => absurd hl hs.not_isLatch, fun hl => absurd hl hready.preheader.not_isLatch⟩
      by_cases hxn : x = f.nextBlock
      · subst hxn
        rw [hs.isLatch_new_iff ho]
        exact ⟨fun hl => absurd hl hready.preheader.not_isLatch,
          fun hl => absurd hl.edge (hs.no_edge_from o)⟩
      · exact hs.isLatch_iff ho hxn hxp
  | pass => exact Iff.rfl

/-- The loops keep their exiting blocks: no loop is left from a preheader. -/
theorem isExiting_iff : IsExiting f' r o x ↔ IsExiting f r o x := by
  cases hstep with
  | surround hl _ _ =>
      rw [IsExiting, IsExiting, hready.wellFormed.edge_guardAll (hready.places_mem hl),
        hready.wellFormed.next_guardAll (hready.places_mem hl)]
  | isolate hroom _ _ =>
      have hs := hready.splitsOff hroom
      have hnext := fun a => next_isolate hready.wellFormed hroom hready.mem_layout (a := a)
      rw [IsExiting, hnext]
      by_cases hxn : x = f.nextBlock
      · subst hxn
        rw [if_pos rfl, hready.preheader.next_eq, hs.inLoop_new_iff]
        constructor
        · rintro ⟨hin, y, hy, hout⟩
          rw [List.mem_singleton.mp hy,
            hs.inLoop_iff (hs.ne_of_reaches hready.header.reaches)] at hout
          exact absurd (hready.preheader.inLoop_header hin) hout
        · exact fun hexit => absurd rfl (hs.ne_of_reaches hexit.1.reaches)
      rw [if_neg hxn, hs.inLoop_iff hxn]
      by_cases hxp : x = p
      · subst hxp
        rw [if_pos rfl]
        constructor
        · rintro ⟨hin, y, hy, hout⟩
          rw [List.mem_singleton.mp hy, hs.inLoop_new_iff] at hout
          exact absurd hin hout
        · exact fun hexit => absurd hexit hready.preheader.not_isExiting
      rw [if_neg hxp, IsExiting]
      refine and_congr_right fun hin => exists_congr fun y => and_congr_right fun hy => ?_
      have hyl := hready.wellFormed.next_mem x (hready.mem_of_inLoop hin) y hy
      rw [hs.inLoop_iff (hready.ne_nextBlock hroom hyl)]
  | pass => exact Iff.rfl

/-- The other loops keep their preheaders. -/
theorem isPreheader_iff (ho : IsHeader f.Edge r o) (hne : o ≠ h) :
    IsPreheader f' r o q ↔ IsPreheader f r o q := by
  have hf := hready.wellFormed
  cases hstep with
  | @surround l d hl _ _ =>
      have hplaces := hready.places_mem (d := d) hl
      have hnext := hf.next_guardAll hplaces
      have hedge := hf.edge_guardAll hplaces
      exact ⟨isPreheader_congr hnext hedge, isPreheader_congr hnext.symm hedge.symm⟩
  | isolate hroom _ _ =>
      exact ⟨isPreheader_of_isolate hf hroom hready.root_mem hready.preheader ho hne,
        isPreheader_isolate hf hroom hready.root_mem hready.preheader ho hne⟩
  | pass => exact Iff.rfl

end Step

end LoopBarriers

/-! ### What a step does to blocks -/

/-- The blocks after guarding several places. -/
theorem Function.WellFormed.blockAt_guardAll {f : Function} {x : BlockId}
    {places : List (BlockId × Place)} (hf : f.WellFormed) (hp : ∀ q ∈ places, q.1 ∈ f.layout) :
    (f.guardAll places).blockAt x =
      (f.blockAt x).guardAll ((places.filter (·.1 = x)).map Prod.snd) := by
  induction places generalizing f with
  | nil => rfl
  | cons place places ih =>
      obtain ⟨hplace, hplaces⟩ := List.forall_mem_cons.mp hp
      have hrest : (f.guardAll (place :: places)).blockAt x =
          ((f.guard place.1 place.2).blockAt x).guardAll
            ((places.filter (·.1 = x)).map Prod.snd) := ih (hf.guard hplace) hplaces
      rw [hrest, hf.blockAt_guard hplace]
      by_cases hx : place.1 = x
      · rw [if_pos hx.symm, List.filter_cons_of_pos (by simpa using hx), hx]
        rfl
      · rw [if_neg (Ne.symm hx), List.filter_cons_of_neg (by simpa using hx)]

/-- The places of one block. -/
theorem mem_map_snd_filter {places : List (BlockId × Place)} {x : BlockId} {place : Place} :
    place ∈ (places.filter (·.1 = x)).map Prod.snd ↔ (x, place) ∈ places := by
  simp only [List.mem_map, List.mem_filter, decide_eq_true_eq]
  constructor
  · rintro ⟨⟨_, _⟩, ⟨hmem, rfl⟩, rfl⟩
    exact hmem
  · intro hmem
    exact ⟨(x, place), ⟨hmem, rfl⟩, rfl⟩

/-- Places that are guarded already are left alone. -/
theorem Function.WellFormed.guardAll_eq_self {f : Function} {places : List (BlockId × Place)}
    (hf : f.WellFormed) (hmem : ∀ q ∈ places, q.1 ∈ f.layout)
    (hall : ∀ q ∈ places, q.2.guard (f.blockAt q.1) = f.blockAt q.1) : f.guardAll places = f := by
  induction places with
  | nil => rfl
  | cons q places ih =>
      obtain ⟨hq, hmem⟩ := List.forall_mem_cons.mp hmem
      obtain ⟨hguarded, hall⟩ := List.forall_mem_cons.mp hall
      have hfirst : f.guard q.1 q.2 = f :=
        calc f.guard q.1 q.2
          _ = f.modifyBlock q.1 id := Function.modifyBlock_congr (hf.index_lt _ hq) hguarded
          _ = f := Function.modifyBlock_id
      rw [Function.guardAll, List.foldl_cons, hfirst]
      exact ih hmem hall

/-- Renaming a label keeps the kind of an instruction. -/
theorem Instruction.kind_renameIncoming {i : Instruction} {old new : BlockId} :
    (i.renameIncoming old new).kind = i.kind := by
  cases i <;> rfl

/-- Renaming a label keeps the shape of a block. -/
theorem Block.shape_relabel {b : Block} {old new : BlockId} :
    (b.relabel old new).shape = b.shape := by
  rw [shape, shape, relabel, List.map_map]
  exact List.map_congr_left fun i _ => Instruction.kind_renameIncoming

namespace LoopBarriers

namespace Ready

/-- The blocks after a preheader was split: its terminator is alone in the new block, and the
phis of the header choose by that. -/
theorem blockAt_isolate (hready : Ready f r h p) (hroom : f.capacity < 2 ^ 32)
    {init : List Instruction} {t : Instruction} (hb : (f.blockAt p).instructions = init ++ [t]) :
    (LoopBarriers.isolate f p).blockAt x =
      if x = f.nextBlock then ⟨f.nextBlock, (f.blockAt p).name ++ ".postbarrier_dummy", [t]⟩
      else if x = p then { f.blockAt p with instructions := init ++ [.branch f.nextBlock] }
      else if x = h then (f.blockAt h).relabel p f.nextBlock
      else f.blockAt x := by
  have hf := hready.wellFormed
  have hlen : (f.blockAt p).instructions.length - 1 = init.length := by simp [hb]
  have hnp : f.nextBlock ≠ p := hf.nextBlock_ne hroom hready.mem_layout
  have hph : p ≠ h := hready.preheader.ne_header hready.header
  have hhn : f.nextBlock ≠ h := (hready.ne_nextBlock hroom
    (hready.mem_of_inLoop hready.header.inLoop)).symm
  have hsplit : ∀ y, (f.split p ((f.blockAt p).instructions.length - 1)).blockAt y =
      if y = f.nextBlock then ⟨f.nextBlock, (f.blockAt p).name ++ ".split", [t]⟩
      else if y = p then { f.blockAt p with instructions := init ++ [.branch f.nextBlock] }
      else if y = h then (f.blockAt h).relabel p f.nextBlock
      else f.blockAt y := by
    intro y
    rw [hf.blockAt_split hroom hready.mem_layout, hf.blockAt_detach hroom hready.mem_layout,
      hready.preheader.next_eq, hlen, hb, List.take_left, List.drop_left]
    by_cases hyn : y = f.nextBlock
    · simp [hyn, hhn]
    by_cases hyp : y = p
    · simp [hyp, hph, hnp.symm]
    by_cases hyh : y = h
    · simp [hyh, hhn.symm, hph.symm]
    · simp [hyn, hyp, hyh]
  rw [LoopBarriers.isolate, Function.blockAt_modifyBlock index_nextBlock_lt_split, hsplit, hsplit,
    hsplit]
  by_cases hxn : x = f.nextBlock
  · simp [hxn, hnp.symm]
  · simp [hxn]

/-- Splitting a preheader keeps the blocks that are neither it nor the header, nor new. -/
theorem blockAt_isolate_of_ne (hready : Ready f r h p) (hroom : f.capacity < 2 ^ 32)
    (hxn : x ≠ f.nextBlock) (hxp : x ≠ p) (hxh : x ≠ h) :
    (LoopBarriers.isolate f p).blockAt x = f.blockAt x := by
  obtain ⟨init, t, hb, -⟩ :=
    Block.exists_eq_append (hready.wellFormed.terminated p hready.mem_layout)
  rw [hready.blockAt_isolate hroom hb, if_neg hxn, if_neg hxp, if_neg hxh]

end Ready

/-- A block that is guarded at its end ends with a barrier. -/
theorem Ready.endsWithBarrier_of_mem_places (hready : Ready f r h p) (hl : l.Describes f.Edge r)
    {mark : String} (hx : (x, .atEnd mark) ∈ places f l d p) :
    ((f.guardAll (places f l d p)).blockAt x).endsWithBarrier = true := by
  have hplaces := hready.places_mem (d := d) hl
  rw [hready.wellFormed.blockAt_guardAll hplaces]
  exact Block.endsWithBarrier_guardAll (hready.wellFormed.terminated x (hplaces _ hx))
    (mem_map_snd_filter.mpr hx)

namespace Step

variable (hready : Ready f r h p)
include hready

/-- A step without barriers in the loop keeps the shapes of all blocks. -/
theorem shape_isolate (hroom : f.capacity < 2 ^ 32) (hx : x ∈ f.layout) :
    ((LoopBarriers.isolate f p).blockAt x).shape = (f.blockAt x).shape := by
  obtain ⟨init, t, hb, ht⟩ := Block.exists_eq_append
    (hready.wellFormed.terminated p hready.mem_layout)
  rw [hready.blockAt_isolate hroom hb, if_neg (hready.ne_nextBlock hroom hx)]
  split
  · rename_i hxp
    subst hxp
    have hbranch : (Instruction.branch f.nextBlock).kind = .terminator := rfl
    simp [Block.shape, hb, Instruction.kind_eq_terminator_iff.mpr ht, hbranch]
  · split
    · rename_i hxh
      subst hxh
      exact Block.shape_relabel
    · rfl

/-- The block that is split off has no barrier. -/
theorem barrier_not_mem_nextBlock (hroom : f.capacity < 2 ^ 32) :
    .barrier ∉ ((LoopBarriers.isolate f p).blockAt f.nextBlock).instructions := by
  obtain ⟨init, t, hb, ht⟩ := Block.exists_eq_append
    (hready.wellFormed.terminated p hready.mem_layout)
  rw [hready.blockAt_isolate hroom hb, if_pos rfl, List.mem_singleton]
  rintro rfl
  cases ht

variable (hstep : Step f r h p f')
include hstep

/-- **What a turn can touch**: the places of a loop with a barrier. -/
theorem touched (hx : x ∈ f.layout) (hne : (f'.blockAt x).shape ≠ (f.blockAt x).shape) :
    HoldsBarrier f r h ∧ (x = p ∨ x = h ∨ (IsSoleExiting f r h x ∨ IsLatch f.Edge r h x) ∧
      (f'.blockAt x).endsWithBarrier = true) := by
  cases hstep with
  | @surround l d hl hh hholds =>
      subst hh
      refine ⟨hholds, ?_⟩
      obtain ⟨place, hplace⟩ : ∃ place, (x, place) ∈ places f l d p := by
        by_contra hnone
        refine hne ?_
        rw [hready.wellFormed.blockAt_guardAll (hready.places_mem hl),
          List.filter_eq_nil_iff.mpr fun q hq hqx => hnone ⟨q.2, ?_⟩]
        · rfl
        · rw [← of_decide_eq_true hqx]
          exact hq
      rcases of_mem_places hready.wellFormed hl hplace with ⟨hxp, -⟩ | ⟨hxh, -⟩ | ⟨hor, mark, rfl⟩
      · exact .inl hxp
      · exact .inr (.inl hxh)
      · exact .inr (.inr ⟨hor, hready.endsWithBarrier_of_mem_places hl hplace⟩)
  | isolate hroom _ _ => exact absurd (shape_isolate hready hroom hx) hne
  | pass => exact absurd rfl hne

/-- A block with a barrier is not new. -/
theorem mem_of_barrier (hx : x ∈ f'.layout) (hb : .barrier ∈ (f'.blockAt x).instructions) :
    x ∈ f.layout := by
  cases hstep with
  | surround => rwa [Function.layout_guardAll] at hx
  | isolate hroom _ _ =>
      rw [layout_isolate, mem_insertAfter] at hx
      refine hx.resolve_left ?_
      rintro rfl
      exact barrier_not_mem_nextBlock hready hroom hb
  | pass => exact hx

/-- What depends on the shape of a block and survives insertions is kept. -/
theorem keeps {P : Block → Prop} (hshape : ∀ {b b' : Block}, b'.shape = b.shape → P b → P b')
    (hgain : ∀ {b b' : Block}, b.Grows b' → P b → P b') (hx : x ∈ f.layout) (hP : P (f.blockAt x)) :
    P (f'.blockAt x) := by
  cases hstep with
  | surround hl _ _ =>
      rw [hready.wellFormed.blockAt_guardAll (hready.places_mem hl)]
      exact hgain (Block.grows_guardAll (hready.wellFormed.terminated x hx) _) hP
  | isolate hroom _ _ => exact hshape (shape_isolate hready hroom hx) hP
  | pass => exact hP

/-- A visit removes no barrier. -/
theorem barrier_mem (hx : x ∈ f.layout) (hb : .barrier ∈ (f.blockAt x).instructions) :
    .barrier ∈ (f'.blockAt x).instructions :=
  hstep.keeps hready (P := (.barrier ∈ ·.instructions))
    (fun hs hb => by rwa [Block.barrier_mem_iff, hs, ← Block.barrier_mem_iff])
    (fun hg hb => hg.sublist.mem hb) hx hb

/-- A block that ends with a barrier still does after a visit. -/
theorem endsWithBarrier (hx : x ∈ f.layout) (hb : (f.blockAt x).endsWithBarrier = true) :
    (f'.blockAt x).endsWithBarrier = true :=
  hstep.keeps hready (P := (·.endsWithBarrier = true))
    (fun hs => (Block.endsWithBarrier_eq_of_shape hs).trans) (fun hg => hg.endsWithBarrier) hx hb

/-- A header that is guarded behind its phis still is after a visit. -/
theorem phisGuarded (hx : x ∈ f.layout) (hb : (f.blockAt x).phisGuarded) :
    (f'.blockAt x).phisGuarded :=
  hstep.keeps hready (P := (·.phisGuarded)) (fun hs => (Block.phisGuarded_iff_of_shape hs).mpr)
    (fun hg => hg.phisGuarded) hx hb

end Step

/-! ### Runs -/

/-- The second function has the loops of the first, with their latches and exiting blocks. -/
structure SameLoops (f f' : Function) (r : BlockId) : Prop where
  mem_layout : ∀ x ∈ f.layout, x ∈ f'.layout
  isHeader_iff : ∀ o, IsHeader f'.Edge r o ↔ IsHeader f.Edge r o
  inLoop_iff : ∀ o, ∀ x ∈ f.layout, (InLoop f'.Edge r o x ↔ InLoop f.Edge r o x)
  isLatch_iff : ∀ o x, IsLatch f'.Edge r o x ↔ IsLatch f.Edge r o x
  isExiting_iff : ∀ o x, IsExiting f' r o x ↔ IsExiting f r o x

/-- A function has its own loops. -/
theorem SameLoops.refl (f : Function) (r : BlockId) : SameLoops f f r :=
  ⟨fun _ => id, fun _ => Iff.rfl, fun _ _ _ => Iff.rfl, fun _ _ => Iff.rfl, fun _ _ => Iff.rfl⟩

/-- The loops stay the same along two changes. -/
theorem SameLoops.trans {f'' : Function} (h : SameLoops f f' r) (h' : SameLoops f' f'' r) :
    SameLoops f f'' r where
  mem_layout x hx := h'.mem_layout x (h.mem_layout x hx)
  isHeader_iff o := (h'.isHeader_iff o).trans (h.isHeader_iff o)
  inLoop_iff o x hx := (h'.inLoop_iff o x (h.mem_layout x hx)).trans (h.inLoop_iff o x hx)
  isLatch_iff o x := (h'.isLatch_iff o x).trans (h.isLatch_iff o x)
  isExiting_iff o x := (h'.isExiting_iff o x).trans (h.isExiting_iff o x)

/-- The only exiting blocks are the same. -/
theorem SameLoops.isSoleExiting_iff (h : SameLoops f f' r) :
    IsSoleExiting f' r o x ↔ IsSoleExiting f r o x := by
  simp only [IsSoleExiting, h.isExiting_iff]

/-- The only latches are the same. -/
theorem SameLoops.isSoleLatch_iff (h : SameLoops f f' r) :
    IsSoleLatch f' r o x ↔ IsSoleLatch f r o x := by
  simp only [IsSoleLatch, h.isLatch_iff]

/-- A visit keeps all loops. -/
theorem Step.sameLoops (hready : Ready f r h p) (hstep : Step f r h p f') : SameLoops f f' r where
  mem_layout _ := hstep.mem_layout
  isHeader_iff _ := hstep.isHeader_iff hready
  inLoop_iff _ _ := hstep.inLoop_iff hready
  isLatch_iff _ _ := hstep.isLatch_iff hready
  isExiting_iff _ _ := hstep.isExiting_iff hready

namespace Steps

/-- The function before the visits is well-formed. -/
theorem wellFormed (hsteps : Steps r f hs f') : f.WellFormed := by
  cases hsteps with
  | done hf _ => exact hf
  | step hready _ _ => exact hready.wellFormed

/-- The entry is known before the visits. -/
theorem entry (hsteps : Steps r f hs f') : f.entry? = some r := by
  cases hsteps with
  | done _ hr => exact hr
  | step hready _ _ => exact hready.entry

/-- **What every turn keeps** is kept by a run. -/
theorem keeps {P : Function → Prop} (hsteps : Steps r f hs f')
    (hstep : ∀ {g g' : Function} {h p : BlockId}, h ∈ hs → Ready g r h p → Step g r h p g' →
      P g → P g') (hf : P f) : P f' := by
  induction hsteps with
  | done => exact hf
  | step hready hs _ ih =>
      exact ih (fun hmem => hstep (List.mem_cons_of_mem _ hmem))
        (hstep List.mem_cons_self hready hs hf)

/-- The function after the visits is well-formed and has the same entry. -/
theorem final (hsteps : Steps r f hs f') : f'.WellFormed ∧ f'.entry? = some r :=
  hsteps.keeps (P := fun g => g.WellFormed ∧ g.entry? = some r)
    (fun _ hready hstep _ => ⟨hstep.wellFormed hready, hstep.entry hready⟩)
    ⟨hsteps.wellFormed, hsteps.entry⟩

/-- The visits keep all loops. -/
theorem sameLoops (hsteps : Steps r f hs f') : SameLoops f f' r :=
  hsteps.keeps (P := (SameLoops f · r)) (fun _ hready hstep h => h.trans (hstep.sameLoops hready))
    (SameLoops.refl f r)

/-- The blocks of all loops are in the body before the visits. -/
theorem mem_of_inLoop (hsteps : Steps r f hs f') (hx : InLoop f.Edge r o x) : x ∈ f.layout :=
  Search.mem_layout_of_reaches hsteps.wellFormed (List.mem_of_head? hsteps.entry) hx.reaches

/-- A loop that has no turn keeps its preheader. -/
theorem isPreheader_iff (hsteps : Steps r f hs f') (ho : IsHeader f.Edge r o) (hnot : o ∉ hs) :
    IsPreheader f' r o q ↔ IsPreheader f r o q :=
  (hsteps.keeps (P := fun g => IsHeader g.Edge r o ∧ (IsPreheader g r o q ↔ IsPreheader f r o q))
    (fun hmem hready hstep ⟨ho, hiff⟩ => ⟨(hstep.isHeader_iff hready).mpr ho,
      (hstep.isPreheader_iff hready ho (fun heq => hnot (heq ▸ hmem))).trans hiff⟩)
    ⟨ho, Iff.rfl⟩).2

/-- A run in two parts. -/
theorem split {hs' : List BlockId} (hsteps : Steps r f (hs ++ hs') f') :
    ∃ g, Steps r f hs g ∧ Steps r g hs' f' := by
  induction hs generalizing f with
  | nil => exact ⟨f, .done hsteps.wellFormed hsteps.entry, hsteps⟩
  | cons h hs ih =>
      cases hsteps with
      | step hready hstep hrest =>
          obtain ⟨g, hg, hg'⟩ := ih hrest
          exact ⟨g, .step hready hstep hg, hg'⟩

end Steps

end LoopBarriers

end Lockstep
