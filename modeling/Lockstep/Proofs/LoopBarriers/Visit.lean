import Lockstep.LoopBarriers
import Lockstep.Proofs.Flow.LoopForest
import Lockstep.Proofs.Function.Edit
import Lockstep.Proofs.Pass

/-!
# Visiting a loop

What the visit of one loop does to a function, as a pure function of the function and of what is
known of its control flow. When all of that fits together, the computation ends as the pure
function says, and the result fits together again.

## Main results

* `LoopBarriers.processLoop_ends`: a visit changes the function as `LoopBarriers.visited` says, or
  fails because the loop has no preheader.
* `LoopBarriers.Sound.visited`: what is known of the control flow stays right.
-/

namespace Lockstep

/-! ### Guarding several places -/

namespace Function

variable {f : Function} {places : List (BlockId × Place)}

/-- The function with several places guarded, one after the other. -/
def guardAll (f : Function) (places : List (BlockId × Place)) : Function :=
  places.foldl (fun f place => f.guard place.1 place.2) f

/-- Places may be guarded in two rounds. -/
theorem guardAll_append {places' : List (BlockId × Place)} :
    f.guardAll (places ++ places') = (f.guardAll places).guardAll places' :=
  List.foldl_append

/-- Guarding some places adds no block to the arena. -/
@[simp]
theorem capacity_guardAll : (f.guardAll places).capacity = f.capacity := by
  induction places generalizing f with
  | nil => rfl
  | cons place places ih => exact ih.trans capacity_modifyBlock

/-- Guarding some places keeps the order of the body. -/
@[simp]
theorem layout_guardAll : (f.guardAll places).layout = f.layout := by
  induction places generalizing f with
  | nil => rfl
  | cons place places ih => exact ih

/-- Guarding some places keeps the entry. -/
@[simp]
theorem entry?_guardAll : Function.entry? (f.guardAll places) = f.entry? := by
  rw [entry?_eq_head?, entry?_eq_head?, layout_guardAll]

namespace WellFormed

/-- Guarding any places of blocks of the body keeps a function well-formed. -/
theorem guardAll (h : f.WellFormed) (hp : ∀ q ∈ places, q.1 ∈ f.layout) :
    (f.guardAll places).WellFormed := by
  induction places generalizing f with
  | nil => exact h
  | cons place places ih =>
      obtain ⟨hplace, hplaces⟩ := List.forall_mem_cons.mp hp
      exact ih (h.guard hplace) hplaces

/-- Guarding some places of the body keeps where its blocks branch to. -/
theorem next_guardAll (h : f.WellFormed) (hp : ∀ q ∈ places, q.1 ∈ f.layout) :
    (f.guardAll places).next = f.next := by
  induction places generalizing f with
  | nil => rfl
  | cons place places ih =>
      obtain ⟨hplace, hplaces⟩ := List.forall_mem_cons.mp hp
      exact (ih (h.guard hplace) hplaces).trans (h.next_guard hplace)

/-- Guarding some places of the body keeps the graph. -/
theorem edge_guardAll (h : f.WellFormed) (hp : ∀ q ∈ places, q.1 ∈ f.layout) :
    (f.guardAll places).Edge = f.Edge := by
  funext a b
  rw [Edge, Edge, h.next_guardAll hp, layout_guardAll]

end WellFormed

end Function

namespace LoopBarriers

variable {w : Work DominatorTree} {f : Function} {l : Loop} {r p a b : BlockId} {i : Nat}
  {detail : Detail}

/-! ### The visit as a pure function -/

/-- The latches that get a barrier: the only one unless that is the exiting block too, and
otherwise those that the barrier of the loop dominates. -/
def latchesToGuard (f : Function) (l : Loop) (dominated : BlockId → Bool) : List BlockId :=
  match sole? (l.latchList f) with
  | some latch => if some latch = l.soleExiting f then [] else [latch]
  | none => (l.latchList f).filter dominated

/-- The places that are guarded in and around a loop with a barrier. -/
def places (f : Function) (l : Loop) (dominated : BlockId → Bool) (preheader : BlockId) :
    List (BlockId × Place) :=
  (preheader, .atEnd ".loopbarrier") :: (l.header, .behindPhis) ::
    ((l.soleExiting f).toList.map (·, .atEnd ".brexitbarrier") ++
      (latchesToGuard f l dominated).map (·, .atEnd ".latchbarrier"))

/-- The first of some blocks that holds a barrier. -/
def firstBarrier? (f : Function) (blocks : List BlockId) : Option BlockId :=
  blocks.find? fun a => (f.blockAt a).barrierIndex?.isSome

/-- The answer of a dominator tree. -/
def dominated (t : DominatorTree) (a b : BlockId) : Bool :=
  match t.dominates a b with
  | .ok v => v
  | .error _ => false

/-- The function with the terminator of a block moved to a new block behind it. -/
def isolate (f : Function) (p : BlockId) : Function :=
  let g := f.split p ((f.blockAt p).instructions.length - 1)
  g.modifyBlock f.nextBlock ({ · with name := (g.blockAt p).name ++ ".postbarrier_dummy" })

/-- What the visit of a loop with that preheader leaves. -/
def visited (w : Work DominatorTree) (l : Loop) (preheader : BlockId) : Work DominatorTree :=
  match firstBarrier? w.function l.blocks with
  | some barrier =>
      { w with
        function := w.function.guardAll
          (places w.function l (dominated w.dominance barrier) preheader) }
  | none =>
      if (w.function.blockAt preheader).endsWithBarrier then
        { function := isolate w.function preheader
          loops := w.loops.addBlockLike preheader w.function.nextBlock
          dominance := w.dominance.addSplitBlock preheader w.function.nextBlock }
      else w

/-! ### Guarding a place -/

/-- In a well-formed function a barrier can be inserted before the terminator of any block of the
body. -/
theorem insertBarrierAtEnd_eq (h : f.WellFormed) (ha : a ∈ f.layout) :
    f.insertBarrierAtEnd a =
      .ok (f.modifyBlock a (·.insert ((f.blockAt a).instructions.length - 1) .barrier)) := by
  obtain ⟨init, t, hb, ht⟩ := Block.exists_eq_append (h.terminated a ha)
  have hlen : (f.blockAt a).instructions.length - 1 = init.length := by simp [hb]
  have hle : init.length ≤ (f.blockAt a).instructions.length := by simp [hb]
  rw [Function.insertBarrierAtEnd, h.block_eq ha]
  simp only [liftM, monadLift, MonadLift.monadLift, bind, Except.bind, Except.mapError,
    Block.terminatorIndex?_of_append hb ht, Function.insertBarrier, h.block_eq ha, if_pos hle, hlen]
  rfl

/-- Making sure of a barrier at the end of a block. -/
theorem ensureBarrierAtEnd_ends (h : w.function.WellFormed) (ha : a ∈ w.function.layout)
    (mark : String) :
    (ensureBarrierAtEnd a mark).Ends detail w (.ok !(w.function.blockAt a).endsWithBarrier)
      { w with function := w.function.guard a (.atEnd mark) } := by
  have hlt := h.index_lt a ha
  refine .bind .get (.bind (.lift (a := (w.function.blockAt a).endsWithBarrier) ?_) ?_)
  · rw [Function.endsWithBarrier, h.block_eq ha]
    rfl
  cases hends : (w.function.blockAt a).endsWithBarrier with
  | true =>
      have hid : (Place.atEnd mark).guard (w.function.blockAt a) = id (w.function.blockAt a) := by
        rw [Place.guard, if_pos hends]
        rfl
      rw [Function.guard, Function.modifyBlock_congr hlt hid, Function.modifyBlock_id]
      exact .bind (.log (by rw [h.block_eq ha]; rfl)) (.pure false)
  | false =>
      have hguard : (Place.atEnd mark).guard (w.function.blockAt a) =
          ((·.addSuffix mark) ∘
            (·.insert ((w.function.blockAt a).instructions.length - 1) .barrier))
              (w.function.blockAt a) := by
        rw [Place.guard, if_neg (by rw [hends]; decide)]
        rfl
      rw [Function.guard, Function.modifyBlock_congr hlt hguard, ← Function.modifyBlock_modifyBlock]
      refine .bind (.lift (insertBarrierAtEnd_eq h ha)) (.bind (.lift
        (Function.updateBlock_eq ?_)) (.bind ⟨rfl, rfl⟩ (.bind (.log (by
          rw [Function.block_of_lt]
          · rfl
          · simpa using hlt)) (.pure true))))
      simpa using hlt

/-- Making sure of a barrier behind the phis of a block. -/
theorem ensureBarrierBehindPhis_ends (h : w.function.WellFormed) (ha : a ∈ w.function.layout) :
    (ensureBarrierBehindPhis a).Ends detail w (.ok !decide (w.function.blockAt a).phisGuarded)
      { w with function := w.function.guard a .behindPhis } := by
  have hlt := h.index_lt a ha
  refine .bind .get (.bind (.lift (h.block_eq ha)) ?_)
  by_cases hguarded : (w.function.blockAt a).phisGuarded
  · have hid : Place.behindPhis.guard (w.function.blockAt a) = id (w.function.blockAt a) := by
      rw [Place.guard, if_pos hguarded]
      rfl
    rw [Function.guard, Function.modifyBlock_congr hlt hid, Function.modifyBlock_id,
      decide_eq_true hguarded]
    rw [Block.phisGuarded] at hguarded
    simp only [if_pos hguarded]
    exact .pure false
  · have hguard : Place.behindPhis.guard (w.function.blockAt a) =
        ((·.addSuffix ".phibarrier") ∘ (·.insert (w.function.blockAt a).firstNonPhi .barrier))
          (w.function.blockAt a) := by
      rw [Place.guard, if_neg hguarded]
      rfl
    have hle : (w.function.blockAt a).firstNonPhi ≤ (w.function.blockAt a).instructions.length :=
      List.findIdx_le_length
    have hinsert : w.function.insertBarrier a (w.function.blockAt a).firstNonPhi =
        .ok (w.function.modifyBlock a
          (·.insert (w.function.blockAt a).firstNonPhi .barrier)) := by
      rw [Function.insertBarrier, h.block_eq ha]
      simp only [bind, Except.bind, if_pos hle]
      rfl
    rw [Function.guard, Function.modifyBlock_congr hlt hguard, ← Function.modifyBlock_modifyBlock,
      decide_eq_false hguarded]
    rw [Block.phisGuarded] at hguarded
    simp only [if_neg hguarded]
    exact .bind (.lift hinsert) (.bind (.lift (Function.updateBlock_eq (by simpa using hlt)))
      (.bind ⟨rfl, rfl⟩ (.pure true)))

/-! ### Guarding a loop -/

/-- A function whose control flow is known: it is well-formed, and tree and loops are right. -/
structure Sound (w : Work DominatorTree) (r : BlockId) : Prop where
  wellFormed : w.function.WellFormed
  entry : w.function.entry? = some r
  tree : w.dominance.Correct w.function r
  forest : w.loops.Describes w.function.Edge r

/-- The latches that are guarded: the only one, or dominated ones. -/
theorem of_mem_latchesToGuard (hf : f.WellFormed) (hl : l.Describes f.Edge r)
    {d : BlockId → Bool} (ha : a ∈ latchesToGuard f l d) :
    IsSoleLatch f r l.header a ∨ IsLatch f.Edge r l.header a ∧ d a = true := by
  rw [latchesToGuard] at ha
  split at ha
  · rename_i latch hsole
    split at ha
    · exact absurd ha List.not_mem_nil
    · rw [List.mem_singleton.mp ha]
      exact .inl ((hl.sole?_latchList hf).mp hsole)
  · obtain ⟨hmem, hdom⟩ := List.mem_filter.mp ha
    exact .inr ⟨hl.mem_latchList.mp hmem, hdom⟩

/-- The latches that get a barrier are latches. -/
theorem isLatch_of_mem_latchesToGuard (hf : f.WellFormed) (hl : l.Describes f.Edge r)
    {d : BlockId → Bool} (ha : a ∈ latchesToGuard f l d) : IsLatch f.Edge r l.header a :=
  (of_mem_latchesToGuard hf hl ha).elim (·.1) (·.1)

/-- **What is guarded**: the preheader, the header, the only exiting block, and latches. -/
theorem of_mem_places (hf : f.WellFormed) (hl : l.Describes f.Edge r) {d : BlockId → Bool}
    {place : Place} (h : (a, place) ∈ places f l d p) :
    a = p ∧ place = .atEnd ".loopbarrier" ∨ a = l.header ∧ place = .behindPhis ∨
      (IsSoleExiting f r l.header a ∨ IsLatch f.Edge r l.header a) ∧
        ∃ mark, place = .atEnd mark := by
  simp only [places, List.mem_cons, List.mem_append, List.mem_map, Option.mem_toList,
    Prod.mk.injEq] at h
  rcases h with h | h | ⟨x, hx, rfl, rfl⟩ | ⟨x, hx, rfl, rfl⟩
  · exact .inl h
  · exact .inr (.inl h)
  · exact .inr (.inr ⟨.inl (hl.soleExiting_eq_some.mp hx), _, rfl⟩)
  · exact .inr (.inr ⟨.inr (isLatch_of_mem_latchesToGuard hf hl hx), _, rfl⟩)

/-- Only blocks of the body are guarded. -/
theorem mem_layout_of_mem_places (hf : f.WellFormed) (hr : f.entry? = some r)
    (hl : l.Describes f.Edge r) (hp : p ∈ f.layout) (d : BlockId → Bool) :
    ∀ q ∈ places f l d p, q.1 ∈ f.layout := by
  rintro ⟨a, place⟩ hq
  rcases of_mem_places hf hl hq with ⟨rfl, -⟩ | ⟨rfl, -⟩ | ⟨hexit | hlatch, -⟩
  · exact hp
  · exact hl.header_mem_layout hf hr
  · exact Search.mem_layout_of_reaches hf (List.mem_of_head? hr) hexit.1.1.reaches
  · exact hlatch.edge.1

/-- Visiting latches guards those that the barrier dominates. -/
theorem foldlM_visitLatch_ends {latches : List BlockId} (h : w.function.WellFormed)
    (hlatches : ∀ x ∈ latches, x ∈ w.function.layout)
    (hdom : ∀ x, ∃ v, w.dominance.dominates b x = .ok v) (detail : Detail) (changed : Bool) :
    ∃ changed', (latches.foldlM (visitLatch b) changed).Ends detail w (.ok changed')
      { w with
        function := w.function.guardAll
          ((latches.filter (dominated w.dominance b)).map (·, .atEnd ".latchbarrier")) } := by
  induction latches generalizing w changed with
  | nil => exact ⟨changed, .pure changed⟩
  | cons x latches ih =>
      obtain ⟨hx, hrest⟩ := List.forall_mem_cons.mp hlatches
      obtain ⟨v, hv⟩ := hdom x
      have hdominated : dominated w.dominance b x = v := by rw [dominated, hv]
      cases v with
      | true =>
          rw [List.filter_cons_of_pos hdominated, List.map_cons]
          obtain ⟨changed', hends⟩ := ih
            (w := { w with function := w.function.guard x (.atEnd ".latchbarrier") })
            (h.guard hx) hrest hdom
            (!(w.function.blockAt x).endsWithBarrier || changed)
          refine ⟨changed', ?_⟩
          rw [List.foldlM_cons]
          refine .bind ?_ hends
          exact .bind .get (.bind (.lift hv)
            (.bind (ensureBarrierAtEnd_ends h hx ".latchbarrier") (.pure _)))
      | false =>
          rw [List.filter_cons_of_neg (by rw [hdominated]; decide)]
          obtain ⟨changed', hends⟩ := ih h hrest hdom changed
          refine ⟨changed', ?_⟩
          rw [List.foldlM_cons]
          refine .bind ?_ hends
          exact .bind .get (.bind (.lift hv) (.bind (.log (by rw [h.block_eq hx]; rfl)) (.pure _)))

/-- Latches and exiting block depend on the branches only. -/
theorem latchList_congr {f' : Function} (hlayout : f'.layout = f.layout)
    (hnext : f'.next = f.next) : l.latchList f' = l.latchList f := by
  rw [Loop.latchList, Loop.latchList, hlayout, hnext]

/-- The only exiting block depends on the branches alone. -/
theorem soleExiting_congr {f' : Function} (hnext : f'.next = f.next) :
    l.soleExiting f' = l.soleExiting f := by
  rw [Loop.soleExiting, Loop.soleExiting, hnext]

/-- The latches that get a barrier depend on the branches and the order of the body alone. -/
theorem latchesToGuard_congr {f' : Function} {d : BlockId → Bool} (hnext : f'.next = f.next)
    (hlayout : f'.layout = f.layout) : latchesToGuard f' l d = latchesToGuard f l d := by
  rw [latchesToGuard, latchesToGuard, latchList_congr hlayout hnext, soleExiting_congr hnext]

/-- The last part of the work on a loop with a barrier: the latches are guarded. -/
theorem guardLatches_ends (hf : w.function.WellFormed)
    (hl : l.Describes w.function.Edge r) (hdom : ∀ x, ∃ v, w.dominance.dominates b x = .ok v)
    (detail : Detail) (changed : Bool) :
    ∃ changed', (guardLatches l b (l.soleExiting w.function) changed).Ends detail w (.ok changed')
      { w with
        function := w.function.guardAll
          ((latchesToGuard w.function l (dominated w.dominance b)).map
            (·, .atEnd ".latchbarrier")) } := by
  have hlatch : ∀ x ∈ l.latchList w.function, x ∈ w.function.layout := fun x hx =>
    (hl.mem_latchList.mp hx).edge.1
  rw [latchesToGuard]
  cases hsole : sole? (l.latchList w.function) with
  | some latch =>
      have hmem : latch ∈ w.function.layout := ((hl.sole?_latchList hf).mp hsole).1.edge.1
      by_cases hexit : some latch = l.soleExiting w.function
      · refine ⟨changed, .bind .get (.bind (.lift (Loop.Describes.latch?_eq l hf)) ?_)⟩
        simp only [hsole, if_pos hexit]
        exact .pure changed
      · refine ⟨!(w.function.blockAt latch).endsWithBarrier || changed,
          .bind .get (.bind (.lift (Loop.Describes.latch?_eq l hf)) ?_)⟩
        simp only [hsole, if_neg hexit]
        exact .bind (ensureBarrierAtEnd_ends hf hmem ".latchbarrier") (.pure _)
  | none =>
      obtain ⟨changed', hends⟩ := foldlM_visitLatch_ends hf hlatch hdom detail changed
      refine ⟨changed', .bind .get (.bind (.lift (Loop.Describes.latch?_eq l hf)) ?_)⟩
      simp only [hsole]
      exact .bind .get (.bind (.lift (Loop.Describes.latches_eq l hf)) hends)

/-- The work on a loop with a barrier from the exiting block on. Guarding that block leaves the
latches as they are. -/
theorem guardExits_ends (hf : w.function.WellFormed) (hr : w.function.entry? = some r)
    (hl : l.Describes w.function.Edge r) (hdom : ∀ x, ∃ v, w.dominance.dominates b x = .ok v)
    (detail : Detail) (changed : Bool) :
    ∃ changed', (guardExits l b changed).Ends detail w (.ok changed')
      { w with
        function := (w.function.guardAll
          ((l.soleExiting w.function).toList.map (·, .atEnd ".brexitbarrier"))).guardAll
          ((latchesToGuard w.function l (dominated w.dominance b)).map
            (·, .atEnd ".latchbarrier")) } := by
  have hexiting := hl.exitingBlock?_eq hf hr
  have hexit : ∀ x, l.soleExiting w.function = some x → x ∈ w.function.layout := fun x hx =>
    Search.mem_layout_of_reaches hf (List.mem_of_head? hr)
      (hl.soleExiting_eq_some.mp hx).1.1.reaches
  cases hx : l.soleExiting w.function with
  | none =>
      obtain ⟨changed', hlatches⟩ := guardLatches_ends hf hl hdom detail (changed || false)
      rw [hx] at hlatches hexiting
      exact ⟨changed', .bind .get (.bind (.lift hexiting) (.bind (.pure false) hlatches))⟩
  | some x =>
      have hmem := hexit x hx
      have hnext : (w.function.guard x (.atEnd ".brexitbarrier")).next = w.function.next :=
        hf.next_guard hmem
      obtain ⟨changed', hlatches⟩ := guardLatches_ends
        (w := { w with function := w.function.guard x (.atEnd ".brexitbarrier") })
        (hf.guard hmem) ((hf.edge_guard hmem).symm ▸ hl) hdom detail
        (changed || !(w.function.blockAt x).endsWithBarrier)
      rw [soleExiting_congr hnext, hx, latchesToGuard_congr hnext rfl] at hlatches
      rw [hx] at hexiting
      exact ⟨changed', .bind .get (.bind (.lift hexiting)
        (.bind (ensureBarrierAtEnd_ends hf hmem ".brexitbarrier") hlatches))⟩

/-- **A loop with a barrier.** All places are guarded. The graph is the same after the first two
steps, so the other places are those of the beginning. -/
theorem surround_ends (hw : Sound w r) (hl : l.Describes w.function.Edge r)
    (hp : p ∈ w.function.layout) (hb : b ∈ w.function.layout) (detail : Detail) :
    ∃ changed, (surround l p b).Ends detail w (.ok changed)
      { w with
        function := w.function.guardAll (places w.function l (dominated w.dominance b) p) } := by
  have hf := hw.wellFormed
  have hh := hl.header_mem_layout hf hw.entry
  have hdom : ∀ x, ∃ v, w.dominance.dominates b x = .ok v := fun x => by
    obtain ⟨v, hv, -⟩ := hw.tree.dominates_eq_ok hf hw.entry b x
    exact ⟨v, hv⟩
  have hf₁ : (w.function.guard p (.atEnd ".loopbarrier")).WellFormed := hf.guard hp
  have hf₂ : ((w.function.guard p (.atEnd ".loopbarrier")).guard l.header .behindPhis).WellFormed :=
    hf₁.guard hh
  have hnext : ((w.function.guard p (.atEnd ".loopbarrier")).guard l.header .behindPhis).next =
      w.function.next := (hf₁.next_guard hh).trans (hf.next_guard hp)
  have hedge : ((w.function.guard p (.atEnd ".loopbarrier")).guard l.header .behindPhis).Edge =
      w.function.Edge := (hf₁.edge_guard hh).trans (hf.edge_guard hp)
  obtain ⟨changed, hends⟩ := guardExits_ends
    (w := { w with
      function := (w.function.guard p (.atEnd ".loopbarrier")).guard l.header .behindPhis })
    hf₂ hw.entry (hedge.symm ▸ hl) hdom detail (!(w.function.blockAt p).endsWithBarrier ||
      !decide ((w.function.guard p (.atEnd ".loopbarrier")).blockAt l.header).phisGuarded)
  rw [soleExiting_congr hnext, latchesToGuard_congr hnext rfl] at hends
  have hplaces : w.function.guardAll (places w.function l (dominated w.dominance b) p) =
      (((w.function.guard p (.atEnd ".loopbarrier")).guard l.header .behindPhis).guardAll
        ((l.soleExiting w.function).toList.map (·, .atEnd ".brexitbarrier"))).guardAll
        ((latchesToGuard w.function l (dominated w.dominance b)).map
          (·, .atEnd ".latchbarrier")) := by
    rw [← Function.guardAll_append]
    rfl
  rw [hplaces]
  exact ⟨changed, .bind .get (.bind (.log (by rw [hf.block_eq hh, hf.block_eq hb]; rfl))
    (.bind (.log (by rw [hf.block_eq hp]; rfl))
      (.bind (ensureBarrierAtEnd_ends hf hp ".loopbarrier")
        (.bind (ensureBarrierBehindPhis_ends hf₁ hh) hends))))⟩

/-! ### Isolating a loop without a barrier -/

/-- What is known of a preheader that ends with a barrier: its terminator stands behind it. -/
theorem terminatorIndex?_eq (h : f.WellFormed) (hp : p ∈ f.layout) :
    (f.blockAt p).terminatorIndex? = some ((f.blockAt p).instructions.length - 1) := by
  rw [Block.terminatorIndex?, if_pos (h.terminated p hp)]

/-- A block of the body has a last instruction. -/
theorem length_pred_lt (h : f.WellFormed) (hp : p ∈ f.layout) :
    (f.blockAt p).instructions.length - 1 < (f.blockAt p).instructions.length := by
  obtain ⟨init, t, hb, -⟩ := Block.exists_eq_append (h.terminated p hp)
  simp [hb]

/-- Splitting a preheader adds one block to the arena. -/
@[simp]
theorem capacity_isolate : (isolate f p).capacity = f.capacity + 1 := by
  rw [isolate, Function.capacity_modifyBlock, Function.capacity_split]

/-- The new block of a split is in the arena. -/
theorem index_nextBlock_lt_split {k : Nat} : f.nextBlock.index < (f.split p k).capacity := by
  rw [Function.capacity_split]
  exact Nat.lt_succ_of_le Function.index_nextBlock_le

/-- **A loop without a barrier** whose preheader ends with one: the preheader is split. -/
theorem isolatePreheader_ends (h : w.function.WellFormed) (hp : p ∈ w.function.layout)
    (hends : (w.function.blockAt p).endsWithBarrier = true) (detail : Detail) :
    (isolatePreheader p).Ends detail w (.ok true)
      { function := isolate w.function p
        loops := w.loops.addBlockLike p w.function.nextBlock
        dominance := w.dominance.addSplitBlock p w.function.nextBlock } := by
  have hk := length_pred_lt h hp
  have hp' : p.index < (w.function.split p
      ((w.function.blockAt p).instructions.length - 1)).capacity := by
    rw [Function.capacity_split]
    exact Nat.lt_succ_of_lt (h.index_lt p hp)
  refine .bind .get (.bind (.lift (h.block_eq hp)) ?_)
  simp only [hends, terminatorIndex?_eq h hp]
  exact .bind (.lift (h.splitBlock_eq hp hk)) (.bind (.log rfl)
    (.bind (.lift (Function.block_of_lt hp'))
      (.bind (.lift (Function.updateBlock_eq index_nextBlock_lt_split))
        (.bind (.set _) (.bind (.log rfl) (.pure true))))))

/-- A preheader that does not end with a barrier is left as it is, and no change is reported. -/
theorem isolatePreheader_ends_of_not (h : w.function.WellFormed) (hp : p ∈ w.function.layout)
    (hends : (w.function.blockAt p).endsWithBarrier = false) (detail : Detail) :
    (isolatePreheader p).Ends detail w (.ok false) w := by
  refine .bind .get (.bind (.lift (h.block_eq hp)) ?_)
  simp only [hends]
  exact .pure false

/-! ### The visit -/

/-- The search for a block with a barrier succeeds and finds the first one. -/
theorem barrierBlock?_eq (h : f.WellFormed) {blocks : List BlockId}
    (hblocks : ∀ a ∈ blocks, a ∈ f.layout) :
    barrierBlock? f blocks = .ok (firstBarrier? f blocks) := by
  have hfind : firstBarrier? f blocks = blocks.findSome? fun a =>
      if (f.blockAt a).barrierIndex?.isSome then some a else none := by
    rw [firstBarrier?, List.find?_eq_findSome?_guard]
    congr 1
  rw [hfind]
  exact findSomeM?_ok fun a ha => by rw [h.block_eq (hblocks a ha)]; rfl

section

variable {out : Except Stop Bool} {w' : Work DominatorTree} {detail : Detail}
  (hi : w.loops.get? i = some l) (hpre : l.preheader? w.function = .ok (some p))
include hi hpre

/-- The visit of a loop with a barrier. -/
theorem processLoop_ends_of_surround (hbarrier : barrierBlock? w.function l.blocks = .ok (some b))
    (hends : (surround l p b).Ends detail w out w') : (processLoop i).Ends detail w out w' := by
  refine .bind .get ?_
  simp only [hi]
  exact .bind (.lift hpre) (.bind (.lift hbarrier) hends)

/-- The visit of a loop without one. -/
theorem processLoop_ends_of_isolate (hbarrier : barrierBlock? w.function l.blocks = .ok none)
    (hends : (isolatePreheader p).Ends detail w out w') : (processLoop i).Ends detail w out w' := by
  refine .bind .get ?_
  simp only [hi]
  exact .bind (.lift hpre) (.bind (.lift hbarrier) hends)

end

/-- **The visit of a loop** that has a preheader changes the function as the pure function says,
and what is known of its control flow with it. -/
theorem processLoop_ends (hw : Sound w r) (hi : w.loops.get? i = some l)
    (hp : l.soleEntry w.function = some p) (detail : Detail) :
    ∃ changed, (processLoop i).Ends detail w (.ok changed) (visited w l p) := by
  have hf := hw.wellFormed
  have hl := hw.forest.loop l (List.mem_of_getElem? hi)
  have hpl : p ∈ w.function.layout := ((hl.soleEntry_eq_some hf).mp hp).edge.1
  have hblocks : ∀ a ∈ l.blocks, a ∈ w.function.layout := fun a ha => hl.mem_layout hf hw.entry ha
  have hpre := Loop.Describes.preheader?_eq l hf
  have hbarrier := barrierBlock?_eq hf hblocks
  rw [hp] at hpre
  rw [visited]
  cases hb : firstBarrier? w.function l.blocks with
  | some b =>
      rw [hb] at hbarrier
      obtain ⟨changed, hends⟩ := surround_ends hw hl hpl
        (hblocks b (List.mem_of_find?_eq_some hb)) detail
      exact ⟨changed, processLoop_ends_of_surround hi hpre hbarrier hends⟩
  | none =>
      rw [hb] at hbarrier
      cases hends : (w.function.blockAt p).endsWithBarrier with
      | true =>
          exact ⟨true, processLoop_ends_of_isolate hi hpre hbarrier
            (isolatePreheader_ends hf hpl hends detail)⟩
      | false =>
          exact ⟨false, processLoop_ends_of_isolate hi hpre hbarrier
            (isolatePreheader_ends_of_not hf hpl hends detail)⟩

/-- There is nothing to visit under an index without a loop. -/
theorem processLoop_ends_of_unknown (hi : w.loops.get? i = none) (detail : Detail) :
    (processLoop i).Ends detail w
      (.error (.error (.invalidIr w.function.name (.unknownLoop i)))) w := by
  refine .bind .get ?_
  simp only [hi]
  exact .fail _

/-- The visit of a loop without a preheader fails and changes nothing. -/
theorem processLoop_ends_of_none (hw : Sound w r) (hi : w.loops.get? i = some l)
    (hp : l.soleEntry w.function = none) (detail : Detail) :
    (processLoop i).Ends detail w (.error (.error (.nonCanonicalLoop w.function.name
      (w.function.blockAt l.header).name))) w := by
  have hf := hw.wellFormed
  have hl := hw.forest.loop l (List.mem_of_getElem? hi)
  have hpre := Loop.Describes.preheader?_eq l hf
  rw [hp] at hpre
  refine .bind .get ?_
  simp only [hi]
  exact .bind (.lift hpre) (.bind (.lift (hf.block_eq (hl.header_mem_layout hf hw.entry)))
    (.fail _))

/-! ### What is known afterwards -/

/-- The control flow is still known when places of the body have been guarded. -/
theorem Sound.guardAll (hw : Sound w r) {places : List (BlockId × Place)}
    (hp : ∀ q ∈ places, q.1 ∈ w.function.layout) :
    Sound { w with function := w.function.guardAll places } r where
  wellFormed := hw.wellFormed.guardAll hp
  entry := Function.entry?_guardAll.trans hw.entry
  tree := hw.tree.of_edge_iff Function.capacity_guardAll (hw.wellFormed.edge_guardAll hp)
  forest := (hw.wellFormed.edge_guardAll hp).symm ▸ hw.forest

section Isolate

variable (h : f.WellFormed) (hroom : f.capacity < 2 ^ 32) (hp : p ∈ f.layout)
include h hroom hp

/-- Splitting a preheader leaves a well-formed function. -/
theorem wellFormed_isolate : (isolate f p).WellFormed := by
  have hs := h.split hroom hp (length_pred_lt h hp)
  refine hs.modifyBlock index_nextBlock_lt_split rfl rfl fun _ i hi x hx => ?_
  exact hs.label_mem _ (Function.mem_layout_split.mpr (.inl rfl)) i hi x hx

/-- The preheader branches to the new block, which branches to where the preheader did before. -/
theorem next_isolate : (isolate f p).next a =
    if a = f.nextBlock then f.next p else if a = p then [f.nextBlock] else f.next a := by
  have hrenamed : (isolate f p).next = (f.split p _).next :=
    Function.next_modifyBlock index_nextBlock_lt_split rfl
  rw [hrenamed]
  exact h.next_split hroom hp (length_pred_lt h hp)

/-- Splitting a preheader splits it off in the graph. -/
theorem splitsOff_isolate (hr : r ∈ f.layout) :
    SplitsOff f.Edge (isolate f p).Edge r p f.nextBlock := by
  have hrenamed : (isolate f p).Edge = (f.split p _).Edge :=
    Function.edge_modifyBlock index_nextBlock_lt_split rfl
  rw [hrenamed]
  exact h.splitsOff hroom hp (length_pred_lt h hp) hr

end Isolate

/-- The new block stands behind the preheader. -/
@[simp]
theorem layout_isolate : (isolate f p).layout = insertAfter p f.nextBlock f.layout := by
  rw [isolate, Function.layout_modifyBlock, Function.layout_split]

/-- **What is known stays right**, as long as the arena has an identifier for every block. -/
theorem Sound.visited (hw : Sound w r) (hl : l ∈ w.loops.loops)
    (hp : l.soleEntry w.function = some p)
    (hfits : (visited w l p).function.capacity ≤ 2 ^ 32) : Sound (visited w l p) r := by
  have hf := hw.wellFormed
  have hd := hw.forest.loop l hl
  have hpl : p ∈ w.function.layout := ((hd.soleEntry_eq_some hf).mp hp).edge.1
  rw [LoopBarriers.visited] at hfits ⊢
  split
  · exact hw.guardAll (mem_layout_of_mem_places hf hw.entry hd hpl _)
  · rename_i hnone
    simp only [hnone] at hfits
    split
    · rename_i hends
      rw [if_pos hends, capacity_isolate] at hfits
      have hroom : w.function.capacity < 2 ^ 32 := hfits
      have hs := splitsOff_isolate hf hroom hpl (List.mem_of_head? hw.entry)
      refine ⟨wellFormed_isolate hf hroom hpl, ?_, ?_, hw.forest.addBlockLike hs⟩
      · rw [Function.entry?_eq_head?, layout_isolate, head?_insertAfter hpl]
        exact hw.entry
      · exact hw.tree.addSplitBlock hs (Function.WellFormed.index_nextBlock hroom)
          capacity_isolate
    · exact hw

end LoopBarriers

end Lockstep
