import Lockstep.Proofs.LoopBarriers.Guarantees
import Lockstep.Proofs.Report
import Mathlib.Data.Prod.Lex
import Mathlib.Order.Basic

/-!
# Whether anything changed

The pass says whether it changed the module. What it changes makes functions grow, in the number of
their blocks or, with as many blocks, in the number of their instructions. So a module that was
changed is another one, and what the pass says is exact. When it says that nothing changed, no visit
of a loop has changed anything. A visit that changes nothing has found all barriers in place.

Nothing is asked of the sizes of arenas here. Even a split that runs out of identifiers adds a
block.

## Main results

* `LoopBarriers.processLoop_reports`: what the visit of a loop says is true.
* `Pipeline.runLoopBarriers_reports`: so is what the pass says.
* `LoopBarriers.finished_of_visited_eq`: a loop that is visited and left alone is finished.
* `Pipeline.runLoopBarriers_changed_iff`: the pass says that nothing changed exactly when nothing
  did, and then all loops are finished.
-/

namespace Lockstep

/-! ### The weight of a function -/

namespace Function

variable {f g : Function} {a new : BlockId} {e : Block → Block} {k : Nat}

/-- The number of instructions in the arena. -/
def size (f : Function) : Nat :=
  (f.blocks.map (·.instructions.length)).sum

/-- What grows with every change: the number of blocks, and with as many blocks the number of
instructions. -/
def weight (f : Function) : ℕ ×ₗ ℕ :=
  toLex (f.capacity, f.size)

/-- More blocks weigh more, however many instructions there are. -/
theorem weight_lt_of_capacity (h : f.capacity < g.capacity) : f.weight < g.weight :=
  Prod.Lex.toLex_lt_toLex.mpr (.inl h)

/-- A block that can be read is in the arena. -/
theorem block?_of_block {b : Block} (h : f.block a = .ok b) : f.block? a = some b := by
  rw [block] at h
  split at h
  · rename_i b' hb
    rw [hb, Except.ok.inj h]
  · cases h

/-- An edit of a block that keeps the number of its instructions keeps the weight. -/
theorem weight_updateBlock (h : f.updateBlock a e = .ok g)
    (he : ∀ b, (e b).instructions.length = b.instructions.length) : g.weight = f.weight := by
  obtain ⟨b, hb, hg⟩ := exists_of_bind_eq_ok h
  obtain rfl := Except.ok.inj hg
  have hsum : (f.modifyBlock a e).size + b.instructions.length =
      f.size + (e b).instructions.length := sum_map_modify (block?_of_block hb)
  rw [he] at hsum
  rw [weight, weight, capacity_modifyBlock, Nat.add_right_cancel hsum]

/-- A barrier makes the function grow. -/
theorem weight_insertBarrier (h : f.insertBarrier a k = .ok g) : f.weight < g.weight := by
  obtain ⟨b, hb, hg⟩ := exists_of_bind_eq_ok h
  split at hg
  · rename_i hk
    obtain rfl := Except.ok.inj hg
    have hsum : (f.modifyBlock a (·.insert k .barrier)).size + b.instructions.length =
        f.size + (b.insert k .barrier).instructions.length := sum_map_modify (block?_of_block hb)
    have hlength : (b.insert k .barrier).instructions.length = b.instructions.length + 1 :=
      List.length_insertIdx_of_le_length hk _
    refine Prod.Lex.toLex_lt_toLex.mpr (.inr ⟨capacity_modifyBlock.symm, ?_⟩)
    simp only
    omega
  · cases hg

/-- A barrier at the end of a block adds to the weight. -/
theorem weight_insertBarrierAtEnd (h : f.insertBarrierAtEnd a = .ok g) : f.weight < g.weight := by
  obtain ⟨b, -, hg⟩ := exists_of_bind_eq_ok h
  split at hg
  · exact weight_insertBarrier (eq_ok_of_lift hg)
  · cases hg

/-- So does a split, whatever identifier the new block gets. -/
theorem weight_splitBlock (h : f.splitBlock a k = .ok (new, g)) : f.weight < g.weight := by
  obtain ⟨b, -, h⟩ := exists_of_bind_eq_ok h
  by_cases hk : b.instructions.length ≤ k
  · rw [if_pos hk] at h
    cases h
  · rw [if_neg hk] at h
    obtain ⟨g', hg', h⟩ := exists_of_bind_eq_ok h
    cases h
    refine weight_lt_of_capacity ?_
    have hrenamed := (Extends.renameIncoming (eq_ok_of_lift hg')).capacity_le
    rw [capacity_modifyBlock, capacity_modifyBlock] at hrenamed
    exact Nat.lt_of_lt_of_le (by simp [capacity]) hrenamed

end Function

/-! ### What the visit of a loop says -/

namespace LoopBarriers

variable {δ : Type} {detail : Detail}

/-- The weight of the function that is worked on. -/
def Work.weight (w : Work δ) : ℕ ×ₗ ℕ :=
  w.function.weight

/-- Guarding the end of a block reports whether the function was changed. -/
theorem ensureBarrierAtEnd_reports (block : BlockId) (mark : String) (w : Work δ) :
    (ensureBarrierAtEnd block mark).Reports Work.weight false detail w := by
  refine .get_bind (.lift_bind fun ends _ => ?_)
  cases ends with
  | true => exact .log_bind (.pure false)
  | false =>
      refine .lift_bind fun f hf => .lift_bind fun g hg => .modify_bind ?_
        (.log_bind (.pure true))
      exact (Function.weight_insertBarrierAtEnd hf).trans_eq
        (Function.weight_updateBlock hg fun _ => rfl).symm

/-- So does guarding a header behind its phis. -/
theorem ensureBarrierBehindPhis_reports (header : BlockId) (w : Work δ) :
    (ensureBarrierBehindPhis header).Reports Work.weight false detail w := by
  refine .get_bind (.lift_bind fun b _ => ?_)
  simp only
  split
  · exact .pure false
  · refine .lift_bind fun f hf => .lift_bind fun g hg => .modify_bind ?_ (.pure true)
    exact (Function.weight_insertBarrier hf).trans_eq
      (Function.weight_updateBlock hg fun _ => rfl).symm

/-- A barrier at the end of a block is reported beside what was there before. -/
theorem ensureBarrierAtEnd_or_reports (block : BlockId) (mark : String) (changed : Bool)
    (w : Work δ) :
    (return (← ensureBarrierAtEnd block mark) || changed : Pass (Work δ) Bool).Reports Work.weight
      changed detail w :=
  .bind (g := (· || changed)) rfl rfl (ensureBarrierAtEnd_reports block mark w) fun _ _ => .pure _

variable [Dominance δ]

/-- Splitting a preheader reports whether the function was changed. -/
theorem isolatePreheader_reports (preheader : BlockId) (w : Work δ) :
    (isolatePreheader preheader).Reports Work.weight false detail w := by
  refine .get_bind (.lift_bind fun b _ => ?_)
  split
  · refine .lift_bind fun ⟨new, f⟩ hf => .log_bind (.lift_bind fun p _ =>
      .lift_bind fun g hg => .set_bind ?_ (.log_bind (.pure true)))
    exact (Function.weight_splitBlock hf).trans_eq
      (Function.weight_updateBlock hg fun _ => rfl).symm
  · exact .pure false

/-- The turn of a latch reports a change that it or something before it made. -/
theorem visitLatch_reports (barrier : BlockId) (changed : Bool) (latch : BlockId) (w : Work δ) :
    (visitLatch barrier changed latch).Reports Work.weight changed detail w := by
  refine .get_bind (.lift_bind fun v _ => ?_)
  cases v with
  | true => exact ensureBarrierAtEnd_or_reports latch _ changed w
  | false => exact .log_bind (.pure changed)

/-- Guarding the latches reports a change that it or something before it made. -/
theorem guardLatches_reports (l : Loop) (barrier : BlockId) (exiting : Option BlockId)
    (changed : Bool) (w : Work δ) :
    (guardLatches l barrier exiting changed).Reports Work.weight changed detail w := by
  refine .get_bind (.lift_bind fun latch _ => ?_)
  cases latch with
  | some latch =>
      simp only
      split
      · exact .pure changed
      · exact ensureBarrierAtEnd_or_reports latch _ changed w
  | none =>
      exact .get_bind (.lift_bind fun latches _ =>
        .foldlM (visitLatch_reports barrier) changed w)

/-- So does guarding the exiting block and then the latches. -/
theorem guardExits_reports (l : Loop) (barrier : BlockId) (changed : Bool) (w : Work δ) :
    (guardExits l barrier changed).Reports Work.weight changed detail w := by
  refine .get_bind (.lift_bind fun exiting _ => ?_)
  cases exiting with
  | some block =>
      exact .bind (g := (changed || ·)) (Bool.or_true _) (Bool.or_false _)
        (ensureBarrierAtEnd_reports block _ w) fun _ w' => guardLatches_reports l barrier _ _ w'
  | none =>
      exact .bind (g := (changed || ·)) (Bool.or_true _) (Bool.or_false _) (.pure false)
        fun _ w' => guardLatches_reports l barrier _ _ w'

/-- Guarding a loop with a barrier reports whether the function was changed. -/
theorem surround_reports (l : Loop) (preheader barrier : BlockId) (w : Work δ) :
    (surround l preheader barrier).Reports Work.weight false detail w := by
  refine .get_bind (.log_bind (.log_bind ?_))
  refine .bind (g := id) rfl rfl (ensureBarrierAtEnd_reports preheader _ w) fun entered w' => ?_
  exact .bind (g := (entered || ·)) (Bool.or_true _) (Bool.or_false _)
    (ensureBarrierBehindPhis_reports _ w') fun started w'' => guardExits_reports l barrier _ w''

/-- **What the visit of a loop says is true.** -/
theorem processLoop_reports (index : Nat) (w : Work δ) :
    (processLoop index).Reports Work.weight false detail w := by
  refine .get_bind ?_
  simp only
  split
  · exact .fail _
  · refine .lift_bind fun preheader _ => ?_
    split
    · exact .lift_bind fun _ _ => .fail _
    · refine .lift_bind fun barrier _ => ?_
      split
      · exact isolatePreheader_reports _ w
      · exact surround_reports _ _ _ w

end LoopBarriers

/-! ### What the pass says -/

namespace Module

variable {m : Module} {id : FunctionId} {f g : Function}

/-- The weights of the functions in the slots of a module. -/
def weights (m : Module) (i : Nat) : ℕ ×ₗ ℕ :=
  match m.functions[i]? with
  | some (some f) => f.weight
  | _ => toLex (0, 0)

/-- A module grows with one of its functions. -/
theorem weights_lt_setFunction (hf : m.function? id = some f) (hlt : f.weight < g.weight) :
    m.weights < (m.setFunction id g).weights := by
  have hslot : m.weights id.index = f.weight := by
    rw [weights, function?_eq_some.mp hf]
  have hslot' : (m.setFunction id g).weights id.index = g.weight := by
    rw [weights, function?_eq_some.mp (function?_setFunction hf)]
  refine Pi.lt_def.mpr ⟨fun i => ?_, id.index, hslot ▸ hslot' ▸ hlt⟩
  by_cases hi : id.index = i
  · subst hi
    rw [hslot, hslot']
    exact hlt.le
  · have hother : (m.setFunction id g).weights i = m.weights i := by
      rw [weights, weights, setFunction, List.getElem?_modify_ne _ _ hi]
    rw [hother]

end Module

namespace LoopBarriers

variable {detail : Detail}

/-- The weights of the module that is worked on. -/
def ModuleWork.weights {δ : Type} (w : ModuleWork δ) : Nat → ℕ ×ₗ ℕ :=
  w.module.weights

/-- The turn of a loop reports whether the module was changed. -/
theorem runLoop_reports {δ : Type} [Dominance δ] (accepts : KernelPredicate) (id : FunctionId)
    (index : Nat) (w : ModuleWork δ) :
    (runLoop accepts id index).Reports ModuleWork.weights false detail w := by
  refine .get_bind ?_
  split
  · exact .pure false
  · split
    · exact .fail _
    · rename_i f hf
      refine .bind (g := (·)) rfl rfl (.zoom ?_ (fun _ hlt => ?_) (processLoop_reports index _))
        fun changed w' => .get_bind (.keeps_bind (verify_keeps _ _) fun _ => .pure changed)
      · rw [Module.setFunction_self hf]
      · exact Module.weights_lt_setFunction hf hlt

/-- A step of the pass over the loops of a kernel. -/
theorem runLoop_or_reports (accepts : KernelPredicate) (id : FunctionId) (changed : Bool)
    (index : Nat) (w : ModuleWork DominatorTree) :
    (return (← runLoop accepts id index) || changed : Pass _ Bool).Reports ModuleWork.weights
      changed detail w :=
  .bind (g := (· || changed)) rfl rfl (runLoop_reports accepts id index w) fun _ _ => .pure _

/-- The turn of a function reports a change that it or a turn before it made. -/
theorem runFunction_reports (accepts : KernelPredicate) (changed : Bool) (id : FunctionId)
    (m : Module) : (runFunction accepts changed id).Reports Module.weights changed detail m := by
  refine .get_bind ?_
  split
  · exact .pure changed
  split
  · exact .fail _
  · refine .lift_bind fun _ _ => .lift_bind fun tree _ =>
      .keeps_bind (findLoops_keeps _ tree) fun loops => .log_bind ?_
    exact .zoom rfl (fun _ hlt => hlt) (.foldlM (runLoop_or_reports accepts id) changed
      ⟨m, loops, tree⟩)

end LoopBarriers

/-- **What the pass says is true.** -/
theorem Pipeline.runLoopBarriers_reports (options : Options) (detail : Detail) (m : Module) :
    (runLoopBarriers options).Reports Module.weights false detail m := by
  refine .get_bind (.lift_bind fun _ _ => ?_)
  refine .bind (g := id) rfl rfl (.get_bind (.foldlM (LoopBarriers.runFunction_reports _) false m))
    fun changed m' => .get_bind (.log_bind (.pure changed))

/-! ### Visits that change nothing -/

/-- The loop has a preheader and is settled, and its latches end with barriers where the first block
that holds one dominates them. -/
structure Loop.Finished (l : Loop) (f : Function) : Prop where
  preheader : ∃ p, l.preheader? f = .ok (some p)
  settled : l.Settled f
  latches : ∀ r b latches, f.entry? = some r → LoopBarriers.firstBarrier? f l.blocks = some b →
    l.latches f = .ok latches → ∀ x ∈ latches, Dominates f.Edge r b x →
      (f.blockAt x).endsWithBarrier = true

namespace LoopBarriers

variable {w w' : Work DominatorTree} {l : Loop} {r p : BlockId} {i : Nat} {detail : Detail}
  {selection : Kernel.Selection} {m m' : Module} {id : FunctionId} {f : Function}

/-- **A loop that is visited and left alone** is finished. -/
theorem finished_of_visited_eq (hw : Sound w r) (hl : l ∈ w.loops.loops)
    (hp : l.soleEntry w.function = some p) (heq : visited w l p = w) : l.Finished w.function := by
  have hf := hw.wellFormed
  have hd := hw.forest.loop l hl
  have hpre : l.preheader? w.function = .ok (some p) := by
    rw [Loop.Describes.preheader?_eq l hf, hp]
  obtain ⟨hready, hstep⟩ := step_visited hw hl hp (by rw [heq]; exact hf.fits)
  rw [heq] at hstep
  have hholds := hd.holdsBarrier_iff (SameLoops.refl w.function r) hf hw.entry
  refine ⟨⟨p, hpre⟩, ⟨fun hheld => ?_, fun hnot q hq => ?_⟩, ?_⟩
  · exact hd.guarded hf hw.entry (hstep.guarded hready (hholds.mp hheld))
  · exact (hstep.unguarded hready (mt hholds.mpr hnot) ((hd.preheader?_eq_some hf).mp hq)).1
  · intro r' b latches hr' hb hlatches x hx hdom
    obtain rfl := Option.some.inj (hw.entry.symm.trans hr')
    obtain rfl : l.latchList w.function = latches := by
      rw [Loop.Describes.latches_eq l hf] at hlatches
      exact Except.ok.inj hlatches
    have hguarded : w.function.guardAll (places w.function l (dominated w.dominance b) p) =
        w.function := by
      have hfunction := congrArg Work.function heq
      rwa [visited, hb] at hfunction
    obtain ⟨mark, hmem⟩ := exists_mem_places_of_isLatch hf hd (p := p) (hd.mem_latchList.mp hx)
      (hw.dominated_iff.mpr hdom)
    have hends := hready.endsWithBarrier_of_mem_places hd hmem
    rwa [hguarded] at hends

/-- The work on a function of the module can be read off what is held of it. -/
theorem held_inj (hf : m.function? id = some f) (h : held m id w = held m id w') : w = w' := by
  obtain ⟨hmodule, hloops, hdominance⟩ := ModuleWork.mk.inj h
  have hfunction : some w.function = some w'.function := by
    rw [← Module.function?_setFunction hf, hmodule, Module.function?_setFunction hf]
  cases w
  cases w'
  simp_all

/-- A loop whose turn changes nothing is finished. -/
theorem finished_of_runLoop (h : Working selection m id f w) (hw : Sound w r)
    (hi : w.loops.get? i = some l)
    (hends : (runLoop selection.accepts id i).Ends detail (held m id w) (.ok false)
      (held m id w)) : l.Finished w.function := by
  cases hp : l.soleEntry w.function with
  | none =>
      have hfails := runLoop_ends_error h (processLoop_ends_of_none hw hi hp detail)
      cases (hfails.unique hends).1
  | some p =>
      obtain ⟨_, hvisit⟩ := processLoop_ends hw hi hp detail
      have hleft : held m id w = held m id (visited w l p) := hends.leaves (runLoop_leaves h hvisit)
      exact finished_of_visited_eq hw (List.mem_of_getElem? hi) hp
        (held_inj h.function? hleft).symm

/-- **A kernel whose turn changes nothing**: all its loops are finished. -/
theorem finished_of_runFunction (hacc : selection.accepts m id = true)
    (hf : m.function? id = some f) (hwf : f.WellFormed)
    (hends : (runFunction selection.accepts false id).Ends detail m (.ok false) m') :
    ∃ tree forest, DominatorTree.compute f = .ok tree ∧ LoopForest.compute f tree = .ok forest ∧
      ∀ l ∈ forest.loops, l.Finished f := by
  obtain ⟨r, tree, loops, htree, hforest, -, hw⟩ := exists_sound_of_accepts hacc hf hwf
  have hloops := (runFunction_ends_of_runLoops hacc hf hwf htree hforest ⟨rfl, rfl⟩).unique hends
  refine ⟨tree, _, htree, hforest, fun l hl => ?_⟩
  obtain ⟨i, hi, hget⟩ := List.getElem_of_mem hl
  have hstep := Pass.Reports.foldlM_false (runLoop_or_reports selection.accepts id)
    ⟨hloops.1, rfl⟩ i (mem_postorder_nest_iff.mpr hi)
  obtain ⟨said, v, hturn, hpure⟩ := hstep.exists_of_bind
  obtain ⟨hsaid, rfl⟩ := (Pass.Ends.pure _).unique hpure
  obtain rfl : said = false := by simpa using hsaid
  exact finished_of_runLoop ⟨hacc, hf, .refl f⟩ hw (hget ▸ List.getElem?_eq_getElem hi) hturn

end LoopBarriers

/-- **What the pass says is exact**, and when it says that nothing changed, the module is finished.
If the pass succeeds, it reports a change exactly when it leaves another module. If it reports none,
every loop of every kernel has a preheader. A loop that holds a barrier is guarded: its preheader
ends with a barrier, one stands behind the phis of its header, its only exiting block and its only
latch end with one, and so does each of several latches that the first of its blocks with a barrier
dominates. The preheader of a loop without a barrier does not end with one. -/
theorem Pipeline.runLoopBarriers_changed_iff (options : Options) (detail : Detail) (m : Module)
    (changed : Bool) (hok : ((runLoopBarriers options).run detail m).result = .ok changed) :
    (changed = true ↔ ((runLoopBarriers options).run detail m).state ≠ m) ∧
    (changed = false → ∀ id f, options.accepts m id = true → m.function? id = some f →
      ∃ tree forest, DominatorTree.compute f = .ok tree ∧ LoopForest.compute f tree = .ok forest ∧
        ∀ l ∈ forest.loops, l.Finished f) := by
  have hends : (runLoopBarriers options).Ends detail m (.ok changed) _ := ⟨hok, rfl⟩
  refine ⟨(runLoopBarriers_reports options detail m).iff_ne hends, ?_⟩
  rintro rfl id f hacc hf
  obtain ⟨_, _, hcheck, hrest⟩ := hends.of_get_bind.exists_of_bind
  obtain ⟨hvalid, rfl⟩ := hcheck.of_lift
  obtain ⟨said, m', hrun, hrest⟩ := hrest.exists_of_bind
  obtain ⟨_, _, -, hpure⟩ := hrest.of_get_bind.exists_of_bind
  obtain rfl : said = false := Except.ok.inj ((Pass.Ends.pure said).unique hpure).1
  have hturn := Pass.Reports.foldlM_false (LoopBarriers.runFunction_reports options.accepts)
    hrun.of_get_bind id (Module.mem_functionIds hf)
  exact LoopBarriers.finished_of_runFunction hacc hf
    (Module.validate_eq_ok_iff.mp hvalid f (Module.mem_functions hf)) hturn

/-- A kernel whose loop has two latches. The first holds a barrier, which does not dominate the
second. -/
def twoLatches : Function where
  name := "latches"
  returnType := .void
  parameters := [{ name := "more", ty := .i1 }]
  blocks :=
    [{ id := ⟨0⟩, name := "entry", instructions := [.barrier, .branch ⟨1⟩] },
      { id := ⟨1⟩, name := "loop", instructions := [.branchCond (.param 0) ⟨2⟩ ⟨3⟩] },
      { id := ⟨2⟩, name := "left"
        instructions := [.barrier, .branchCond (.param 0) ⟨1⟩ ⟨4⟩] },
      { id := ⟨3⟩, name := "right", instructions := [.branchCond (.param 0) ⟨1⟩ ⟨4⟩] },
      { id := ⟨4⟩, name := "exit", instructions := [.ret none] }]
  layout := [⟨0⟩, ⟨1⟩, ⟨2⟩, ⟨3⟩, ⟨4⟩]

/-- A module whose only function is that kernel. -/
def latchesModule : Module where
  name := "module"
  functions := [some twoLatches]

/-- A run on the kernel with two latches reports no change, leaves the module as it is and finds the
loop finished. -/
theorem Pipeline.runLoopBarriers_changed_iff_latches :
    latchesModule.validate = .ok () ∧
    ((runLoopBarriers { kernel := some "latches" }).run none latchesModule).result = .ok false ∧
    ((runLoopBarriers { kernel := some "latches" }).run none latchesModule).state =
      latchesModule ∧
    ∃ tree forest, DominatorTree.compute twoLatches = .ok tree ∧
      LoopForest.compute twoLatches tree = .ok forest ∧ ∀ l ∈ forest.loops,
        l.Finished twoLatches := by
  have hok : ((runLoopBarriers { kernel := some "latches" }).run none latchesModule).result =
      .ok false := by decide +kernel
  obtain ⟨hchanged, hfinished⟩ :=
    runLoopBarriers_changed_iff { kernel := some "latches" } none latchesModule false hok
  refine ⟨by decide +kernel, hok, ?_,
    hfinished rfl ⟨0⟩ twoLatches (by decide +kernel) (by decide +kernel)⟩
  by_contra hne
  cases hchanged.mpr hne

end Lockstep
