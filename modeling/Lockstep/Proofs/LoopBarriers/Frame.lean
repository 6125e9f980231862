import Lockstep.Pipeline
import Lockstep.Proofs.Function.Edit
import Lockstep.Proofs.Module
import Lockstep.Proofs.Pass

/-!
# What loop barriers leave alone

Whatever state it starts from and however it ends, the pass changes nothing but the bodies of the
kernels that it works on. It keeps their names and signatures, and the arenas of their blocks only
grow. Nothing here relies on functions being well-formed.

## Main results

* `LoopBarriers.processLoop_keeps`: the visit of a loop extends the function.
* `LoopBarriers.run_keeps` and `Pipeline.runLoopBarriers_keeps`: the pass extends the kernels and
  keeps everything else.
-/

namespace Lockstep

/-! ### Functions -/

/-- The second function is the first with another body, in an arena that is not smaller. -/
structure Function.Extends (f f' : Function) : Prop where
  name : f'.name = f.name
  returnType : f'.returnType = f.returnType
  parameters : f'.parameters = f.parameters
  linkage : f'.linkage = f.linkage
  variadic : f'.variadic = f.variadic
  capacity_le : f.capacity ≤ f'.capacity
  layout_ne_nil : f.layout ≠ [] → f'.layout ≠ []

namespace Function.Extends

variable {f g h : Function} {a : BlockId} {k : Nat}

/-- A function extends itself. -/
theorem refl (f : Function) : f.Extends f :=
  ⟨rfl, rfl, rfl, rfl, rfl, Nat.le_refl _, id⟩

/-- An extension of an extension is an extension. -/
theorem trans (hfg : f.Extends g) (hgh : g.Extends h) : f.Extends h where
  name := hgh.name.trans hfg.name
  returnType := hgh.returnType.trans hfg.returnType
  parameters := hgh.parameters.trans hfg.parameters
  linkage := hgh.linkage.trans hfg.linkage
  variadic := hgh.variadic.trans hfg.variadic
  capacity_le := Nat.le_trans hfg.capacity_le hgh.capacity_le
  layout_ne_nil := hgh.layout_ne_nil ∘ hfg.layout_ne_nil

/-- An edit of a block extends a function. -/
theorem modifyBlock (f : Function) (a : BlockId) (e : Block → Block) :
    f.Extends (f.modifyBlock a e) :=
  ⟨rfl, rfl, rfl, rfl, rfl, Nat.le_of_eq capacity_modifyBlock.symm, id⟩

/-- So does an edit that can fail, where it does not. -/
theorem updateBlock {e : Block → Block} (h : f.updateBlock a e = .ok g) : f.Extends g := by
  obtain ⟨b, -, hg⟩ := exists_of_bind_eq_ok h
  cases hg
  exact modifyBlock f a e

/-- An inserted barrier extends a function. -/
theorem insertBarrier (h : f.insertBarrier a k = .ok g) : f.Extends g := by
  obtain ⟨b, -, hg⟩ := exists_of_bind_eq_ok h
  split at hg
  · cases hg
    exact modifyBlock f a _
  · cases hg

/-- So does a barrier at the end of a block. -/
theorem insertBarrierAtEnd (h : f.insertBarrierAtEnd a = .ok g) : f.Extends g := by
  obtain ⟨b, -, hg⟩ := exists_of_bind_eq_ok h
  split at hg
  · exact insertBarrier (eq_ok_of_lift hg)
  · cases hg

/-- Renaming a label in the phis of the successors extends a function. -/
theorem renameIncoming {old new : BlockId} (h : f.renameIncoming old new = .ok g) :
    f.Extends g := by
  obtain ⟨succs, -, hg⟩ := exists_of_bind_eq_ok h
  clear h
  induction succs generalizing f with
  | nil =>
      cases hg
      exact refl _
  | cons a succs ih =>
      rw [List.foldlM_cons] at hg
      obtain ⟨f', hf', hg⟩ := exists_of_bind_eq_ok hg
      exact (updateBlock hf').trans (ih hg)

/-- A new block in the body extends a function. -/
theorem createBlockAfter (f : Function) (a : BlockId) (name : String) :
    f.Extends (f.createBlockAfter a name).2 where
  name := rfl
  returnType := rfl
  parameters := rfl
  linkage := rfl
  variadic := rfl
  capacity_le := by simp [Function.createBlockAfter, capacity]
  layout_ne_nil _ := List.ne_nil_of_mem (mem_insertAfter.mpr (.inl rfl))

/-- Splitting a block extends a function. -/
theorem splitBlock {new : BlockId} (h : f.splitBlock a k = .ok (new, g)) : f.Extends g := by
  obtain ⟨b, -, h⟩ := exists_of_bind_eq_ok h
  by_cases hk : b.instructions.length ≤ k
  · rw [if_pos hk] at h
    cases h
  · rw [if_neg hk] at h
    obtain ⟨g', hg', h⟩ := exists_of_bind_eq_ok h
    cases h
    exact (((createBlockAfter f a _).trans (modifyBlock _ _ _)).trans (modifyBlock _ _ _)).trans
      (renameIncoming (eq_ok_of_lift hg'))

end Function.Extends

/-! ### Work on one function -/

namespace LoopBarriers

variable {δ : Type}

/-- The function that is worked on is extended. -/
def Work.Extends (w w' : Work δ) : Prop :=
  w.function.Extends w'.function

/-- Extensions of the function that is worked on compose. -/
theorem Work.Extends.trans (a b c : Work δ) (hab : a.Extends b) (hbc : b.Extends c) :
    a.Extends c :=
  Function.Extends.trans hab hbc

/-- Guarding the end of a block extends the function, whether or not it stops half-way. -/
theorem ensureBarrierAtEnd_keeps (block : BlockId) (mark : String) :
    (ensureBarrierAtEnd block mark : Pass (Work δ) Bool).Keeps Work.Extends := by
  intro detail w
  refine .get_bind (.lift_bind (.refl _) fun ends _ => ?_)
  cases ends with
  | true => exact .log_bind (.refl _) (.pure (.refl _))
  | false =>
      refine .lift_bind (.refl _) fun f hf => .lift_bind (.refl _) fun g hg => ?_
      have hext : w.function.Extends g := (Function.Extends.insertBarrierAtEnd hf).trans
        (Function.Extends.updateBlock hg)
      exact .modify_bind (.log_bind hext (.pure hext))

/-- So does guarding a header behind its phis. -/
theorem ensureBarrierBehindPhis_keeps (header : BlockId) :
    (ensureBarrierBehindPhis header : Pass (Work δ) Bool).Keeps Work.Extends := by
  intro detail w
  refine .get_bind (.lift_bind (.refl _) fun b _ => ?_)
  simp only
  split
  · exact .refl _
  · refine .lift_bind (.refl _) fun f hf => .lift_bind (.refl _) fun g hg => ?_
    exact (Function.Extends.insertBarrier hf).trans (Function.Extends.updateBlock hg)

variable [Dominance δ]

/-- So does splitting a preheader. -/
theorem isolatePreheader_keeps (preheader : BlockId) :
    (isolatePreheader preheader : Pass (Work δ) Bool).Keeps Work.Extends := by
  intro detail w
  refine .get_bind (.lift_bind (.refl _) fun b _ => ?_)
  split
  · refine .lift_bind (.refl _) fun ⟨new, f⟩ hf => .log_bind (.refl _)
      (.lift_bind (.refl _) fun p _ => .lift_bind (.refl _) fun g hg => ?_)
    have hext : w.function.Extends g := (Function.Extends.splitBlock hf).trans
      (Function.Extends.updateBlock hg)
    exact .set_bind (.log_bind hext (.pure hext))
  · exact .refl _

/-- So does the turn of a latch. -/
theorem visitLatch_keeps (barrier : BlockId) (changed : Bool) (latch : BlockId) :
    (visitLatch barrier changed latch : Pass (Work δ) Bool).Keeps Work.Extends := by
  intro detail w
  refine .get_bind (.lift_bind (.refl _) fun v _ => ?_)
  cases v with
  | true =>
      exact Pass.Keeps.bind Work.Extends.trans (ensureBarrierAtEnd_keeps latch _)
        (fun _ _ _ => .pure (.refl _)) detail w
  | false => exact .log_bind (.refl _) (.pure (.refl _))

/-- So does guarding the latches. -/
theorem guardLatches_keeps (l : Loop) (barrier : BlockId) (exiting : Option BlockId)
    (changed : Bool) :
    (guardLatches l barrier exiting changed : Pass (Work δ) Bool).Keeps Work.Extends := by
  intro detail w
  refine .get_bind (.lift_bind (.refl _) fun latch _ => ?_)
  cases latch with
  | some latch =>
      simp only
      split
      · exact .pure (.refl _)
      · exact Pass.Keeps.bind Work.Extends.trans (ensureBarrierAtEnd_keeps _ _)
          (fun _ _ _ => .pure (.refl _)) detail w
  | none =>
      refine .get_bind (.lift_bind (.refl _) fun latches _ => ?_)
      exact Pass.Keeps.foldlM (fun _ => .refl _) Work.Extends.trans
        (fun changed latch => visitLatch_keeps barrier changed latch) changed detail w

/-- So does guarding the exiting block and then the latches. -/
theorem guardExits_keeps (l : Loop) (barrier : BlockId) (changed : Bool) :
    (guardExits l barrier changed : Pass (Work δ) Bool).Keeps Work.Extends := by
  intro detail w
  refine .get_bind (.lift_bind (.refl _) fun exiting _ => ?_)
  cases exiting with
  | some block =>
      exact Pass.Keeps.bind Work.Extends.trans (ensureBarrierAtEnd_keeps _ _)
        (fun left => guardLatches_keeps _ _ _ _) detail w
  | none => exact guardLatches_keeps _ _ _ _ detail w

/-- So does guarding a loop with a barrier. -/
theorem surround_keeps (l : Loop) (preheader barrier : BlockId) :
    (surround l preheader barrier : Pass (Work δ) Bool).Keeps Work.Extends := by
  intro detail w
  refine .get_bind (.log_bind (.refl _) (.log_bind (.refl _) ?_))
  exact Pass.Keeps.bind Work.Extends.trans (ensureBarrierAtEnd_keeps _ _) (fun entered =>
    Pass.Keeps.bind Work.Extends.trans (ensureBarrierBehindPhis_keeps _) fun started =>
      guardExits_keeps _ _ _) detail w

/-- **The visit of a loop** extends the function, however it ends. -/
theorem processLoop_keeps (index : Nat) :
    (processLoop index : Pass (Work δ) Bool).Keeps Work.Extends := by
  intro detail w
  refine .get_bind ?_
  simp only
  split
  · exact .fail (.refl _)
  · refine .lift_bind (.refl _) fun preheader _ => ?_
    split
    · exact .lift_bind (.refl _) fun _ _ => .fail (.refl _)
    · refine .lift_bind (.refl _) fun barrier _ => ?_
      split
      · exact isolatePreheader_keeps _ detail w
      · exact surround_keeps _ _ _ detail w

end LoopBarriers

/-! ### Modules -/

/-- The second module is the first with the bodies of some selected functions extended. -/
structure Module.Extends (selection : Kernel.Selection) (m m' : Module) : Prop where
  name : m'.name = m.name
  globals : m'.globals = m.globals
  metadata : m'.metadata = m.metadata
  length : m'.functions.length = m.functions.length
  slot : ∀ i : Nat, m'.functions[i]? = m.functions[i]? ∨
    ∃ (id : FunctionId) (f f' : Function), id.index = i ∧ selection.accepts m id = true ∧
      m.functions[i]? = some (some f) ∧ m'.functions[i]? = some (some f') ∧ f.Extends f'

namespace Module

variable {selection : Kernel.Selection} {m m' m'' : Module} {id : FunctionId} {f f' : Function}

namespace Extends

/-- A module extends itself. -/
theorem refl (m : Module) : m.Extends selection m :=
  ⟨rfl, rfl, rfl, rfl, fun _ => .inl rfl⟩

/-- What happens to one function. -/
theorem function? (h : m.Extends selection m') (id : FunctionId) :
    m'.function? id = m.function? id ∨ selection.accepts m id = true ∧
      ∃ f f', m.function? id = some f ∧ m'.function? id = some f' ∧ f.Extends f' := by
  rcases h.slot id.index with heq | ⟨id', f, f', hid, hacc, hf, hf', hext⟩
  · exact .inl (by rw [Module.function?, Module.function?, heq])
  · obtain rfl := ArenaId.index_inj hid
    exact .inr ⟨hacc, f, f', function?_eq_some.mpr hf, function?_eq_some.mpr hf', hext⟩

/-- The same functions are selected. -/
theorem accepts_eq (h : m.Extends selection m') (id : FunctionId) :
    selection.accepts m' id = selection.accepts m id := by
  have hlisted : Kernel.isListed m' id = Kernel.isListed m id := by
    rw [Kernel.isListed, Kernel.isListed, table?, table?, h.metadata]
  rcases h.function? id with heq | ⟨hacc, f, f', hf, hf', hext⟩
  · rw [Kernel.Selection.accepts, Kernel.Selection.accepts, heq, hlisted]
  · have hbody : f.isDeclaration = false := by
      rw [Kernel.Selection.accepts, hf] at hacc
      by_contra hdecl
      simp [hdecl] at hacc
    have hbody' : f'.isDeclaration = false := by
      rw [Function.isDeclaration, List.isEmpty_eq_false_iff] at hbody ⊢
      exact hext.layout_ne_nil hbody
    rw [Kernel.Selection.accepts, Kernel.Selection.accepts, hf, hf', hlisted]
    simp only [hbody, hbody', hext.name]

/-- An extension of an extension is an extension, for the selected functions are the same. -/
theorem trans (h : m.Extends selection m') (h' : m'.Extends selection m'') :
    m.Extends selection m'' where
  name := h'.name.trans h.name
  globals := h'.globals.trans h.globals
  metadata := h'.metadata.trans h.metadata
  length := h'.length.trans h.length
  slot i := by
    rcases h.slot i with heq | ⟨id, f, f', hid, hacc, hf, hf', hext⟩
    · rcases h'.slot i with heq' | ⟨id, f, f', hid, hacc, hf, hf', hext⟩
      · exact .inl (heq'.trans heq)
      · exact .inr ⟨id, f, f', hid, (h.accepts_eq id).symm.trans hacc, heq ▸ hf, hf', hext⟩
    · rcases h'.slot i with heq' | ⟨id', g, g', hid', hacc', hg, hg', hext'⟩
      · exact .inr ⟨id, f, f', hid, hacc, hf, heq'.trans hf', hext⟩
      · obtain rfl : f' = g := Option.some.inj (Option.some.inj (hf'.symm.trans hg))
        exact .inr ⟨id, f, g', hid, hacc, hf, hg', hext.trans hext'⟩

/-- Putting another body into a selected function. -/
theorem setFunction (hacc : selection.accepts m id = true) (hf : m.function? id = some f)
    (hext : f.Extends f') : m.Extends selection (m.setFunction id f') where
  name := rfl
  globals := rfl
  metadata := rfl
  length := Module.length_setFunction
  slot i := by
    rw [Module.setFunction]
    by_cases hi : id.index = i
    · subst hi
      have hslot := function?_eq_some.mp hf
      exact .inr ⟨id, f, f', rfl, hacc, hslot, by rw [List.getElem?_modify_eq, hslot]; rfl, hext⟩
    · exact .inl (List.getElem?_modify_ne _ _ hi)

end Extends

end Module

/-! ### The pass -/

namespace LoopBarriers

variable {selection : Kernel.Selection}

/-- The module that is worked on is extended. -/
def ModuleWork.Extends {δ : Type} (selection : Kernel.Selection) (w w' : ModuleWork δ) : Prop :=
  w.module.Extends selection w'.module

/-- Verifying a dominator tree changes nothing. -/
theorem verify_keeps {δ σ : Type} [Dominance δ] (dominance : δ) (f : Function) :
    (verify dominance f : Pass σ Unit).Keeps Eq := by
  intro detail s
  refine .lift_bind rfl fun mismatch _ => ?_
  split
  · exact .pure rfl
  · exact .log_bind rfl (.lift_bind rfl fun _ _ => .fail rfl)

/-- The turn of a loop extends the module. -/
theorem runLoop_keeps {δ : Type} [Dominance δ] (id : FunctionId) (index : Nat) :
    (runLoop selection.accepts id index : Pass (ModuleWork δ) Bool).Keeps
      (ModuleWork.Extends selection) := by
  intro detail w
  refine .get_bind ?_
  cases hacc : selection.accepts w.module id with
  | false => exact .pure (.refl _)
  | true =>
      simp only [Bool.not_true, Bool.false_eq_true, if_false]
      cases hf : w.module.function? id with
      | none => exact .fail (.refl _)
      | some f =>
          have hzoom : (Pass.zoom
              (fun w => { function := f, loops := w.loops, dominance := w.dominance : Work δ })
              (fun done w => { module := w.module.setFunction id done.function,
                               loops := done.loops, dominance := done.dominance : ModuleWork δ })
              (processLoop index)).Leaves detail w (w.Extends selection) :=
            Module.Extends.setFunction hacc hf (processLoop_keeps index detail
              ⟨f, w.loops, w.dominance⟩)
          refine .bind hzoom (fun _ h => h) fun changed w' h => .get_bind ?_
          exact .bind (verify_keeps _ _ detail w') (fun _ heq => heq ▸ h) fun _ _ heq =>
            .pure (heq ▸ h)

/-- The pass over some loops of a kernel. -/
def runLoops (selection : Kernel.Selection) (id : FunctionId) (is : List Nat) (changed : Bool) :
    Pass (ModuleWork DominatorTree) Bool :=
  is.foldlM (fun changed index => return (← runLoop selection.accepts id index) || changed) changed

/-- So do the turns of some loops. -/
theorem runLoops_keeps (id : FunctionId) (is : List Nat) (changed : Bool) :
    (runLoops selection id is changed).Keeps (ModuleWork.Extends selection) :=
  Pass.Keeps.foldlM (fun _ => .refl _) (fun _ _ _ => .trans) (fun _ index =>
    Pass.Keeps.bind (fun _ _ _ => .trans) (runLoop_keeps id index) fun _ _ _ => .pure (.refl _))
    changed

/-- Finding the loops changes nothing. -/
theorem findLoops_keeps {σ : Type} (f : Function) (t : DominatorTree) :
    (findLoops f t : Pass σ LoopForest).Keeps Eq := by
  intro detail s
  exact .lift_bind rfl fun _ _ => .log_bind rfl (.pure rfl)

/-- The turn of a function extends the module. -/
theorem runFunction_keeps (changed : Bool) (id : FunctionId) :
    (runFunction selection.accepts changed id).Keeps (Module.Extends selection) := by
  intro detail m
  refine .get_bind ?_
  split
  · exact .pure (.refl _)
  split
  · exact .fail (.refl _)
  · rename_i f _
    refine .lift_bind (.refl _) fun _ _ => .lift_bind (.refl _) fun tree _ =>
      .bind (findLoops_keeps f tree detail m) (fun _ heq => heq ▸ .refl _) fun loops m' heq => ?_
    subst heq
    exact .log_bind (.refl _) (runLoops_keeps id _ changed detail ⟨m, loops, tree⟩)

/-- **Loop barriers in a module** extend the kernels and keep everything else. -/
theorem run_keeps : (run selection.accepts).Keeps (Module.Extends selection) := by
  intro detail m
  exact .get_bind (Pass.Keeps.foldlM (fun _ => .refl _) (fun _ _ _ => .trans)
    (fun changed id => runFunction_keeps changed id) false detail m)

end LoopBarriers

/-- **Frame**: the pass changes nothing but the bodies of kernels, whether or not it fails. -/
theorem Pipeline.runLoopBarriers_keeps (options : Options) :
    (runLoopBarriers options).Keeps (Module.Extends { name := options.kernel }) := by
  intro detail m
  refine .get_bind (.lift_bind (.refl _) fun _ _ => ?_)
  refine .bind (LoopBarriers.run_keeps detail m) (fun _ h => h) fun changed m' h => ?_
  exact .get_bind (.log_bind h (.pure h))

end Lockstep
