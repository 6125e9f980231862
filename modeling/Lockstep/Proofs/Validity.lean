import Lockstep.Proofs.Kernel.Atomicity
import Lockstep.Proofs.LoopBarriers.Preheaders

/-!
# Passes keep modules valid

A module that passes the check passes it again after any pass, also after one that failed half way.
The loop barriers need arenas small enough that every new block has an identifier. The header pass
needs nothing: its copies have as many blocks as the kernels that they are made of.

When the header pass follows the loop barriers, it therefore never finds the module invalid.

## Main results

* `Kernel.Header.run_keeps_valid`: the header pass keeps modules well-formed.
* `Pipeline.runHeader_error`: the errors of the header pass on a valid module.
* `Pipeline.passes_keep_valid`: all passes keep modules valid, however they end.
-/

namespace Lockstep

/-- A module that was well-formed is so still. -/
def Module.StaysWellFormed (m m' : Module) : Prop :=
  m.WellFormed → m'.WellFormed

namespace Module.StaysWellFormed

/-- A module that is left alone stays well-formed. -/
theorem refl (m : Module) : m.StaysWellFormed m :=
  id

/-- A module stays well-formed through one change and another. -/
theorem trans (a b c : Module) (hab : a.StaysWellFormed b) (hbc : b.StaysWellFormed c) :
    a.StaysWellFormed c :=
  hbc ∘ hab

end Module.StaysWellFormed

/-! ### The header pass -/

namespace Kernel

variable {m : Module} {id : FunctionId} {f : Function} {locals : List GlobalId}

/-- Adding the copy of a kernel keeps a module well-formed. -/
theorem wellFormed_withCopy (hm : m.WellFormed) (hf : m.function? id = some f) :
    (withCopy m id f locals).WellFormed := by
  have hkernel := hm f (Module.mem_functions hf)
  have hunnamed : ({ f with name := "" } : Function).WellFormed :=
    ⟨hkernel.fits, hkernel.id_blockAt, hkernel.index_lt, hkernel.nodup, hkernel.terminated,
      hkernel.next_mem, hkernel.label_mem⟩
  intro g hg
  rcases List.mem_append.mp hg with hg | hg
  · exact hm.setFunction hunnamed g hg
  · obtain rfl : g = widened m f locals := Option.some.inj (List.mem_singleton.mp hg)
    rw [widened_eq]
    exact Function.wellFormed_copied hkernel

/-- Replacing a kernel keeps a module well-formed. -/
theorem replaceKernel_keeps (id : FunctionId) (locals : List GlobalId) :
    (replaceKernel id locals).Keeps Module.StaysWellFormed := by
  intro detail m
  cases hf : m.function? id with
  | none =>
      refine .get_bind ?_
      rw [hf]
      exact .fail (.refl m)
  | some f =>
      rw [Pass.Leaves, (replaceKernel_ends hf).2]
      exact fun hm => wellFormed_withCopy hm hf

/-- Replacing a kernel of the plan keeps a module well-formed. -/
theorem replace_keeps (r : Replacements) (planned : FunctionId × List GlobalId) :
    (Header.replace r planned).Keeps Module.StaysWellFormed := by
  intro detail m
  rw [Header.replace]
  split
  · exact .pure (.refl m)
  · exact .bind (replaceKernel_keeps _ _ detail m) (fun _ h => h) fun _ _ h => .pure h

/-- Committing replacements keeps a module well-formed. -/
theorem commit_keeps (r : Replacements) : r.commit.Keeps Module.StaysWellFormed := by
  intro detail m
  rw [Pass.Leaves, (commit_ends detail m r).2]
  exact fun hm f hf => hm f (mem_of_mem_emptied hf)

namespace Header

variable {σ : Type}

/-- Both parts of a header pass keep modules well-formed. -/
theorem carryOut_keeps_valid (plan : List (FunctionId × List GlobalId)) :
    (carryOut plan : Pass (Work σ) Bool).Keeps fun w w' => w.module.StaysWellFormed w'.module := by
  intro detail w
  have hreplace := Pass.Keeps.foldlM Module.StaysWellFormed.refl Module.StaysWellFormed.trans
    replace_keeps {} (l := plan) detail w.module
  refine .bind (Q := fun w' => w.module.StaysWellFormed w'.module) hreplace (fun _ h => h)
    fun r w' h => ?_
  split
  · exact .pure h
  · exact .bind (Q := fun w'' => w.module.StaysWellFormed w''.module)
      (h.trans _ _ _ (commit_keeps r detail w'.module)) (fun _ h' => h') fun _ _ h' => .pure h'

/-- **The header pass keeps modules well-formed**, with any kernels, any target and any sink, and
however it ends. -/
theorem run_keeps_valid [Sink σ] (sizeOf : SizeOf) (accepts : KernelPredicate) :
    (run sizeOf accepts : Pass (Work σ) Bool).Keeps fun w w' =>
      w.module.StaysWellFormed w'.module := by
  rw [run_eq]
  refine .bind (fun _ _ _ hab hbc => hab.trans _ _ _ hbc) (fun detail w => ?_) carryOut_keeps_valid
  have hsame : ((announce sizeOf accepts).run detail w).state.module = w.module :=
    announce_keeps detail w
  rw [Pass.Leaves, hsame]
  exact .refl _

end Header

end Kernel

/-! ### The passes as a user asks for them -/

namespace Pipeline

variable {options : Options} {detail : Detail} {m : Module} {w : Workspace}

/-- The header pass on a workspace keeps its module well-formed. -/
theorem runHeader_keeps_valid (options : Options) :
    (runHeader options).Keeps fun w w' => w.module.StaysWellFormed w'.module := by
  intro detail w
  refine .get_bind ?_
  cases options.header with
  | none => exact .fail (.refl _)
  | some path =>
      refine .lift_bind (.refl _) fun _ _ => .lift_bind (.refl _) fun file _ => ?_
      refine .bind (Q := fun w' => w.module.StaysWellFormed w'.module) ?_ (fun _ h => h)
        fun _ w' h => .get_bind (.log_bind h (.pure h))
      exact Kernel.Header.run_keeps_valid _ _ detail ⟨w.module, file⟩

/-- **The errors of the header pass** on a module that passes the check: the header cannot be opened
or written, or a function has no identifier of its own. What follows the pass proper is a record and
cannot fail. -/
theorem runHeader_error (hvalid : w.module.validate = .ok ()) {path : String}
    (hpath : options.header = some path) {e : Error} {w' : Workspace}
    (h : (runHeader options).Ends detail w (.error (.error e)) w') :
    (∃ cause, e = .headerOpen path cause) ∨ (∃ cause, e = .io cause) ∨
      ∃ id, e = .unknownFunction id := by
  replace h := h.of_get_bind
  simp only [hpath] at h
  rcases h.error_of_bind with hcheck | ⟨_, _, hcheck, h⟩
  · obtain ⟨_, hinvalid, -⟩ := hcheck.error_of_lift
    rw [hvalid] at hinvalid
    cases hinvalid
  obtain ⟨-, rfl⟩ := hcheck.of_lift
  rcases h.error_of_bind with hopen | ⟨file, _, hopen, h⟩
  · obtain ⟨e', hopen, heq⟩ := hopen.error_of_lift
    obtain rfl := Stop.error.inj heq
    rw [openHeader] at hopen
    cases hfile : OpenFile.openAt w.files path options.truncateHeader with
    | ok file =>
        rw [hfile] at hopen
        cases hopen
    | error cause =>
        rw [hfile] at hopen
        exact .inl ⟨cause, (Except.error.inj hopen).symm⟩
  obtain ⟨-, rfl⟩ := hopen.of_lift
  rcases h.error_of_bind with hrun | ⟨_, _, -, h⟩
  · obtain ⟨_, hrun, -⟩ := hrun.of_zoom
    exact .inr ((Kernel.run_error hrun).imp_right And.right)
  · rcases h.of_get_bind.error_of_bind with hlog | ⟨_, _, -, h⟩
    · cases ((Pass.Ends.log rfl).unique hlog).1
    · cases h.1

/-- **The check between the passes.** When the header pass follows the loop barriers, the only thing
that it can find invalid is that no header was asked for. -/
theorem runBoth_invalid (hvalid : m.validate = .ok ())
    (hfits : (runLoopBarriers options).Leaves detail m Module.Fits) {files : FileTree}
    {name : String} {defect : Defect} {w' : Workspace}
    (h : (runBoth options).Ends detail ⟨m, files⟩ (.error (.error (.invalidIr name defect))) w') :
    options.header = none ∧ defect = .noHeaderFile := by
  rcases h.error_of_bind with hbarriers | ⟨_, w, hbarriers, h⟩
  · obtain ⟨_, hbarriers, -⟩ := hbarriers.of_zoom
    rcases runLoopBarriers_ends hvalid hfits with
      ⟨_, _, -, hends⟩ | ⟨_, _, -, -, -, _, _, hends⟩
    · cases (hends.unique hbarriers).1
    · cases (hends.unique hbarriers).1
  · obtain ⟨m', hends, rfl⟩ := hbarriers.of_zoom
    have hvalid' : m'.validate = .ok () := by
      rw [Module.validate_eq_ok_iff, ← hends.2]
      exact runLoopBarriers_leaves_wellFormed hvalid hfits
    rcases h.error_of_bind with h | ⟨_, _, -, h⟩
    · cases hpath : options.header with
      | none =>
          replace h := h.of_get_bind
          simp only [hpath] at h
          cases h.1
          exact ⟨rfl, rfl⟩
      | some path =>
          rcases runHeader_error hvalid' hpath h with ⟨_, heq⟩ | ⟨_, heq⟩ | ⟨_, heq⟩ <;> cases heq
    · cases h.1

/-- **Passes keep modules valid.** Take a module that passes the check. What the loop barriers leave
of it passes the check as well, if all its blocks have identifiers, and so does what the header pass
leaves, with any kernels, any target and any sink. It does not matter whether the pass succeeds,
fails or faults. When the one pass follows the other, what both leave passes the check too, and the
check between them never fails: all that the second finds missing is a path for the header. -/
theorem passes_keep_valid (m : Module) (hvalid : m.validate = .ok ()) :
    (∀ options detail, ((runLoopBarriers options).run detail m).state.Fits →
      ((runLoopBarriers options).run detail m).state.validate = .ok ()) ∧
    (∀ (σ : Type) [Sink σ] (sizeOf : Kernel.SizeOf) (accepts : KernelPredicate) (detail : Detail)
        (sink : σ),
      ((Kernel.Header.run sizeOf accepts).run detail ⟨m, sink⟩).state.module.validate = .ok ()) ∧
    ∀ options detail files, ((runLoopBarriers options).run detail m).state.Fits →
      ((runBoth options).run detail ⟨m, files⟩).state.module.validate = .ok () ∧
      ∀ name defect,
        ((runBoth options).run detail ⟨m, files⟩).result =
          .error (.error (.invalidIr name defect)) →
        options.header = none ∧ defect = .noHeaderFile := by
  have hm := Module.validate_eq_ok_iff.mp hvalid
  have hbarriers : ∀ options detail, ((runLoopBarriers options).run detail m).state.Fits →
      ((runLoopBarriers options).run detail m).state.WellFormed :=
    fun options detail hfits => runLoopBarriers_leaves_wellFormed hvalid hfits
  refine ⟨fun options detail hfits =>
      Module.validate_eq_ok_iff.mpr (hbarriers options detail hfits),
    fun σ _ sizeOf accepts detail sink => Module.validate_eq_ok_iff.mpr
      (Kernel.Header.run_keeps_valid sizeOf accepts detail ⟨m, sink⟩ hm),
    fun options detail files hfits => ⟨Module.validate_eq_ok_iff.mpr ?_,
      fun name defect hresult => runBoth_invalid hvalid hfits ⟨hresult, rfl⟩⟩⟩
  have hfirst : (onModule (runLoopBarriers options)).Leaves detail ⟨m, files⟩
      (·.module.WellFormed) := hbarriers options detail hfits
  refine Pass.Leaves.bind hfirst (fun _ h => h) fun _ w h => ?_
  exact .bind (runHeader_keeps_valid options detail w) (fun _ h' => h' h) fun _ _ h' => .pure (h' h)

end Pipeline

/-- A kernel with a loop that is entered from two blocks. -/
def forkedEntry : Function where
  name := "forked"
  returnType := .void
  parameters := [{ name := "more", ty := .i1 }]
  blocks :=
    [{ id := ⟨0⟩, name := "entry", instructions := [.branchCond (.param 0) ⟨1⟩ ⟨2⟩] },
      { id := ⟨1⟩, name := "side", instructions := [.branch ⟨2⟩] },
      { id := ⟨2⟩, name := "loop", instructions := [.branchCond (.param 0) ⟨2⟩ ⟨3⟩] },
      { id := ⟨3⟩, name := "exit", instructions := [.ret none] }]
  layout := [⟨0⟩, ⟨1⟩, ⟨2⟩, ⟨3⟩]

/-- A module with one kernel that is worked on and one that the loop barriers fail at. -/
def forkedModule : Module where
  name := "module"
  functions := [some nestedLoops, some forkedEntry]
  metadata := [⟨Kernel.kernelsTable, [.ofFunction ⟨0⟩, .ofFunction ⟨1⟩]⟩]

/-- The pass that fails has changed the module. -/
theorem Pipeline.passes_keep_valid_forked :
    forkedModule.validate = .ok () ∧
    ((runLoopBarriers {}).run none forkedModule).result =
      .error (.error (.nonCanonicalLoop "forked" "loop")) ∧
    ((runLoopBarriers {}).run none forkedModule).state.Fits ∧
    ((runLoopBarriers {}).run none forkedModule).state ≠ forkedModule ∧
    ((runLoopBarriers {}).run none forkedModule).state.validate = .ok () := by
  have hvalid : forkedModule.validate = .ok () := by decide +kernel
  have hfits : ((runLoopBarriers {}).run none forkedModule).state.Fits := by decide +kernel
  exact ⟨hvalid, by decide +kernel, hfits, by decide +kernel,
    (passes_keep_valid forkedModule hvalid).1 {} none hfits⟩

end Lockstep
