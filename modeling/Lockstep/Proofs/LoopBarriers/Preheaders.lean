import Lockstep.Proofs.LoopBarriers.Run

/-!
# When loop barriers succeed

The pass works on the kernels of a module one after the other. It does so without a fault and
without finding its own records wrong; the only thing that can stop it is a loop without a
preheader. What it leaves has preheaders again, so it can be run any number of times.

## Main results

* `Function.canonical_iff`: loops with preheaders, in terms of the graph.
* `LoopBarriers.runFunction_ends` and `LoopBarriers.Processed.ends`: what the pass does to a kernel.
* `LoopBarriers.foldlM_runFunction_ends` and `LoopBarriers.Treated.ends`: what it does to some
  functions of a module.
* `Pipeline.runLoopBarriers_ok_iff`: the pass succeeds exactly when all loops of the kernels have
  preheaders.
-/

namespace Lockstep

/-! ### Loops with preheaders -/

/-- Every loop of the function has a preheader. -/
def Function.Canonical (f : Function) : Prop :=
  ∃ tree forest, DominatorTree.compute f = .ok tree ∧ LoopForest.compute f tree = .ok forest ∧
    ∀ l ∈ forest.loops, ∃ p, l.preheader? f = .ok (some p)

/-- Whether all loops have preheaders can be seen in the graph. -/
theorem Function.canonical_iff {f : Function} {r : BlockId} (hf : f.WellFormed)
    (hr : f.entry? = some r) :
    f.Canonical ↔ ∀ h, IsHeader f.Edge r h → Enterable f r h := by
  obtain ⟨tree, htree, ht, -⟩ := DominatorTree.compute_eq_ok hf hr
  obtain ⟨loops, hforest, hd⟩ := LoopForest.compute_eq_ok hf hr ht
  have hd' := LoopForest.describes_nest hd
  have hiff : ∀ l ∈ LoopForest.nest loops, (∃ p, l.preheader? f = .ok (some p)) ↔
      Enterable f r l.header := by
    intro l hl
    simp only [Loop.Describes.preheader?_eq l hf, Except.ok.injEq,
      (hd'.loop l hl).soleEntry_eq_some hf]
    rfl
  constructor
  · rintro ⟨tree', forest, htree', hforest', hall⟩ h hh
    obtain rfl : tree = tree' := Except.ok.inj (htree.symm.trans htree')
    obtain rfl := Except.ok.inj (hforest.symm.trans hforest')
    obtain ⟨l, hl, rfl⟩ := hd'.complete h hh
    exact (hiff l hl).mp (hall l hl)
  · intro hall
    exact ⟨tree, _, htree, hforest, fun l hl => (hiff l hl).mpr (hall _ (hd'.loop l hl).header)⟩

/-- Every loop of every kernel has a preheader. -/
def Module.Canonical (accepts : KernelPredicate) (m : Module) : Prop :=
  ∀ id f, accepts m id = true → m.function? id = some f → f.Canonical

namespace LoopBarriers

variable {selection : Kernel.Selection} {m m' : Module} {id : FunctionId} {f f' : Function}
  {r : BlockId} {detail : Detail}

/-! ### A kernel -/

/-- The second function is what the visits of all loops of the first leave, inner loops first. -/
inductive Processed : Function → Function → Prop
  | intro {f : Function} {r : BlockId} {tree : DominatorTree} {loops : List Loop}
      {w' : Work DominatorTree} :
      DominatorTree.compute f = .ok tree →
      LoopForest.compute f tree = .ok ⟨LoopForest.nest loops⟩ →
      (LoopForest.mk loops).Describes f.Edge r →
      Visits r ⟨f, ⟨LoopForest.nest loops⟩, tree⟩ (LoopForest.mk (LoopForest.nest loops)).postorder
        w' → Processed f w'.function

/-- Every loop has its turn. -/
theorem mem_postorder_nest_iff {loops : List Loop} {i : Nat} :
    i ∈ (LoopForest.mk (LoopForest.nest loops)).postorder ↔ i < (LoopForest.nest loops).length := by
  rw [LoopForest.mem_postorder_iff]
  simp [LoopForest.nest]

namespace Processed

/-- Processing a function extends it. -/
theorem extended (h : Processed f f') : f.Extends f' := by
  obtain ⟨-, -, -, hvisits⟩ := h
  exact hvisits.extended

/-- Processing leaves a well-formed function. -/
theorem wellFormed (h : Processed f f') : f'.WellFormed := by
  obtain ⟨-, -, -, hvisits⟩ := h
  exact hvisits.sound_final.wellFormed

/-- There is one way to process a kernel. -/
theorem unique {f'' : Function} (h : Processed f f') (h' : Processed f f'') : f' = f'' := by
  obtain ⟨htree, hloops, -, hvisits⟩ := h
  obtain ⟨htree', hloops', -, hvisits'⟩ := h'
  obtain rfl := Except.ok.inj (htree.symm.trans htree')
  have hnest := LoopForest.mk.inj (Except.ok.inj (hloops.symm.trans hloops'))
  obtain rfl := Option.some.inj (hvisits.sound.entry.symm.trans hvisits'.sound.entry)
  rw [← hnest] at hvisits'
  rw [hvisits.unique hvisits']

/-- All loops are visited, so all had preheaders. -/
theorem canonical (h : Processed f f') : f.Canonical := by
  obtain ⟨-, -, -, hvisits⟩ := h
  have hw := hvisits.sound
  rw [Function.canonical_iff hw.wellFormed hw.entry]
  intro h hh
  obtain ⟨l, hl, rfl⟩ := hw.forest.complete h hh
  obtain ⟨i, hi, hget⟩ := List.getElem_of_mem hl
  have hvisited := mem_postorder_nest_iff.mpr hi
  exact hvisits.enterable hvisited (hget ▸ List.getElem?_eq_getElem hi)

/-- All loops of what is left have preheaders. -/
theorem canonical_result (h : Processed f f') : f'.Canonical := by
  have hf := h.canonical
  obtain ⟨-, -, -, hvisits⟩ := h
  have hw := hvisits.sound
  have hw' := hvisits.sound_final
  rw [Function.canonical_iff hw.wellFormed hw.entry] at hf
  rw [Function.canonical_iff hw'.wellFormed hw'.entry]
  intro h hh
  have hh₀ := hvisits.isHeader_iff.mp hh
  exact (hvisits.enterable_iff hh₀).mpr (hf h hh₀)

end Processed

/-- A kernel is a function of the module. -/
theorem exists_function_of_accepts (hacc : selection.accepts m id = true) :
    ∃ f, m.function? id = some f := by
  cases hf : m.function? id with
  | none => simp [Kernel.Selection.accepts, hf] at hacc
  | some f => exact ⟨f, rfl⟩

/-- A kernel has a body. -/
theorem exists_entry_of_accepts (hacc : selection.accepts m id = true)
    (hf : m.function? id = some f) : ∃ r, f.entry? = some r := by
  rw [Kernel.Selection.accepts, hf] at hacc
  cases hlayout : f.layout with
  | nil => simp [Function.isDeclaration, hlayout] at hacc
  | cons r rest => exact ⟨r, by rw [Function.entry?_eq_head?, hlayout]; rfl⟩

/-- The loops of a kernel are found, and the work on them starts from what is true. -/
theorem exists_sound_of_accepts (hacc : selection.accepts m id = true)
    (hf : m.function? id = some f) (hwf : f.WellFormed) :
    ∃ r tree loops, DominatorTree.compute f = .ok tree ∧
      LoopForest.compute f tree = .ok ⟨LoopForest.nest loops⟩ ∧
      (LoopForest.mk loops).Describes f.Edge r ∧ Sound ⟨f, ⟨LoopForest.nest loops⟩, tree⟩ r := by
  obtain ⟨r, hr⟩ := exists_entry_of_accepts hacc hf
  obtain ⟨tree, htree, ht, -⟩ := DominatorTree.compute_eq_ok hwf hr
  obtain ⟨loops, hforest, hd⟩ := LoopForest.compute_eq_ok hwf hr ht
  exact ⟨r, tree, loops, htree, hforest, hd, hwf, hr, ht, LoopForest.describes_nest hd⟩

/-- A function that is no kernel is left alone. -/
theorem runFunction_ends_of_rejected (hnot : selection.accepts m id = false) (detail : Detail)
    (changed : Bool) :
    (runFunction selection.accepts changed id).Ends detail m (.ok changed) m := by
  refine .bind .get ?_
  simp only [hnot, Bool.not_false, if_true]
  exact .pure changed

/-- What comes of the visits of the loops comes of the pass. -/
theorem runFunction_ends_of_runLoops (hacc : selection.accepts m id = true)
    (hf : m.function? id = some f) (hwf : f.WellFormed) {tree : DominatorTree} {forest : LoopForest}
    (htree : DominatorTree.compute f = .ok tree) (hforest : LoopForest.compute f tree = .ok forest)
    {changed : Bool} {result : Except Stop Bool} {v : ModuleWork DominatorTree}
    (hends : (runLoops selection id forest.postorder changed).Ends detail
      (held m id ⟨f, forest, tree⟩) result v) :
    (runFunction selection.accepts changed id).Ends detail m result v.module := by
  have hheld : held m id ⟨f, forest, tree⟩ = ⟨m, forest, tree⟩ := by
    rw [held, Module.setFunction_self hf]
  rw [hheld] at hends
  refine .bind .get ?_
  simp only [hacc, hf, Bool.not_true, Bool.false_eq_true, if_false]
  refine .bind (.lift (Function.validate_eq_ok_iff.mpr hwf)) (.bind (.lift htree) (.bind
    (.bind (.lift hforest) (.bind (.log rfl) (.pure _))) (.bind (.log rfl) ?_)))
  exact .zoom hends

/-- **A kernel that can be processed is processed** by the pass. -/
theorem Processed.ends (h : Processed f f') (hacc : selection.accepts m id = true)
    (hf : m.function? id = some f) (detail : Detail) (changed : Bool) :
    ∃ changed', (runFunction selection.accepts changed id).Ends detail m (.ok changed')
      (m.setFunction id f') := by
  obtain ⟨htree, hforest, -, hvisits⟩ := h
  obtain ⟨changed', hends⟩ := hvisits.ends ⟨hacc, hf, .refl f⟩ changed
  exact ⟨changed',
    runFunction_ends_of_runLoops hacc hf hvisits.sound.wellFormed htree hforest hends⟩

/-- **The pass on a kernel.** The kernel can be processed, or it has a loop without a preheader and
the pass fails, leaving a well-formed function. -/
theorem runFunction_ends (hacc : selection.accepts m id = true) (hf : m.function? id = some f)
    (hwf : f.WellFormed) {changed : Bool}
    (hfits : (runFunction selection.accepts changed id).Leaves detail m (FitsAt id)) :
    (∃ f', Processed f f') ∨
    (¬f.Canonical ∧ ∃ header f', f'.WellFormed ∧
      (runFunction selection.accepts changed id).Ends detail m
        (.error (.error (.nonCanonicalLoop f.name header))) (m.setFunction id f')) := by
  obtain ⟨r, tree, loops, htree, hforest, hd, hw⟩ := exists_sound_of_accepts hacc hf hwf
  have hfits' := (runFunction_ends_of_runLoops hacc hf hwf htree hforest ⟨rfl, rfl⟩).leaves hfits
  rcases runLoops_ends ⟨hacc, hf, .refl f⟩ hw (fun i hi => mem_postorder_nest_iff.mp hi) hfits' with
    ⟨w', hvisits⟩ | ⟨i, -, l, hl, hnot, header, w', hw', hends⟩
  · exact .inl ⟨w'.function, .intro htree hforest hd hvisits⟩
  · refine .inr ⟨fun hcan => hnot ?_, header, w'.function, hw'.wellFormed,
      runFunction_ends_of_runLoops hacc hf hwf htree hforest hends⟩
    rw [Function.canonical_iff hwf hw.entry] at hcan
    exact hcan _ (hw.forest.loop l (List.mem_of_getElem? hl)).header

/-! ### A module -/

/-- The functions with these identifiers have their turns; those that are kernels then are
processed. -/
inductive Treated (selection : Kernel.Selection) : Module → List FunctionId → Module → Prop
  | done {m : Module} : Treated selection m [] m
  | skip {m m' : Module} {id : FunctionId} {ids : List FunctionId} :
      selection.accepts m id = false → Treated selection m ids m' →
      Treated selection m (id :: ids) m'
  | work {m m' : Module} {id : FunctionId} {ids : List FunctionId} {f f' : Function} :
      selection.accepts m id = true → m.function? id = some f → Processed f f' →
      Treated selection (m.setFunction id f') ids m' → Treated selection m (id :: ids) m'

namespace Treated

variable {ids : List FunctionId}

/-- The turns of some functions extend the module. -/
theorem extended (h : Treated selection m ids m') : m.Extends selection m' := by
  induction h with
  | done => exact .refl _
  | skip _ _ ih => exact ih
  | work hacc hf hp _ ih => exact (Module.Extends.setFunction hacc hf hp.extended).trans ih

/-- The turns of some functions leave a well-formed module. -/
theorem wellFormed (h : Treated selection m ids m') (hm : m.WellFormed) : m'.WellFormed := by
  induction h with
  | done => exact hm
  | skip _ _ ih => exact ih hm
  | work _ _ hp _ ih => exact ih (hm.setFunction hp.wellFormed)

/-- A function that has no turn keeps its body. -/
theorem function?_eq (h : Treated selection m ids m') (hid : id ∉ ids) :
    m'.function? id = m.function? id := by
  induction h with
  | done => rfl
  | skip _ _ ih => exact ih (List.not_mem_of_not_mem_cons hid)
  | work _ _ _ _ ih =>
      rw [ih (List.not_mem_of_not_mem_cons hid),
        Module.function?_setFunction_ne (List.ne_of_not_mem_cons hid)]

/-- The loops of every kernel that has a turn had preheaders. -/
theorem canonical (h : Treated selection m ids m') (hid : id ∈ ids)
    (hacc : selection.accepts m id = true) (hf : m.function? id = some f) : f.Canonical := by
  induction h with
  | done => cases hid
  | skip hnot _ ih =>
      rcases List.mem_cons.mp hid with rfl | hid
      · rw [hacc] at hnot
        cases hnot
      · exact ih hid hacc hf
  | @work m m' id' ids g g' hacc' hg hp hrest ih =>
      by_cases heq : id = id'
      · subst heq
        obtain rfl : f = g := Option.some.inj (hf.symm.trans hg)
        exact hp.canonical
      · have hext := Module.Extends.setFunction hacc' hg hp.extended
        exact ih ((List.mem_cons.mp hid).resolve_left heq) ((hext.accepts_eq id).trans hacc)
          ((Module.function?_setFunction_ne heq).trans hf)

/-- The loops of every kernel that has had its turn have preheaders. -/
theorem canonical_result (h : Treated selection m ids m') (hid : id ∈ ids)
    (hacc : selection.accepts m' id = true) (hf : m'.function? id = some f) : f.Canonical := by
  induction h with
  | done => cases hid
  | @skip m m' id' ids hnot hrest ih =>
      by_cases hmem : id ∈ ids
      · exact ih hmem hacc hf
      · obtain rfl := (List.mem_cons.mp hid).resolve_right hmem
        rw [hrest.extended.accepts_eq, hnot] at hacc
        cases hacc
  | @work m m' id' ids g g' hacc' hg hp hrest ih =>
      by_cases hmem : id ∈ ids
      · exact ih hmem hacc hf
      · obtain rfl := (List.mem_cons.mp hid).resolve_right hmem
        rw [hrest.function?_eq hmem, Module.function?_setFunction hg] at hf
        cases hf
        exact hp.canonical_result

/-- After all functions had their turns, the loops of all kernels have preheaders. -/
theorem canonical_module (h : Treated selection m m.functionIds m') :
    m'.Canonical selection.accepts := by
  intro id f hacc hf
  obtain ⟨g, hg⟩ : ∃ g, m.function? id = some g := by
    rcases h.extended.function? id with heq | ⟨-, g, -, hg, -⟩
    · exact ⟨f, heq.symm.trans hf⟩
    · exact ⟨g, hg⟩
  exact h.canonical_result (Module.mem_functionIds hg) hacc hf

/-- When no function has two turns, every kernel is processed once. -/
theorem exists_processed (h : Treated selection m ids m') (hids : ids.Nodup) (hid : id ∈ ids)
    (hacc : selection.accepts m id = true) (hf : m.function? id = some f) :
    ∃ f', m'.function? id = some f' ∧ Processed f f' := by
  induction h with
  | done => cases hid
  | skip hnot _ ih =>
      rcases List.mem_cons.mp hid with rfl | hid
      · rw [hacc] at hnot
        cases hnot
      · exact ih hids.of_cons hid hacc hf
  | @work m m' id' ids g g' hacc' hg hp hrest ih =>
      by_cases heq : id = id'
      · subst heq
        obtain rfl : f = g := Option.some.inj (hf.symm.trans hg)
        exact ⟨g', (hrest.function?_eq (List.nodup_cons.mp hids).1).trans
          (Module.function?_setFunction hg), hp⟩
      · have hext := Module.Extends.setFunction hacc' hg hp.extended
        exact ih hids.of_cons ((List.mem_cons.mp hid).resolve_left heq)
          ((hext.accepts_eq id).trans hacc) ((Module.function?_setFunction_ne heq).trans hf)

/-- **What processing the kernels leaves is what the pass leaves.** -/
theorem ends (h : Treated selection m ids m') (detail : Detail) (changed : Bool) :
    ∃ changed', (ids.foldlM (runFunction selection.accepts) changed).Ends detail m (.ok changed')
      m' := by
  induction h generalizing changed with
  | done => exact ⟨changed, .pure changed⟩
  | skip hnot _ ih =>
      obtain ⟨changed', hends⟩ := ih changed
      rw [List.foldlM_cons]
      exact ⟨changed', .bind (runFunction_ends_of_rejected hnot detail changed) hends⟩
  | work hacc hf hp _ ih =>
      obtain ⟨stepped, hstep⟩ := hp.ends hacc hf detail changed
      obtain ⟨changed', hends⟩ := ih stepped
      rw [List.foldlM_cons]
      exact ⟨changed', .bind hstep hends⟩

end Treated

/-- **The pass on some functions of a module.** Either all kernels among them can be processed, or
one of them has a loop without a preheader, and the pass fails there, leaving a well-formed module.
A kernel that was processed has preheaders, so it is another one that fails. -/
theorem foldlM_runFunction_ends (hm : m.WellFormed) {ids : List FunctionId} {changed : Bool}
    (hfits : (ids.foldlM (runFunction selection.accepts) changed).Leaves detail m
      (∀ id, FitsAt id ·)) :
    (∃ m', Treated selection m ids m') ∨
    ∃ id ∈ ids, ∃ f, selection.accepts m id = true ∧ m.function? id = some f ∧ ¬f.Canonical ∧
      ∃ header m', m'.WellFormed ∧
        (ids.foldlM (runFunction selection.accepts) changed).Ends detail m
          (.error (.error (.nonCanonicalLoop f.name header))) m' := by
  induction ids generalizing m changed with
  | nil => exact .inl ⟨m, .done⟩
  | cons id ids ih =>
      rw [List.foldlM_cons] at hfits ⊢
      cases hacc : selection.accepts m id with
      | false =>
          have hstep := runFunction_ends_of_rejected hacc detail changed
          rcases ih hm (hstep.leaves_bind hfits) with
            ⟨m', htreated⟩ | ⟨id', hid', f, hacc', hf, hnot, header, m', hm', hends⟩
          · exact .inl ⟨m', .skip hacc htreated⟩
          · exact .inr ⟨id', List.mem_cons_of_mem _ hid', f, hacc', hf, hnot, header, m', hm',
              .bind hstep hends⟩
      | true =>
          obtain ⟨f, hf⟩ := exists_function_of_accepts hacc
          have hback : ∀ a b : Module, a.Extends selection b → (∀ id, FitsAt id b) →
              ∀ id, FitsAt id a := fun _ _ hext h id => (h id).of_extends hext
          have hfirst := hfits.of_bind (fun changed => Pass.Keeps.foldlM (fun _ => .refl _)
            (fun _ _ _ => .trans) (fun changed id => runFunction_keeps changed id) changed) hback
          rcases runFunction_ends hacc hf (hm f (Module.mem_functions hf)) (hfirst id) with
            ⟨f', hp⟩ | ⟨hnot, header, f', hf', hends⟩
          · obtain ⟨stepped, hstep⟩ := hp.ends hacc hf detail changed
            have hext := Module.Extends.setFunction hacc hf hp.extended
            rcases ih (hm.setFunction hp.wellFormed) (hstep.leaves_bind hfits) with
              ⟨m', htreated⟩ | ⟨id', hid', g, hacc', hg, hnot, header, m', hm', hends⟩
            · exact .inl ⟨m', .work hacc hf hp htreated⟩
            · have hne : id' ≠ id := by
                rintro rfl
                rw [Module.function?_setFunction hf] at hg
                cases hg
                exact hnot hp.canonical_result
              rw [Module.function?_setFunction_ne hne] at hg
              exact .inr ⟨id', List.mem_cons_of_mem _ hid', g,
                (hext.accepts_eq id').symm.trans hacc', hg, hnot, header, m', hm',
                .bind hstep hends⟩
          · exact .inr ⟨id, List.mem_cons_self, f, hacc, hf, hnot, header, _, hm.setFunction hf',
              .bind_error hends⟩

end LoopBarriers

/-! ### The pass as a user asks for it -/

/-- Every block of every function has an identifier. -/
def Module.Fits (m : Module) : Prop :=
  ∀ slot ∈ m.functions, ∀ f ∈ slot, f.capacity ≤ 2 ^ 32

instance (m : Module) : Decidable m.Fits :=
  inferInstanceAs (Decidable (∀ slot ∈ m.functions, ∀ f ∈ slot, f.capacity ≤ 2 ^ 32))

/-- Every block of a function in a module that fits has an identifier. -/
theorem Module.Fits.fitsAt {m : Module} (h : m.Fits) (id : FunctionId) :
    LoopBarriers.FitsAt id m :=
  fun f hf => h (some f) (mem_functions hf) f rfl

namespace Pipeline

variable {options : Options} {detail : Detail} {m : Module}

/-- What comes of the turns of the functions comes of the pass. -/
theorem runLoopBarriers_ends_of_foldlM (hvalid : m.validate = .ok ()) {changed : Bool} {m' : Module}
    (hends : (m.functionIds.foldlM (LoopBarriers.runFunction options.accepts) false).Ends detail m
      (.ok changed) m') :
    (runLoopBarriers options).Ends detail m (.ok changed) m' :=
  .bind .get (.bind (.lift hvalid) (.bind (.bind .get hends)
    (.bind .get (.bind (.log rfl) (.pure changed)))))

/-- An error in the turn of a function is the error of the pass. -/
theorem runLoopBarriers_ends_error_of_foldlM (hvalid : m.validate = .ok ()) {stop : Stop}
    {m' : Module}
    (hends : (m.functionIds.foldlM (LoopBarriers.runFunction options.accepts) false).Ends detail m
      (.error stop) m') :
    (runLoopBarriers options).Ends detail m (.error stop) m' :=
  .bind .get (.bind (.lift hvalid) (.bind_error (.bind .get hends)))

/-- A pass that ends within the bound was so after the turns of the functions. -/
theorem fitsAt_of_runLoopBarriers (hvalid : m.validate = .ok ())
    (hfits : (runLoopBarriers options).Leaves detail m Module.Fits) :
    (m.functionIds.foldlM (LoopBarriers.runFunction options.accepts) false).Leaves detail m
      (∀ id, LoopBarriers.FitsAt id ·) := by
  have hcheck : (liftM m.validate : Pass Module Unit).Ends detail m (.ok ()) m := .lift hvalid
  have hrun : (LoopBarriers.run options.accepts).Leaves detail m Module.Fits :=
    (hcheck.leaves_bind (Pass.Ends.get.leaves_bind hfits)).of_bind (R := Eq)
      (fun changed _ m' => .get_bind (.log_bind rfl (.pure rfl))) fun _ _ heq h => heq ▸ h
  exact (Pass.Ends.get.leaves_bind hrun).fitsAt

/-- **The pass on a module that passes the check.** All kernels are processed, or one of them has
a loop without a preheader, and the pass fails there. -/
theorem runLoopBarriers_ends (hvalid : m.validate = .ok ())
    (hfits : (runLoopBarriers options).Leaves detail m Module.Fits) :
    (∃ m' changed, LoopBarriers.Treated ⟨options.kernel⟩ m m.functionIds m' ∧
      (runLoopBarriers options).Ends detail m (.ok changed) m') ∨
    ∃ id f, options.accepts m id = true ∧ m.function? id = some f ∧ ¬f.Canonical ∧
      ∃ header m', (runLoopBarriers options).Ends detail m
        (.error (.error (.nonCanonicalLoop f.name header))) m' := by
  rcases LoopBarriers.foldlM_runFunction_ends (Module.validate_eq_ok_iff.mp hvalid)
      (fitsAt_of_runLoopBarriers hvalid hfits) with
    ⟨m', htreated⟩ | ⟨id, -, f, hacc, hf, hnot, header, m', -, hends⟩
  · obtain ⟨changed, hends⟩ := htreated.ends detail false
    exact .inl ⟨m', changed, htreated, runLoopBarriers_ends_of_foldlM hvalid hends⟩
  · exact .inr ⟨id, f, hacc, hf, hnot, header, m',
      runLoopBarriers_ends_error_of_foldlM hvalid hends⟩

/-- **However the pass ends**, it leaves a well-formed module. -/
theorem runLoopBarriers_leaves_wellFormed (hvalid : m.validate = .ok ())
    (hfits : (runLoopBarriers options).Leaves detail m Module.Fits) :
    (runLoopBarriers options).Leaves detail m Module.WellFormed := by
  have hm := Module.validate_eq_ok_iff.mp hvalid
  rcases LoopBarriers.foldlM_runFunction_ends hm (fitsAt_of_runLoopBarriers hvalid hfits) with
    ⟨m', htreated⟩ | ⟨_, -, _, -, -, -, _, m', hm', hends⟩
  · obtain ⟨changed, hends⟩ := htreated.ends detail false
    rw [Pass.Leaves, (runLoopBarriers_ends_of_foldlM hvalid hends).2]
    exact htreated.wellFormed hm
  · rw [Pass.Leaves, (runLoopBarriers_ends_error_of_foldlM hvalid hends).2]
    exact hm'

/-- When the pass succeeds, every function has had its turn. -/
theorem treated_of_ok (hvalid : m.validate = .ok ())
    (hfits : ((runLoopBarriers options).run detail m).state.Fits) {changed : Bool}
    (hok : ((runLoopBarriers options).run detail m).result = .ok changed) :
    LoopBarriers.Treated ⟨options.kernel⟩ m m.functionIds
      ((runLoopBarriers options).run detail m).state := by
  rcases runLoopBarriers_ends hvalid hfits with
    ⟨m', _, htreated, hends⟩ | ⟨_, _, _, _, _, _, _, hends⟩
  · rwa [hends.2]
  · rw [hends.1] at hok
    cases hok

/-- When the pass succeeds, every kernel is processed. -/
theorem exists_processed (hvalid : m.validate = .ok ()) (hslots : m.functions.length ≤ 2 ^ 32)
    (hfits : ((runLoopBarriers options).run detail m).state.Fits) {changed : Bool}
    (hok : ((runLoopBarriers options).run detail m).result = .ok changed)
    {id : FunctionId} {f : Function} (hacc : options.accepts m id = true)
    (hf : m.function? id = some f) :
    ∃ f', ((runLoopBarriers options).run detail m).state.function? id = some f' ∧
      LoopBarriers.Processed f f' :=
  (treated_of_ok hvalid hfits hok).exists_processed (Module.nodup_functionIds hslots)
    (Module.mem_functionIds hf) hacc hf

/-- **When loop barriers succeed.** On a module that passes the check the pass never faults and
never finds its own records wrong: it succeeds exactly when every loop of every kernel has a
preheader, and otherwise fails for a kernel with a loop that has none. What it leaves when it
succeeds passes the check and has preheaders again, so that it succeeds on that too. -/
theorem runLoopBarriers_ok_iff (options : Options) (detail : Detail) (m : Module)
    (hvalid : m.validate = .ok ())
    (hfits : ((runLoopBarriers options).run detail m).state.Fits) :
    ((∃ changed, ((runLoopBarriers options).run detail m).result = .ok changed) ↔
      m.Canonical options.accepts) ∧
    (¬m.Canonical options.accepts → ∃ id f header, options.accepts m id = true ∧
      m.function? id = some f ∧ ¬f.Canonical ∧ ((runLoopBarriers options).run detail m).result =
        .error (.error (.nonCanonicalLoop f.name header))) ∧
    (m.Canonical options.accepts →
      ((runLoopBarriers options).run detail m).state.validate = .ok () ∧
      ((runLoopBarriers options).run detail m).state.Canonical options.accepts ∧
      ∀ detail', ((runLoopBarriers options).run detail'
          ((runLoopBarriers options).run detail m).state).state.Fits →
        ∃ changed, ((runLoopBarriers options).run detail'
          ((runLoopBarriers options).run detail m).state).result = .ok changed) := by
  rcases runLoopBarriers_ends hvalid hfits with
    ⟨m', changed, htreated, hends⟩ | ⟨id, f, hacc, hf, hnot, header, m', hends⟩
  · have hcanonical : m.Canonical options.accepts := fun id f hacc hf =>
      htreated.canonical (Module.mem_functionIds hf) hacc hf
    have hvalid' : m'.validate = .ok () := Module.validate_eq_ok_iff.mpr
      (htreated.wellFormed (Module.validate_eq_ok_iff.mp hvalid))
    have hcanonical' : m'.Canonical options.accepts := htreated.canonical_module
    refine ⟨⟨fun _ => hcanonical, fun _ => ⟨changed, hends.1⟩⟩, fun hnot => absurd hcanonical hnot,
      fun _ => ?_⟩
    rw [hends.2]
    refine ⟨hvalid', hcanonical', fun detail' hfits' => ?_⟩
    rcases runLoopBarriers_ends hvalid' hfits' with
      ⟨_, changed', _, hends'⟩ | ⟨id, f, hacc, hf, hnot, -⟩
    · exact ⟨changed', hends'.1⟩
    · exact absurd (hcanonical' id f hacc hf) hnot
  · have hnot' : ¬m.Canonical options.accepts := fun hall => hnot (hall id f hacc hf)
    refine ⟨⟨?_, fun hall => absurd hall hnot'⟩, fun _ => ⟨id, f, header, hacc, hf, hnot, hends.1⟩,
      fun hall => absurd hall hnot'⟩
    rintro ⟨changed, hok⟩
    rw [hends.1] at hok
    cases hok

end Pipeline

/-- A kernel with a loop inside a loop. The outer loop has a phi in its header and a barrier in
its latch; its header is the preheader of the inner one, which is a single block. -/
def nestedLoops : Function where
  name := "nested"
  returnType := .void
  parameters := [{ name := "more", ty := .i1 }]
  blocks :=
    [{ id := ⟨0⟩, name := "entry", instructions := [.branch ⟨1⟩] },
      { id := ⟨1⟩, name := "outer"
        instructions := [.phi 0 [(.constant 0, ⟨0⟩), (.constant 1, ⟨3⟩)] .i32, .branch ⟨2⟩] },
      { id := ⟨2⟩, name := "inner", instructions := [.branchCond (.param 0) ⟨2⟩ ⟨3⟩] },
      { id := ⟨3⟩, name := "latch"
        instructions := [.barrier, .branchCond (.param 0) ⟨1⟩ ⟨4⟩] },
      { id := ⟨4⟩, name := "exit", instructions := [.ret none] }]
  layout := [⟨0⟩, ⟨1⟩, ⟨2⟩, ⟨3⟩, ⟨4⟩]

/-- A module whose only function is that kernel. -/
def nestedModule : Module where
  name := "module"
  functions := [some nestedLoops]

/-- The loops of the kernel with a loop inside a loop have preheaders, before the run and after
it. -/
theorem Pipeline.runLoopBarriers_ok_nested :
    nestedModule.validate = .ok () ∧
    ((runLoopBarriers { kernel := some "nested" }).run none nestedModule).state.Fits ∧
    nestedModule.Canonical (Kernel.Selection.accepts { name := some "nested" }) ∧
    ((runLoopBarriers { kernel := some "nested" }).run none nestedModule).state.Canonical
      (Kernel.Selection.accepts { name := some "nested" }) := by
  have hvalid : nestedModule.validate = .ok () := by decide +kernel
  have hfits : ((runLoopBarriers { kernel := some "nested" }).run none
      nestedModule).state.Fits := by decide +kernel
  obtain ⟨hiff, -, hresult⟩ :=
    runLoopBarriers_ok_iff { kernel := some "nested" } none nestedModule hvalid hfits
  have hcanonical := hiff.mp ⟨true, by decide +kernel⟩
  exact ⟨hvalid, hfits, hcanonical, (hresult hcanonical).2.1⟩

end Lockstep
