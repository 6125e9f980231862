import Lockstep.Proofs.Kernel.Header
import Lockstep.Proofs.LoopBarriers.Copy

/-!
# The two passes commute

Loop barriers change the bodies of kernels, and a header speaks of their signatures. So the header
is the same before and after the barriers are there. The kernels that the header pass replaces have
copies afterwards that are kernels again, and a copy gets its barriers where the kernel gets them.

`LoopBarriers.Finished` is what the barrier pass does to a module, function by function. It is
enough to say that the header pass takes a module and its finished form to a module and its
finished form.

## Main results

* `LoopBarriers.Finished.unique`: there is one finished form.
* `LoopBarriers.Finished.replaced`: replacing kernels before and after.
* `Pipeline.barriers_header_commute`: the two passes in either order.
-/

namespace Lockstep

/-! ### Signatures -/

namespace Module

variable {selection : Kernel.Selection} {m m' : Module} {id : FunctionId}

/-- The slots that hold functions determine the identifiers that are listed. -/
theorem functionIds_eq : m.functionIds =
    (m.functions.map Option.isSome).zipIdx.filterMap fun slot =>
      if slot.1 then some (.ofIndex slot.2) else none := by
  rw [functionIds, liveFunctions, List.map_filterMap, List.zipIdx_map, List.filterMap_map]
  refine List.filterMap_congr fun slot _ => ?_
  obtain ⟨slot, i⟩ := slot
  cases slot <;> rfl

/-- Modules with the same global variables find them at the same positions. -/
theorem global?_congr (h : m'.globals = m.globals) : m'.global? = m.global? := by
  funext l
  rw [global?, global?, h]

/-- Modules with the same global variables give a kernel the same automatic locals. -/
theorem automaticLocals_congr (h : m'.globals = m.globals) (name : String) :
    Kernel.automaticLocals m' name = Kernel.automaticLocals m name := by
  rw [Kernel.automaticLocals, Kernel.automaticLocals, numberedGlobals, numberedGlobals, h]

/-- Modules with the same functions in as many slots are the same. -/
theorem eq_of_function? (hname : m'.name = m.name) (hglobals : m'.globals = m.globals)
    (hmetadata : m'.metadata = m.metadata) (hlength : m'.functions.length = m.functions.length)
    (hslots : m.functions.length ≤ 2 ^ 32) (h : ∀ id, m'.function? id = m.function? id) :
    m' = m := by
  have hfunctions : m'.functions = m.functions := by
    refine List.ext_getElem hlength fun i hi' hi => ?_
    have hslot := h (.ofIndex i)
    rw [function?, function?, ArenaId.index_ofIndex (Nat.lt_of_lt_of_le hi hslots),
      List.getElem?_eq_getElem hi', List.getElem?_eq_getElem hi] at hslot
    exact hslot
  cases m
  cases m'
  simp_all

namespace Extends

variable (h : m.Extends selection m')
include h

/-- A module that was extended has the same functions. -/
theorem functionIds_eq : m'.functionIds = m.functionIds := by
  have hslots : m'.functions.map Option.isSome = m.functions.map Option.isSome := by
    refine List.ext_getElem? fun i => ?_
    rw [List.getElem?_map, List.getElem?_map]
    rcases h.slot i with heq | ⟨_, f, f', -, -, hf, hf', -⟩
    · rw [heq]
    · rw [hf, hf']
      rfl
  rw [Module.functionIds_eq, Module.functionIds_eq, hslots]

/-- A module that was extended has functions of the same names. -/
theorem functionName_eq (id : FunctionId) : m'.functionName id = m.functionName id := by
  rw [functionName, functionName]
  rcases h.function? id with heq | ⟨-, f, f', hf, hf', hext⟩
  · rw [heq]
  · rw [hf, hf', Option.map_some, Option.map_some, hext.name]

/-- The same kernels are found, with the same automatic locals. -/
theorem plan_eq : Kernel.plan selection.accepts m' = Kernel.plan selection.accepts m := by
  have haccepts : selection.accepts m' = selection.accepts m := funext h.accepts_eq
  rw [Kernel.plan, Kernel.plan, Kernel.kernelIds, Kernel.kernelIds, h.functionIds_eq, haccepts]
  refine List.map_congr_left fun id _ => ?_
  rw [h.functionName_eq, automaticLocals_congr h.globals]

/-- The same is said of a function. -/
theorem description_eq (sizeOf : Kernel.SizeOf) (id : FunctionId) :
    Kernel.description sizeOf m' id = Kernel.description sizeOf m id := by
  have hlocals : ∀ {f f' : Function}, f'.name = f.name →
      Kernel.describeLocals sizeOf m' f' = Kernel.describeLocals sizeOf m f := by
    intro f f' hname
    rw [Kernel.describeLocals, Kernel.describeLocals, hname, automaticLocals_congr h.globals,
      global?_congr h.globals]
  rw [Kernel.description, Kernel.description]
  rcases h.function? id with heq | ⟨-, f, f', hf, hf', hext⟩
  · rw [heq]
    cases m.function? id with
    | none => rfl
    | some f => simp only [hlocals (f := f) rfl]
  · simp only [hf, hf', hlocals hext.name, Kernel.describeArguments, hext.name, hext.parameters]

/-- A module that was extended has the same header. -/
theorem texts_eq (sizeOf : Kernel.SizeOf) :
    (Kernel.kernelIds selection.accepts m').mapM (Kernel.description sizeOf m') =
      (Kernel.kernelIds selection.accepts m).mapM (Kernel.description sizeOf m) := by
  have haccepts : selection.accepts m' = selection.accepts m := funext h.accepts_eq
  rw [Kernel.kernelIds, Kernel.kernelIds, h.functionIds_eq, haccepts,
    funext (h.description_eq sizeOf)]

end Extends

end Module

/-! ### Finished modules -/

namespace LoopBarriers

variable {selection : Kernel.Selection} {m m' m'' : Module} {id : FunctionId} {f : Function}

/-- The second module is the first with all kernels processed. -/
structure Finished (selection : Kernel.Selection) (m m' : Module) : Prop where
  name : m'.name = m.name
  globals : m'.globals = m.globals
  metadata : m'.metadata = m.metadata
  length : m'.functions.length = m.functions.length
  kernel : ∀ {id f}, selection.accepts m id = true → m.function? id = some f →
    ∃ f', m'.function? id = some f' ∧ Processed f f'
  other : ∀ {id}, selection.accepts m id = false → m'.function? id = m.function? id

/-- What the pass leaves is finished. -/
theorem Treated.finished (h : Treated selection m m.functionIds m')
    (hslots : m.functions.length ≤ 2 ^ 32) : Finished selection m m' where
  name := h.extended.name
  globals := h.extended.globals
  metadata := h.extended.metadata
  length := h.extended.length
  kernel hacc hf := h.exists_processed (Module.nodup_functionIds hslots)
    (Module.mem_functionIds hf) hacc hf
  other {id} hnot := by
    rcases h.extended.function? id with heq | ⟨hacc, -⟩
    · exact heq
    · rw [hnot] at hacc
      cases hacc

/-- When every kernel can be processed, all functions can have their turns. -/
theorem exists_treated {ids : List FunctionId} (hids : ids.Nodup)
    (hkernels : ∀ id ∈ ids, selection.accepts m id = true → ∀ f, m.function? id = some f →
      ∃ f', Processed f f') : ∃ m', Treated selection m ids m' := by
  induction ids generalizing m with
  | nil => exact ⟨m, .done⟩
  | cons id ids ih =>
      obtain ⟨hnot, hids⟩ := List.nodup_cons.mp hids
      obtain ⟨hid, hrest⟩ := List.forall_mem_cons.mp hkernels
      cases hacc : selection.accepts m id with
      | false =>
          obtain ⟨m', htreated⟩ := ih hids hrest
          exact ⟨m', .skip hacc htreated⟩
      | true =>
          obtain ⟨f, hf⟩ := exists_function_of_accepts hacc
          obtain ⟨f', hp⟩ := hid hacc f hf
          have hext := Module.Extends.setFunction hacc hf hp.extended
          obtain ⟨m', htreated⟩ := ih hids fun id' hid' hacc' g hg => by
            have hne : id' ≠ id := fun heq => hnot (heq ▸ hid')
            rw [Module.function?_setFunction_ne hne] at hg
            exact hrest id' hid' ((hext.accepts_eq id').symm.trans hacc') g hg
          exact ⟨m', .work hacc hf hp htreated⟩

namespace Finished

/-- **There is one finished form.** -/
theorem unique (h : Finished selection m m') (h' : Finished selection m m'')
    (hslots : m.functions.length ≤ 2 ^ 32) : m'' = m' := by
  refine Module.eq_of_function? (h'.name.trans h.name.symm) (h'.globals.trans h.globals.symm)
    (h'.metadata.trans h.metadata.symm) (h'.length.trans h.length.symm) (h.length ▸ hslots)
    fun id => ?_
  cases hacc : selection.accepts m id with
  | false => rw [h.other hacc, h'.other hacc]
  | true =>
      obtain ⟨f, hf⟩ := exists_function_of_accepts hacc
      obtain ⟨g, hg, hp⟩ := h.kernel hacc hf
      obtain ⟨g', hg', hp'⟩ := h'.kernel hacc hf
      rw [hg, hg', hp.unique hp']

/-- **The pass reaches the finished form** of a module that has one. -/
theorem treated (h : Finished selection m m') (hslots : m.functions.length ≤ 2 ^ 32) :
    Treated selection m m.functionIds m' := by
  have hkernels : ∀ id ∈ m.functionIds, selection.accepts m id = true →
      ∀ f, m.function? id = some f → ∃ f', Processed f f' := by
    intro id _ hacc f hf
    obtain ⟨f', -, hp⟩ := h.kernel hacc hf
    exact ⟨f', hp⟩
  obtain ⟨m'', htreated⟩ := exists_treated (Module.nodup_functionIds hslots) hkernels
  rwa [h.unique (htreated.finished hslots) hslots] at htreated

end Finished

end LoopBarriers

/-! ### Kernels after a replacement -/

namespace Kernel

variable {selection : Selection} {m : Module} {id : FunctionId} {f : Function}
  {locals : List GlobalId}

/-- Whether a function is a kernel depends on its body, on its name and on the table of kernels. -/
theorem accepts_of_function? (hf : m.function? id = some f) :
    selection.accepts m id = (!f.isDeclaration && match selection.name with
      | some name => f.name == name
      | none => isListed m id) := by
  rw [Selection.accepts, hf]
  cases hdecl : f.isDeclaration <;> cases selection.name <;> simp [hdecl]

/-- The kernels on the plan are those that are accepted, with their automatic locals. -/
theorem mem_plan_iff (hslots : m.functions.length ≤ 2 ^ 32) :
    (id, locals) ∈ plan selection.accepts m ↔
      selection.accepts m id = true ∧ locals = automaticLocals m (m.functionName id) := by
  simp only [plan, List.mem_map, mem_kernelIds hslots, Prod.mk.injEq]
  constructor
  · rintro ⟨_, ⟨hacc, -⟩, rfl, hlocals⟩
    exact ⟨hacc, hlocals.symm⟩
  · rintro ⟨hacc, rfl⟩
    exact ⟨id, ⟨hacc, LoopBarriers.exists_function_of_accepts hacc⟩, rfl, rfl⟩

/-- A slot of the module afterwards was there before, or is that of a copy, or is none. -/
theorem slot_replaced_cases
    (hslots : m.functions.length + (toReplace (plan selection.accepts m)).length ≤ 2 ^ 32)
    (id : FunctionId) : id.index < m.functions.length ∨
    (∃ old f locals k, (toReplace (plan selection.accepts m))[k]? = some (old, locals) ∧
      selection.accepts m old = true ∧ m.function? old = some f ∧
      id.index = m.functions.length + k) ∨
    m.functions.length + (toReplace (plan selection.accepts m)).length ≤ id.index := by
  rcases Nat.lt_or_ge id.index m.functions.length with hlt | hge
  · exact .inl hlt
  · cases hget : (toReplace (plan selection.accepts m))[id.index - m.functions.length]? with
    | none =>
        have := List.getElem?_eq_none_iff.mp hget
        exact .inr (.inr (by omega))
    | some planned =>
        obtain ⟨old, locals⟩ := planned
        have hplan := (List.mem_filter.mp (List.mem_of_getElem? hget)).1
        have hacc := ((mem_plan_iff (Nat.le_of_add_right_le hslots)).mp hplan).1
        obtain ⟨f, hf⟩ := LoopBarriers.exists_function_of_accepts hacc
        exact .inr (.inl ⟨old, f, locals, _, hget, hacc, hf, by omega⟩)

variable (hnames : (m.metadata.map MetadataTable.name).Nodup)
  (hslots : m.functions.length + (toReplace (plan selection.accepts m)).length ≤ 2 ^ 32)
include hnames hslots

/-- Of the functions that stay, the tables list the kernels. -/
theorem isListed_replaced_of_lt (hid : id.index < m.functions.length)
    (hnot : id ∉ (toReplace (plan selection.accepts m)).map Prod.fst) :
    isListed (replaced m (plan selection.accepts m)) id = true ↔
      selection.accepts m id = true := by
  have hslots' : m.functions.length ≤ 2 ^ 32 := Nat.le_of_add_right_le hslots
  rw [replaced, isListed_regenerated hnames]
  constructor
  · rintro ⟨pair, hpair, rfl⟩
    rcases of_mem_pairsFrom hpair with hplan | ⟨k, hk, hnew⟩
    · exact ((mem_plan_iff hslots').mp hplan).1
    · rw [hnew, ArenaId.index_ofIndex (by omega)] at hid
      omega
  · intro hacc
    have hplan := (mem_plan_iff hslots').mpr ⟨hacc, rfl⟩
    cases hlocals : (automaticLocals m (m.functionName id)).isEmpty with
    | true =>
        rw [List.isEmpty_iff.mp hlocals] at hplan
        exact ⟨(id, id), mem_pairsFrom_of_nil hplan, rfl⟩
    | false =>
        refine absurd (List.mem_map_of_mem (List.mem_filter.mpr ⟨hplan, ?_⟩)) hnot
        simp [hlocals]

/-- A function that is not replaced is a kernel as before. -/
theorem accepts_replaced_of_lt (hid : id.index < m.functions.length)
    (hnot : id ∉ (toReplace (plan selection.accepts m)).map Prod.fst) :
    selection.accepts (replaced m (plan selection.accepts m)) id = selection.accepts m id := by
  have hlisted := isListed_replaced_of_lt hnames hslots hid hnot
  have hfunction : (replaced m (plan selection.accepts m)).function? id = m.function? id := by
    rw [function?_replaced_of_lt hid, if_neg hnot]
  cases hf : m.function? id with
  | none => rw [Selection.accepts, Selection.accepts, hfunction, hf]
  | some f =>
      rw [accepts_of_function? hf] at hlisted
      rw [accepts_of_function? (hfunction.trans hf), accepts_of_function? hf]
      cases hname : selection.name with
      | some name => rfl
      | none =>
          rw [hname] at hlisted
          cases hdecl : f.isDeclaration with
          | true => rfl
          | false =>
              rw [hdecl] at hlisted
              simp only [Bool.not_false, Bool.true_and] at hlisted ⊢
              exact Bool.eq_iff_iff.mpr hlisted

/-- The copy of a kernel is a kernel. -/
theorem accepts_replaced_copy {k : Nat}
    (hget : (toReplace (plan selection.accepts m))[k]? = some (id, locals)) {new : FunctionId}
    (hnew : new.index = m.functions.length + k) :
    selection.accepts (replaced m (plan selection.accepts m)) new = true := by
  have hslots' : m.functions.length ≤ 2 ^ 32 := Nat.le_of_add_right_le hslots
  have hplan := (List.mem_filter.mp (List.mem_of_getElem? hget)).1
  have hacc := ((mem_plan_iff hslots').mp hplan).1
  obtain ⟨f, hf⟩ := LoopBarriers.exists_function_of_accepts hacc
  have hpair := mem_pairsFrom_of_getElem? (n := m.functions.length) hget
  rw [← hnew, ArenaId.ofIndex_index] at hpair
  rw [accepts_of_function? hf] at hacc
  rw [accepts_of_function? (function?_replaced_copy hget hf hnew)]
  cases hname : selection.name with
  | some name =>
      rw [hname] at hacc
      exact hacc
  | none =>
      have hlisted : isListed (replaced m (plan selection.accepts m)) new = true :=
        (isListed_regenerated hnames).mpr ⟨(id, new), hpair, rfl⟩
      simp only [hlisted, Bool.and_true]
      exact (Bool.and_eq_true_iff.mp hacc).1

end Kernel

namespace LoopBarriers

variable {selection : Kernel.Selection} {m m' : Module}

/-- **Replacing kernels before and after the barriers.** What stays is finished as it was, and a
copy is finished as the kernel was. -/
theorem Finished.replaced (h : Finished selection m m')
    (hnames : (m.metadata.map MetadataTable.name).Nodup)
    (hslots : m.functions.length +
      (Kernel.toReplace (Kernel.plan selection.accepts m)).length ≤ 2 ^ 32) :
    Finished selection (Kernel.replaced m (Kernel.plan selection.accepts m))
      (Kernel.replaced m' (Kernel.plan selection.accepts m)) where
  name := by
    rw [Kernel.replaced, Kernel.replaced, Kernel.regenerateTables_eq, Kernel.regenerateTables_eq]
    exact h.name
  globals := by
    rw [Kernel.replaced, Kernel.replaced, Kernel.regenerateTables_eq, Kernel.regenerateTables_eq]
    exact h.globals
  metadata := by
    rw [Kernel.replaced, Kernel.replaced, Kernel.regenerateTables_eq, Kernel.regenerateTables_eq,
      h.metadata, h.length]
  length := by rw [Kernel.length_replaced, Kernel.length_replaced, h.length]
  kernel {id f} hacc hf := by
    rcases Kernel.slot_replaced_cases hslots id with
      hlt | ⟨old, f₀, locals, k, hget, hold, hf₀, hnew⟩ | hge
    · have hlt' : id.index < m'.functions.length := h.length ▸ hlt
      rw [Kernel.function?_replaced_of_lt hlt] at hf
      rw [Kernel.function?_replaced_of_lt hlt']
      split at hf
      · cases hf
      · next hnot =>
          rw [Kernel.accepts_replaced_of_lt hnames hslots hlt hnot] at hacc
          rw [if_neg hnot]
          exact h.kernel hacc hf
    · obtain ⟨f₀', hf₀', hp⟩ := h.kernel hold hf₀
      rw [Kernel.function?_replaced_copy hget hf₀ hnew] at hf
      obtain rfl := Option.some.inj hf
      refine ⟨_, Kernel.function?_replaced_copy hget hf₀' (by rw [h.length, hnew]), ?_⟩
      have hlocals : Kernel.localParameters m' locals = Kernel.localParameters m locals := by
        rw [Kernel.localParameters, Kernel.localParameters, Module.global?_congr h.globals]
      rw [Kernel.widened_eq, Kernel.widened_eq, hp.extended.parameters, hlocals]
      exact hp.copied
    · rw [Module.function?_eq_none_of_le (by rwa [Kernel.length_replaced])] at hf
      cases hf
  other {id} hnot := by
    rcases Kernel.slot_replaced_cases hslots id with
      hlt | ⟨old, f₀, locals, k, hget, hold, hf₀, hnew⟩ | hge
    · have hlt' : id.index < m'.functions.length := h.length ▸ hlt
      rw [Kernel.function?_replaced_of_lt hlt, Kernel.function?_replaced_of_lt hlt']
      split
      · rfl
      · next hmem =>
          rw [Kernel.accepts_replaced_of_lt hnames hslots hlt hmem] at hnot
          exact h.other hnot
    · rw [Kernel.accepts_replaced_copy hnames hslots hget hnew] at hnot
      cases hnot
    · rw [Module.function?_eq_none_of_le (by rwa [Kernel.length_replaced, h.length]),
        Module.function?_eq_none_of_le (by rwa [Kernel.length_replaced])]

/-- **The header pass before and after the barriers** takes a module and its finished form to a
module and its finished form. -/
theorem Treated.finished_headed (h : Treated selection m m.functionIds m')
    (hnames : (m.metadata.map MetadataTable.name).Nodup)
    (hslots : m.functions.length +
      (Kernel.toReplace (Kernel.plan selection.accepts m)).length ≤ 2 ^ 32) :
    Finished selection (Kernel.headed selection.accepts m)
      (Kernel.headed selection.accepts m') := by
  have hfinished := h.finished (Nat.le_of_add_right_le hslots)
  rw [Kernel.headed, Kernel.headed, h.extended.plan_eq]
  split
  · exact hfinished
  · exact hfinished.replaced hnames hslots

end LoopBarriers

/-! ### The two orders -/

namespace Pipeline

variable {σ : Type} [Sink σ]

/-- The loop barriers, then the header. Says whether anything changed. -/
def barriersThenHeader (options : Options) : Pass (Kernel.Header.Work σ) Bool := do
  let barriers ← Kernel.Header.onModule (runLoopBarriers options)
  let header ← Kernel.Header.run (DataLayout.allocSize options.pointerSize) options.accepts
  return barriers || header

/-- The header, then the loop barriers. Says whether anything changed. -/
def headerThenBarriers (options : Options) : Pass (Kernel.Header.Work σ) Bool := do
  let header ← Kernel.Header.run (DataLayout.allocSize options.pointerSize) options.accepts
  let barriers ← Kernel.Header.onModule (runLoopBarriers options)
  return barriers || header

/-- **The two passes commute.** Take a module that passes the check and on which loop barriers
succeed, with tables of different names, with room for all blocks and for the copies of kernels,
and with automatic locals whose sizes can be had. When the sink takes all that is written, both
orders succeed, and they leave the same module and the same sink. -/
theorem barriers_header_commute (options : Options) (detail : Detail) (m : Module) (sink : σ)
    (hvalid : m.validate = .ok ())
    (hnames : (m.metadata.map MetadataTable.name).Nodup)
    (hslots : m.functions.length +
      (Kernel.toReplace (Kernel.plan options.accepts m)).length ≤ 2 ^ 32)
    (hfits : ((runLoopBarriers options).run detail m).state.Fits)
    (hsizes : ∀ id f, options.accepts m id = true → m.function? id = some f →
      ∀ l ∈ Kernel.automaticLocals m f.name, ∀ g, m.global? l = some g →
        ∃ size, DataLayout.allocSize options.pointerSize g.valueType = .ok size)
    (hwrite : ∀ (sink : σ) text, ∃ sink', Sink.write sink text = .ok sink')
    (hflush : ∀ sink : σ, ∃ sink', Sink.flush sink = .ok sink')
    (hok : ∃ changed, ((runLoopBarriers options).run detail m).result = .ok changed) :
    ∃ changed changed' done,
      (barriersThenHeader options).Ends detail ⟨m, sink⟩ (.ok changed) done ∧
      (headerThenBarriers options).Ends detail ⟨m, sink⟩ (.ok changed') done := by
  obtain ⟨changed, hok⟩ := hok
  have htreated := treated_of_ok hvalid hfits hok
  set m' := ((runLoopBarriers options).run detail m).state
  have hext : m.Extends ⟨options.kernel⟩ m' := htreated.extended
  obtain ⟨texts, written, sink', htexts, hwritten, hflushed⟩ :=
    Kernel.exists_written hwrite (Nat.le_of_add_right_le hslots) hsizes hflush sink
  have hslots' : m'.functions.length +
      (Kernel.toReplace (Kernel.plan options.accepts m')).length ≤ 2 ^ 32 := by
    rw [Options.accepts, hext.plan_eq, hext.length]
    exact hslots
  have hheader := Kernel.run_ends hslots htexts hwritten hflushed detail
  have hheader' := Kernel.run_ends hslots' ((hext.texts_eq _).trans htexts) hwritten hflushed
    detail
  have hvalid' : (Kernel.headed options.accepts m).validate = .ok () :=
    Module.validate_eq_ok_iff.mpr
      (Kernel.wellFormed_headed (Module.validate_eq_ok_iff.mp hvalid))
  have htreated' := (htreated.finished_headed hnames hslots).treated
    (Kernel.length_headed.trans_le hslots)
  obtain ⟨changed', hends'⟩ := htreated'.ends detail false
  have hbarriers : (runLoopBarriers options).Ends detail m (.ok changed) m' := ⟨hok, rfl⟩
  have hbarriers' : (runLoopBarriers options).Ends detail (Kernel.headed options.accepts m)
      (.ok changed') (Kernel.headed options.accepts m') :=
    runLoopBarriers_ends_of_foldlM hvalid' hends'
  exact ⟨_, _, ⟨Kernel.headed options.accepts m', sink'⟩,
    .bind (.zoom hbarriers) (.bind hheader' (.pure _)),
    .bind hheader (.bind (.zoom hbarriers') (.pure _))⟩

end Pipeline

/-- A kernel that waits before a loop of one block, where it writes to a local variable. -/
def storingLoop : Function where
  name := "store"
  returnType := .void
  parameters := [{ name := "more", ty := .i1 }]
  blocks :=
    [{ id := ⟨0⟩, name := "entry", instructions := [.barrier, .branch ⟨1⟩] },
      { id := ⟨1⟩, name := "loop"
        instructions := [.phi 0 [(.constant 0, ⟨0⟩), (.constant 1, ⟨1⟩)] .i32,
          .store (.temp 0) (.global ⟨0⟩), .branchCond (.param 0) ⟨1⟩ ⟨2⟩] },
      { id := ⟨2⟩, name := "exit", instructions := [.ret none] }]
  layout := [⟨0⟩, ⟨1⟩, ⟨2⟩]

/-- A module with that kernel and its local variable. -/
def storingModule : Module where
  name := "module"
  functions := [some storingLoop]
  globals := [{ name := "store.cell", valueType := .i32, space := .workGroup }]
  metadata := [⟨Kernel.kernelsTable, [.ofFunction ⟨0⟩]⟩,
    ⟨Kernel.groupSizesTable, [⟨[.function ⟨0⟩, .int 64]⟩]⟩]

/-- A kernel with a loop to split and with an automatic local: both orders copy it once and split
its copy in the same place. -/
theorem Pipeline.barriers_header_commute_storing :
    storingModule.validate = .ok () ∧ (storingModule.metadata.map MetadataTable.name).Nodup ∧
    Kernel.toReplace (Kernel.plan (Options.accepts {}) storingModule) = [(⟨0⟩, [⟨0⟩])] ∧
    ((runLoopBarriers {}).run none storingModule).state.Fits ∧
    ((runLoopBarriers {}).run none storingModule).result = .ok true ∧
    ∃ changed changed' done,
      (barriersThenHeader {}).Ends none ⟨storingModule, ""⟩ (.ok changed) done ∧
      (headerThenBarriers {}).Ends none ⟨storingModule, ""⟩ (.ok changed') done ∧
      done.module.functions.map (Option.map Function.layout) =
        [none, some [⟨0⟩, ⟨3⟩, ⟨1⟩, ⟨2⟩]] := by
  have hvalid : storingModule.validate = .ok () := by decide +kernel
  have hnames : (storingModule.metadata.map MetadataTable.name).Nodup := by decide +kernel
  have hplan : Kernel.toReplace (Kernel.plan (Options.accepts {}) storingModule) =
      [(⟨0⟩, [⟨0⟩])] := by decide +kernel
  have hfits : ((runLoopBarriers {}).run none storingModule).state.Fits := by decide +kernel
  have hok : ((runLoopBarriers {}).run none storingModule).result = .ok true := by decide +kernel
  have hlayouts : ((barriersThenHeader {}).run none
      (⟨storingModule, ""⟩ : Kernel.Header.Work String)).state.module.functions.map
        (Option.map Function.layout) = [none, some [⟨0⟩, ⟨3⟩, ⟨1⟩, ⟨2⟩]] := by decide +kernel
  obtain ⟨changed, changed', done, hends, hends'⟩ := barriers_header_commute {} none storingModule
    "" hvalid hnames (by rw [hplan]; decide) hfits
    (fun id f _ _ l _ g hg => by
      obtain rfl := List.mem_singleton.mp (List.mem_of_getElem? hg)
      exact ⟨4, rfl⟩)
    (fun sink text => ⟨sink ++ text, rfl⟩) (fun sink => ⟨sink, rfl⟩) ⟨true, hok⟩
  rw [hends.2] at hlayouts
  exact ⟨hvalid, hnames, hplan, hfits, hok, changed, changed', done, hends, hends', hlayouts⟩

end Lockstep
