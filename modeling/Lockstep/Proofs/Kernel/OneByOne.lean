import Lockstep.Proofs.Kernel.Atomicity

/-!
# Headers kernel by kernel

The header pass describes all kernels before it replaces any. The same can be had one kernel at a
time: each kernel is described and replaced before the next one is looked at. By then its
predecessors have lost their names, and their copies stand behind all other functions. Neither is
seen by what is left to do. A description reads the function in one slot and the global variables,
and a replacement changes its own slot and adds one at the end.

## Main results

* `Kernel.Spares.withCopy`: a replacement spares the kernels that come later.
* `Kernel.hoistOne_ends`: one kernel is described and replaced, as it would be by plan.
* `Kernel.foldlM_hoistOne_ends`: so are several.
* `Kernel.runOneByOne_agrees`: the two ways agree.
-/

namespace Lockstep

/-- The sink takes every text and keeps all of them, one behind the other. -/
structure Sink.Retains {σ : Type} [Sink σ] (content : σ → String) : Prop where
  write : ∀ sink text, ∃ sink', Sink.write sink text = .ok sink' ∧
    content sink' = content sink ++ text
  flush : ∀ sink, ∃ sink', Sink.flush sink = .ok sink' ∧ content sink' = content sink

namespace Sink.Retains

variable {σ : Type} [Sink σ] {content : σ → String} {sink sink' : σ}

/-- What is written goes to the end. -/
theorem content_write (h : Retains content) {text : String}
    (hwrite : Sink.write sink text = .ok sink') : content sink' = content sink ++ text := by
  obtain ⟨_, hwrite', hcontent⟩ := h.write sink text
  rw [hwrite] at hwrite'
  obtain rfl := Except.ok.inj hwrite'
  exact hcontent

/-- A flush changes nothing of what was written. -/
theorem content_flush (h : Retains content) (hflush : Sink.flush sink = .ok sink') :
    content sink' = content sink := by
  obtain ⟨_, hflush', hcontent⟩ := h.flush sink
  rw [hflush] at hflush'
  obtain rfl := Except.ok.inj hflush'
  exact hcontent

end Sink.Retains

namespace Kernel

namespace Header

variable {σ : Type} [Sink σ]

/-- Describes a kernel and replaces it at once, if it has automatic locals. -/
def hoistOne (sizeOf : SizeOf) (r : Replacements) (id : FunctionId) :
    Pass (Work σ) Replacements := do
  match (← get).module.function? id with
  | none => Pass.fail (.unknownFunction id)
  | some f =>
      write (describeArguments f)
      let (new, _) ← hoistLocals sizeOf id
      return { pairs := r.pairs ++ [(id, new)] }

omit [Sink σ] in
/-- Commits the replacements, if any kernel was replaced, and says so. -/
def commitChanged (r : Replacements) : Pass (Work σ) Bool := do
  if !r.anyChanged then
    return false
  onModule r.commit
  return true

/-- Describes and replaces the kernels of a module one by one. Says whether any was replaced. -/
def runOneByOne (sizeOf : SizeOf) (accepts : KernelPredicate) : Pass (Work σ) Bool := do
  let m := (← get).module
  let replacements ← (kernelIds accepts m).foldlM (hoistOne sizeOf) {}
  commitChanged replacements

end Header

variable {σ : Type} {sizeOf : SizeOf} {accepts : KernelPredicate} {m m' : Module}
  {id : FunctionId} {f : Function} {ids later : List FunctionId} {sink sink' : σ} {detail : Detail}
  {content : σ → String} {text : String} {locals : List GlobalId}

/-! ### What a replacement spares -/

/-- On the way from one module to another the functions in some slots stay, and so do the global
variables. -/
structure Spares (ids : List FunctionId) (m m' : Module) : Prop where
  globals : m'.globals = m.globals
  function?_eq : ∀ id ∈ ids, m'.function? id = m.function? id
  index_lt : ∀ id ∈ ids, id.index < m'.functions.length

/-- Kernels stand in slots of the module. -/
theorem index_lt_of_mem_kernelIds (h : id ∈ kernelIds accepts m) :
    id.index < m.functions.length := by
  obtain ⟨⟨_, f⟩, hmem, rfl⟩ := List.mem_map.mp (List.mem_filter.mp h).1
  obtain ⟨i, hi, rfl⟩ := Module.mem_liveFunctions.mp hmem
  have hlt := (List.getElem?_eq_some_iff.mp hi).1
  refine Nat.lt_of_le_of_lt ?_ hlt
  rw [ArenaId.index, ArenaId.ofIndex, Nat.toUInt32_eq, UInt32.toNat_ofNat']
  exact Nat.mod_le _ _

namespace Spares

/-- A module spares its own functions. -/
theorem refl (h : ∀ id ∈ ids, id.index < m.functions.length) : Spares ids m m :=
  ⟨rfl, fun _ _ => rfl, h⟩

/-- Fewer functions are spared as well. -/
theorem tail (h : Spares (id :: ids) m m') : Spares ids m m' :=
  ⟨h.globals, fun a ha => h.function?_eq a (List.mem_cons_of_mem _ ha),
    fun a ha => h.index_lt a (List.mem_cons_of_mem _ ha)⟩

/-- The automatic locals of a kernel stay the same. -/
theorem automaticLocals_eq (h : Spares ids m m') (name : String) :
    automaticLocals m' name = automaticLocals m name := by
  rw [automaticLocals, automaticLocals, Module.numberedGlobals, Module.numberedGlobals, h.globals]

/-- The macros about the automatic locals of a kernel stay the same. -/
theorem describeLocals_eq (h : Spares ids m m') (f : Function) :
    describeLocals sizeOf m' f = describeLocals sizeOf m f := by
  have hglobal : m'.global? = m.global? := by
    funext g
    rw [Module.global?, Module.global?, h.globals]
  rw [describeLocals, describeLocals, h.automaticLocals_eq, hglobal]

/-- **A replacement spares the kernels that come later.** It changes the slot of its own kernel and
adds one at the end. -/
theorem withCopy (h : Spares (id :: ids) m m') (hid : id ∉ ids) (hf : m'.function? id = some f) :
    Spares ids m (withCopy m' id f locals) := by
  refine ⟨h.globals, fun a ha => ?_, fun a ha => ?_⟩
  · have hne : a ≠ id := fun heq => hid (heq ▸ ha)
    rw [← h.tail.function?_eq a ha, Module.function?, Module.function?, functions_withCopy hf,
      List.getElem?_append_left (by simpa using h.tail.index_lt a ha),
      List.getElem?_modify_ne _ _ fun heq => hne (ArenaId.index_inj heq).symm]
  · rw [functions_withCopy hf, List.length_append, List.length_modify]
    exact Nat.lt_add_right _ (h.tail.index_lt a ha)

end Spares

/-! ### One kernel -/

section

variable [Sink σ]

/-- A write that succeeds leaves the module alone. -/
theorem write_ends (h : Sink.write sink text = .ok sink') :
    (Header.write text).Ends detail ⟨m, sink⟩ (.ok ()) ⟨m, sink'⟩ := by
  refine .bind .get ?_
  simp only [h]
  exact .set _

/-- **One kernel** is described and replaced, as it would be by plan. -/
theorem hoistOne_ends (hcontent : Sink.Retains content) (hf : m.function? id = some f)
    (htext : describeLocals sizeOf m f = .ok text) (r : Replacements) (detail : Detail)
    (sink : σ) :
    ∃ r' m' sink', (Header.hoistOne sizeOf r id).Ends detail ⟨m, sink⟩ (.ok r') ⟨m', sink'⟩ ∧
      (Header.replace r (id, automaticLocals m f.name)).Ends detail m (.ok r') m' ∧
      content sink' = content sink ++ (describeArguments f ++ text) ∧
      (m' = m ∨ m' = withCopy m id f (automaticLocals m f.name)) := by
  obtain ⟨sink₁, hfirst, hcontent₁⟩ := hcontent.write sink (describeArguments f)
  obtain ⟨sink₂, hsecond, hcontent₂⟩ := hcontent.write sink₁ text
  have hwritten : content sink₂ = content sink ++ (describeArguments f ++ text) := by
    rw [hcontent₂, hcontent₁, String.append_assoc]
  have hhoist : ∀ new m', (Header.hoistLocals sizeOf id).Ends detail ⟨m, sink₁⟩ (.ok new)
      ⟨m', sink₂⟩ → (Header.hoistOne sizeOf r id).Ends detail ⟨m, sink⟩
        (.ok ⟨r.pairs ++ [(id, new.1)]⟩) ⟨m', sink₂⟩ := by
    intro new m' hends
    refine .bind .get ?_
    simp only [hf]
    exact .bind (write_ends hfirst) (.bind hends (.pure _))
  cases hlocals : (automaticLocals m f.name).isEmpty with
  | true =>
      refine ⟨_, m, sink₂, hhoist (id, false) _ ?_, ?_, hwritten, .inl rfl⟩
      · refine .bind .get ?_
        simp only [hf]
        refine .bind (.lift htext) (.bind (write_ends hsecond) ?_)
        rw [if_pos hlocals]
        exact .pure _
      · rw [Header.replace]
        simp only [hlocals, if_true]
        exact .pure _
  | false =>
      refine ⟨_, _, sink₂, hhoist (.ofIndex m.functions.length, true) _ ?_,
        replace_ends hf hlocals r, hwritten, .inr rfl⟩
      refine .bind .get ?_
      simp only [hf]
      refine .bind (.lift htext) (.bind (write_ends hsecond) ?_)
      rw [if_neg (by simp [hlocals])]
      exact .bind (.zoom (replaceKernel_ends hf)) (.pure _)

/-- **Several kernels** are described and replaced one after the other, as they would be by plan,
and those that come later are spared. -/
theorem foldlM_hoistOne_ends (hcontent : Sink.Retains content) (later : List FunctionId)
    (hlive : ∀ id ∈ ids, ∃ f, m.function? id = some f)
    (hdescribed : ∀ id ∈ ids, description sizeOf m id = .ok (block sizeOf m id))
    (hnodup : (ids ++ later).Nodup) (hspares : Spares (ids ++ later) m m') (r : Replacements)
    (detail : Detail) (sink : σ) :
    ∃ r' m'' sink',
      (ids.foldlM (Header.hoistOne sizeOf) r).Ends detail ⟨m', sink⟩ (.ok r') ⟨m'', sink'⟩ ∧
      ((ids.map fun id => (id, automaticLocals m (m.functionName id))).foldlM
        Header.replace r).Ends detail m' (.ok r') m'' ∧
      content sink' = content sink ++ String.join (ids.map (block sizeOf m)) ∧
      Spares later m m'' := by
  induction ids generalizing m' r sink with
  | nil => exact ⟨r, m', sink, .pure r, .pure r, (String.append_empty ..).symm, hspares⟩
  | cons id ids ih =>
      obtain ⟨⟨f, hf⟩, hlive⟩ := List.forall_mem_cons.mp hlive
      obtain ⟨htext, hdescribed⟩ := List.forall_mem_cons.mp hdescribed
      obtain ⟨hid, hnodup⟩ := List.nodup_cons.mp hnodup
      have hf' : m'.function? id = some f := (hspares.function?_eq id List.mem_cons_self).trans hf
      obtain ⟨rest, hrest, hblock⟩ := exists_describeLocals hf htext
      obtain ⟨r₁, m₁, sink₁, hstep, hreplace, hcontent₁, hcases⟩ := hoistOne_ends hcontent hf'
        ((hspares.describeLocals_eq f).trans hrest) r detail sink
      have hspares₁ : Spares (ids ++ later) m m₁ := by
        rcases hcases with rfl | rfl
        · exact hspares.tail
        · exact hspares.withCopy hid hf'
      obtain ⟨r', m'', sink', hends, hplan, hcontent', hlater⟩ :=
        ih hlive hdescribed hnodup hspares₁ r₁ sink₁
      rw [hspares.automaticLocals_eq] at hreplace
      refine ⟨r', m'', sink', ?_, ?_, ?_, hlater⟩
      · rw [List.foldlM_cons]
        exact .bind hstep hends
      · rw [List.map_cons, List.foldlM_cons, Module.functionName_of_function? hf]
        exact .bind hreplace hplan
      · rw [hcontent', hcontent₁, List.map_cons, String.join_cons, hblock, String.append_assoc]

/-- A kernel that cannot be described by plan cannot be described on its own either. -/
theorem hoistOne_ends_of_refuses (hcontent : Sink.Retains content)
    (hspares : Spares (id :: later) m m') {written : σ} {stop : Stop}
    (hrefuses : Refuses sizeOf m written id stop) (r : Replacements) (detail : Detail) (sink : σ) :
    ∃ sink', (Header.hoistOne sizeOf r id).Ends detail ⟨m', sink⟩ (.error stop) ⟨m', sink'⟩ := by
  have hsame := hspares.function?_eq id List.mem_cons_self
  cases hrefuses with
  | missing hnone =>
      refine ⟨sink, .bind .get ?_⟩
      simp only [hsame, hnone]
      exact .fail _
  | @unsized fault hfault =>
      cases hf : m.function? id with
      | none =>
          rw [description, hf] at hfault
          cases hfault
      | some f =>
          have hlocals : describeLocals sizeOf m' f = .error fault :=
            (hspares.describeLocals_eq f).trans (describeLocals_eq_error hf hfault)
          obtain ⟨sink₁, hwrite, -⟩ := hcontent.write sink (describeArguments f)
          refine ⟨sink₁, .bind .get ?_⟩
          simp only [hsame, hf]
          refine .bind (write_ends hwrite) (.bind_error (.bind .get ?_))
          simp only [hsame, hf]
          exact .bind_error (.lift_error hlocals)
  | @refused cause hrefused =>
      obtain ⟨_, hwrite, -⟩ := hcontent.write written (block sizeOf m id)
      cases hwrite.symm.trans hrefused

/-- A kernel that has its text is not refused. -/
theorem not_refuses (hcontent : Sink.Retains content) (hf : m.function? id = some f)
    (htext : describeLocals sizeOf m f = .ok text) (written : σ) (stop : Stop) :
    ¬Refuses sizeOf m written id stop := by
  intro hrefuses
  cases hrefuses with
  | missing hnone =>
      rw [hf] at hnone
      cases hnone
  | unsized hfault =>
      rw [description, hf] at hfault
      simp only [htext] at hfault
      cases hfault
  | refused hrefused =>
      obtain ⟨_, hwrite, -⟩ := hcontent.write written (block sizeOf m id)
      cases hwrite.symm.trans hrefused

/-! ### The whole pass -/

omit [Sink σ] in
/-- The end of a pass does not look at the sink. -/
theorem exists_commitChanged_ends (r : Replacements) (detail : Detail) (m : Module) :
    ∃ changed m', ∀ sink : σ, (Header.commitChanged r).Ends detail ⟨m, sink⟩ (.ok changed)
      ⟨m', sink⟩ := by
  cases hchanged : r.anyChanged with
  | false =>
      refine ⟨false, m, fun sink => ?_⟩
      simp only [Header.commitChanged, hchanged, Bool.not_false, if_true]
      exact .pure false
  | true =>
      obtain ⟨m', hcommit⟩ : ∃ m', r.commit.Ends detail m (.ok ()) m' := ⟨_, commit_ends detail m r⟩
      refine ⟨true, m', fun sink => ?_⟩
      simp only [Header.commitChanged, hchanged, Bool.not_true, Bool.false_eq_true, if_false]
      exact .bind (.zoom hcommit) (.pure true)

/-- **Kernel by kernel or by plan.** Take any module whose kernels have identifiers of their own,
any choice of kernels, any target, and a sink that takes every text and keeps it. Describing all
kernels and then replacing them ends as describing and replacing them one by one does: with a flag,
if all kernels can be described, and then the module and the text are the same, or for the same
reason. -/
theorem runOneByOne_agrees (content : σ → String) (hcontent : Sink.Retains content)
    (sizeOf : SizeOf) (accepts : KernelPredicate) (m : Module)
    (hids : (kernelIds accepts m).Nodup) (detail : Detail) (sink : σ) :
    ∃ result w w', (Header.run sizeOf accepts).Ends detail ⟨m, sink⟩ result w ∧
      (Header.runOneByOne sizeOf accepts).Ends detail ⟨m, sink⟩ result w' ∧
      ((∃ changed, result = .ok changed) ↔ ∀ id ∈ kernelIds accepts m, ∃ f text,
        m.function? id = some f ∧ describeLocals sizeOf m f = .ok text) ∧
      ((∃ changed, result = .ok changed) →
        w'.module = w.module ∧ content w'.sink = content w.sink) := by
  have hstart : Spares (kernelIds accepts m) m m := .refl fun _ => index_lt_of_mem_kernelIds
  rcases run_cases sizeOf accepts detail m sink with
    ⟨written, sink', changed, m', hreceived, hflush, -, hcarry, hrun⟩ |
    ⟨kernels, rest, written, stop, hkernels, hreceived, hfails, hrun⟩
  · obtain ⟨r, m₁, sink₁, hends, hplan, hcontent₁, -⟩ := foldlM_hoistOne_ends hcontent
      [] hreceived.exists_function hreceived.described (by simpa using hids)
      (by simpa using hstart) {} detail sink
    obtain ⟨changed', m₂, hcommit⟩ := exists_commitChanged_ends r detail m₁
    obtain ⟨hsameFlag, hsameModule⟩ := hcarry.unique (.bind (.zoom hplan) (hcommit sink'))
    obtain rfl := Except.ok.inj hsameFlag
    obtain rfl := congrArg Header.Work.module hsameModule
    refine ⟨.ok changed, _, _, hrun, .bind .get (.bind hends (hcommit sink₁)),
      iff_of_true ⟨changed, rfl⟩ fun id hid => ?_, fun _ => ⟨rfl, ?_⟩⟩
    · obtain ⟨f, hf⟩ := hreceived.exists_function id hid
      obtain ⟨text, htext, -⟩ := exists_describeLocals hf (hreceived.described id hid)
      exact ⟨f, text, hf, htext⟩
    · rw [hcontent.content_flush hflush, hcontent₁]
      exact (hreceived.content_eq fun _ _ _ => hcontent.content_write).symm
  · rcases hfails with ⟨id, rest', rfl, hrefuses⟩ | ⟨-, cause, hrefused, -⟩
    · rw [hkernels] at hids hstart
      obtain ⟨r, m₁, sink₁, hends, -, -, hspares⟩ := foldlM_hoistOne_ends hcontent
        (id :: rest') hreceived.exists_function hreceived.described hids hstart {} detail sink
      obtain ⟨sink₂, hstop⟩ := hoistOne_ends_of_refuses hcontent hspares hrefuses r detail sink₁
      refine ⟨.error stop, _, ⟨m₁, sink₂⟩, hrun, ?_, iff_of_false ?_ fun hall => ?_, ?_⟩
      · refine .bind .get (.bind_error ?_)
        simp only [hkernels, List.foldlM_append, List.foldlM_cons]
        exact .bind hends (.bind_error hstop)
      · rintro ⟨_, hok⟩
        cases hok
      · obtain ⟨f, text, hf, htext⟩ := hall id (hkernels ▸ by simp)
        exact not_refuses hcontent hf htext _ _ hrefuses
      · rintro ⟨_, hok⟩
        cases hok
    · obtain ⟨_, hflush, -⟩ := hcontent.flush written
      cases hflush.symm.trans hrefused

end

/-- Text in memory is kept. -/
theorem retains_string : Sink.Retains fun text : String => text :=
  ⟨fun _ _ => ⟨_, rfl, rfl⟩, fun _ => ⟨_, rfl, rfl⟩⟩

/-- Two of the three kernels are replaced, by plan or one by one. -/
theorem runOneByOne_agrees_namesakes :
    (kernelIds (Selection.accepts {}) namesakeModule).Nodup ∧ ∃ w,
      (Header.run (DataLayout.allocSize 8) (Selection.accepts {})).Ends none
        ⟨namesakeModule, "/* kernels */\n"⟩ (.ok true) w ∧
      (Header.runOneByOne (DataLayout.allocSize 8) (Selection.accepts {})).Ends none
        ⟨namesakeModule, "/* kernels */\n"⟩ (.ok true) w := by
  have hids : (kernelIds (Selection.accepts {}) namesakeModule).Nodup := by decide +kernel
  have hresult : ((Header.run (DataLayout.allocSize 8) (Selection.accepts {})).run none
      ⟨namesakeModule, "/* kernels */\n"⟩).result = .ok true := by decide +kernel
  obtain ⟨result, ⟨m, sink⟩, ⟨m', sink'⟩, hrun, hone, -, hsame⟩ := runOneByOne_agrees _
    retains_string (DataLayout.allocSize 8) (Selection.accepts {}) namesakeModule hids none
    "/* kernels */\n"
  obtain rfl := hresult.symm.trans hrun.1
  obtain ⟨rfl, rfl⟩ := hsame ⟨true, rfl⟩
  exact ⟨hids, _, hrun, hone⟩

end Kernel

end Lockstep
