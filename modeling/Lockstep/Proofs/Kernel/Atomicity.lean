import Lockstep.Proofs.Kernel.HeaderText

/-!
# Header passes that fail

A header pass has two parts. The first describes all kernels and flushes the sink, the second
replaces kernels. The first part never changes the module, and the second never touches the sink
and cannot fail. So a pass that fails has failed in its first part: the module is as it was, and the
sink has taken the texts of the kernels before the one that it failed at.

Nothing is asked of the sink, which may refuse any write and the flush, and nothing of the choice
of kernels. Beyond `2 ^ 32` slots an identifier may be listed that stands for an empty slot. That is
the one error that is not the sink's.

## Main results

* `Kernel.foldlM_describe_cases`: the sink has taken the texts of all kernels, or of those before
  the first that could not be described.
* `Kernel.exists_carryOut_ends`: the second part succeeds.
* `Kernel.run_cases`: how a pass can end.
* `Kernel.run_atomic`: a pass that fails leaves the module as it was, and one that succeeds has
  written everything before it changes the module.
-/

namespace Lockstep

namespace Kernel

variable {σ : Type} {sizeOf : SizeOf} {accepts : KernelPredicate} {m : Module} {id : FunctionId}
  {f : Function} {ids kernels : List FunctionId} {sink sink' : σ} {detail : Detail}
  {plan : List (FunctionId × List GlobalId)}

/-! ### What the sink has taken -/

/-- The block of a header about the function in a slot. -/
def block (sizeOf : SizeOf) (m : Module) (id : FunctionId) : String :=
  (entryAt sizeOf m id).text (m.functionName id)

/-- The sink has taken the blocks about some kernels, in one write each and in their order. -/
structure Received [Sink σ] (sizeOf : SizeOf) (m : Module) (sink : σ) (kernels : List FunctionId)
    (sink' : σ) : Prop where
  exists_function : ∀ id ∈ kernels, ∃ f, m.function? id = some f
  /-- The text about each of the kernels is its block, with sizes that could all be had. -/
  described : ∀ id ∈ kernels, description sizeOf m id = .ok (block sizeOf m id)
  written : (kernels.map (block sizeOf m)).foldlM Sink.write sink = .ok sink'

/-- A text about a function is its block. -/
theorem description_eq_block (hf : m.function? id = some f) {text : String}
    (htext : description sizeOf m id = .ok text) : text = block sizeOf m id := by
  have hsizes : ∀ l ∈ automaticLocals m f.name, ∀ g, m.global? l = some g →
      ∃ size, sizeOf g.valueType = .ok size := by
    intro l hl g hg
    cases hsize : sizeOf g.valueType with
    | ok size => exact ⟨size, rfl⟩
    | error fault =>
        obtain ⟨fault', hfault⟩ := description_eq_error hf hl hg hsize
        rw [hfault] at htext
        cases htext
  rw [description_eq_text hsizes hf] at htext
  rw [block, entryAt_eq hf, Module.functionName_of_function? hf]
  exact (Except.ok.inj htext).symm

namespace Received

variable [Sink σ]

/-- A sink that has received nothing is as it was. -/
theorem nil (sink : σ) : Received sizeOf m sink [] sink :=
  ⟨List.forall_mem_nil _, List.forall_mem_nil _, rfl⟩

/-- A sink that has received one kernel may receive more. -/
theorem cons {sink₁ : σ} (hf : m.function? id = some f)
    (htext : description sizeOf m id = .ok (block sizeOf m id))
    (hwrite : Sink.write sink (block sizeOf m id) = .ok sink₁)
    (h : Received sizeOf m sink₁ kernels sink') : Received sizeOf m sink (id :: kernels) sink' where
  exists_function := List.forall_mem_cons.mpr ⟨⟨f, hf⟩, h.exists_function⟩
  described := List.forall_mem_cons.mpr ⟨htext, h.described⟩
  written := by
    rw [List.map_cons, List.foldlM_cons, hwrite]
    exact h.written

/-- What a sink holds that keeps all that it takes. -/
theorem content_eq (h : Received sizeOf m sink kernels sink') {content : σ → String}
    (hwrite : ∀ s text s', Sink.write s text = .ok s' → content s' = content s ++ text) :
    content sink' = content sink ++ String.join (kernels.map (block sizeOf m)) := by
  have hwritten := h.written
  clear h
  induction kernels generalizing sink with
  | nil =>
      obtain rfl := Except.ok.inj hwritten
      exact (String.append_empty ..).symm
  | cons id kernels ih =>
      rw [List.map_cons, List.foldlM_cons] at hwritten
      obtain ⟨sink₁, hfirst, hrest⟩ := exists_of_bind_eq_ok hwritten
      rw [ih hrest, hwrite _ _ _ hfirst, List.map_cons, String.join_cons, String.append_assoc]

end Received

/-! ### The first part -/

/-- Why the descriptions end at a kernel: there is no function in its slot, or the size of an
automatic local cannot be had, or the sink refuses the text. -/
inductive Refuses [Sink σ] (sizeOf : SizeOf) (m : Module) (sink : σ) (id : FunctionId) : Stop → Prop
  | missing : m.function? id = none → Refuses sizeOf m sink id (.error (.unknownFunction id))
  | unsized {fault : Fault} : description sizeOf m id = .error fault →
      Refuses sizeOf m sink id (.fault fault)
  | refused {cause : IoError} : Sink.write sink (block sizeOf m id) = .error cause →
      Refuses sizeOf m sink id (.error (.io cause))

section

variable [Sink σ]

/-- A kernel that is missing stops the header before anything is written. -/
theorem describe_ends_of_missing (hacc : accepts m id = true) (hf : m.function? id = none)
    (done : List (FunctionId × List GlobalId)) :
    (Header.describe sizeOf accepts done id).Ends detail ⟨m, sink⟩
      (.error (.error (.unknownFunction id))) ⟨m, sink⟩ := by
  refine .bind .get ?_
  simp only [hacc, hf, Bool.not_true, Bool.false_eq_true, if_false]
  exact .fail _

/-- A write that is refused stops the header and leaves the sink as it was. -/
theorem describe_ends_of_refused (hacc : accepts m id = true) (hf : m.function? id = some f)
    {text : String} (htext : description sizeOf m id = .ok text) {cause : IoError}
    (hwrite : Sink.write sink text = .error cause) (done : List (FunctionId × List GlobalId)) :
    (Header.describe sizeOf accepts done id).Ends detail ⟨m, sink⟩ (.error (.error (.io cause)))
      ⟨m, sink⟩ := by
  obtain ⟨locals, hlocals, rfl⟩ := exists_describeLocals hf htext
  refine .bind .get ?_
  simp only [hacc, hf, Bool.not_true, Bool.false_eq_true, if_false]
  refine .bind (.log rfl) (.bind (.lift hlocals) (.bind_error (.bind .get ?_)))
  simp only [hwrite]
  exact .fail _

/-- **One kernel** is described, or that ends the descriptions. -/
theorem describe_cases (sizeOf : SizeOf) (hacc : accepts m id = true) (detail : Detail) (sink : σ)
    (done : List (FunctionId × List GlobalId)) :
    (∃ f sink', m.function? id = some f ∧ description sizeOf m id = .ok (block sizeOf m id) ∧
      Sink.write sink (block sizeOf m id) = .ok sink' ∧
      (Header.describe sizeOf accepts done id).Ends detail ⟨m, sink⟩
        (.ok (done ++ [(id, automaticLocals m (m.functionName id))])) ⟨m, sink'⟩) ∨
    ∃ stop, Refuses sizeOf m sink id stop ∧
      (Header.describe sizeOf accepts done id).Ends detail ⟨m, sink⟩ (.error stop) ⟨m, sink⟩ := by
  cases hf : m.function? id with
  | none => exact .inr ⟨_, .missing hf, describe_ends_of_missing hacc hf done⟩
  | some f =>
      cases htext : description sizeOf m id with
      | error fault => exact .inr ⟨_, .unsized htext, describe_ends_of_fault hacc hf htext done⟩
      | ok text =>
          obtain rfl := description_eq_block hf htext
          cases hwrite : Sink.write sink (block sizeOf m id) with
          | error cause =>
              exact .inr ⟨_, .refused hwrite, describe_ends_of_refused hacc hf htext hwrite done⟩
          | ok sink' =>
              exact .inl ⟨f, sink', rfl, rfl, rfl, describe_ends hacc hf htext hwrite done⟩

/-- **The kernels among some functions.** The sink has taken the blocks of all of them, or of those
before the one that ended the descriptions. -/
theorem foldlM_describe_cases (sizeOf : SizeOf) (accepts : KernelPredicate) (detail : Detail)
    (m : Module) (sink : σ) (ids : List FunctionId) (done : List (FunctionId × List GlobalId)) :
    ∃ kernels rest sink', ids.filter (accepts m) = kernels ++ rest ∧
      Received sizeOf m sink kernels sink' ∧
      (rest = [] ∧ (ids.foldlM (Header.describe sizeOf accepts) done).Ends detail ⟨m, sink⟩
          (.ok (done ++ kernels.map fun id => (id, automaticLocals m (m.functionName id))))
          ⟨m, sink'⟩ ∨
        ∃ id rest' stop, rest = id :: rest' ∧ Refuses sizeOf m sink' id stop ∧
          (ids.foldlM (Header.describe sizeOf accepts) done).Ends detail ⟨m, sink⟩ (.error stop)
            ⟨m, sink'⟩) := by
  induction ids generalizing sink done with
  | nil =>
      refine ⟨[], [], sink, rfl, .nil sink, .inl ⟨rfl, ?_⟩⟩
      rw [List.map_nil, List.append_nil]
      exact .pure done
  | cons id ids ih =>
      rw [List.foldlM_cons]
      cases hacc : accepts m id with
      | false =>
          rw [List.filter_cons_of_neg (by simp [hacc])]
          have hstep : (Header.describe sizeOf accepts done id).Ends detail ⟨m, sink⟩ (.ok done)
              ⟨m, sink⟩ := describe_ends_of_rejected hacc done
          obtain ⟨kernels, rest, sink', hfilter, hreceived, hcases⟩ := ih sink done
          refine ⟨kernels, rest, sink', hfilter, hreceived, ?_⟩
          rcases hcases with ⟨hrest, hends⟩ | ⟨id', rest', stop, hrest, hrefuses, hends⟩
          · exact .inl ⟨hrest, .bind hstep hends⟩
          · exact .inr ⟨id', rest', stop, hrest, hrefuses, .bind hstep hends⟩
      | true =>
          rw [List.filter_cons_of_pos hacc]
          rcases describe_cases sizeOf hacc detail sink done with
            ⟨f, sink₁, hf, htext, hwrite, hstep⟩ | ⟨stop, hrefuses, hstep⟩
          · obtain ⟨kernels, rest, sink', hfilter, hreceived, hcases⟩ := ih sink₁
              (done ++ [(id, automaticLocals m (m.functionName id))])
            refine ⟨id :: kernels, rest, sink', by rw [hfilter]; rfl,
              hreceived.cons hf htext hwrite, ?_⟩
            rcases hcases with ⟨hrest, hends⟩ | ⟨id', rest', stop, hrest, hrefuses, hends⟩
            · rw [List.append_assoc] at hends
              exact .inl ⟨hrest, .bind hstep hends⟩
            · exact .inr ⟨id', rest', stop, hrest, hrefuses, .bind hstep hends⟩
          · exact ⟨[], id :: ids.filter (accepts m), sink, rfl, .nil sink,
              .inr ⟨id, _, stop, rfl, hrefuses, .bind_error hstep⟩⟩

end

/-! ### The second part -/

/-- One kernel of a plan is replaced, and all functions that there were are still there. -/
theorem exists_replace_ends (hf : m.function? id = some f) (locals : List GlobalId)
    (r : Replacements) (detail : Detail) :
    ∃ r' m', (Header.replace r (id, locals)).Ends detail m (.ok r') m' ∧
      ∀ id' f', m.function? id' = some f' → ∃ f'', m'.function? id' = some f'' := by
  cases hlocals : locals.isEmpty with
  | true =>
      obtain rfl := List.isEmpty_iff.mp hlocals
      exact ⟨_, m, .pure _, fun _ f' hf' => ⟨f', hf'⟩⟩
  | false =>
      refine ⟨_, _, replace_ends hf hlocals r, fun id' f' hf' => ?_⟩
      by_cases hne : id' = id
      · subst hne
        have hlt := (List.getElem?_eq_some_iff.mp (Module.function?_eq_some.mp hf)).1
        refine ⟨{ f with name := "" }, ?_⟩
        rw [Module.function?_eq_some, functions_withCopy hf,
          List.getElem?_append_left (by simpa using hlt), List.getElem?_modify_eq,
          Module.function?_eq_some.mp hf]
        rfl
      · exact ⟨f', function?_withCopy hf hne hf'⟩

/-- Kernels that exist can be replaced, one after the other. -/
theorem exists_foldlM_replace_ends (hlive : ∀ planned ∈ plan, ∃ f, m.function? planned.1 = some f)
    (r : Replacements) (detail : Detail) :
    ∃ r' m', (plan.foldlM Header.replace r).Ends detail m (.ok r') m' := by
  induction plan generalizing m r with
  | nil => exact ⟨r, m, .pure r⟩
  | cons planned plan ih =>
      obtain ⟨⟨f, hf⟩, hrest⟩ := List.forall_mem_cons.mp hlive
      obtain ⟨r₁, m₁, hstep, hkept⟩ := exists_replace_ends hf planned.2 r detail
      obtain ⟨r', m', hends⟩ := ih (fun q hq => (hrest q hq).elim fun g hg => hkept _ g hg) r₁
      rw [List.foldlM_cons]
      exact ⟨r', m', .bind hstep hends⟩

/-- **The second part succeeds** on a plan of functions that there are. -/
theorem exists_carryOut_ends (hlive : ∀ planned ∈ plan, ∃ f, m.function? planned.1 = some f)
    (detail : Detail) (sink : σ) :
    ∃ changed m', (Header.carryOut plan).Ends detail ⟨m, sink⟩ (.ok changed) ⟨m', sink⟩ := by
  obtain ⟨r, m', hreplace⟩ := exists_foldlM_replace_ends hlive {} detail
  have hreplaced : (Header.onModule (plan.foldlM Header.replace {})).Ends detail ⟨m, sink⟩ (.ok r)
      ⟨m', sink⟩ := .zoom hreplace
  by_cases hchanged : r.anyChanged = true
  · obtain ⟨m'', hcommit⟩ : ∃ m'', r.commit.Ends detail m' (.ok ()) m'' :=
      ⟨_, commit_ends detail m' r⟩
    refine ⟨true, m'', .bind hreplaced ?_⟩
    simp only [hchanged, Bool.not_true, Bool.false_eq_true, if_false]
    exact .bind (.zoom hcommit) (.pure true)
  · refine ⟨false, m', .bind hreplaced ?_⟩
    simp only [hchanged, Bool.not_false, if_true]
    exact .pure false

/-! ### The pass -/

section

variable [Sink σ]

/-- A flush that is refused stops the header. -/
theorem flush_ends_of_refused {cause : IoError} (hflush : Sink.flush sink = .error cause) :
    (Header.flush : Pass (Header.Work σ) Unit).Ends detail ⟨m, sink⟩ (.error (.error (.io cause)))
      ⟨m, sink⟩ := by
  refine .bind .get ?_
  simp only [hflush]
  exact .fail _

/-- Why the first part of a pass fails, the sink having taken the blocks of some of the kernels: it
ends at the kernel after them, or it has described them all and the sink refuses to flush. -/
def Fails (sizeOf : SizeOf) (m : Module) (sink : σ) (rest : List FunctionId) (stop : Stop) : Prop :=
  (∃ id rest', rest = id :: rest' ∧ Refuses sizeOf m sink id stop) ∨
    rest = [] ∧ ∃ cause, Sink.flush sink = .error cause ∧ stop = .error (.io cause)

/-- **How the first part ends**: with all kernels described, or for a reason. -/
theorem announce_cases (sizeOf : SizeOf) (accepts : KernelPredicate) (detail : Detail) (m : Module)
    (sink : σ) :
    (∃ written sink', Received sizeOf m sink (kernelIds accepts m) written ∧
      Sink.flush written = .ok sink' ∧
      (Header.announce sizeOf accepts).Ends detail ⟨m, sink⟩ (.ok (Kernel.plan accepts m))
        ⟨m, sink'⟩) ∨
    ∃ kernels rest written stop, kernelIds accepts m = kernels ++ rest ∧
      Received sizeOf m sink kernels written ∧ Fails sizeOf m written rest stop ∧
      (Header.announce sizeOf accepts).Ends detail ⟨m, sink⟩ (.error stop) ⟨m, written⟩ := by
  obtain ⟨kernels, rest, written, hkernels, hreceived, hcases⟩ :=
    foldlM_describe_cases sizeOf accepts detail m sink m.functionIds []
  rcases hcases with ⟨rfl, hends⟩ | ⟨id, rest', stop, hrest, hrefuses, hends⟩
  · rw [List.append_nil] at hkernels
    subst hkernels
    cases hflush : Sink.flush written with
    | ok sink' =>
        exact .inl ⟨written, sink', hreceived, hflush,
          .bind .get (.bind hends (.bind (flush_ends hflush) (.pure _)))⟩
    | error cause =>
        exact .inr ⟨_, [], written, _, (List.append_nil _).symm, hreceived,
          .inr ⟨rfl, cause, hflush, rfl⟩,
          .bind .get (.bind hends (.bind_error (flush_ends_of_refused hflush)))⟩
  · exact .inr ⟨kernels, rest, written, stop, hkernels, hreceived,
      .inl ⟨id, rest', hrest, hrefuses⟩, .bind .get (.bind_error hends)⟩

/-- **How a pass ends.** It fails in its first part, or both parts succeed. -/
theorem run_cases (sizeOf : SizeOf) (accepts : KernelPredicate) (detail : Detail) (m : Module)
    (sink : σ) :
    (∃ written sink' changed m', Received sizeOf m sink (kernelIds accepts m) written ∧
      Sink.flush written = .ok sink' ∧
      (Header.announce sizeOf accepts).Ends detail ⟨m, sink⟩ (.ok (Kernel.plan accepts m))
        ⟨m, sink'⟩ ∧
      (Header.carryOut (Kernel.plan accepts m)).Ends detail ⟨m, sink'⟩ (.ok changed) ⟨m', sink'⟩ ∧
      (Header.run sizeOf accepts).Ends detail ⟨m, sink⟩ (.ok changed) ⟨m', sink'⟩) ∨
    ∃ kernels rest written stop, kernelIds accepts m = kernels ++ rest ∧
      Received sizeOf m sink kernels written ∧ Fails sizeOf m written rest stop ∧
      (Header.run sizeOf accepts).Ends detail ⟨m, sink⟩ (.error stop) ⟨m, written⟩ := by
  rw [Header.run_eq]
  rcases announce_cases sizeOf accepts detail m sink with
    ⟨written, sink', hreceived, hflush, hannounce⟩ |
    ⟨kernels, rest, written, stop, hkernels, hreceived, hfails, hannounce⟩
  · have hlive : ∀ planned ∈ Kernel.plan accepts m, ∃ f, m.function? planned.1 = some f := by
      intro planned hplanned
      obtain ⟨id, hid, rfl⟩ := List.mem_map.mp hplanned
      exact hreceived.exists_function id hid
    obtain ⟨changed, m', hcarry⟩ := exists_carryOut_ends hlive detail sink'
    exact .inl ⟨written, sink', changed, m', hreceived, hflush, hannounce, hcarry,
      .bind hannounce hcarry⟩
  · exact .inr ⟨kernels, rest, written, stop, hkernels, hreceived, hfails, .bind_error hannounce⟩

/-- **A pass that fails** leaves the module as it was. -/
theorem run_failed {stop : Stop} {w : Header.Work σ}
    (h : (Header.run sizeOf accepts).Ends detail ⟨m, sink⟩ (.error stop) w) :
    w.module = m ∧ ∃ kernels rest, kernelIds accepts m = kernels ++ rest ∧
      Received sizeOf m sink kernels w.sink ∧ Fails sizeOf m w.sink rest stop := by
  rcases run_cases sizeOf accepts detail m sink with ⟨_, _, _, _, -, -, -, -, hrun⟩ |
    ⟨kernels, rest, written, stop', hkernels, hreceived, hfails, hrun⟩
  · cases (hrun.unique h).1
  · obtain ⟨hstop, rfl⟩ := hrun.unique h
    obtain rfl := Except.error.inj hstop
    exact ⟨rfl, kernels, rest, hkernels, hreceived, hfails⟩

/-- **The errors of a pass** are the sink's, if all functions have identifiers of their own. -/
theorem run_error {e : Error} {w : Header.Work σ}
    (h : (Header.run sizeOf accepts).Ends detail ⟨m, sink⟩ (.error (.error e)) w) :
    (∃ cause, e = .io cause) ∨ 2 ^ 32 < m.functions.length ∧ ∃ id, e = .unknownFunction id := by
  obtain ⟨-, kernels, rest, hkernels, -, hfails⟩ := run_failed h
  rcases hfails with ⟨id, rest', rfl, hrefuses⟩ | ⟨-, cause, -, heq⟩
  · cases hrefuses with
    | refused hwrite => exact .inl ⟨_, rfl⟩
    | missing hnone =>
        have hmem : id ∈ kernelIds accepts m :=
          hkernels ▸ List.mem_append_right _ List.mem_cons_self
        refine .inr ⟨?_, id, rfl⟩
        by_contra hslots
        obtain ⟨-, f, hf⟩ := (mem_kernelIds (Nat.le_of_not_lt hslots)).mp hmem
        rw [hf] at hnone
        cases hnone
  · exact .inl ⟨cause, Stop.error.inj heq⟩

/-- **A header pass is atomic when it fails.** Take any module, any choice of kernels, any target
and any sink. A pass that stops leaves the module as it was, the sink having taken the blocks of an
initial part of the kernels in the order of their slots, one after the other: a sink that keeps all
that it takes holds them behind what it held before. The pass stops with the error of the sink, if
not with a fault, and only beyond `2 ^ 32` slots may it be that a kernel is missing. A pass that
succeeds is a first part, which leaves the module as it was and the sink with the blocks of all
kernels, and a second part, which changes the module and not the sink. -/
theorem run_atomic (sizeOf : SizeOf) (accepts : KernelPredicate) (detail : Detail) (m : Module)
    (sink : σ) :
    (∀ stop w, (Header.run sizeOf accepts).Ends detail ⟨m, sink⟩ (.error stop) w →
      w.module = m ∧
      (∃ kernels, kernels <+: kernelIds accepts m ∧ Received sizeOf m sink kernels w.sink ∧
        ∀ content : σ → String,
          (∀ s text s', Sink.write s text = .ok s' → content s' = content s ++ text) →
          content w.sink = content sink ++ String.join (kernels.map (block sizeOf m))) ∧
      ∀ e, stop = .error e →
        (∃ cause, e = .io cause) ∨ 2 ^ 32 < m.functions.length ∧ ∃ id, e = .unknownFunction id) ∧
    ((Header.run sizeOf accepts : Pass (Header.Work σ) Bool) =
      Header.announce sizeOf accepts >>= Header.carryOut) ∧
    (Header.announce sizeOf accepts : Pass (Header.Work σ) _).Keeps Header.Work.SameModule ∧
    (∀ plan, (Header.carryOut plan : Pass (Header.Work σ) Bool).Keeps Header.Work.SameSink) ∧
    ∀ changed w, (Header.run sizeOf accepts).Ends detail ⟨m, sink⟩ (.ok changed) w →
      ∃ written sink', Received sizeOf m sink (kernelIds accepts m) written ∧
        Sink.flush written = .ok sink' ∧
        (Header.announce sizeOf accepts).Ends detail ⟨m, sink⟩ (.ok (Kernel.plan accepts m))
          ⟨m, sink'⟩ ∧
        (Header.carryOut (Kernel.plan accepts m)).Ends detail ⟨m, sink'⟩ (.ok changed) w := by
  refine ⟨fun stop w hends => ?_, Header.run_eq, Header.announce_keeps, Header.carryOut_keeps,
    fun changed w hends => ?_⟩
  · obtain ⟨hmodule, kernels, rest, hkernels, hreceived, -⟩ := run_failed hends
    refine ⟨hmodule, ⟨kernels, ⟨rest, hkernels.symm⟩, hreceived, fun _ => hreceived.content_eq⟩, ?_⟩
    rintro e rfl
    exact run_error hends
  · rcases run_cases sizeOf accepts detail m sink with
      ⟨written, sink', changed', m', hreceived, hflush, hannounce, hcarry, hrun⟩ |
      ⟨_, _, _, _, -, -, -, hrun⟩
    · obtain ⟨hchanged, rfl⟩ := hrun.unique hends
      obtain rfl := Except.ok.inj hchanged
      exact ⟨written, sink', hreceived, hflush, hannounce, hcarry⟩
    · cases (hrun.unique hends).1

end

/-- A page with room for a number of texts. -/
structure Page where
  room : Nat
  text : String := ""

instance : Sink Page where
  write page text :=
    match page.room with
    | 0 => .error (.refused "page full")
    | room + 1 => .ok ⟨room, page.text ++ text⟩
  flush := .ok

/-- The third of the kernels finds no room. -/
theorem run_atomic_namesakes : ∃ w,
    (Header.run (DataLayout.allocSize 8) (Selection.accepts {})).Ends none
      ⟨namesakeModule, Page.mk 2 "/* kernels */\n"⟩
      (.error (.error (.io (.refused "page full")))) w ∧
    w.module = namesakeModule ∧
    ∃ kernels, kernels <+: [⟨0⟩, ⟨1⟩, ⟨2⟩] ∧
      w.sink.text = "/* kernels */\n" ++
        String.join (kernels.map (block (DataLayout.allocSize 8) namesakeModule)) := by
  have hkernels : kernelIds (Selection.accepts {}) namesakeModule = [⟨0⟩, ⟨1⟩, ⟨2⟩] := by
    decide +kernel
  have hresult : ((Header.run (DataLayout.allocSize 8) (Selection.accepts {})).run none
      ⟨namesakeModule, Page.mk 2 "/* kernels */\n"⟩).result =
        .error (.error (.io (.refused "page full"))) := by decide +kernel
  have hends : (Header.run (DataLayout.allocSize 8) (Selection.accepts {})).Ends none
      ⟨namesakeModule, Page.mk 2 "/* kernels */\n"⟩ _ _ := ⟨hresult, rfl⟩
  obtain ⟨hmodule, ⟨kernels, hsegment, -, hcontent⟩, -⟩ :=
    (run_atomic (DataLayout.allocSize 8) (Selection.accepts {}) none namesakeModule
      (Page.mk 2 "/* kernels */\n")).1 _ _ hends
  refine ⟨_, hends, hmodule, kernels, hkernels ▸ hsegment, hcontent Page.text ?_⟩
  rintro ⟨room, text⟩ more page hwrite
  cases room with
  | zero => cases hwrite
  | succ room =>
      obtain rfl := Except.ok.inj hwrite
      rfl

end Kernel

end Lockstep
