import Lockstep.Proofs.Kernel.Replacement

/-!
# What a header pass does

The pass goes through the functions of a module in the order of their slots and writes a text for
each kernel, in one write. Nothing of the module changes on the way. When all is written, the
kernels that have automatic locals are replaced.

The first part never changes the module, and the second never touches the sink, however they end.

## Main results

* `Kernel.Header.announce_keeps` and `Kernel.Header.carryOut_keeps`: what the two parts of a pass
  leave alone.
* `Kernel.foldlM_describe_ends`: the texts are written one after the other.
* `Kernel.run_ends`: what the pass leaves, when the sink takes all of them.
* `Kernel.run_ok`: what the pass leaves, whenever it succeeds.
* `Kernel.run_faults`: a size that cannot be had stops the pass before the module is touched.
-/

namespace Lockstep

namespace Kernel

/-! ### The two parts of a pass -/

namespace Header

variable {σ : Type} {sizeOf : SizeOf} {accepts : KernelPredicate}

/-- The first part of the pass: all kernels are described. Gives the plan for the second. -/
def announce [Sink σ] (sizeOf : SizeOf) (accepts : KernelPredicate) :
    Pass (Work σ) (List (FunctionId × List GlobalId)) := do
  let plan ← (← get).module.functionIds.foldlM (describe sizeOf accepts) []
  flush
  return plan

/-- The second part of the pass: the kernels with automatic locals are replaced. -/
def carryOut (plan : List (FunctionId × List GlobalId)) : Pass (Work σ) Bool := do
  let replacements ← onModule (plan.foldlM replace {})
  if !replacements.anyChanged then
    return false
  onModule replacements.commit
  return true

/-- The module is left alone. -/
def Work.SameModule (w w' : Work σ) : Prop :=
  w'.module = w.module

/-- The sink is left alone. -/
def Work.SameSink (w w' : Work σ) : Prop :=
  w'.sink = w.sink

/-- A module is the same as itself. -/
theorem Work.SameModule.refl (a : Work σ) : a.SameModule a :=
  rfl

/-- A module that stays the same twice stays the same. -/
theorem Work.SameModule.trans (a b c : Work σ) (hab : a.SameModule b) (hbc : b.SameModule c) :
    a.SameModule c :=
  Eq.trans hbc hab

/-- The pass announces the kernels first and then carries out the plan. -/
theorem run_eq [Sink σ] : (run sizeOf accepts : Pass (Work σ) Bool) =
    announce sizeOf accepts >>= carryOut := by
  simp only [run, announce, bind_assoc, pure_bind]
  rfl

section

variable [Sink σ]

/-- Writing leaves the module alone. -/
theorem write_keeps (text : String) :
    (write text : Pass (Work σ) Unit).Keeps Work.SameModule := by
  intro detail w
  refine .get_bind ?_
  cases Sink.write w.sink text with
  | ok sink => exact rfl
  | error e => exact .fail rfl

/-- Flushing leaves the module alone. -/
theorem flush_keeps : (flush : Pass (Work σ) Unit).Keeps Work.SameModule := by
  intro detail w
  refine .get_bind ?_
  cases Sink.flush w.sink with
  | ok sink => exact rfl
  | error e => exact .fail rfl

/-- Describing a kernel leaves the module alone. -/
theorem describe_keeps (done : List (FunctionId × List GlobalId)) (id : FunctionId) :
    (describe sizeOf accepts done id : Pass (Work σ) _).Keeps Work.SameModule := by
  intro detail w
  refine .get_bind ?_
  simp only
  split
  · exact .pure rfl
  · split
    · exact .fail rfl
    · exact .log_bind rfl (.lift_bind rfl fun text _ =>
        .bind (write_keeps _ detail w) (fun _ h => h) fun _ _ h => .pure h)

/-- **The first part leaves the module alone**, however it ends. -/
theorem announce_keeps :
    (announce sizeOf accepts : Pass (Work σ) _).Keeps Work.SameModule := by
  intro detail w
  refine .get_bind ?_
  exact Pass.Keeps.bind Work.SameModule.trans
    (Pass.Keeps.foldlM Work.SameModule.refl Work.SameModule.trans describe_keeps [])
    (fun _ => Pass.Keeps.bind Work.SameModule.trans flush_keeps fun _ _ _ => .pure rfl) detail w

end

/-- **The second part leaves the sink alone**, however it ends. -/
theorem carryOut_keeps (plan : List (FunctionId × List GlobalId)) :
    (carryOut plan : Pass (Work σ) Bool).Keeps Work.SameSink := by
  intro detail w
  have hzoom : ∀ {α : Type} (x : Pass Module α) (w : Work σ),
      (onModule x).Leaves detail w w.SameSink := fun _ _ => rfl
  refine .bind (hzoom _ w) (fun _ h => h) fun r w' h => ?_
  split
  · exact .pure h
  · exact .bind (hzoom _ w') (fun _ h' => Eq.trans h' h) fun _ _ h' => .pure (Eq.trans h' h)

end Header

/-! ### Kernels and their texts -/

variable {σ : Type} [Sink σ] {sizeOf : SizeOf} {accepts : KernelPredicate} {m : Module}
  {id : FunctionId} {f : Function} {ids : List FunctionId} {sink sink' : σ} {detail : Detail}

/-- The kernels of a module, in the order of their slots. -/
def kernelIds (accepts : KernelPredicate) (m : Module) : List FunctionId :=
  m.functionIds.filter (accepts m)

/-- The kernels of a module with their automatic locals. -/
def plan (accepts : KernelPredicate) (m : Module) : List (FunctionId × List GlobalId) :=
  (kernelIds accepts m).map fun id => (id, automaticLocals m (m.functionName id))

/-- The text that is written about a function. -/
def description (sizeOf : SizeOf) (m : Module) (id : FunctionId) : Except Fault String :=
  match m.function? id with
  | some f => return describeArguments f ++ (← describeLocals sizeOf m f)
  | none => return ""

/-- The module that the pass leaves. -/
def headed (accepts : KernelPredicate) (m : Module) : Module :=
  if (toReplace (plan accepts m)).isEmpty then m else replaced m (plan accepts m)

/-! ### The texts -/

/-- A kernel can be described when the sizes of its automatic locals can be had. -/
theorem description_eq_ok (hf : m.function? id = some f)
    (hsizes : ∀ l ∈ automaticLocals m f.name, ∀ g, m.global? l = some g →
      ∃ size, sizeOf g.valueType = .ok size) :
    ∃ text, description sizeOf m id = .ok text := by
  obtain ⟨sizes, hmap, -⟩ := exists_mapM_ok (g := fun g : GlobalVar => sizeOf g.valueType)
    (l := (automaticLocals m f.name).filterMap m.global?) (P := fun _ _ => True) fun g hg => by
      obtain ⟨l, hl, hglobal⟩ := List.mem_filterMap.mp hg
      obtain ⟨size, hsize⟩ := hsizes l hl g hglobal
      exact ⟨size, hsize, trivial⟩
  rw [description, hf]
  simp only [describeLocals, hmap]
  exact ⟨_, rfl⟩

/-- A text has a part about the arguments and one about the automatic locals. -/
theorem exists_describeLocals (hf : m.function? id = some f) {text : String}
    (htext : description sizeOf m id = .ok text) :
    ∃ rest, describeLocals sizeOf m f = .ok rest ∧ text = describeArguments f ++ rest := by
  rw [description, hf] at htext
  obtain ⟨rest, hrest, htext⟩ := exists_of_bind_eq_ok htext
  exact ⟨rest, hrest, (Except.ok.inj htext).symm⟩

/-- A text that cannot be had is one about automatic locals. -/
theorem describeLocals_eq_error (hf : m.function? id = some f) {fault : Fault}
    (hfault : description sizeOf m id = .error fault) :
    describeLocals sizeOf m f = .error fault := by
  rw [description, hf] at hfault
  cases hlocals : describeLocals sizeOf m f with
  | ok text =>
      simp only [hlocals] at hfault
      cases hfault
  | error e =>
      simp only [hlocals] at hfault
      cases hfault
      rfl

/-- A function that is no kernel is not described. -/
theorem describe_ends_of_rejected (hnot : accepts m id = false)
    (done : List (FunctionId × List GlobalId)) :
    (Header.describe sizeOf accepts done id).Ends detail ⟨m, sink⟩ (.ok done) ⟨m, sink⟩ := by
  refine .bind .get ?_
  simp only [hnot, Bool.not_false, if_true]
  exact .pure done

/-- One kernel is described. -/
theorem describe_ends (hacc : accepts m id = true) (hf : m.function? id = some f) {text : String}
    (htext : description sizeOf m id = .ok text) (hwrite : Sink.write sink text = .ok sink')
    (done : List (FunctionId × List GlobalId)) :
    (Header.describe sizeOf accepts done id).Ends detail ⟨m, sink⟩
      (.ok (done ++ [(id, automaticLocals m (m.functionName id))])) ⟨m, sink'⟩ := by
  obtain ⟨locals, hlocals, rfl⟩ := exists_describeLocals hf htext
  refine .bind .get ?_
  simp only [hacc, hf, Module.functionName_of_function? hf, Bool.not_true, Bool.false_eq_true,
    if_false]
  refine .bind (.log rfl) (.bind (.lift hlocals) (.bind (a := ()) ?_ (.pure _)))
  refine .bind .get ?_
  simp only [hwrite]
  exact .set _

/-- **The kernels among some functions are described** one after the other, and the module stays
as it is. -/
theorem foldlM_describe_ends (hlive : ∀ id ∈ ids, ∃ f, m.function? id = some f)
    {texts : List String}
    (htexts : (ids.filter (accepts m)).mapM (description sizeOf m) = .ok texts)
    (hwrite : texts.foldlM Sink.write sink = .ok sink')
    (detail : Detail) (done : List (FunctionId × List GlobalId)) :
    (ids.foldlM (Header.describe sizeOf accepts) done).Ends detail ⟨m, sink⟩
      (.ok (done ++ (ids.filter (accepts m)).map fun id =>
        (id, automaticLocals m (m.functionName id)))) ⟨m, sink'⟩ := by
  induction ids generalizing sink texts done with
  | nil =>
      obtain rfl := Except.ok.inj htexts
      obtain rfl := Except.ok.inj hwrite
      rw [List.filter_nil, List.map_nil, List.append_nil]
      exact .pure done
  | cons id ids ih =>
      obtain ⟨hid, hids⟩ := List.forall_mem_cons.mp hlive
      rw [List.foldlM_cons]
      cases hacc : accepts m id with
      | false =>
          rw [List.filter_cons_of_neg (by simp [hacc])] at htexts ⊢
          exact .bind (describe_ends_of_rejected hacc done) (ih hids htexts hwrite done)
      | true =>
          rw [List.filter_cons_of_pos hacc] at htexts ⊢
          rw [List.mapM_cons] at htexts
          obtain ⟨text, htext, htexts⟩ := exists_of_bind_eq_ok htexts
          obtain ⟨rest, hrest, htexts⟩ := exists_of_bind_eq_ok htexts
          obtain rfl := Except.ok.inj htexts
          rw [List.foldlM_cons] at hwrite
          obtain ⟨sink₁, hfirst, hwrite⟩ := exists_of_bind_eq_ok hwrite
          obtain ⟨f, hf⟩ := hid
          have hends := ih hids hrest hwrite (done ++ [(id, automaticLocals m (m.functionName id))])
          rw [List.append_assoc] at hends
          exact .bind (describe_ends hacc hf htext hfirst done) hends

/-! ### Descriptions that succeed, and those that fault -/

/-- What a function that had its turn adds to the plan. The plan is put together in the last step,
behind the record, the sizes and the write. -/
theorem describe_ok {done planned : List (FunctionId × List GlobalId)} {w w' : Header.Work σ}
    (h : (Header.describe sizeOf accepts done id).Ends detail w (.ok planned) w') :
    w'.module = w.module ∧ planned = done ++ ([id].filter (accepts w.module)).map fun id =>
      (id, automaticLocals w.module (w.module.functionName id)) := by
  refine ⟨h.leaves (Header.describe_keeps done id detail w), ?_⟩
  replace h := h.of_get_bind
  cases hacc : accepts w.module id with
  | false =>
      simp only [hacc, Bool.not_false, if_true] at h
      obtain rfl := Except.ok.inj ((Pass.Ends.pure done).unique h).1
      simp [hacc]
  | true =>
      simp only [hacc, Bool.not_true, Bool.false_eq_true, if_false] at h
      cases hf : w.module.function? id with
      | none =>
          rw [hf] at h
          cases h.1
      | some f =>
          simp only [hf] at h
          obtain ⟨_, _, -, h⟩ := h.exists_of_bind
          obtain ⟨_, _, -, h⟩ := h.exists_of_bind
          obtain ⟨_, _, -, h⟩ := h.exists_of_bind
          obtain rfl := Except.ok.inj ((Pass.Ends.pure _).unique h).1
          simp [hacc, Module.functionName_of_function? hf]

/-- The plan of functions that all had their turns. -/
theorem foldlM_describe_ok {done planned : List (FunctionId × List GlobalId)}
    {w w' : Header.Work σ}
    (h : (ids.foldlM (Header.describe sizeOf accepts) done).Ends detail w (.ok planned) w') :
    w'.module = w.module ∧ planned = done ++ (ids.filter (accepts w.module)).map fun id =>
      (id, automaticLocals w.module (w.module.functionName id)) := by
  induction ids generalizing done w with
  | nil =>
      obtain ⟨hplanned, rfl⟩ := (Pass.Ends.pure done).unique h
      obtain rfl := Except.ok.inj hplanned
      simp
  | cons id ids ih =>
      rw [List.foldlM_cons] at h
      obtain ⟨done', w₁, hfirst, hrest⟩ := h.exists_of_bind
      obtain ⟨hmodule, rfl⟩ := describe_ok hfirst
      obtain ⟨hmodule', rfl⟩ := ih hrest
      rw [hmodule] at hmodule' ⊢
      refine ⟨hmodule', ?_⟩
      rw [List.append_assoc, ← List.map_append, ← List.filter_append, List.singleton_append]

/-- A kernel cannot be described when the size of an automatic local cannot be had. -/
theorem description_eq_error (hf : m.function? id = some f) {l : GlobalId} {g : GlobalVar}
    (hl : l ∈ automaticLocals m f.name) (hg : m.global? l = some g) {fault : Fault}
    (hsize : sizeOf g.valueType = .error fault) :
    ∃ fault', description sizeOf m id = .error fault' := by
  obtain ⟨fault', hmap⟩ := exists_mapM_error (g := fun g : GlobalVar => sizeOf g.valueType)
    (List.mem_filterMap.mpr ⟨l, hl, hg⟩) hsize
  rw [description, hf]
  simp only [describeLocals, hmap]
  exact ⟨fault', rfl⟩

/-- A kernel without a description stops the header with a fault. -/
theorem describe_ends_of_fault (hacc : accepts m id = true) (hf : m.function? id = some f)
    {fault : Fault} (hfault : description sizeOf m id = .error fault)
    (done : List (FunctionId × List GlobalId)) :
    (Header.describe sizeOf accepts done id).Ends detail ⟨m, sink⟩ (.error (.fault fault))
      ⟨m, sink⟩ := by
  refine .bind .get ?_
  simp only [hacc, hf, Bool.not_true, Bool.false_eq_true, if_false]
  exact .bind (.log rfl) (.bind_error (.lift_error (describeLocals_eq_error hf hfault)))

/-- **The first kernel that cannot be described** ends the descriptions, and the module stays as it
is. The kernels before it have their texts. -/
theorem foldlM_describe_faults (hlive : ∀ id ∈ ids, ∃ f, m.function? id = some f)
    (hwrite : ∀ (sink : σ) text, ∃ sink', Sink.write sink text = .ok sink')
    (hfault : ∃ id ∈ ids.filter (accepts m), ∃ fault, description sizeOf m id = .error fault)
    (detail : Detail) (sink : σ) (done : List (FunctionId × List GlobalId)) :
    ∃ fault sink', (ids.foldlM (Header.describe sizeOf accepts) done).Ends detail ⟨m, sink⟩
      (.error (.fault fault)) ⟨m, sink'⟩ := by
  induction ids generalizing sink done with
  | nil =>
      obtain ⟨_, hmem, -⟩ := hfault
      cases hmem
  | cons id ids ih =>
      obtain ⟨⟨f, hf⟩, hids⟩ := List.forall_mem_cons.mp hlive
      rw [List.foldlM_cons]
      cases hacc : accepts m id with
      | false =>
          rw [List.filter_cons_of_neg (by simp [hacc])] at hfault
          obtain ⟨fault, sink', hends⟩ := ih hids hfault sink done
          exact ⟨fault, sink', .bind (describe_ends_of_rejected hacc done) hends⟩
      | true =>
          rw [List.filter_cons_of_pos hacc] at hfault
          cases htext : description sizeOf m id with
          | error fault =>
              exact ⟨fault, sink, .bind_error (describe_ends_of_fault hacc hf htext done)⟩
          | ok text =>
              obtain ⟨id', hmem, fault', hfault'⟩ := hfault
              rcases List.mem_cons.mp hmem with rfl | hmem
              · rw [htext] at hfault'
                cases hfault'
              · obtain ⟨sink₁, hfirst⟩ := hwrite sink text
                obtain ⟨fault, sink', hends⟩ := ih hids ⟨id', hmem, fault', hfault'⟩ sink₁
                  (done ++ [(id, automaticLocals m (m.functionName id))])
                exact ⟨fault, sink', .bind (describe_ends hacc hf htext hfirst done) hends⟩

/-! ### The pass -/

/-- The kernels that are visited are the functions that are accepted. -/
theorem mem_kernelIds (hslots : m.functions.length ≤ 2 ^ 32) :
    id ∈ kernelIds accepts m ↔ accepts m id = true ∧ ∃ f, m.function? id = some f := by
  rw [kernelIds, List.mem_filter, Module.mem_functionIds_iff hslots]
  exact and_comm

/-- The kernels on the plan are functions of the module, each once. -/
theorem planned_plan (hslots : m.functions.length ≤ 2 ^ 32) : Planned m (plan accepts m) where
  exists_function planned hmem := by
    obtain ⟨id, hid, rfl⟩ := List.mem_map.mp hmem
    exact ((mem_kernelIds hslots).mp hid).2
  nodup := by
    have hfst : (plan accepts m).map Prod.fst = kernelIds accepts m := by
      simp [plan, Function.comp_def]
    rw [hfst]
    exact (Module.nodup_functionIds hslots).filter _

omit [Sink σ] in
/-- **What is done when all is written**: the kernels with automatic locals are replaced. -/
theorem carryOut_ends (hslots : m.functions.length + (toReplace (plan accepts m)).length ≤ 2 ^ 32)
    (detail : Detail) (sink : σ) :
    (Header.carryOut (plan accepts m)).Ends detail ⟨m, sink⟩
      (.ok !(toReplace (plan accepts m)).isEmpty) ⟨headed accepts m, sink⟩ := by
  have hplanned : Planned m (plan accepts m) := planned_plan (Nat.le_of_add_right_le hslots)
  have hreplaced : (Header.onModule ((plan accepts m).foldlM Header.replace {}) :
      Pass (Header.Work σ) Replacements).Ends detail ⟨m, sink⟩
        (.ok ⟨pairsFrom m.functions.length (plan accepts m)⟩)
        ⟨withCopiesAdded m (plan accepts m), sink⟩ := .zoom (foldlM_replace_ends hplanned {})
  refine .bind hreplaced ?_
  rw [anyChanged_pairsFrom (fun _ => hplanned.index_lt) hslots, Bool.not_not, headed]
  cases hnone : (toReplace (plan accepts m)).isEmpty with
  | true =>
      rw [withCopiesAdded_of_isEmpty hnone]
      exact .pure false
  | false => exact .bind (.zoom (replaced_ends hplanned hslots)) (.pure true)

/-- A flush that succeeds leaves the module alone. -/
theorem flush_ends (hflush : Sink.flush sink = .ok sink') :
    (Header.flush : Pass (Header.Work σ) Unit).Ends detail ⟨m, sink⟩ (.ok ()) ⟨m, sink'⟩ := by
  refine .bind .get ?_
  simp only [hflush]
  exact .set _

/-- **What the pass leaves**, when the sink takes all texts: those texts in the sink, and a module
in which the kernels with automatic locals are replaced. -/
theorem run_ends (hslots : m.functions.length + (toReplace (plan accepts m)).length ≤ 2 ^ 32)
    {texts : List String}
    (htexts : (kernelIds accepts m).mapM (description sizeOf m) = .ok texts) {written : σ}
    (hwrite : texts.foldlM Sink.write sink = .ok written)
    (hflush : Sink.flush written = .ok sink') (detail : Detail) :
    (Header.run sizeOf accepts).Ends detail ⟨m, sink⟩
      (.ok !(toReplace (plan accepts m)).isEmpty) ⟨headed accepts m, sink'⟩ := by
  have hlive : ∀ id ∈ m.functionIds, ∃ f, m.function? id = some f := fun id =>
    (Module.mem_functionIds_iff (Nat.le_of_add_right_le hslots)).mp
  rw [Header.run_eq]
  refine .bind (.bind .get (.bind (foldlM_describe_ends hlive htexts hwrite detail [])
    (.bind (flush_ends hflush) (.pure _)))) ?_
  exact carryOut_ends hslots detail sink'

/-- **What the pass leaves whenever it succeeds**, whatever the sink does. -/
theorem run_ok (hslots : m.functions.length + (toReplace (plan accepts m)).length ≤ 2 ^ 32)
    {changed : Bool} {w : Header.Work σ}
    (h : (Header.run sizeOf accepts).Ends detail ⟨m, sink⟩ (.ok changed) w) :
    changed = !(toReplace (plan accepts m)).isEmpty ∧ w.module = headed accepts m := by
  rw [Header.run_eq] at h
  obtain ⟨planned, ⟨module, sink₁⟩, hannounce, h⟩ := h.exists_of_bind
  obtain rfl : module = m := hannounce.leaves (Header.announce_keeps detail ⟨m, sink⟩)
  obtain ⟨_, _, hdescribe, hflush⟩ := hannounce.of_get_bind.exists_of_bind
  obtain ⟨_, _, -, hpure⟩ := hflush.exists_of_bind
  obtain ⟨-, rfl⟩ := foldlM_describe_ok hdescribe
  obtain rfl := Except.ok.inj ((Pass.Ends.pure _).unique hpure).1
  obtain ⟨hchanged, rfl⟩ := (carryOut_ends hslots detail sink₁).unique h
  exact ⟨(Except.ok.inj hchanged).symm, rfl⟩

/-- **A size that cannot be had** stops the pass before the module is touched. -/
theorem run_faults (hslots : m.functions.length ≤ 2 ^ 32)
    (hwrite : ∀ (sink : σ) text, ∃ sink', Sink.write sink text = .ok sink')
    (hacc : accepts m id = true) (hf : m.function? id = some f) {l : GlobalId} {g : GlobalVar}
    (hl : l ∈ automaticLocals m f.name) (hg : m.global? l = some g) {fault : Fault}
    (hsize : sizeOf g.valueType = .error fault) (detail : Detail) (sink : σ) :
    ∃ fault' sink', (Header.run sizeOf accepts).Ends detail ⟨m, sink⟩ (.error (.fault fault'))
      ⟨m, sink'⟩ := by
  have hkernel : id ∈ m.functionIds.filter (accepts m) :=
    (mem_kernelIds hslots).mpr ⟨hacc, f, hf⟩
  obtain ⟨fault', sink', hends⟩ := foldlM_describe_faults
    (fun id => (Module.mem_functionIds_iff hslots).mp) hwrite
    ⟨id, hkernel, description_eq_error hf hl hg hsize⟩ detail sink []
  exact ⟨fault', sink', .bind .get (.bind_error hends)⟩

/-! ### Sinks that take every text -/

/-- A sink that takes every text takes several. -/
theorem exists_foldlM_write (hwrite : ∀ (sink : σ) text, ∃ sink', Sink.write sink text = .ok sink')
    (texts : List String) (sink : σ) :
    ∃ sink', texts.foldlM Sink.write sink = .ok sink' := by
  induction texts generalizing sink with
  | nil => exact ⟨sink, rfl⟩
  | cons text texts ih =>
      obtain ⟨sink₁, hfirst⟩ := hwrite sink text
      rw [List.foldlM_cons, hfirst]
      exact ih sink₁

/-- All kernels can be described, and the sink takes the texts. -/
theorem exists_written (hwrite : ∀ (sink : σ) text, ∃ sink', Sink.write sink text = .ok sink')
    (hslots : m.functions.length ≤ 2 ^ 32)
    (hsizes : ∀ id f, accepts m id = true → m.function? id = some f →
      ∀ l ∈ automaticLocals m f.name, ∀ g, m.global? l = some g →
        ∃ size, sizeOf g.valueType = .ok size)
    (hflush : ∀ sink : σ, ∃ sink', Sink.flush sink = .ok sink') (sink : σ) :
    ∃ texts written sink', (kernelIds accepts m).mapM (description sizeOf m) = .ok texts ∧
      texts.foldlM Sink.write sink = .ok written ∧ Sink.flush written = .ok sink' := by
  obtain ⟨texts, htexts, -⟩ := exists_mapM_ok (g := description sizeOf m)
    (l := kernelIds accepts m) (P := fun _ _ => True) fun id hid => by
      obtain ⟨hacc, f, hf⟩ := (mem_kernelIds hslots).mp hid
      obtain ⟨text, htext⟩ := description_eq_ok hf (hsizes id f hacc hf)
      exact ⟨text, htext, trivial⟩
  obtain ⟨written, hwritten⟩ := exists_foldlM_write hwrite texts sink
  obtain ⟨sink', hflushed⟩ := hflush written
  exact ⟨texts, written, sink', htexts, hwritten, hflushed⟩

/-! ### The module afterwards -/

/-- A module with its header announced and its kernels replaced is still well-formed. -/
theorem wellFormed_headed (hm : m.WellFormed) : (headed accepts m).WellFormed := by
  rw [headed]
  split
  · exact hm
  · exact wellFormed_replaced hm

/-- There is a slot more for each kernel that is replaced. -/
theorem length_headed : (headed accepts m).functions.length =
    m.functions.length + (toReplace (plan accepts m)).length := by
  rw [headed]
  split
  · next h => rw [List.isEmpty_iff.mp h, List.length_nil, Nat.add_zero]
  · exact length_replaced

end Kernel

end Lockstep
