import Lockstep.DataLayout
import Lockstep.Proofs.Kernel.Header

/-!
# The module behind a header pass

The pass replaces the kernels that own a global variable, one whose name is the kernel's, a dot and
something more. `Kernel.owners` lists them and `Kernel.image` says where a kernel is to be found
afterwards. Both speak of the module before the pass only, and `Kernel.Rewritten` says in their
terms what the module is like behind it: its slots, its global variables and each of its tables.

## Main results

* `Kernel.pairsFrom_plan`: the pairs that the pass makes are the kernels with their images.
* `Kernel.function?_headed_image`: what is to be found at the image of a kernel.
* `Kernel.rewritten_replaced`: the module with its kernels replaced is rewritten as it should be.
* `Kernel.run_rewrites`: so is the one that the pass leaves.
-/

namespace Lockstep

namespace Kernel

variable {accepts : KernelPredicate} {m : Module} {id : FunctionId} {f : Function}

/-! ### Kernels that own global variables -/

/-- Does a kernel of that name own a global variable? -/
def owns (m : Module) (kernel : String) : Bool :=
  m.globals.any fun g => (kernel ++ ".").toList.isPrefixOf g.name.toList

/-- The kernels that own global variables, in the order of their slots. -/
def owners (accepts : KernelPredicate) (m : Module) : List FunctionId :=
  (kernelIds accepts m).filter fun id => owns m (m.functionName id)

/-- Where a kernel is to be found behind the pass: those that own global variables have their copies
behind all other functions, in their order. -/
def image (accepts : KernelPredicate) (m : Module) (id : FunctionId) : FunctionId :=
  if id ∈ owners accepts m then .ofIndex (m.functions.length + (owners accepts m).idxOf id) else id

/-- What becomes of a kernel: a copy with more parameters, if it has automatic locals. -/
def final (m : Module) (f : Function) : Function :=
  if (automaticLocals m f.name).isEmpty then f else widened m f (automaticLocals m f.name)

/-- A kernel has automatic locals when it owns a global variable. -/
theorem isEmpty_automaticLocals (kernel : String) :
    (automaticLocals m kernel).isEmpty = !owns m kernel := by
  have hglobals : m.numberedGlobals.map Prod.snd = m.globals := by
    simp [Module.numberedGlobals, Function.comp_def]
  rw [automaticLocals, List.isEmpty_map, owns, ← hglobals, List.any_map, Bool.eq_iff_iff]
  simp [List.isEmpty_iff, List.filter_eq_nil_iff]

/-- The kernels to be replaced are the owners, with their automatic locals. -/
theorem toReplace_plan : toReplace (plan accepts m) =
    (owners accepts m).map fun id => (id, automaticLocals m (m.functionName id)) := by
  have howns : ((fun planned : FunctionId × List GlobalId => !planned.2.isEmpty) ∘ fun id =>
      (id, automaticLocals m (m.functionName id))) = fun id => owns m (m.functionName id) := by
    funext id
    simp [isEmpty_automaticLocals]
  rw [toReplace, plan, List.filter_map, howns]
  rfl

/-- There are as many kernels to be replaced as owners. -/
theorem length_toReplace_plan :
    (toReplace (plan accepts m)).length = (owners accepts m).length := by
  rw [toReplace_plan, List.length_map]

/-- The kernels to be replaced are the owners. -/
theorem map_fst_toReplace_plan : (toReplace (plan accepts m)).map Prod.fst = owners accepts m := by
  rw [toReplace_plan, List.map_map]
  exact List.map_id' _

/-- Owners are the kernels with automatic locals. -/
theorem mem_owners_iff (hid : id ∈ kernelIds accepts m) :
    id ∈ owners accepts m ↔ (automaticLocals m (m.functionName id)).isEmpty = false := by
  rw [owners, List.mem_filter, isEmpty_automaticLocals]
  simp [hid]

/-- **The pairs that the pass makes** are the kernels with their images. -/
theorem pairsFrom_plan (hslots : m.functions.length ≤ 2 ^ 32) :
    pairsFrom m.functions.length (plan accepts m) =
      (kernelIds accepts m).map fun id => (id, image accepts m id) := by
  rw [pairsFrom_eq_map (planned_plan hslots).nodup, map_fst_toReplace_plan, plan, List.map_map]
  refine List.map_congr_left fun id hid => ?_
  simp only [Function.comp_apply, image, mem_owners_iff hid]
  cases (automaticLocals m (m.functionName id)).isEmpty <;> rfl

/-- The slots that there were. -/
theorem function?_headed_of_lt (hid : id.index < m.functions.length) :
    (headed accepts m).function? id =
      if id ∈ owners accepts m then none else m.function? id := by
  rw [headed]
  split
  · next hnone =>
      rw [toReplace_plan, List.isEmpty_map, List.isEmpty_iff] at hnone
      rw [hnone, if_neg List.not_mem_nil]
  · rw [function?_replaced_of_lt hid, map_fst_toReplace_plan]

section

variable (hslots : m.functions.length + (owners accepts m).length ≤ 2 ^ 32)
include hslots

/-- Owners stand in slots of the module. -/
theorem index_lt_of_mem_owners (hid : id ∈ owners accepts m) :
    id.index < m.functions.length := by
  obtain ⟨-, f, hf⟩ := (mem_kernelIds (Nat.le_of_add_right_le hslots)).mp (List.mem_filter.mp hid).1
  exact (List.getElem?_eq_some_iff.mp (Module.function?_eq_some.mp hf)).1

/-- The copies stand behind all slots that there were, in the order of the owners. -/
theorem index_image (hid : id ∈ owners accepts m) :
    (image accepts m id).index = m.functions.length + (owners accepts m).idxOf id := by
  have hlt := List.idxOf_lt_length_of_mem hid
  rw [image, if_pos hid, ArenaId.index_ofIndex (by omega)]

/-- A kernel is its own image exactly when it owns no global variable. The image of an owner stands
behind all slots that there were, and the kernel in one of them. -/
theorem ne_image_iff : id ≠ image accepts m id ↔ id ∈ owners accepts m := by
  constructor
  · intro hne
    by_contra hid
    exact hne (if_neg hid).symm
  · intro hid heq
    have hindex := index_image hslots hid
    have hlt := index_lt_of_mem_owners hslots hid
    rw [← heq] at hindex
    omega

/-- **What is to be found at the image of a kernel.** -/
theorem function?_headed_image (hid : id ∈ kernelIds accepts m) (hf : m.function? id = some f) :
    (headed accepts m).function? (image accepts m id) = some (final m f) := by
  have hlt := (List.getElem?_eq_some_iff.mp (Module.function?_eq_some.mp hf)).1
  have howner := mem_owners_iff hid
  rw [Module.functionName_of_function? hf] at howner
  rw [final]
  cases hlocals : (automaticLocals m f.name).isEmpty with
  | true =>
      have hnot : id ∉ owners accepts m := by simp [howner, hlocals]
      rw [image, if_neg hnot, if_pos rfl, function?_headed_of_lt hlt, if_neg hnot, hf]
  | false =>
      have hmem : id ∈ owners accepts m := howner.mpr hlocals
      have hne : (toReplace (plan accepts m)).isEmpty = false := by
        rw [toReplace_plan, List.isEmpty_map]
        exact List.isEmpty_eq_false_iff_exists_mem.mpr ⟨id, hmem⟩
      have hget : (toReplace (plan accepts m))[(owners accepts m).idxOf id]? =
          some (id, automaticLocals m f.name) := by
        rw [toReplace_plan, List.getElem?_map, List.getElem?_idxOf hmem, Option.map_some,
          Module.functionName_of_function? hf]
      rw [headed, hne, if_neg (by simp), if_neg (by simp)]
      exact function?_replaced_copy hget hf (index_image hslots hmem)

end

/-! ### Rewritten modules -/

/-- The copy of a row of work-group sizes: a row whose first operand is a kernel that is replaced
has one, which speaks of the replacement instead. -/
def copiedRow (accepts : KernelPredicate) (m : Module) : MetadataNode → Option MetadataNode
  | ⟨.function id :: rest⟩ =>
      if id ∈ owners accepts m then some ⟨.function (image accepts m id) :: rest⟩ else none
  | _ => none

/-- A table behind the pass: that of work-group sizes has copies of rows behind its own. -/
def repairedTable (accepts : KernelPredicate) (m : Module) (table : MetadataTable) :
    MetadataTable :=
  if table.name = groupSizesTable then
    { table with nodes := table.nodes ++ table.nodes.filterMap (copiedRow accepts m) }
  else table

/-- What a module is like when those of its kernels that own global variables were replaced. -/
structure Rewritten (accepts : KernelPredicate) (m m' : Module) : Prop where
  name : m'.name = m.name
  globals : m'.globals = m.globals
  /-- As many functions are added as kernels are replaced. -/
  length : m'.functions.length = m.functions.length + (owners accepts m).length
  /-- The slots of the kernels that are replaced are empty. -/
  emptied : ∀ id ∈ owners accepts m, m'.functions[id.index]? = some none
  /-- All other slots hold what they held. -/
  kept : ∀ i < m.functions.length, (∀ id ∈ owners accepts m, id.index ≠ i) →
    m'.functions[i]? = m.functions[i]?
  /-- The replacements stand in the added slots, in the order of the kernels. -/
  added : ∀ k id, (owners accepts m)[k]? = some id → ∃ f f', m.function? id = some f ∧
    m'.functions[m.functions.length + k]? = some (some f') ∧ f'.name = f.name ∧
    f'.linkage = f.linkage ∧ f'.returnType = f.returnType ∧ f'.variadic = f.variadic
  /-- The table of kernels lists the images of all kernels in their order. It stands behind the
  others, which stay in their places. -/
  metadata : m'.metadata =
    (m.metadata.filter (·.name != kernelsTable)).map (repairedTable accepts m) ++
      [⟨kernelsTable, (kernelIds accepts m).map fun id => ⟨[.function (image accepts m id)]⟩⟩]

section

variable (hslots : m.functions.length + (owners accepts m).length ≤ 2 ^ 32)
include hslots

/-- The rows that are copied are those that speak of an owner. -/
theorem rowCopies_plan (node : MetadataNode) :
    rowCopies (pairsFrom m.functions.length (plan accepts m)) node =
      (copiedRow accepts m node).toList := by
  have hslots' := Nat.le_of_add_right_le hslots
  have hkernels : (kernelIds accepts m).Nodup := (Module.nodup_functionIds hslots').filter _
  have howner : ∀ id, (id ∈ kernelIds accepts m ∧ id ≠ image accepts m id) ↔
      id ∈ owners accepts m := by
    intro id
    rw [ne_image_iff hslots]
    exact ⟨And.right, fun h => ⟨(List.mem_filter.mp h).1, h⟩⟩
  rw [pairsFrom_plan hslots', rowCopies_map hkernels]
  simp only [howner]
  obtain ⟨operands⟩ := node
  rcases operands with _ | ⟨operand, rest⟩
  · rfl
  · cases operand with
    | function id =>
        by_cases hid : id ∈ owners accepts m <;>
          simp [MetadataNode.function?, MetadataNode.retarget, copiedRow, Option.filter, hid]
    | _ => rfl

/-- The tables after the plan was carried out. -/
theorem withCopies_plan (table : MetadataTable) :
    (if table.name = groupSizesTable then
      withCopies (pairsFrom m.functions.length (plan accepts m)) table else table) =
      repairedTable accepts m table := by
  have hrows : rowCopies (pairsFrom m.functions.length (plan accepts m)) = fun node =>
      (copiedRow accepts m node).toList := funext (rowCopies_plan hslots)
  rw [repairedTable, withCopies, hrows, List.filterMap_eq_flatMap_toList]

/-- **The module with its kernels replaced** is rewritten as it should be. -/
theorem rewritten_replaced (hnames : (m.metadata.map MetadataTable.name).Nodup) :
    Rewritten accepts m (replaced m (plan accepts m)) where
  name := by rw [replaced, regenerateTables_eq]
  globals := by rw [replaced, regenerateTables_eq]
  length := by rw [length_replaced, length_toReplace_plan]
  emptied id hid := by
    have hlt := index_lt_of_mem_owners hslots hid
    rw [replaced, List.getElem?_append_left (by simpa [emptied] using hlt), getElem?_emptied,
      map_fst_toReplace_plan, if_pos (List.mem_map_of_mem hid), List.getElem?_eq_getElem hlt]
    rfl
  kept i hi hnot := by
    rw [replaced, List.getElem?_append_left (by simpa [emptied] using hi), getElem?_emptied,
      map_fst_toReplace_plan, if_neg]
    rintro hmem
    obtain ⟨id, hid, hindex⟩ := List.mem_map.mp hmem
    exact hnot id hid hindex
  added k id hget := by
    have hid := (List.mem_filter.mp (List.mem_of_getElem? hget)).1
    obtain ⟨-, f, hf⟩ := (mem_kernelIds (Nat.le_of_add_right_le hslots)).mp hid
    have hcopy : (copies m (plan accepts m))[k]? =
        some (some (widened m f (automaticLocals m f.name))) := by
      rw [copies, toReplace_plan, List.map_map, List.getElem?_map, hget, Option.map_some,
        Function.comp_apply, hf, Module.functionName_of_function? hf]
      rfl
    refine ⟨f, widened m f (automaticLocals m f.name), hf, ?_, rfl, rfl, rfl, rfl⟩
    rw [replaced, List.getElem?_append_right (by simp [emptied]), emptied, length_modifyAll,
      Nat.add_sub_cancel_left, hcopy]
  metadata := by
    rw [replaced, regenerateTables_eq, regenerated_eq_map hnames, funext (withCopies_plan hslots),
      pairsFrom_plan (Nat.le_of_add_right_le hslots), List.map_map]
    rfl

end

/-! ### The run -/

/-- The target gives a size to every automatic local of every kernel. -/
def Sized (sizeOf : SizeOf) (accepts : KernelPredicate) (m : Module) : Prop :=
  ∀ id f, accepts m id = true → m.function? id = some f →
    ∀ l ∈ automaticLocals m f.name, ∀ g, m.global? l = some g →
      ∃ size, sizeOf g.valueType = .ok size

/-- On a target without a size for some automatic local the pass ends with a fault. -/
theorem run_faults_of_not_sized {σ : Type} [Sink σ] {sizeOf : SizeOf}
    (hslots : m.functions.length ≤ 2 ^ 32)
    (hwrite : ∀ (sink : σ) text, ∃ sink', Sink.write sink text = .ok sink')
    (hunsized : ¬Sized sizeOf accepts m) (detail : Detail) (sink : σ) :
    ∃ fault sink', (Header.run sizeOf accepts).Ends detail ⟨m, sink⟩ (.error (.fault fault))
      ⟨m, sink'⟩ := by
  simp only [Sized, not_forall, not_exists] at hunsized
  obtain ⟨id, f, hacc, hf, l, hl, g, hg, hsize⟩ := hunsized
  cases hfault : sizeOf g.valueType with
  | ok size => exact absurd hfault (hsize size)
  | error fault => exact run_faults hslots hwrite hacc hf hl hg hfault detail sink

/-- **What the header pass does to a module**, if there is room for the replacements and no two
tables have the same name, and the sink takes all that is written. It succeeds and says whether a
kernel owns global variables. If none does, the module is as it was, and otherwise it is rewritten.
On a target without a size for some automatic local it ends with a fault, and the module is as it
was. -/
theorem run_rewrites {σ : Type} [Sink σ] (sizeOf : SizeOf) (accepts : KernelPredicate)
    (detail : Detail) (m : Module) (sink : σ)
    (hnames : (m.metadata.map MetadataTable.name).Nodup)
    (hslots : m.functions.length + (owners accepts m).length ≤ 2 ^ 32)
    (hwrite : ∀ (sink : σ) text, ∃ sink', Sink.write sink text = .ok sink')
    (hflush : ∀ sink : σ, ∃ sink', Sink.flush sink = .ok sink') :
    (Sized sizeOf accepts m → ∃ m' sink',
      (Header.run sizeOf accepts).Ends detail ⟨m, sink⟩ (.ok !(owners accepts m).isEmpty)
        ⟨m', sink'⟩ ∧
      (owners accepts m = [] → m' = m) ∧ (owners accepts m ≠ [] → Rewritten accepts m m')) ∧
    (¬Sized sizeOf accepts m → ∃ fault sink',
      (Header.run sizeOf accepts).Ends detail ⟨m, sink⟩ (.error (.fault fault)) ⟨m, sink'⟩) := by
  have hslots' : m.functions.length ≤ 2 ^ 32 := Nat.le_of_add_right_le hslots
  refine ⟨fun hsized => ?_, fun hunsized => run_faults_of_not_sized hslots' hwrite hunsized
    detail sink⟩
  obtain ⟨texts, written, sink', htexts, hwritten, hflushed⟩ :=
    exists_written hwrite hslots' hsized hflush sink
  have hends : (Header.run sizeOf accepts).Ends detail ⟨m, sink⟩
      (.ok !(toReplace (plan accepts m)).isEmpty) ⟨headed accepts m, sink'⟩ :=
    run_ends (length_toReplace_plan ▸ hslots) htexts hwritten hflushed detail
  rw [toReplace_plan, List.isEmpty_map] at hends
  refine ⟨headed accepts m, sink', hends, fun hnone => ?_, fun hsome => ?_⟩
  · rw [headed, toReplace_plan, hnone]
    rfl
  · rw [headed, toReplace_plan, List.isEmpty_map, if_neg (by simpa using hsome)]
    exact rewritten_replaced hslots hnames

/-- A function of one block that does nothing. -/
def idle (name : String) : Function where
  name := name
  returnType := .void
  blocks := [{ id := ⟨0⟩, name := "entry", instructions := [.ret none] }]
  layout := [⟨0⟩]

/-- A module with an empty slot and with three kernels, of which the first and the last own global
variables. The tables name the kernels in another order. -/
def mixedModule : Module where
  name := "module"
  functions := [some (idle "a"), none, some (idle "b"), some (idle "help"), some (idle "c")]
  globals :=
    [{ name := "c.y", valueType := .i32, space := .workGroup },
      { name := "a.x", valueType := .i64, space := .workGroup },
      { name := "c.z", valueType := .array 4 .i8, space := .workGroup },
      { name := "bc.w", valueType := .i8, space := .device }]
  metadata :=
    [⟨kernelsTable, [.ofFunction ⟨4⟩, .ofFunction ⟨0⟩, .ofFunction ⟨2⟩]⟩,
      ⟨groupSizesTable, [⟨[.function ⟨4⟩, .int 64]⟩, ⟨[.function ⟨3⟩, .int 1]⟩,
        ⟨[.function ⟨0⟩, .int 32, .null]⟩, ⟨[.function ⟨4⟩, .int 8]⟩]⟩,
      ⟨"opencl.version", [⟨[.int 2]⟩]⟩]

/-- The two owners are replaced and the third kernel is kept, and the rows of the owners are copied
in the order of the table. -/
theorem run_rewrites_mixed :
    (mixedModule.metadata.map MetadataTable.name).Nodup ∧
    owners (Selection.accepts {}) mixedModule = [⟨0⟩, ⟨4⟩] ∧
    Sized (DataLayout.allocSize 8) (Selection.accepts {}) mixedModule ∧
    ∃ m' sink', (Header.run (DataLayout.allocSize 8) (Selection.accepts {})).Ends none
        ⟨mixedModule, ""⟩ (.ok true) ⟨m', sink'⟩ ∧
      Rewritten (Selection.accepts {}) mixedModule m' ∧
      m'.functions.map (Option.map Function.name) =
        [none, none, some "b", some "help", none, some "a", some "c"] ∧
      m'.metadata =
        [⟨groupSizesTable, [⟨[.function ⟨4⟩, .int 64]⟩, ⟨[.function ⟨3⟩, .int 1]⟩,
          ⟨[.function ⟨0⟩, .int 32, .null]⟩, ⟨[.function ⟨4⟩, .int 8]⟩,
          ⟨[.function ⟨6⟩, .int 64]⟩, ⟨[.function ⟨5⟩, .int 32, .null]⟩,
          ⟨[.function ⟨6⟩, .int 8]⟩]⟩,
          ⟨"opencl.version", [⟨[.int 2]⟩]⟩,
          ⟨kernelsTable, [.ofFunction ⟨5⟩, .ofFunction ⟨2⟩, .ofFunction ⟨6⟩]⟩] := by
  have hnames : (mixedModule.metadata.map MetadataTable.name).Nodup := by decide +kernel
  have howners : owners (Selection.accepts {}) mixedModule = [⟨0⟩, ⟨4⟩] := by decide +kernel
  have hsized : Sized (DataLayout.allocSize 8) (Selection.accepts {}) mixedModule := by
    intro id f _ _ l _ g hg
    have hmem : g ∈ mixedModule.globals := List.mem_of_getElem? hg
    simp only [mixedModule, List.mem_cons, List.not_mem_nil, or_false] at hmem
    rcases hmem with rfl | rfl | rfl | rfl
    · exact ⟨4, rfl⟩
    · exact ⟨8, rfl⟩
    · exact ⟨4, rfl⟩
    · exact ⟨1, rfl⟩
  obtain ⟨m', sink', hends, -, hrewritten⟩ := (run_rewrites (DataLayout.allocSize 8)
    (Selection.accepts {}) none mixedModule "" hnames (by rw [howners]; decide)
    (fun sink text => ⟨sink ++ text, rfl⟩) (fun sink => ⟨sink, rfl⟩)).1 hsized
  rw [howners] at hends hrewritten
  have hstate : ((Header.run (DataLayout.allocSize 8) (Selection.accepts {})).run none
      (⟨mixedModule, ""⟩ : Header.Work String)).state.module = m' := by rw [hends.2]
  refine ⟨hnames, howners, hsized, m', sink', hends, hrewritten (by simp), ?_, ?_⟩
  · rw [← hstate]
    decide +kernel
  · rw [← hstate]
    decide +kernel

end Kernel

end Lockstep
