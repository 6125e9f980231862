import Lockstep.Proofs.Kernel.Outcome
import Lockstep.Proofs.Kernel.Widening

/-!
# Functions that operands name

A call names its callee by an operand, and an operand that names a function of the module is only of
use while the slot of that function is not empty. The header pass empties the slots of the kernels
that it replaces, and lets the tables speak of the replacements. The operands of instructions it
leaves as they are: those of a function that stays, and those of a copy, which names the functions
that its kernel named. So an operand that names a replaced kernel names an empty slot afterwards,
whether it stands in another function or in the kernel itself.

## Main results

* `Kernel.callees_widened`: a copy names the functions that its kernel names.
* `Kernel.calleesLive_headed_iff`: when all operands still name functions afterwards.
* `Kernel.run_calleesLive_iff`: the same of the module that the pass leaves.
-/

namespace Lockstep

/-- The function that a value names. -/
def Value.function? : Value → Option FunctionId
  | .function id => some id
  | _ => none

/-- The functions that the operands of a function name. -/
def Function.callees (f : Function) : List FunctionId :=
  f.blocks.flatMap fun b => b.instructions.flatMap fun i => i.operands.filterMap Value.function?

/-- Each function that is named by an operand is there. -/
def Module.CalleesLive (m : Module) : Prop :=
  ∀ f, some f ∈ m.functions → ∀ id ∈ f.callees, ∃ g, m.function? id = some g

/-- Whether all functions that are called exist, slot by slot. -/
theorem Module.calleesLive_iff {m : Module} : m.CalleesLive ↔ ∀ slot ∈ m.functions,
    ∀ id ∈ (slot.map Function.callees).getD [], (m.function? id).isSome = true := by
  simp only [CalleesLive, Option.isSome_iff_exists]
  constructor
  · intro h slot hslot id hid
    cases slot with
    | none => cases hid
    | some f => exact h f hslot id hid
  · intro h f hf
    exact h (some f) hf

instance (m : Module) : Decidable m.CalleesLive :=
  decidable_of_iff _ Module.calleesLive_iff.symm

namespace Kernel

variable {accepts : KernelPredicate} {m : Module} {id : FunctionId} {f g : Function}
  {locals : List GlobalId} {count : Nat}

/-- An operand that is a function stays one, and no other becomes one. -/
theorem function?_apply_localMap (x : Value) :
    ((localMap count locals).apply x).function? = x.function? := by
  rcases apply_localMap_cases count locals x with ⟨l, hl, rfl, happly⟩ | ⟨-, happly⟩
  · rw [happly]
    rfl
  · rw [happly]

/-- **A copy names the functions that its kernel names.** -/
theorem callees_widened : (widened m f locals).callees = f.callees := by
  have hoperands : ∀ i : Instruction,
      (i.mapOperands (localMap f.parameters.length locals).apply).operands.filterMap
        Value.function? = i.operands.filterMap Value.function? := by
    intro i
    rw [Instruction.operands_mapOperands, List.filterMap_map]
    exact List.filterMap_congr fun x _ => function?_apply_localMap x
  rw [Function.callees, widened_eq, Function.copied, List.flatMap_map]
  simp only [Block.mapOperands, List.flatMap_map, hoperands]
  rfl

/-! ### Before and after the pass -/

/-- What a function names afterwards, one of the module before names. -/
theorem exists_callees_of_mem_headed (hg : some g ∈ (headed accepts m).functions) :
    ∃ f, some f ∈ m.functions ∧ f.callees = g.callees := by
  rw [headed] at hg
  split at hg
  · exact ⟨g, hg, rfl⟩
  rcases List.mem_append.mp hg with hg | hg
  · obtain ⟨i, hi⟩ := List.mem_iff_getElem?.mp hg
    rw [getElem?_emptied] at hi
    split at hi
    · simp at hi
    · exact ⟨g, List.mem_of_getElem? hi, rfl⟩
  · obtain ⟨planned, -, hcopy⟩ := List.mem_map.mp hg
    obtain ⟨f, hf, rfl⟩ := Option.map_eq_some_iff.mp hcopy
    exact ⟨f, Module.mem_functions hf, callees_widened.symm⟩

section

variable (hslots : m.functions.length + (owners accepts m).length ≤ 2 ^ 32)
include hslots

/-- What a function names, it or its copy names afterwards. A kernel that is replaced lives on in
its copy, and every other function in its slot. -/
theorem exists_mem_headed (hf : some f ∈ m.functions) :
    ∃ g, some g ∈ (headed accepts m).functions ∧ g.callees = f.callees := by
  obtain ⟨i, hi⟩ := List.mem_iff_getElem?.mp hf
  have hlt := (List.getElem?_eq_some_iff.mp hi).1
  have hindex : (ArenaId.ofIndex i : FunctionId).index = i := ArenaId.index_ofIndex (by omega)
  have hfunction : m.function? (.ofIndex i) = some f := by
    rw [Module.function?_eq_some, hindex, hi]
  by_cases howner : ArenaId.ofIndex i ∈ owners accepts m
  · refine ⟨final m f, Module.mem_functions (function?_headed_image hslots
      (List.mem_filter.mp howner).1 hfunction), ?_⟩
    rw [final]
    split
    · rfl
    · exact callees_widened
  · have hkept : (headed accepts m).function? (.ofIndex i) = some f := by
      rw [function?_headed_of_lt (by rw [hindex]; exact hlt), if_neg howner, hfunction]
    exact ⟨f, Module.mem_functions hkept, rfl⟩

/-- **When all operands still name functions** behind the pass: when none of them named a kernel
that is replaced. -/
theorem calleesLive_headed_iff (hlive : m.CalleesLive) :
    (headed accepts m).CalleesLive ↔
      ∀ f, some f ∈ m.functions → ∀ id ∈ f.callees, id ∉ owners accepts m := by
  constructor
  · intro hheaded f hf id hid howner
    obtain ⟨g, hg, hcallees⟩ := exists_mem_headed hslots hf
    obtain ⟨target, htarget⟩ := hheaded g hg id (hcallees ▸ hid)
    rw [function?_headed_of_lt (index_lt_of_mem_owners hslots howner), if_pos howner] at htarget
    cases htarget
  · intro hnone g hg id hid
    obtain ⟨f, hf, hcallees⟩ := exists_callees_of_mem_headed hg
    rw [← hcallees] at hid
    obtain ⟨target, htarget⟩ := hlive f hf id hid
    have hlt := (List.getElem?_eq_some_iff.mp (Module.function?_eq_some.mp htarget)).1
    refine ⟨target, ?_⟩
    rw [function?_headed_of_lt hlt, if_neg (hnone f hf id hid), htarget]

end

/-- **Whenever the pass succeeds** on a module whose operands all name functions that are there, the
operands of the module that it leaves do so exactly when no operand named a kernel that owns global
variables. -/
theorem run_calleesLive_iff {σ : Type} [Sink σ] {sizeOf : SizeOf} {detail : Detail} {sink : σ}
    {changed : Bool} {w : Header.Work σ} (hlive : m.CalleesLive)
    (hslots : m.functions.length + (owners accepts m).length ≤ 2 ^ 32)
    (hrun : (Header.run sizeOf accepts).Ends detail ⟨m, sink⟩ (.ok changed) w) :
    w.module.CalleesLive ↔
      ∀ f, some f ∈ m.functions → ∀ id ∈ f.callees, id ∉ owners accepts m := by
  rw [(run_ok (length_toReplace_plan ▸ hslots) hrun).2]
  exact calleesLive_headed_iff hslots hlive

/-- A function that calls another. -/
def calling (callee : FunctionId) : Function where
  name := "caller"
  returnType := .void
  blocks := [{ id := ⟨0⟩, name := "entry"
               instructions := [.call none (.function callee) [] .void, .ret none] }]
  layout := [⟨0⟩]

/-- A module with a kernel that owns a global variable, a function that calls another, and a
function to be called. -/
def callingModule (callee : FunctionId) : Module where
  name := "module"
  functions := [some (idle "k"), some (calling callee), some (idle "help")]
  globals := [{ name := "k.x", valueType := .i32, space := .workGroup }]
  metadata := [⟨kernelsTable, [.ofFunction ⟨0⟩]⟩]

/-- A call to a kernel that is replaced is left with an empty slot. -/
theorem run_calling_not_calleesLive :
    (callingModule ⟨0⟩).CalleesLive ∧
    ∃ w, (Header.run (DataLayout.allocSize 8) (Selection.accepts {})).Ends none
        (⟨callingModule ⟨0⟩, ""⟩ : Header.Work String) (.ok true) w ∧
      ¬w.module.CalleesLive :=
  ⟨by decide +kernel, _, ⟨by decide +kernel, rfl⟩, by decide +kernel⟩

/-- A call to another function is not. -/
theorem run_calleesLive_iff_calling :
    (callingModule ⟨2⟩).CalleesLive ∧
    owners (Selection.accepts {}) (callingModule ⟨2⟩) = [⟨0⟩] ∧
    ∃ w, (Header.run (DataLayout.allocSize 8) (Selection.accepts {})).Ends none
        (⟨callingModule ⟨2⟩, ""⟩ : Header.Work String) (.ok true) w ∧
      w.module.CalleesLive := by
  have hlive : (callingModule ⟨2⟩).CalleesLive := by decide +kernel
  have howners : owners (Selection.accepts {}) (callingModule ⟨2⟩) = [⟨0⟩] := by decide +kernel
  have hrun : (Header.run (DataLayout.allocSize 8) (Selection.accepts {})).Ends none
      (⟨callingModule ⟨2⟩, ""⟩ : Header.Work String) (.ok true) _ := ⟨by decide +kernel, rfl⟩
  refine ⟨hlive, howners, _, hrun, ?_⟩
  rw [run_calleesLive_iff hlive (by rw [howners]; decide) hrun, howners]
  intro f hf
  simp only [callingModule, List.mem_cons, Option.some.injEq, List.not_mem_nil, or_false] at hf
  rcases hf with rfl | rfl | rfl <;> decide +kernel

end Kernel

end Lockstep
