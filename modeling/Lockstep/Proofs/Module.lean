import Lockstep.Module
import Lockstep.Proofs.Function.WellFormed
import Lockstep.Proofs.Sequence

/-!
# Functions of a module

How putting a function into a slot shows when functions are looked up by their identifiers, which
identifiers a module lists, and what the check of a module accepts. An identifier is a machine
word, so beyond `2 ^ 32` slots several of them share one; nothing here but `nodup_functionIds`
asks for fewer.

## Main results

* `Module.validate_eq_ok_iff`: the check accepts exactly the well-formed modules.
* `Module.mem_functionIds` and `Module.nodup_functionIds`: a function that can be looked up is
  listed, and none is listed twice.
-/

namespace Lockstep

namespace Module

variable {m : Module} {id id' : FunctionId} {f g g' : Function}

/-- A function in a slot. -/
theorem function?_eq_some : m.function? id = some f ↔ m.functions[id.index]? = some (some f) := by
  rw [function?, Option.join_eq_some_iff]

/-- There is no function beyond the slots. -/
theorem function?_eq_none_of_le (h : m.functions.length ≤ id.index) : m.function? id = none := by
  rw [function?, List.getElem?_eq_none h]
  rfl

/-- A function goes by its own name. -/
theorem functionName_of_function? (h : m.function? id = some f) : m.functionName id = f.name := by
  rw [functionName, h]
  rfl

/-- A function that is found stands in a slot. -/
theorem mem_functions (h : m.function? id = some f) : some f ∈ m.functions :=
  List.mem_of_getElem? (function?_eq_some.mp h)

/-! ### Putting a function into a slot -/

/-- A slot that was filled anew. -/
theorem function?_setFunction (hf : m.function? id = some f) :
    (m.setFunction id g).function? id = some g := by
  rw [function?_eq_some, setFunction, List.getElem?_modify_eq, function?_eq_some.mp hf]
  rfl

/-- The other slots stay as they are. -/
theorem function?_setFunction_ne (h : id' ≠ id) :
    (m.setFunction id g).function? id' = m.function? id' := by
  rw [function?, function?, setFunction,
    List.getElem?_modify_ne _ _ fun heq => h (ArenaId.index_inj heq).symm]

/-- Filling a slot anew changes no number of slots. -/
theorem length_setFunction : (m.setFunction id g).functions.length = m.functions.length :=
  List.length_modify ..

/-- What is put in a slot last stays there. -/
theorem setFunction_setFunction : (m.setFunction id g).setFunction id g' = m.setFunction id g' := by
  rw [setFunction, setFunction, setFunction, List.modify_modify_eq]
  congr 2
  funext slot
  cases slot <;> rfl

/-- Putting the image of a function into its slot. -/
theorem setFunction_eq (hf : m.function? id = some f) (k : Function → Function) :
    m.setFunction id (k f) = { m with functions := m.functions.modify id.index (·.map k) } := by
  have hmodify : m.functions.modify id.index (·.map fun _ => k f) =
      m.functions.modify id.index (·.map k) := by
    refine modify_congr fun slot hslot => ?_
    obtain rfl := Option.some.inj ((function?_eq_some.mp hf).symm.trans hslot)
    rfl
  rw [setFunction, hmodify]

/-- Putting a function where it is changes nothing. -/
theorem setFunction_self (hf : m.function? id = some f) : m.setFunction id f = m := by
  have hmap : (fun slot : Option Function => slot.map fun g => g) = fun slot => slot :=
    funext fun _ => Option.map_id'
  rw [setFunction_eq hf fun g => g, hmap]
  exact congrArg (fun slots => { m with functions := slots }) (List.modify_id ..)

/-- The functions after a slot was filled anew. -/
theorem mem_functions_setFunction (h : some f ∈ (m.setFunction id g).functions) :
    f = g ∨ some f ∈ m.functions := by
  obtain ⟨i, hi⟩ := List.mem_iff_getElem?.mp h
  rw [setFunction] at hi
  by_cases hid : id.index = i
  · subst hid
    rw [List.getElem?_modify_eq] at hi
    cases hslot : m.functions[id.index]? with
    | none => simp [hslot] at hi
    | some slot => cases slot <;> simp_all
  · rw [List.getElem?_modify_ne _ _ hid] at hi
    exact .inr (List.mem_of_getElem? hi)

/-! ### The listed identifiers -/

/-- The functions that a module lists are those in its slots. -/
theorem mem_liveFunctions :
    (id, f) ∈ m.liveFunctions ↔
      ∃ i : Nat, m.functions[i]? = some (some f) ∧ ArenaId.ofIndex i = id := by
  simp only [liveFunctions, List.mem_filterMap, Prod.exists, List.mem_zipIdx_iff_getElem?,
    Option.map_eq_some_iff, Prod.mk.injEq]
  constructor
  · rintro ⟨_, i, hi, _, rfl, hid, rfl⟩
    exact ⟨i, hi, hid⟩
  · rintro ⟨i, hi, hid⟩
    exact ⟨some f, i, hi, f, rfl, hid, rfl⟩

/-- A function that can be looked up is listed. -/
theorem mem_functionIds (h : m.function? id = some f) : id ∈ m.functionIds :=
  List.mem_map.mpr ⟨(id, f), mem_liveFunctions.mpr ⟨id.index, function?_eq_some.mp h,
    ArenaId.ofIndex_index id⟩, rfl⟩

/-- As long as every slot has its own identifier, the functions that are listed can be looked
up. -/
theorem mem_functionIds_iff (h : m.functions.length ≤ 2 ^ 32) :
    id ∈ m.functionIds ↔ ∃ f, m.function? id = some f := by
  refine ⟨fun hid => ?_, fun ⟨f, hf⟩ => mem_functionIds hf⟩
  obtain ⟨⟨_, f⟩, hmem, rfl⟩ := List.mem_map.mp hid
  obtain ⟨i, hi, rfl⟩ := mem_liveFunctions.mp hmem
  have hlt := (List.getElem?_eq_some_iff.mp hi).1
  refine ⟨f, function?_eq_some.mpr ?_⟩
  rw [ArenaId.index_ofIndex (Nat.lt_of_lt_of_le hlt h), hi]

/-- As long as every slot has its own identifier, none is listed twice. -/
theorem nodup_functionIds (h : m.functions.length ≤ 2 ^ 32) : m.functionIds.Nodup := by
  have hslots : m.functions.zipIdx.Pairwise fun x y => x.2 ≠ y.2 := by
    rw [← List.pairwise_map, List.zipIdx_map_snd]
    exact List.nodup_range'
  rw [functionIds, liveFunctions, List.map_filterMap, List.Nodup, List.pairwise_filterMap]
  refine hslots.imp_of_mem fun {x y} hx hy hne id hid id' hid' heq => hne ?_
  have hindex : ∀ {z : Option Function × Nat}, z ∈ m.functions.zipIdx → ∀ {a : FunctionId},
      ((z.1.map fun f => (ArenaId.ofIndex z.2, f)).map Prod.fst : Option FunctionId) = some a →
        a.index = z.2 := by
    intro z hz a ha
    obtain ⟨_, -, rfl⟩ := Option.map_eq_some_iff.mp (Option.map_map .. ▸ ha)
    exact ArenaId.index_ofIndex (Nat.lt_of_lt_of_le (List.snd_lt_of_mem_zipIdx hz) h)
  rw [← hindex hx hid, ← hindex hy hid', heq]

/-! ### The check -/

/-- All functions of the module are well-formed. -/
def WellFormed (m : Module) : Prop :=
  ∀ f, some f ∈ m.functions → f.WellFormed

/-- **What the check accepts**: the modules all of whose functions are well-formed. -/
theorem validate_eq_ok_iff : m.validate = .ok () ↔ m.WellFormed := by
  rw [validate, forM_eq_ok_iff]
  simp only [WellFormed, Prod.forall, mem_liveFunctions, Function.validate_eq_ok_iff]
  constructor
  · intro h f hf
    obtain ⟨i, hi⟩ := List.mem_iff_getElem?.mp hf
    exact h _ f ⟨i, hi, rfl⟩
  · rintro h _ f ⟨i, hi, -⟩
    exact h f (List.mem_of_getElem? hi)

/-- A module stays well-formed when a well-formed function is put in a slot. -/
theorem WellFormed.setFunction (h : m.WellFormed) (hg : g.WellFormed) :
    (m.setFunction id g).WellFormed := by
  intro f hf
  rcases mem_functions_setFunction hf with rfl | hf
  · exact hg
  · exact h f hf

end Module

end Lockstep
