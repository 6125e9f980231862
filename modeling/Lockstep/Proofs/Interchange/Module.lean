import Lockstep.Interchange.Module
import Lockstep.Proofs.Interchange.Instruction
import Lockstep.Proofs.Json.Nesting

/-!
# Modules are given back

The laws of the codecs of functions, global variables, metadata and modules, and what they say
about files. A module is kept as the text of its form, and the text of a form denotes the form,
so a module comes back from its file unless more brackets are open inside each other than a
reader allows. No module that came from a file is that deep: its own text never nests deeper than
the one it was read from, whatever spelling that one uses.

## Main results

* `Module.load_save`: a module comes back from its own text if and only if the text does not nest
  too deep, and it always does if it came from a text before.
-/

namespace Lockstep

open Codec Json LawfulCodec

/-! ### Functions -/

instance : LawfulCodec Linkage :=
  lawfulCodec_enumeration fun linkage => by cases linkage <;> rfl

instance : LawfulCodec Block where
  plain b := ⟨plain b.id, plain b.name, plain b.instructions, trivial⟩
  decode?_encode {b room} h := by
    obtain ⟨room, rfl, hfields⟩ := depth_obj_le_iff.mp h
    simp only [depthMembers, Nat.max_le] at hfields
    apply bind_fields?_obj <;> simp -implicitDefEqProofs [decode?_encode, hfields]
  depth_le form := by
    refine .record fun _ hs => .field hs fun id _ => .field hs fun name _ =>
      .field hs fun instructions _ => .pure (depth_obj_le_of_lt ?_)
    simp only [depthMembers]
    omega

instance : LawfulCodec Parameter where
  plain p := ⟨plain p.name, plain p.ty, trivial⟩
  decode?_encode {p room} h := by
    obtain ⟨room, rfl, hfields⟩ := depth_obj_le_iff.mp h
    simp only [depthMembers, Nat.max_le] at hfields
    apply bind_fields?_obj <;> simp -implicitDefEqProofs [decode?_encode, hfields]
  depth_le form := by
    refine .record fun _ hs => .field hs fun name _ => .field hs fun ty _ =>
      .pure (depth_obj_le_of_lt ?_)
    simp only [depthMembers]
    omega

instance : LawfulCodec Function where
  plain f := ⟨plain f.name, plain f.returnType, plain f.parameters, plain f.linkage,
    plain f.variadic, plain f.blocks, plain f.layout, trivial⟩
  decode?_encode {f room} h := by
    obtain ⟨room, rfl, hfields⟩ := depth_obj_le_iff.mp h
    simp only [depthMembers, Nat.max_le] at hfields
    apply bind_fields?_obj <;> simp -implicitDefEqProofs [decode?_encode, hfields]
  depth_le form := by
    refine .record fun _ hs => .field hs fun name _ => .field hs fun returnType _ =>
      .field hs fun parameters _ => .field hs fun linkage _ => .field hs fun variadic _ =>
      .field hs fun blocks _ => .field hs fun layout _ => .pure (depth_obj_le_of_lt ?_)
    simp only [depthMembers]
    omega

instance : SolidCodec Function where
  encode_ne_null _ := Json.noConfusion

/-! ### Global variables and metadata -/

instance : LawfulCodec GlobalVar where
  plain g := ⟨plain g.name, plain g.valueType, plain g.space, plain g.isConstant,
    plain g.initializer, plain g.linkage, trivial⟩
  decode?_encode {g room} h := by
    obtain ⟨room, rfl, hfields⟩ := depth_obj_le_iff.mp h
    simp only [depthMembers, Nat.max_le] at hfields
    apply bind_fields?_obj <;> simp -implicitDefEqProofs [decode?_encode, hfields]
  depth_le form := by
    refine .record fun _ hs => .field hs fun name _ => .field hs fun valueType _ =>
      .field hs fun space _ => .field hs fun isConstant _ => .optional hs fun initializer _ =>
      .field hs fun linkage _ => .pure (depth_obj_le_of_lt ?_)
    simp only [depthMembers]
    omega

instance : LawfulCodec MetadataOperand where
  plain operand := by
    cases operand with
    | function id => exact ⟨plain id, trivial⟩
    | int value => exact ⟨plain value, trivial⟩
    | string text => exact ⟨plain text, trivial⟩
    | null => trivial
  decode?_encode {operand room} h := by
    cases operand with
    | null => rfl
    | _ =>
        obtain ⟨room, rfl, hpayload⟩ := depth_tagged_le_iff.mp h
        apply bind_variant?_tagged
        simp -implicitDefEqProofs [decode?_encode, hpayload]
  depth_le form := by
    refine .variant fun tag htag => ?_
    split
    case h_4 => exact .bare (Nat.zero_le _)
    case h_5 => exact .fail
    all_goals exact .decode fun payload hpayload => .pure (depth_tagged_le (htag _ rfl) hpayload)

instance : LawfulCodec MetadataNode where
  plain node := ⟨plain node.operands, trivial⟩
  decode?_encode {node room} h := by
    obtain ⟨room, rfl, hfields⟩ := depth_obj_le_iff.mp h
    simp only [depthMembers, Nat.max_le] at hfields
    apply bind_fields?_obj <;> simp -implicitDefEqProofs [decode?_encode, hfields]
  depth_le form := by
    refine .record fun _ hs => .field hs fun operands _ => .pure (depth_obj_le_of_lt ?_)
    simp only [depthMembers]
    omega

instance : LawfulCodec MetadataTable where
  plain table := ⟨plain table.name, plain table.nodes, trivial⟩
  decode?_encode {table room} h := by
    obtain ⟨room, rfl, hfields⟩ := depth_obj_le_iff.mp h
    simp only [depthMembers, Nat.max_le] at hfields
    apply bind_fields?_obj <;> simp -implicitDefEqProofs [decode?_encode, hfields]
  depth_le form := by
    refine .record fun _ hs => .field hs fun name _ => .field hs fun nodes _ =>
      .pure (depth_obj_le_of_lt ?_)
    simp only [depthMembers]
    omega

/-! ### Modules -/

instance : LawfulCodec Module where
  plain m := ⟨plain m.name, plain m.functions, plain m.globals, plain m.metadata, trivial⟩
  decode?_encode {m room} h := by
    obtain ⟨room, rfl, hfields⟩ := depth_obj_le_iff.mp h
    simp only [depthMembers, Nat.max_le] at hfields
    apply bind_fields?_obj <;> simp -implicitDefEqProofs [decode?_encode, hfields]
  depth_le form := by
    refine .record fun _ hs => .field hs fun name _ => .field hs fun functions _ =>
      .field hs fun globals _ => .field hs fun metadata _ => .pure (depth_obj_le_of_lt ?_)
    simp only [depthMembers]
    omega

namespace Module

variable {m : Module} {text : String}

/-- What is loaded is what can be read in the room that there is. -/
theorem load_eq_ok_iff : load text = .ok m ↔
    ∃ json, parse? text = some json ∧ decode? ⟨json, maxDepth⟩ = some m := by
  rw [← Option.bind_eq_some_iff, load]
  split
  · rename_i hread
    rw [hread, Except.ok.injEq, Option.some.injEq]
  · rename_i hread
    simp [hread]

/-- A text that was saved is read as the form of the module. -/
theorem parse?_save (m : Module) : parse? m.save = some (encode m) :=
  parse?_pretty (plain m)

/-- A text that was saved is nested as deep as the form of the module. -/
theorem nesting_save (m : Module) : nesting m.save = (encode m).depth :=
  nesting_pretty (plain m)

/-- A module whose text is not too deep is given back. -/
theorem load_eq_ok_of_nesting (h : nesting m.save ≤ maxDepth) : load m.save = .ok m := by
  rw [nesting_save] at h
  exact load_eq_ok_iff.mpr ⟨encode m, parse?_save m, decode?_encode h⟩

/-- A module that was read from some text has a text that is not too deep. -/
theorem nesting_le_of_load (h : load text = .ok m) : nesting m.save ≤ maxDepth := by
  obtain ⟨json, -, hread⟩ := load_eq_ok_iff.mp h
  rw [nesting_save]
  exact depth_le ⟨json, maxDepth⟩ m hread

/-- **Saving and loading.** Loading the text of a module gives the module back if and only if at
most 127 brackets of the text are open inside each other. This is so for every module that was
read from any text, however that text spells it. -/
theorem load_save (m : Module) :
    (load m.save = .ok m ↔ nesting m.save ≤ 127) ∧
      ∀ text, load text = .ok m → load m.save = .ok m :=
  ⟨⟨nesting_le_of_load, load_eq_ok_of_nesting⟩,
    fun _ h => load_eq_ok_of_nesting (nesting_le_of_load h)⟩

/-- A module with an erased function and a global variable. -/
def sample : Module where
  name := "k\"1"
  functions := [none]
  globals := [⟨"g", .array 4 (.ptr .i32 (.numbered 5)), .device, false, some .null, .internal⟩]

/-- Another spelling of the module: its members come in another order and one is unknown, the
global variable is an array of its fields, and bare names carry null. -/
def respelled : String :=
  "\x7b\"globals\": [[\"\\u0067\", \x7b\"Array\": \x7b\"element_type\": " ++
    "\x7b\"Ptr\": [\x7b\"I32\": null\x7d, \x7b\"Other\": 5\x7d]\x7d, \"size\": 4\x7d\x7d, " ++
    "\"Global\", false, \x7b\"Null\": null\x7d, \"Internal\"]], " ++
    "\"rest\": [1e5], \"named_metadata\": [], \"functions\": [null], \"name\": \"k\\\"1\"\x7d"

/-- A module is loaded from its own text, and also from one that is spelled in another way. -/
theorem load_save_respelled :
    nesting sample.save ≤ 127 ∧ load respelled = .ok sample ∧ load sample.save = .ok sample := by
  have hload : load respelled = .ok sample := by decide +kernel
  exact ⟨(load_save sample).1.mp ((load_save sample).2 respelled hload), hload,
    (load_save sample).2 respelled hload⟩

end Module

end Lockstep
