import Lockstep.Interchange.Ty
import Lockstep.Proofs.Json.Codec

/-!
# Types and operators are given back

The laws of the codecs of identifiers, operators, memories and types. A type is read with a
budget for the types inside each other, which is the room of its form. Each level of types opens
two brackets, so the room always runs out first.

## Main results

* `Ty.ofForm?_toJson`: a type is read back from its form if budget and room suffice.
* `Ty.depth_toJson_le`: whatever form a type was read from, its own is not deeper.
-/

namespace Lockstep

open Codec Json LawfulCodec

variable {budget room : Nat} {form : Form}

/-! ### Identifiers and operators -/

instance {a : Arena} : LawfulCodec (ArenaId a) where
  plain _ := trivial
  decode?_encode {id room} h := by
    have hval : decode? ⟨encode id.val, room⟩ = some id.val := decode?_encode h
    change (decode? ⟨encode id.val, room⟩).map ArenaId.mk = some id
    rw [hval, Option.map_some]
  depth_le _ _ _ := Nat.zero_le _

instance : LawfulCodec BinaryOp :=
  lawfulCodec_enumeration fun op => by cases op <;> rfl

instance : LawfulCodec Comparison :=
  lawfulCodec_enumeration fun op => by cases op <;> rfl

instance : LawfulCodec CastOp :=
  lawfulCodec_enumeration fun op => by cases op <;> rfl

instance : LawfulCodec AddressSpace where
  plain space := by
    cases space with
    | numbered n => exact ⟨plain n, trivial⟩
    | _ => trivial
  decode?_encode {space room} h := by
    cases space with
    | numbered n =>
        obtain ⟨room, rfl, hn⟩ := depth_tagged_le_iff.mp h
        exact Option.bind_eq_some_iff.mpr
          ⟨_, variant?_tagged, Option.bind_eq_some_iff.mpr ⟨n, decode?_encode hn, rfl⟩⟩
    | _ => rfl
  depth_le form := by
    refine .variant fun tag htag => ?_
    split
    · exact .decode fun n hn => .pure (depth_tagged_le (htag _ rfl) hn)
    · exact .bare (Nat.zero_le _)
    · exact .bare (Nat.zero_le _)
    · exact .bare (Nat.zero_le _)
    · exact .bare (Nat.zero_le _)
    · exact .fail

/-! ### Types -/

namespace Ty

/-- The forms of some types are those of each of them. -/
theorem toJsons_eq_map (tys : List Ty) : toJsons tys = tys.map toJson := by
  induction tys with
  | nil => rfl
  | cons ty tys ih => rw [toJsons, ih, List.map_cons]

mutual

/-- The form of a type can be written and read. -/
theorem plain_toJson : ∀ ty : Ty, ty.toJson.Plain
  | .void | .i1 | .i8 | .i16 | .i32 | .i64 | .f32 | .f64 | .label => trivial
  | .ptr pointee space => ⟨⟨plain_toJson pointee, plain space, trivial⟩, trivial⟩
  | .array size element => ⟨⟨plain size, plain_toJson element, trivial⟩, trivial⟩
  | .vector size element => ⟨⟨plain size, plain_toJson element, trivial⟩, trivial⟩
  | .function result params variadic =>
      ⟨⟨plain_toJson result, plain_toJsons params, plain variadic, trivial⟩, trivial⟩
  | .struct name fields packed =>
      ⟨⟨plain name, plain_toJsons fields, plain packed, trivial⟩, trivial⟩

/-- The forms of some types hold nothing garbled. -/
theorem plain_toJsons : ∀ tys : List Ty, PlainItems (toJsons tys)
  | [] => trivial
  | ty :: rest => ⟨plain_toJson ty, plain_toJsons rest⟩

end

/-- One level of types is two levels of brackets, so the budget lasts as long as the room. -/
theorem exists_budget {name : String} {members : List (String × Json)}
    (h : (tagged name (.obj members)).depth ≤ budget) :
    ∃ b, budget = b + 1 ∧ depthMembers members ≤ b := by
  obtain ⟨b, rfl, hmembers⟩ := depth_tagged_obj_le_iff.mp h
  exact ⟨b + 1, rfl, Nat.le_succ_of_le hmembers⟩

mutual

/-- A type is read back from its form. The steps of the simplifier are recorded, since replaying
them by computation would count up to the bounds of words. -/
theorem ofForm?_toJson : ∀ (ty : Ty) {budget room : Nat}, ty.toJson.depth ≤ budget →
    ty.toJson.depth ≤ room → ofForm? budget ⟨ty.toJson, room⟩ = some ty
  | .void, budget, _, _, _ | .i1, budget, _, _, _ | .i8, budget, _, _, _ | .i16, budget, _, _, _
  | .i32, budget, _, _, _ | .i64, budget, _, _, _ | .f32, budget, _, _, _ | .f64, budget, _, _, _
  | .label, budget, _, _, _ => by cases budget <;> rfl
  | .ptr pointee space, budget, room, hbudget, hroom => by
      obtain ⟨budget, rfl, hsmall⟩ := exists_budget hbudget
      obtain ⟨room, rfl, hfields⟩ := depth_tagged_obj_le_iff.mp hroom
      simp only [depthMembers, Nat.max_le] at hsmall hfields
      have hpointee := ofForm?_toJson pointee hsmall.1 hfields.1
      simp -implicitDefEqProofs [ofForm?, toJson, hpointee, decode?_encode, hfields]
  | .array size element, budget, room, hbudget, hroom
  | .vector size element, budget, room, hbudget, hroom => by
      obtain ⟨budget, rfl, hsmall⟩ := exists_budget hbudget
      obtain ⟨room, rfl, hfields⟩ := depth_tagged_obj_le_iff.mp hroom
      simp only [depthMembers, Nat.max_le] at hsmall hfields
      have helement := ofForm?_toJson element hsmall.2.1 hfields.2.1
      simp -implicitDefEqProofs [ofForm?, toJson, helement, decode?_encode, hfields,
        List.lookup_cons]
  | .function result params variadic, budget, room, hbudget, hroom => by
      obtain ⟨budget, rfl, hsmall⟩ := exists_budget hbudget
      obtain ⟨room, rfl, hfields⟩ := depth_tagged_obj_le_iff.mp hroom
      simp only [depthMembers, Nat.max_le] at hsmall hfields
      have hresult := ofForm?_toJson result hsmall.1 hfields.1
      have hparams := list?_toJsons params hsmall.2.1 hfields.2.1
      simp -implicitDefEqProofs [ofForm?, toJson, hresult, hparams, decode?_encode, hfields,
        List.lookup_cons]
  | .struct name fields packed, budget, room, hbudget, hroom => by
      obtain ⟨budget, rfl, hsmall⟩ := exists_budget hbudget
      obtain ⟨room, rfl, hfields⟩ := depth_tagged_obj_le_iff.mp hroom
      simp only [depthMembers, Nat.max_le] at hsmall hfields
      have hinner := list?_toJsons fields hsmall.2.1 hfields.2.1
      simp -implicitDefEqProofs [ofForm?, toJson, hinner, decode?_encode, hfields,
        List.lookup_cons]

/-- A list of types is read from its form. -/
theorem list?_toJsons (tys : List Ty) {budget room : Nat}
    (hbudget : (arr (toJsons tys)).depth ≤ budget) (hroom : (arr (toJsons tys)).depth ≤ room) :
    list? (ofForm? budget) ⟨.arr (toJsons tys), room⟩ = some tys := by
  obtain ⟨room, rfl, hitems⟩ := depth_arr_le_iff.mp hroom
  rw [depth] at hbudget
  rw [toJsons_eq_map]
  exact list?_arr (ofForm?_toJsons tys (by omega) hitems)

/-- Each of some types is read from its form. -/
theorem ofForm?_toJsons : ∀ (tys : List Ty) {budget room : Nat},
    depthItems (toJsons tys) ≤ budget → depthItems (toJsons tys) ≤ room →
    ∀ ty ∈ tys, ofForm? budget ⟨ty.toJson, room⟩ = some ty
  | [], _, _, _, _ => by simp
  | ty :: rest, budget, room, hbudget, hroom => by
      rw [toJsons, depthItems, Nat.max_le] at hbudget hroom
      exact List.forall_mem_cons.mpr ⟨ofForm?_toJson ty hbudget.1 hroom.1,
        ofForm?_toJsons rest hbudget.2 hroom.2⟩

end

/-- A type that is written as a word has no depth. -/
theorem depth_bareTypes (name : String) :
    Reads (bareTypes.lookup name) fun ty => ty.toJson.depth = 0 := by
  intro ty h
  obtain ⟨before, after, hsplit, -⟩ := List.lookup_eq_some_iff.mp h
  have hmem : (name, ty) ∈ bareTypes := by
    rw [hsplit]
    simp
  have hall : ∀ bare ∈ bareTypes, bare.2.toJson.depth = 0 := by
    simp [bareTypes, toJson, depth]
  exact hall _ hmem

/-- A type that is read from a word fits into any room. -/
theorem depth_bare_le {name : String} {payload : Option Form} :
    Reads (if isBare payload then bareTypes.lookup name else none) fun ty =>
      ty.toJson.depth ≤ room := by
  intro ty h
  split_ifs at h
  rw [depth_bareTypes name ty h]
  exact Nat.zero_le room

/-- Whatever form a type was read from, its own is not deeper. -/
theorem depth_toJson_le (budget : Nat) :
    ∀ form, Reads (ofForm? budget form) fun ty => ty.toJson.depth ≤ form.room := by
  induction budget with
  | zero => exact fun form => .variant fun tag _ => depth_bare_le
  | succ budget ih =>
      intro form
      have hlist : ∀ form, Reads (list? (ofForm? budget) form) fun tys =>
          (arr (toJsons tys)).depth ≤ form.room := by
        simpa only [toJsons_eq_map] using depth_list?_le ih
      refine .variant fun tag htag => ?_
      split
      case' h_1 =>
        refine .record fun _ hs => .inner hs ih fun pointee _ => .field hs fun space _ => .pure ?_
      case' h_2 =>
        refine .record fun _ hs => .field hs fun size _ => .inner hs ih fun element _ => .pure ?_
      case' h_3 =>
        refine .record fun _ hs => .field hs fun size _ => .inner hs ih fun element _ => .pure ?_
      case' h_4 =>
        refine .record fun _ hs => .inner hs ih fun result _ =>
          .inner hs hlist fun params hparams => .field hs fun variadic _ => .pure ?_
        rw [depth] at hparams
      case' h_5 =>
        refine .record fun _ hs => .optional hs fun name _ =>
          .inner hs hlist fun fields hfields => .field hs fun packed _ => .pure ?_
        rw [depth] at hfields
      case h_6 => exact depth_bare_le
      all_goals
        have hroom := htag _ rfl
        simp only [toJson, tagged, depth, depthMembers]
        omega

end Ty

instance : LawfulCodec Ty where
  plain := Ty.plain_toJson
  decode?_encode {ty _} h := ty.ofForm?_toJson h h
  depth_le form := Ty.depth_toJson_le form.room form

end Lockstep
