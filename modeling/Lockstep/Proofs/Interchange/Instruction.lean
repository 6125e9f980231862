import Lockstep.Interchange.Instruction
import Lockstep.Proofs.Interchange.Ty

/-!
# Values and instructions are given back

The laws of the codecs of values and instructions. Most instructions carry a record; returning
null and returning nothing are told apart because no value is written as null.

## Main results

* `Instruction.ofForm?_toJson`: an instruction is read back from its form if the room suffices.
* `Instruction.depth_toJson_le`: whatever form an instruction was read from, its own is not
  deeper.
-/

namespace Lockstep

open Codec Json LawfulCodec

variable {room : Nat}

/-! ### Values -/

instance : LawfulCodec Value where
  plain value := by
    cases value with
    | temp id => exact ⟨plain id, trivial⟩
    | param position => exact ⟨plain position, trivial⟩
    | constant value => exact ⟨plain value, trivial⟩
    | global id => exact ⟨plain id, trivial⟩
    | function id => exact ⟨plain id, trivial⟩
    | constantArray values => exact ⟨plain values, trivial⟩
    | null => trivial
    | undef => trivial
  decode?_encode {value room} h := by
    cases value with
    | null => rfl
    | undef => rfl
    | _ =>
        obtain ⟨room, rfl, hpayload⟩ := depth_tagged_le_iff.mp h
        apply bind_variant?_tagged
        simp -implicitDefEqProofs [decode?_encode, hpayload]
  depth_le form := by
    refine .variant fun tag htag => ?_
    split
    case h_7 => exact .bare (Nat.zero_le _)
    case h_8 => exact .bare (Nat.zero_le _)
    case h_9 => exact .fail
    all_goals exact .decode fun payload hpayload => .pure (depth_tagged_le (htag _ rfl) hpayload)

instance : SolidCodec Value where
  encode_ne_null value := by cases value <;> exact Json.noConfusion

/-! ### Instructions -/

namespace Instruction

/-- The form of an instruction holds nothing garbled. -/
theorem plain_toJson (i : Instruction) : i.toJson.Plain := by
  cases i <;> simp [toJson, tagged, Plain, PlainMembers, plain]

/-- An instruction is read back from its form. All but four carry a record. -/
theorem ofForm?_toJson {i : Instruction} (h : i.toJson.depth ≤ room) :
    ofForm? ⟨i.toJson, room⟩ = some i := by
  cases i with
  | barrier => rfl
  | unreachable => rfl
  | ret value =>
      obtain ⟨room, rfl, hvalue⟩ := depth_tagged_le_iff.mp h
      simp -implicitDefEqProofs [ofForm?, toJson, decode?_encode, hvalue]
  | branch target =>
      obtain ⟨room, rfl, htarget⟩ := depth_tagged_le_iff.mp h
      simp -implicitDefEqProofs [ofForm?, toJson, decode?_encode, htarget]
  | _ =>
      obtain ⟨room, rfl, hfields⟩ := depth_tagged_obj_le_iff.mp h
      simp only [depthMembers, Nat.max_le] at hfields
      simp -implicitDefEqProofs [ofForm?, toJson, decode?_encode, hfields]

/-- Whatever form an instruction was read from, its own is not deeper. Most carry a record, whose
fields are two brackets further in. -/
theorem depth_toJson_le (form : Form) :
    Reads (ofForm? form) fun i => i.toJson.depth ≤ form.room := by
  refine .variant fun tag htag => ?_
  split
  case' h_1 =>
    refine .record fun _ hs => .field hs fun result _ => .field hs fun op _ =>
      .field hs fun lhs _ => .field hs fun rhs _ => .field hs fun ty _ => .pure ?_
  case' h_2 =>
    refine .record fun _ hs => .field hs fun result _ => .field hs fun op _ =>
      .field hs fun lhs _ => .field hs fun rhs _ => .pure ?_
  case' h_3 =>
    refine .record fun _ hs => .field hs fun result _ => .field hs fun ptr _ =>
      .field hs fun ty _ => .pure ?_
  case' h_4 =>
    refine .record fun _ hs => .field hs fun value _ => .field hs fun ptr _ => .pure ?_
  case' h_5 =>
    refine .record fun _ hs => .field hs fun result _ => .field hs fun ptr _ =>
      .field hs fun indices _ => .field hs fun ty _ => .pure ?_
  case' h_6 =>
    refine .record fun _ hs => .field hs fun result _ => .field hs fun allocated _ =>
      .field hs fun ty _ => .pure ?_
  case' h_7 =>
    refine .record fun _ hs => .optional hs fun result _ => .field hs fun callee _ =>
      .field hs fun args _ => .field hs fun ty _ => .pure ?_
  case' h_8 =>
    refine .record fun _ hs => .field hs fun result _ => .field hs fun op _ =>
      .field hs fun value _ => .field hs fun target _ => .pure ?_
  case' h_9 =>
    refine .record fun _ hs => .field hs fun result _ => .field hs fun condition _ =>
      .field hs fun ifTrue _ => .field hs fun ifFalse _ => .field hs fun ty _ => .pure ?_
  case' h_10 =>
    refine .record fun _ hs => .field hs fun result _ => .field hs fun incoming _ =>
      .field hs fun ty _ => .pure ?_
  case h_11 => exact .bare (Nat.zero_le _)
  case h_12 => exact .decode fun value hvalue => .pure (depth_tagged_le (htag _ rfl) hvalue)
  case h_13 => exact .decode fun target htarget => .pure (depth_tagged_le (htag _ rfl) htarget)
  case' h_14 =>
    refine .record fun _ hs => .field hs fun condition _ => .field hs fun ifTrue _ =>
      .field hs fun ifFalse _ => .pure ?_
  case h_15 => exact .bare (Nat.zero_le _)
  case h_16 => exact .fail
  all_goals
    have hroom := htag _ rfl
    simp only [toJson, tagged, depth, depthMembers]
    omega

end Instruction

instance : LawfulCodec Instruction where
  plain := Instruction.plain_toJson
  decode?_encode := Instruction.ofForm?_toJson
  depth_le := Instruction.depth_toJson_le

end Lockstep
