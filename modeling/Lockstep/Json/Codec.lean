import Lockstep.Json.Basic

/-!
# Values in JSON form

A `Codec` gives a type its JSON form. Records are objects with a member for each field. When
they are read, the members may come in any order, unknown ones are skipped, none may come twice,
and an optional field may be missing; an array of all fields in order is a record too.
Alternatives are objects with one member, named for the alternative; one that carries nothing is
its bare name, and may also be read with the value null.

A form may only be so deep. The bound counts the brackets that are open around what is read;
what is skipped may be as deep as it likes, and may be garbled.
-/

namespace Lockstep

/-- A JSON value to be read, and how many brackets it may open inside each other. -/
structure Form where
  json : Json
  room : Nat

namespace Form

/-- The items of an array. -/
def items? : Form → Option (List Form)
  | ⟨.arr items, room + 1⟩ => some (items.map fun item => ⟨item, room⟩)
  | _ => none

/-- The members of an object. -/
def members? : Form → Option (List (String × Form))
  | ⟨.obj members, room + 1⟩ => some (members.map fun (name, value) => (name, ⟨value, room⟩))
  | _ => none

end Form

/-- A type with a JSON form. -/
class Codec (α : Type) where
  encode : α → Json
  /-- The value of a JSON form, if it is one. -/
  decode? : Form → Option α

namespace Codec

/-! ### Plain values -/

instance : Codec String where
  encode s := .str s
  decode?
    | ⟨.str s, _⟩ => some s
    | _ => none

instance : Codec Bool where
  encode b := .bool b
  decode?
    | ⟨.bool b, _⟩ => some b
    | _ => none

/-- The natural number of an integer below a bound. -/
def natBelow? (bound : Nat) : Form → Option Nat
  | ⟨.int n, _⟩ => if 0 ≤ n ∧ n < bound then some n.toNat else none
  | _ => none

instance : Codec UInt32 where
  encode n := .int n.toNat
  decode? form := (natBelow? UInt32.size form).map Nat.toUInt32

instance : Codec UInt64 where
  encode n := .int n.toNat
  decode? form := (natBelow? UInt64.size form).map Nat.toUInt64

instance : Codec Int64 where
  encode n := .int n.toInt
  decode?
    | ⟨.int n, _⟩ =>
        if Int64.minValue.toInt ≤ n ∧ n ≤ Int64.maxValue.toInt then some (Int64.ofInt n) else none
    | _ => none

instance {α : Type} [Codec α] : Codec (Option α) where
  encode
    | none => .null
    | some a => encode a
  decode?
    | ⟨.null, _⟩ => some none
    | form => (decode? form).map some

/-- The values of an array whose items are read by `read?`. -/
def list? {α : Type} (read? : Form → Option α) (form : Form) : Option (List α) := do
  (← form.items?).mapM read?

instance {α : Type} [Codec α] : Codec (List α) where
  encode as := .arr (as.map encode)
  decode? := list? decode?

instance {α β : Type} [Codec α] [Codec β] : Codec (α × β) where
  encode p := .arr [encode p.1, encode p.2]
  decode? form := do
    match ← form.items? with
    | [a, b] => return (← decode? a, ← decode? b)
    | _ => none

/-! ### Records -/

/-- The fields that a record gives, by name. -/
abbrev Fields := List (String × Form)

/-- The fields of a record that has the fields `names`. -/
def fields? (names : List String) (form : Form) : Option Fields :=
  match form.items?, form.members? with
  | some items, _ => if items.length = names.length then some (names.zip items) else none
  | none, some members =>
      let known := members.filter fun (name, _) => names.contains name
      if (known.map Prod.fst).Nodup then some known else none
  | none, none => none

/-- The value of a field. -/
def field? {α : Type} [Codec α] (fields : Fields) (name : String) : Option α :=
  (fields.lookup name).bind decode?

/-- The value of a field that may be missing. -/
def optional? {α : Type} [Codec α] (fields : Fields) (name : String) : Option (Option α) :=
  match fields.lookup name with
  | none => some none
  | some form => decode? form

/-! ### Alternatives -/

/-- The name of an alternative, and what it carries. -/
def variant? (form : Form) : Option (String × Option Form) :=
  match form.json, form.members? with
  | .str name, _ => some (name, none)
  | _, some [(name, payload)] => some (name, some payload)
  | _, _ => none

/-- Does an alternative carry nothing? -/
def isBare : Option Form → Bool
  | none | some ⟨.null, _⟩ => true
  | _ => false

/-- An alternative with what it carries. -/
def tagged (name : String) (payload : Json) : Json :=
  .obj [(name, payload)]

/-- The JSON form of a type whose values are the alternatives `all` that carry nothing. -/
@[reducible]
def enumeration {α : Type} (all : List α) (name : α → String) : Codec α where
  encode a := .str (name a)
  decode? form := do
    let (tag, payload) ← variant? form
    if isBare payload then all.find? fun a => name a == tag else none

end Codec

end Lockstep
