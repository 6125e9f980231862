import Lockstep.Json.Codec
import Lockstep.Proofs.Json.Reader

/-!
# Codecs that give back what they are given

A form may be as deep as its room allows, and a value may be read from forms that are not the
one it is written as: an array instead of an object, members in another order, null behind the
name of an alternative that carries nothing. A codec is lawful if none of this matters: a value
is given back whenever its own form is not too deep, and its own form is never deeper than the
one it was read from. The laws are shown for words, numbers, lists, pairs and values that may be
missing, and the parts of a codec for records and alternatives get one lemma for each direction.

## Main definitions

* `LawfulCodec`: the laws of a codec.
* `Reads`: whatever is read satisfies a predicate. The lemmas follow the steps of a codec, so a
  bound on what is read follows the code that reads it.

## Main results

* `fields?_obj`: a record is read from the object it is written as.
* `Reads.record`, `Reads.field`, `Reads.variant`: each step into a form leaves less room.
-/

namespace Lockstep

open Codec

/-- Whatever is read satisfies the predicate. -/
def Reads {α : Type} (read : Option α) (P : α → Prop) : Prop :=
  ∀ a, read = some a → P a

/-- A codec that gives back every value whose form is not too deep, and that never writes a value
deeper than it was read. -/
class LawfulCodec (α : Type) [Codec α] : Prop where
  plain : ∀ a : α, (encode a).Plain
  decode?_encode : ∀ {a : α} {room : Nat}, (encode a).depth ≤ room →
    decode? ⟨encode a, room⟩ = some a
  depth_le : ∀ form : Form, Reads (decode? form) fun a : α => (encode a).depth ≤ form.room

/-- A codec that writes no value as null, so that null can stand for no value. -/
class SolidCodec (α : Type) [Codec α] : Prop where
  encode_ne_null : ∀ a : α, encode a ≠ .null

/-! ### Depths -/

namespace Json

variable {items : List Json} {members : List (String × Json)} {inner room : Nat}

/-- A bracket takes one from the room. -/
theorem succ_le_iff_exists : inner + 1 ≤ room ↔ ∃ r, room = r + 1 ∧ inner ≤ r := by
  constructor
  · intro h
    exact ⟨room - 1, by omega, by omega⟩
  · rintro ⟨r, rfl, h⟩
    omega

/-- How deep a list is. -/
theorem depth_arr_le_iff :
    (arr items).depth ≤ room ↔ ∃ r, room = r + 1 ∧ depthItems items ≤ r := by
  rw [depth, succ_le_iff_exists]

/-- How deep an object is. -/
theorem depth_obj_le_iff :
    (obj members).depth ≤ room ↔ ∃ r, room = r + 1 ∧ depthMembers members ≤ r := by
  rw [depth, succ_le_iff_exists]

/-- An object is one deeper than its members. -/
theorem depth_obj_le_of_lt (h : depthMembers members < room) : (obj members).depth ≤ room := by
  rw [depth]
  exact h

/-- A list is at least as deep as each of its items. -/
theorem depth_le_depthItems {item : Json} (h : item ∈ items) : item.depth ≤ depthItems items := by
  induction items with
  | nil => contradiction
  | cons first rest ih =>
      rw [depthItems]
      rcases List.mem_cons.mp h with rfl | h
      · exact Nat.le_max_left _ _
      · exact (ih h).trans (Nat.le_max_right _ _)

/-- Items are as deep as the deepest of them. -/
theorem depthItems_le (h : ∀ item ∈ items, item.depth ≤ room) : depthItems items ≤ room := by
  induction items with
  | nil => exact Nat.zero_le _
  | cons first rest ih =>
      rw [depthItems]
      exact Nat.max_le.mpr ⟨h first List.mem_cons_self,
        ih fun item hitem => h item (List.mem_cons_of_mem _ hitem)⟩

/-- Items that are plain are plain together. -/
theorem plainItems_of_forall (h : ∀ item ∈ items, item.Plain) : PlainItems items := by
  induction items with
  | nil => trivial
  | cons first rest ih =>
      exact ⟨h first List.mem_cons_self, ih fun item hitem => h item (List.mem_cons_of_mem _ hitem)⟩

end Json

open Json LawfulCodec SolidCodec

namespace Form

variable {form : Form}

/-- Opening an array takes one bracket. -/
theorem room_of_items? {items : List Form} (h : form.items? = some items) :
    ∃ room, form.room = room + 1 ∧ ∀ item ∈ items, item.room = room := by
  unfold items? at h
  split at h
  · rename_i values room
    obtain rfl := Option.some.inj h
    exact ⟨room, rfl, by simp⟩
  · contradiction

/-- So does opening an object. -/
theorem room_of_members? {members : List (String × Form)} (h : form.members? = some members) :
    ∃ room, form.room = room + 1 ∧ ∀ member ∈ members, member.2.room = room := by
  unfold members? at h
  split at h
  · rename_i values room
    obtain rfl := Option.some.inj h
    refine ⟨room, rfl, fun member hmember => ?_⟩
    obtain ⟨value, -, rfl⟩ := List.mem_map.mp hmember
    rfl
  · contradiction

end Form

variable {α β : Type} {form : Form} {room : Nat}

/-! ### Words and numbers -/

instance : LawfulCodec String where
  plain _ := trivial
  decode?_encode _ := rfl
  depth_le _ _ _ := Nat.zero_le _

instance : SolidCodec String where
  encode_ne_null _ := Json.noConfusion

instance : LawfulCodec Bool where
  plain _ := trivial
  decode?_encode _ := rfl
  depth_le _ _ _ := Nat.zero_le _

/-- A number below the bound is read as it is. -/
theorem natBelow?_int {bound n : Nat} (h : n < bound) :
    natBelow? bound ⟨.int n, room⟩ = some n := by
  simp [natBelow?, h]

instance : LawfulCodec UInt32 where
  plain _ := trivial
  decode?_encode {n room} _ := by
    change (natBelow? UInt32.size ⟨.int n.toNat, room⟩).map Nat.toUInt32 = some n
    rw [natBelow?_int n.toNat_lt_size, Option.map_some]
    exact congrArg some UInt32.ofNat_toNat
  depth_le _ _ _ := Nat.zero_le _

instance : SolidCodec UInt32 where
  encode_ne_null _ := Json.noConfusion

instance : LawfulCodec UInt64 where
  plain _ := trivial
  decode?_encode {n room} _ := by
    change (natBelow? UInt64.size ⟨.int n.toNat, room⟩).map Nat.toUInt64 = some n
    rw [natBelow?_int n.toNat_lt_size, Option.map_some]
    exact congrArg some UInt64.ofNat_toNat
  depth_le _ _ _ := Nat.zero_le _

instance : LawfulCodec Int64 where
  plain _ := trivial
  decode?_encode {n room} _ := by
    change (if Int64.minValue.toInt ≤ n.toInt ∧ n.toInt ≤ Int64.maxValue.toInt then
      some (Int64.ofInt n.toInt) else none) = some n
    rw [if_pos ⟨n.minValue_le_toInt, n.toInt_le⟩, Int64.ofInt_toInt]
  depth_le _ _ _ := Nat.zero_le _

/-- Names that tell the alternatives apart give them back. -/
theorem lawfulCodec_enumeration {all : List α} {name : α → String}
    (h : ∀ a, all.find? (fun b => name b == name a) = some a) :
    @LawfulCodec α (enumeration all name) :=
  @LawfulCodec.mk α (enumeration all name) (fun _ => trivial) (fun {a _} _ => h a)
    (fun _ _ _ => Nat.zero_le _)

/-! ### Values that may be missing -/

/-- What is not `null` is read as something. -/
theorem decode?_option_of_ne_null [Codec α] (h : form.json ≠ .null) :
    (decode? form : Option (Option α)) = (decode? form).map some := by
  obtain ⟨json, room⟩ := form
  cases json with
  | null => exact absurd rfl h
  | _ => rfl

instance [Codec α] [LawfulCodec α] [SolidCodec α] : LawfulCodec (Option α) where
  plain
    | none => trivial
    | some a => plain a
  decode?_encode {o room} h := by
    cases o with
    | none => rfl
    | some a =>
        have hdepth : (encode a).depth ≤ room := h
        have hform : (⟨encode (some a), room⟩ : Form).json ≠ .null := encode_ne_null a
        rw [decode?_option_of_ne_null hform]
        change (decode? ⟨encode a, room⟩).map some = some (some a)
        rw [decode?_encode hdepth, Option.map_some]
  depth_le form o h := by
    cases o with
    | none => exact Nat.zero_le _
    | some a =>
        by_cases hnull : form.json = .null
        · obtain ⟨json, room⟩ := form
          subst hnull
          cases h
        · rw [decode?_option_of_ne_null hnull] at h
          obtain ⟨b, hb, hba⟩ := Option.map_eq_some_iff.mp h
          obtain rfl := Option.some.inj hba
          have hdepth : (encode b).depth ≤ form.room := depth_le form b hb
          exact hdepth

/-! ### Lists and pairs -/

/-- Items that are given back make a list that is. -/
theorem list?_arr {read? : Form → Option α} {write : α → Json} {as : List α}
    (h : ∀ a ∈ as, read? ⟨write a, room⟩ = some a) :
    list? read? ⟨.arr (as.map write), room + 1⟩ = some as := by
  change ((as.map write).map fun item => (⟨item, room⟩ : Form)).mapM read? = some as
  induction as with
  | nil => rfl
  | cons a as ih =>
      rw [List.map_cons, List.map_cons, List.mapM_cons, h a List.mem_cons_self,
        ih fun b hb => h b (List.mem_cons_of_mem _ hb)]
      rfl

/-- What is read from a list was read from one of its items. -/
theorem exists_of_mem_mapM {read : Form → Option α} {forms : List Form} {as : List α} {a : α}
    (h : forms.mapM read = some as) (ha : a ∈ as) : ∃ form ∈ forms, read form = some a := by
  induction forms generalizing as with
  | nil =>
      cases h
      contradiction
  | cons form forms ih =>
      simp only [List.mapM_cons, Option.bind_eq_bind, Option.bind_eq_some_iff, Option.pure_def,
        Option.some.injEq] at h
      obtain ⟨first, hfirst, rest, hrest, rfl⟩ := h
      rcases List.mem_cons.mp ha with rfl | ha
      · exact ⟨form, List.mem_cons_self, hfirst⟩
      · obtain ⟨other, hother, hread⟩ := ih hrest ha
        exact ⟨other, List.mem_cons_of_mem _ hother, hread⟩

/-- A list that was read is written with no more depth than it was read from. -/
theorem depth_list?_le {read? : Form → Option α} {write : α → Json}
    (hread : ∀ form, Reads (read? form) fun a => (write a).depth ≤ form.room) (form : Form) :
    Reads (list? read? form) fun as => (Json.arr (as.map write)).depth ≤ form.room := by
  intro as h
  obtain ⟨forms, hforms, has⟩ := Option.bind_eq_some_iff.mp h
  obtain ⟨room, hroom, hlow⟩ := Form.room_of_items? hforms
  refine depth_arr_le_iff.mpr ⟨room, hroom, depthItems_le fun item hitem => ?_⟩
  obtain ⟨a, ha, rfl⟩ := List.mem_map.mp hitem
  obtain ⟨read, hmem, ha⟩ := exists_of_mem_mapM has ha
  exact hlow read hmem ▸ hread read a ha

instance [Codec α] [LawfulCodec α] : LawfulCodec (List α) where
  plain as := plainItems_of_forall (by simpa using fun a _ => plain a)
  decode?_encode {as room} h := by
    obtain ⟨room, rfl, hitems⟩ := depth_arr_le_iff.mp h
    exact list?_arr fun a ha =>
      decode?_encode ((depth_le_depthItems (List.mem_map_of_mem ha)).trans hitems)
  depth_le := depth_list?_le depth_le

instance [Codec α] [Codec β] [LawfulCodec α] [LawfulCodec β] : LawfulCodec (α × β) where
  plain p := ⟨plain p.1, plain p.2, trivial⟩
  decode?_encode {p room} h := by
    obtain ⟨room, rfl, hitems⟩ := depth_arr_le_iff.mp h
    simp only [depthItems, Nat.max_le] at hitems
    obtain ⟨hfst, hsnd, -⟩ := hitems
    change (do return (← decode? ⟨encode p.1, room⟩, ← decode? ⟨encode p.2, room⟩)) = some p
    rw [decode?_encode hfst, decode?_encode hsnd]
    rfl
  depth_le form p h := by
    obtain ⟨forms, hforms, hread⟩ := Option.bind_eq_some_iff.mp h
    obtain ⟨room, hroom, hlow⟩ := Form.room_of_items? hforms
    split at hread
    · rename_i first second
      simp only [Option.bind_eq_bind, Option.bind_eq_some_iff, Option.pure_def,
        Option.some.injEq] at hread
      obtain ⟨a, ha, b, hb, rfl⟩ := hread
      refine depth_arr_le_iff.mpr ⟨room, hroom, ?_⟩
      have hfirst := hlow first (by simp) ▸ depth_le first a ha
      have hsecond := hlow second (by simp) ▸ depth_le second b hb
      exact Nat.max_le.mpr ⟨hfirst, Nat.max_le.mpr ⟨hsecond, Nat.zero_le room⟩⟩
    · contradiction

/-! ### Reading step by step -/

namespace Reads

variable {P : α → Prop} {a : α} {read : Option β} {f : β → Option α}

/-- A value that is as required. -/
theorem pure (h : P a) : Reads (Pure.pure a) P := by
  rintro _ ⟨⟩
  exact h

/-- What is read in two parts is as required if the second part sees to it. -/
theorem bind {Q : β → Prop} (hread : Reads read Q) (h : ∀ b, Q b → Reads (f b) P) :
    Reads (read >>= f) P := by
  intro a ha
  obtain ⟨b, hb, hf⟩ := Option.bind_eq_some_iff.mp ha
  exact h b (hread b hb) a hf

/-- A variant without a payload. -/
theorem bare {payload : Option Form} (h : P a) :
    Reads (if isBare payload then some a else none) P := by
  intro b hb
  split_ifs at hb
  exact Option.some.inj hb ▸ h

/-- Nothing is read. -/
theorem fail : Reads none P := by
  rintro _ ⟨⟩

/-- A value of another type is read first, which is written with no more depth than it was read
from. -/
theorem decode [Codec β] [LawfulCodec β] (h : ∀ b, (encode b).depth ≤ form.room → Reads (f b) P) :
    Reads (decode? form >>= f) P :=
  (depth_le form).bind h

end Reads

/-! ### Records -/

/-- The fields of a record with some room are one bracket further in. -/
structure Inside (fields : Fields) (room : Nat) : Prop where
  pos : 0 < room
  room_lt : ∀ field ∈ fields, field.2.room < room

section Records

variable {names : List String} {members : List (String × Json)} {fields : Fields}
  {name other : String} {a : α}

/-- An object with all fields in order gives them. -/
@[simp]
theorem fields?_obj (hnames : members.map Prod.fst = names) (hnodup : names.Nodup) :
    fields? names ⟨.obj members, room + 1⟩ =
      some (members.map fun member => (member.1, ⟨member.2, room⟩)) := by
  have hfst : (members.map fun member => (member.1, (⟨member.2, room⟩ : Form))).map Prod.fst =
      names := by
    rw [List.map_map, ← hnames]
    rfl
  have hknown : (members.map fun member => (member.1, (⟨member.2, room⟩ : Form))).filter
      (fun field => names.contains field.1) =
      members.map fun member => (member.1, ⟨member.2, room⟩) := by
    refine List.filter_eq_self.mpr fun field hfield => ?_
    rw [List.contains_iff_mem, ← hfst]
    exact List.mem_map_of_mem hfield
  have hdistinct := hfst ▸ hnodup
  rw [← hknown] at hdistinct
  calc fields? names ⟨.obj members, room + 1⟩ = some ((members.map fun member =>
        (member.1, (⟨member.2, room⟩ : Form))).filter fun field => names.contains field.1) :=
        if_pos hdistinct
    _ = some (members.map fun member => (member.1, ⟨member.2, room⟩)) := by rw [hknown]

/-- A record is read from an object with the right names. -/
theorem bind_fields?_obj {read : Fields → Option α}
    (hnames : members.map Prod.fst = names ∧ names.Nodup)
    (h : read (members.map fun member => (member.1, ⟨member.2, room⟩)) = some a) :
    (fields? names ⟨.obj members, room + 1⟩ >>= read) = some a :=
  Option.bind_eq_some_iff.mpr ⟨_, fields?_obj hnames.1 hnames.2, h⟩

/-- The first field is read under its own name. -/
@[simp]
theorem field?_cons_self [Codec α] :
    (field? ((name, form) :: fields) name : Option α) = decode? form := by
  rw [field?, List.lookup_cons_self, Option.bind_some]

/-- Under another name the first field is passed over. -/
@[simp]
theorem field?_cons_of_ne [Codec α] (h : name ≠ other) :
    (field? ((other, form) :: fields) name : Option α) = field? fields name := by
  rw [field?, field?, List.lookup_cons, beq_false_of_ne h]

/-- The first field is read under its own name, though it might be missing. -/
@[simp]
theorem optional?_cons_self [Codec α] :
    (optional? ((name, form) :: fields) name : Option (Option α)) = decode? form := by
  simp only [optional?, List.lookup_cons_self]

/-- Under another name the first field is passed over, though the one looked for might be
missing. -/
@[simp]
theorem optional?_cons_of_ne [Codec α] (h : name ≠ other) :
    (optional? ((other, form) :: fields) name : Option (Option α)) = optional? fields name := by
  rw [optional?, optional?, List.lookup_cons, beq_false_of_ne h]

/-- However a record is written, its fields are one bracket further in. -/
theorem inside_of_fields? (form : Form) : Reads (fields? names form) (Inside · form.room) := by
  intro fields h
  unfold fields? at h
  split at h
  · rename_i hitems
    obtain ⟨room, hroom, hlow⟩ := Form.room_of_items? hitems
    split_ifs at h
    obtain rfl := Option.some.inj h
    refine ⟨by omega, fun field hfield => ?_⟩
    have hfield := hlow _ (List.of_mem_zip hfield).2
    omega
  · rename_i hmembers
    obtain ⟨room, hroom, hlow⟩ := Form.room_of_members? hmembers
    simp only at h
    split_ifs at h
    obtain rfl := Option.some.inj h
    refine ⟨by omega, fun field hfield => ?_⟩
    have hfield := hlow field (List.mem_filter.mp hfield).1
    omega
  · contradiction

/-- A field has less room than the record. -/
theorem Inside.lookup_lt {field : Form} (hfields : Inside fields room)
    (h : fields.lookup name = some field) : field.room < room := by
  obtain ⟨before, after, rfl, -⟩ := List.lookup_eq_some_iff.mp h
  exact hfields.room_lt (name, field) (by simp)

namespace Reads

variable {P : α → Prop} {f : β → Option α}

/-- The fields of a record have less room than the record. -/
theorem record {f : Fields → Option α}
    (h : ∀ fields, Inside fields form.room → Reads (f fields) P) :
    Reads (fields? names form >>= f) P :=
  (inside_of_fields? form).bind h

/-- A field whose form is read by `read` and written by `write`. -/
theorem inner {read : Form → Option β} {write : β → Json} (hfields : Inside fields room)
    (hread : ∀ form, Reads (read form) fun b => (write b).depth ≤ form.room)
    (h : ∀ b, (write b).depth < room → Reads (f b) P) :
    Reads ((fields.lookup name).bind read >>= f) P := by
  refine bind (fun b hb => ?_) h
  obtain ⟨field, hfield, hb⟩ := Option.bind_eq_some_iff.mp hb
  exact (hread field b hb).trans_lt (hfields.lookup_lt hfield)

/-- A field is written with less depth than its record was read from. -/
theorem field [Codec β] [LawfulCodec β] (hfields : Inside fields room)
    (h : ∀ b, (encode b).depth < room → Reads (f b) P) : Reads (field? fields name >>= f) P :=
  inner hfields depth_le h

/-- A field that may be missing is written with less depth than its record was read from. -/
theorem optional [Codec β] [LawfulCodec (Option β)] {f : Option β → Option α}
    (hfields : Inside fields room) (h : ∀ b, (encode b).depth < room → Reads (f b) P) :
    Reads (optional? fields name >>= f) P := by
  refine bind (fun b hb => ?_) h
  unfold optional? at hb
  split at hb
  · obtain rfl := Option.some.inj hb
    exact hfields.pos
  · rename_i field hfield
    exact (depth_le field b hb).trans_lt (hfields.lookup_lt hfield)

end Reads

end Records

/-! ### Alternatives -/

section Alternatives

variable {name : String} {payload : Json}

/-- How deep a variant is. -/
theorem depth_tagged_le_iff :
    (tagged name payload).depth ≤ room ↔ ∃ r, room = r + 1 ∧ payload.depth ≤ r := by
  rw [tagged, depth_obj_le_iff]
  simp only [depthMembers, Nat.max_zero]

/-- A variant is one deeper than its payload. -/
theorem depth_tagged_le {carried : Form} (hroom : carried.room < room)
    (h : payload.depth ≤ carried.room) : (tagged name payload).depth ≤ room := by
  refine depth_obj_le_of_lt ?_
  rw [depthMembers, depthMembers, Nat.max_zero]
  exact h.trans_lt hroom

/-- A variant that carries a record is two deeper than the fields. -/
theorem depth_tagged_obj_le_iff {members : List (String × Json)} :
    (tagged name (.obj members)).depth ≤ room ↔
      ∃ r, room = r + 2 ∧ depthMembers members ≤ r := by
  rw [depth_tagged_le_iff]
  constructor
  · rintro ⟨_, rfl, hrecord⟩
    obtain ⟨r, rfl, hmembers⟩ := depth_obj_le_iff.mp hrecord
    exact ⟨r, rfl, hmembers⟩
  · rintro ⟨r, rfl, hmembers⟩
    exact ⟨r + 1, rfl, depth_obj_le_iff.mpr ⟨r, rfl, hmembers⟩⟩

/-- A variant that was written is read as one. -/
@[simp]
theorem variant?_tagged :
    variant? ⟨tagged name payload, room + 1⟩ = some (name, some ⟨payload, room⟩) := rfl

/-- A variant that was written is read by its name and payload. -/
theorem bind_variant?_tagged {read : String × Option Form → Option α} {a : α}
    (h : read (name, some ⟨payload, room⟩) = some a) :
    (variant? ⟨tagged name payload, room + 1⟩ >>= read) = some a :=
  Option.bind_eq_some_iff.mpr ⟨_, variant?_tagged, h⟩

/-- What an alternative carries is one bracket further in. -/
theorem room_of_variant? (form : Form) : Reads (variant? form) fun tag =>
    ∀ payload, tag.2 = some payload → payload.room < form.room := by
  intro tag htag payload hpayload
  unfold variant? at htag
  split at htag
  · obtain rfl := Option.some.inj htag
    cases hpayload
  · rename_i carried hmembers _
    obtain ⟨room, hroom, hlow⟩ := Form.room_of_members? hmembers
    obtain rfl := Option.some.inj htag
    obtain rfl := Option.some.inj hpayload
    have hcarried : carried.room = room := hlow _ List.mem_cons_self
    omega
  · cases htag

/-- The payload of a variant has less room than the variant. -/
theorem Reads.variant {P : α → Prop} {f : String × Option Form → Option α}
    (h : ∀ tag, (∀ payload, tag.2 = some payload → payload.room < form.room) → Reads (f tag) P) :
    Reads (variant? form >>= f) P :=
  (room_of_variant? form).bind h

end Alternatives

end Lockstep
