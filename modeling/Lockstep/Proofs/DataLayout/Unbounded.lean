import Lockstep.DataLayout
import Lockstep.Proofs.Success
import Mathlib.Algebra.Ring.Nat

/-!
# Sizes without a limit

The size of a type is a natural number whether or not a word holds it. This module gives sizes and
alignments by the rules of `DataLayout` with every check left out, and holds the checked
computation against them.

A checked computation can only give the number without a limit, since each check gives back what it
was asked about. That it gives a number at all needs every sum, product, rounded offset and
alignment on the way to fit a word. Each of them is bounded by the size of a type that the
computation meets, even if that type takes no room, as the element of an empty array does: what is
stored is no more than what is allocated, offsets inside a struct are no larger than the struct, and
the alignment of a vector is no larger than the vector, unless that is empty and the alignment one.

## Main results

* `DataLayout.storeSize_refines`, `DataLayout.abiAlignment_refines`: a result of the checked
  computation is the number without a limit.
* `DataLayout.storeSize_eq_ok`, `DataLayout.abiAlignment_eq_ok`: if every component fits a word,
  there is a result.
* `DataLayout.allocSize_refines`: both for the size of a type in memory.
-/

namespace Lockstep

namespace DataLayout

/-! ### The rules without checks -/

/-- The least multiple of `align` that is at least `value`, in a word or not. -/
def roundUp (value align : Nat) : Nat :=
  if align ≤ 1 then value else (value + (align - 1)) / align * align

namespace Unbounded

mutual

/-- The bytes that a store of the type writes. -/
def storeSize (pointerSize : Nat) : Ty → Nat
  | .void | .function .. | .label => 0
  | .i1 | .i8 => 1
  | .i16 => 2
  | .i32 | .f32 => 4
  | .i64 | .f64 => 8
  | .ptr .. => pointerSize
  | .array size element =>
      size.toNat * roundUp (storeSize pointerSize element) (abiAlignment pointerSize element)
  | .vector size element => size.toNat * storeSize pointerSize element
  | .struct _ fields packed => fieldsEnd pointerSize packed 0 fields

/-- What an address of the type has to be a multiple of. -/
def abiAlignment (pointerSize : Nat) : Ty → Nat
  | .void | .function .. | .label => 1
  | .i1 | .i8 => 1
  | .i16 => 2
  | .i32 | .f32 => 4
  | .i64 | .f64 => 8
  | .ptr .. => max pointerSize 1
  | .array _ element => abiAlignment pointerSize element
  | .vector size element => powerOfTwoAbove (max (size.toNat * storeSize pointerSize element) 1)
  | .struct _ _ true => 1
  | .struct _ fields false => fieldsAlignment pointerSize fields

/-- Where the last of some fields ends when the first may start at `offset`. -/
def fieldsEnd (pointerSize : Nat) (packed : Bool) (offset : Nat) : List Ty → Nat
  | [] => offset
  | field :: rest =>
      let align := abiAlignment pointerSize field
      let start := if packed then offset else roundUp offset align
      fieldsEnd pointerSize packed (start + roundUp (storeSize pointerSize field) align) rest

/-- The largest alignment of some fields. -/
def fieldsAlignment (pointerSize : Nat) : List Ty → Nat
  | [] => 1
  | field :: rest => max (abiAlignment pointerSize field) (fieldsAlignment pointerSize rest)

end

/-- The bytes that a value of the type takes in memory, padding at its end included. -/
def allocSize (pointerSize : Nat) (ty : Ty) : Nat :=
  roundUp (storeSize pointerSize ty) (abiAlignment pointerSize ty)

end Unbounded

/-- The type itself or something that its values are made of: elements of arrays and vectors and
fields of structs at any depth. What a pointer points to and the types in the type of a function
are no components. -/
inductive Component (part : Ty) : Ty → Prop
  | refl : Component part part
  | array {element : Ty} (size : UInt64) :
      Component part element → Component part (.array size element)
  | vector {element : Ty} (size : UInt32) :
      Component part element → Component part (.vector size element)
  | field {field : Ty} {fields : List Ty} (name : Option String) (packed : Bool) :
      field ∈ fields → Component part field → Component part (.struct name fields packed)

variable {pointerSize : UInt64} {ty element field : Ty} {rest : List Ty}
  {value align offset n m : Nat} {packed : Bool}

/-! ### Rounding up -/

/-- Rounding up makes nothing smaller. -/
theorem le_roundUp (value align : Nat) : value ≤ roundUp value align := by
  rw [roundUp]
  split
  · exact Nat.le_refl value
  · have hlt := Nat.lt_div_mul_add (a := value + (align - 1)) (b := align) (by omega)
    omega

/-- What is not empty takes at least one unit of its alignment. -/
theorem align_le_roundUp (hvalue : 0 < value) : align ≤ roundUp value align := by
  rw [roundUp]
  split
  · omega
  · have hunits : 0 < (value + (align - 1)) / align := Nat.div_pos (by omega) (by omega)
    exact Nat.le_mul_of_pos_left align hunits

/-- The rounding of a number that fits a word once it is rounded. -/
theorem alignTo_eq_ok (h : roundUp value align < UInt64.size) :
    alignTo value align = .ok (roundUp value align) := by
  rw [roundUp] at h ⊢
  rw [alignTo]
  split
  · rfl
  · rename_i halign
    rw [if_neg halign] at h
    exact if_pos h

/-! ### A result is the number without a limit -/

/-- A computation that gives `n` unless it breaks off. -/
def Refines (x : Except Fault Nat) (n : Nat) : Prop :=
  ∀ v, x = .ok v → v = n

namespace Refines

/-- A number refines itself. -/
theorem ok (n : Nat) : Refines (.ok n) n :=
  fun _ h => (Except.ok.inj h).symm

/-- A computation in two parts refines its exact counterpart if the parts do. -/
theorem bind {x : Except Fault Nat} {g : Nat → Except Fault Nat} (hx : Refines x n)
    (hg : Refines (g n) m) : Refines (x >>= g) m := by
  intro v hv
  obtain ⟨a, ha, hga⟩ := exists_of_bind_eq_ok hv
  exact hg v (hx a ha ▸ hga)

/-- A number that is checked against the word refines itself. -/
theorem word (n : Nat) : Refines (word n) n := by
  intro v hv
  rw [DataLayout.word] at hv
  split at hv
  · exact (Except.ok.inj hv).symm
  · cases hv

/-- Rounding up refines exact rounding up. -/
theorem alignTo (value align : Nat) : Refines (alignTo value align) (roundUp value align) := by
  rw [DataLayout.alignTo, roundUp]
  split
  · exact ok value
  · exact word _

/-- Where a field starts, in a packed struct or in another. -/
theorem start (packed : Bool) (offset align : Nat) :
    Refines (if packed then .ok offset else DataLayout.alignTo offset align)
      (if packed then offset else roundUp offset align) := by
  split
  · exact ok offset
  · exact alignTo offset align

end Refines

/-- What the first of some fields does to the offset. -/
theorem fieldsEnd_cons :
    fieldsEnd pointerSize packed offset (field :: rest) =
      abiAlignment pointerSize field >>= fun align =>
      (if packed then .ok offset else alignTo offset align) >>= fun start =>
      storeSize pointerSize field >>= fun stored =>
      alignTo stored align >>= fun allocated =>
      word (start + allocated) >>= fun next =>
      fieldsEnd pointerSize packed next rest := by
  rw [fieldsEnd]
  cases packed <;> rfl

mutual

/-- The checked size of a store is the size without a limit. -/
theorem storeSize_refines (pointerSize : UInt64) : ∀ ty : Ty,
    Refines (storeSize pointerSize ty) (Unbounded.storeSize pointerSize.toNat ty)
  | .void | .function .. | .label | .i1 | .i8 | .i16 | .i32 | .f32 | .i64 | .f64 | .ptr .. => by
      rw [storeSize, Unbounded.storeSize]
      exact .ok _
  | .array size element => by
      rw [storeSize, Unbounded.storeSize]
      exact (storeSize_refines pointerSize element).bind <|
        (abiAlignment_refines pointerSize element).bind <| (Refines.alignTo _ _).bind (.word _)
  | .vector size element => by
      rw [storeSize, Unbounded.storeSize]
      exact (storeSize_refines pointerSize element).bind (.word _)
  | .struct _ fields packed => by
      rw [storeSize, Unbounded.storeSize]
      exact fieldsEnd_refines pointerSize packed 0 fields

/-- The checked alignment is the alignment without a limit. -/
theorem abiAlignment_refines (pointerSize : UInt64) : ∀ ty : Ty,
    Refines (abiAlignment pointerSize ty) (Unbounded.abiAlignment pointerSize.toNat ty)
  | .void | .function .. | .label | .i1 | .i8 | .i16 | .i32 | .f32 | .i64 | .f64 | .ptr ..
  | .struct _ _ true => by
      rw [abiAlignment, Unbounded.abiAlignment]
      exact .ok _
  | .array _ element => by
      rw [abiAlignment, Unbounded.abiAlignment]
      exact abiAlignment_refines pointerSize element
  | .vector size element => by
      rw [abiAlignment, Unbounded.abiAlignment]
      exact (storeSize_refines pointerSize element).bind <| (Refines.word _).bind (.word _)
  | .struct _ fields false => by
      rw [abiAlignment, Unbounded.abiAlignment]
      exact fieldsAlignment_refines pointerSize fields

/-- The end of some fields refines the exact one. -/
theorem fieldsEnd_refines (pointerSize : UInt64) (packed : Bool) (offset : Nat) :
    ∀ fields : List Ty, Refines (fieldsEnd pointerSize packed offset fields)
      (Unbounded.fieldsEnd pointerSize.toNat packed offset fields)
  | [] => by
      rw [fieldsEnd, Unbounded.fieldsEnd]
      exact .ok _
  | field :: rest => by
      rw [fieldsEnd_cons, Unbounded.fieldsEnd]
      exact (abiAlignment_refines pointerSize field).bind <| (Refines.start _ _ _).bind <|
        (storeSize_refines pointerSize field).bind <| (Refines.alignTo _ _).bind <|
          (Refines.word _).bind (fieldsEnd_refines pointerSize packed _ rest)

/-- The alignment of some fields refines the exact one. -/
theorem fieldsAlignment_refines (pointerSize : UInt64) : ∀ fields : List Ty,
    Refines (fieldsAlignment pointerSize fields)
      (Unbounded.fieldsAlignment pointerSize.toNat fields)
  | [] => by
      rw [fieldsAlignment, Unbounded.fieldsAlignment]
      exact .ok _
  | field :: rest => by
      rw [fieldsAlignment, Unbounded.fieldsAlignment]
      exact (abiAlignment_refines pointerSize field).bind <|
        (fieldsAlignment_refines pointerSize rest).bind (.ok _)

end

/-! ### A result exists -/

/-- No component of the type is larger than a word can say. -/
def Fits (pointerSize : UInt64) (ty : Ty) : Prop :=
  ∀ part, Component part ty → Unbounded.allocSize pointerSize.toNat part < UInt64.size

namespace Fits

/-- What fits can be stored in a word of bytes. -/
theorem storeSize_lt (h : Fits pointerSize ty) :
    Unbounded.storeSize pointerSize.toNat ty < UInt64.size :=
  Nat.lt_of_le_of_lt (le_roundUp _ _) (h ty .refl)

/-- The elements of an array that fits do too. -/
theorem array {size : UInt64} (h : Fits pointerSize (.array size element)) :
    Fits pointerSize element :=
  fun part hpart => h part (.array size hpart)

/-- The elements of a vector that fits do too. -/
theorem vector {size : UInt32} (h : Fits pointerSize (.vector size element)) :
    Fits pointerSize element :=
  fun part hpart => h part (.vector size hpart)

/-- The fields of a record that fits do too. -/
theorem fields {name : Option String} {fields : List Ty}
    (h : Fits pointerSize (.struct name fields packed)) :
    ∀ field ∈ fields, Fits pointerSize field :=
  fun _ hfield part hpart => h part (.field name packed hfield hpart)

end Fits

/-- Offsets only grow on the way through the fields. -/
theorem le_fieldsEnd (pointerSize : Nat) (packed : Bool) (offset : Nat) (fields : List Ty) :
    offset ≤ Unbounded.fieldsEnd pointerSize packed offset fields := by
  induction fields generalizing offset with
  | nil => exact Nat.le_of_eq (by rw [Unbounded.fieldsEnd])
  | cons field rest ih =>
      rw [Unbounded.fieldsEnd]
      refine Nat.le_trans ?_ (ih _)
      have hround := le_roundUp offset (Unbounded.abiAlignment pointerSize field)
      split <;> omega

/-- A number below the bound of words is one. -/
theorem word_eq_ok (h : n < UInt64.size) : word n = .ok n :=
  if_pos h

/-- A field can be put where it belongs if a word holds the place. -/
theorem start_eq_ok (h : (if packed then offset else roundUp offset align) < UInt64.size) :
    (if packed then .ok offset else alignTo offset align) =
      (.ok (if packed then offset else roundUp offset align) : Except Fault Nat) := by
  cases packed with
  | true => rfl
  | false => exact alignTo_eq_ok h

/-- The alignment of a vector is no larger than its size in memory, or it is one. -/
theorem vectorAlignment_lt {size : UInt32} (h : Fits pointerSize (.vector size element)) :
    powerOfTwoAbove (max (size.toNat * Unbounded.storeSize pointerSize.toNat element) 1) <
      UInt64.size := by
  have hsize := h _ .refl
  rw [Unbounded.allocSize, Unbounded.storeSize, Unbounded.abiAlignment] at hsize
  rcases Nat.eq_zero_or_pos (size.toNat * Unbounded.storeSize pointerSize.toNat element)
    with hzero | hpos
  · rw [hzero]
    decide
  · exact Nat.lt_of_le_of_lt (align_le_roundUp hpos) hsize

mutual

/-- The size of a store is found if no component is too large. -/
theorem storeSize_eq_ok (pointerSize : UInt64) : ∀ ty : Ty, Fits pointerSize ty →
    storeSize pointerSize ty = .ok (Unbounded.storeSize pointerSize.toNat ty)
  | .void, _ | .function .., _ | .label, _ | .i1, _ | .i8, _ | .i16, _ | .i32, _ | .f32, _
  | .i64, _ | .f64, _ | .ptr .., _ => by
      rw [storeSize, Unbounded.storeSize]
  | .array size element, h => by
      have hsize := h.storeSize_lt
      rw [Unbounded.storeSize] at hsize
      rw [storeSize, Unbounded.storeSize, storeSize_eq_ok pointerSize element h.array,
        abiAlignment_eq_ok pointerSize element h.array]
      simp only [bind, Except.bind, alignTo_eq_ok (h.array element .refl), word_eq_ok hsize]
  | .vector size element, h => by
      have hsize := h.storeSize_lt
      rw [Unbounded.storeSize] at hsize
      rw [storeSize, Unbounded.storeSize, storeSize_eq_ok pointerSize element h.vector]
      simp only [bind, Except.bind, word_eq_ok hsize]
  | .struct name fields packed, h => by
      have hsize := h.storeSize_lt
      rw [Unbounded.storeSize] at hsize
      rw [storeSize, Unbounded.storeSize]
      exact fieldsEnd_eq_ok pointerSize packed 0 fields h.fields hsize

/-- The alignment is found if no component is too large. -/
theorem abiAlignment_eq_ok (pointerSize : UInt64) : ∀ ty : Ty, Fits pointerSize ty →
    abiAlignment pointerSize ty = .ok (Unbounded.abiAlignment pointerSize.toNat ty)
  | .void, _ | .function .., _ | .label, _ | .i1, _ | .i8, _ | .i16, _ | .i32, _ | .f32, _
  | .i64, _ | .f64, _ | .ptr .., _ | .struct _ _ true, _ => by
      rw [abiAlignment, Unbounded.abiAlignment]
  | .array size element, h => by
      rw [abiAlignment, Unbounded.abiAlignment]
      exact abiAlignment_eq_ok pointerSize element h.array
  | .vector size element, h => by
      have hsize := h.storeSize_lt
      rw [Unbounded.storeSize] at hsize
      rw [abiAlignment, Unbounded.abiAlignment, storeSize_eq_ok pointerSize element h.vector]
      simp only [bind, Except.bind, word_eq_ok hsize, word_eq_ok (vectorAlignment_lt h)]
  | .struct name fields false, h => by
      rw [abiAlignment, Unbounded.abiAlignment]
      exact fieldsAlignment_eq_ok pointerSize fields h.fields

/-- Where fields fit and end within a word, their end is the exact one. -/
theorem fieldsEnd_eq_ok (pointerSize : UInt64) (packed : Bool) (offset : Nat) :
    ∀ fields : List Ty, (∀ field ∈ fields, Fits pointerSize field) →
      Unbounded.fieldsEnd pointerSize.toNat packed offset fields < UInt64.size →
      fieldsEnd pointerSize packed offset fields =
        .ok (Unbounded.fieldsEnd pointerSize.toNat packed offset fields)
  | [], _, _ => by
      rw [fieldsEnd, Unbounded.fieldsEnd]
  | field :: rest, h, hend => by
      obtain ⟨hfield, hrest⟩ := List.forall_mem_cons.mp h
      rw [Unbounded.fieldsEnd] at hend ⊢
      have hnext := Nat.lt_of_le_of_lt (le_fieldsEnd _ _ _ _) hend
      have hstart := Nat.lt_of_le_of_lt (Nat.le_add_right _ _) hnext
      rw [fieldsEnd_cons, abiAlignment_eq_ok pointerSize field hfield,
        storeSize_eq_ok pointerSize field hfield]
      simp only [bind, Except.bind, start_eq_ok hstart, alignTo_eq_ok (hfield field .refl),
        word_eq_ok hnext]
      exact fieldsEnd_eq_ok pointerSize packed _ rest hrest hend

/-- Where fields fit, their alignment is the exact one. -/
theorem fieldsAlignment_eq_ok (pointerSize : UInt64) : ∀ fields : List Ty,
    (∀ field ∈ fields, Fits pointerSize field) →
      fieldsAlignment pointerSize fields =
        .ok (Unbounded.fieldsAlignment pointerSize.toNat fields)
  | [], _ => by
      rw [fieldsAlignment, Unbounded.fieldsAlignment]
  | field :: rest, h => by
      obtain ⟨hfield, hrest⟩ := List.forall_mem_cons.mp h
      rw [fieldsAlignment, Unbounded.fieldsAlignment, abiAlignment_eq_ok pointerSize field hfield,
        fieldsAlignment_eq_ok pointerSize rest hrest]
      rfl

end

/-! ### The size in memory -/

/-- **Sizes in words.** The size of a type in memory, computed in words with every step checked, is
the size without a limit whenever the computation gives one. It gives one whenever the size without
a limit of the type and of everything its values are made of is a number that a word holds. -/
theorem allocSize_refines (pointerSize : UInt64) (ty : Ty) :
    (∀ size, allocSize pointerSize ty = .ok size →
      size = Unbounded.allocSize pointerSize.toNat ty) ∧
    ((∀ part, Component part ty →
        Unbounded.allocSize pointerSize.toNat part ≤ 2 ^ 64 - 1) →
      allocSize pointerSize ty = .ok (Unbounded.allocSize pointerSize.toNat ty)) := by
  constructor
  · exact (storeSize_refines pointerSize ty).bind <|
      (abiAlignment_refines pointerSize ty).bind (.alignTo _ _)
  · intro h
    have hfits : Fits pointerSize ty := fun part hpart =>
      Nat.lt_of_le_pred (by decide) (h part hpart)
    rw [allocSize, storeSize_eq_ok pointerSize ty hfits, abiAlignment_eq_ok pointerSize ty hfits]
    exact alignTo_eq_ok (hfits ty .refl)

/-- A vector that fills half of what a word can count. -/
def hugeVector : Ty :=
  .vector 0x80000000 (.array 0x100000000 .i8)

/-- A byte and an empty array of huge vectors, which takes no room but has to be aligned. -/
def spread : Ty :=
  .struct none [.i8, .array 0 hugeVector] false

/-- The spread struct fits a word although the gap in it is nearly all of it. A byte more, and its
size is the first number that no word holds. -/
theorem allocSize_refines_spread :
    (∀ part, Component part spread → Unbounded.allocSize 8 part ≤ 2 ^ 64 - 1) ∧
    allocSize 8 spread = .ok (2 ^ 63) ∧ Unbounded.allocSize 8 spread = 2 ^ 63 ∧
    Unbounded.allocSize 8 (.struct none [spread, .i8] false) = 2 ^ 64 ∧
    allocSize 8 (.struct none [spread, .i8] false) = .error .overflow := by
  have hbyte : ∀ part, Component part .i8 → Unbounded.allocSize 8 part ≤ 2 ^ 64 - 1 := by
    rintro part ⟨⟩
    decide +kernel
  have hvector : ∀ part, Component part hugeVector → Unbounded.allocSize 8 part ≤ 2 ^ 64 - 1 := by
    intro part hpart
    cases hpart with
    | refl => decide +kernel
    | vector _ hpart =>
        cases hpart with
        | refl => decide +kernel
        | array _ hpart => exact hbyte part hpart
  have hparts : ∀ part, Component part spread → Unbounded.allocSize 8 part ≤ 2 ^ 64 - 1 := by
    intro part hpart
    cases hpart with
    | refl => decide +kernel
    | field _ _ hfield hpart =>
        rcases List.mem_pair.mp hfield with rfl | rfl
        · exact hbyte part hpart
        · cases hpart with
          | refl => decide +kernel
          | array _ hpart => exact hvector part hpart
  have hsize : Unbounded.allocSize 8 spread = 2 ^ 63 := by decide +kernel
  have hchecked := (allocSize_refines 8 spread).2 hparts
  exact ⟨hparts, hsize ▸ hchecked, hsize, by decide +kernel, by decide +kernel⟩

end DataLayout

end Lockstep
