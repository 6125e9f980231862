import Lockstep.Error
import Lockstep.Ty

/-!
# Sizes and alignments

How much memory a value takes on a target with naturally aligned numbers and pointers of
`pointerSize` bytes. The store size is what a store writes, the ABI alignment what an address
has to be a multiple of, and the allocation size the store size padded to that alignment.

Sizes are 64-bit words. Every sum, product and power of two on the way is checked, and one that
no word holds is a fault, whether or not the result depends on it.
-/

namespace Lockstep

namespace DataLayout

/-- A natural number that a 64-bit word holds. -/
def word (n : Nat) : Except Fault Nat :=
  if n < UInt64.size then .ok n else .error .overflow

/-- The least multiple of `align` that is at least `value`. -/
def alignTo (value align : Nat) : Except Fault Nat :=
  if align ≤ 1 then .ok value else word ((value + (align - 1)) / align * align)

/-- The least power of two that is at least `n`. -/
def powerOfTwoAbove (n : Nat) : Nat :=
  if n ≤ 1 then 1 else 1 <<< ((n - 1).log2 + 1)

mutual

/-- The bytes that a store of the type writes. -/
def storeSize (pointerSize : UInt64) : Ty → Except Fault Nat
  | .void | .function .. | .label => .ok 0
  | .i1 | .i8 => .ok 1
  | .i16 => .ok 2
  | .i32 | .f32 => .ok 4
  | .i64 | .f64 => .ok 8
  | .ptr .. => .ok pointerSize.toNat
  | .array size element => do
      let stored ← storeSize pointerSize element
      let align ← abiAlignment pointerSize element
      let allocated ← alignTo stored align
      word (size.toNat * allocated)
  | .vector size element => do
      let stored ← storeSize pointerSize element
      word (size.toNat * stored)
  | .struct _ fields packed => fieldsEnd pointerSize packed 0 fields

/-- What an address of the type has to be a multiple of. -/
def abiAlignment (pointerSize : UInt64) : Ty → Except Fault Nat
  | .void | .function .. | .label => .ok 1
  | .i1 | .i8 => .ok 1
  | .i16 => .ok 2
  | .i32 | .f32 => .ok 4
  | .i64 | .f64 => .ok 8
  | .ptr .. => .ok (max pointerSize.toNat 1)
  | .array _ element => abiAlignment pointerSize element
  | .vector size element => do
      let stored ← storeSize pointerSize element
      let total ← word (size.toNat * stored)
      word (powerOfTwoAbove (max total 1))
  | .struct _ _ true => .ok 1
  | .struct _ fields false => fieldsAlignment pointerSize fields

/-- Where the last of some fields ends when the first may start at `offset`. Fields of a packed
struct follow each other without gaps. -/
def fieldsEnd (pointerSize : UInt64) (packed : Bool) (offset : Nat) :
    List Ty → Except Fault Nat
  | [] => .ok offset
  | field :: rest => do
      let align ← abiAlignment pointerSize field
      let start ← if packed then .ok offset else alignTo offset align
      let stored ← storeSize pointerSize field
      let allocated ← alignTo stored align
      let next ← word (start + allocated)
      fieldsEnd pointerSize packed next rest

/-- The largest alignment of some fields. -/
def fieldsAlignment (pointerSize : UInt64) : List Ty → Except Fault Nat
  | [] => .ok 1
  | field :: rest => do
      let align ← abiAlignment pointerSize field
      let others ← fieldsAlignment pointerSize rest
      return max align others

end

/-- The bytes that a value of the type takes in memory, padding at its end included. -/
def allocSize (pointerSize : UInt64) (ty : Ty) : Except Fault Nat := do
  let stored ← storeSize pointerSize ty
  let align ← abiAlignment pointerSize ty
  alignTo stored align

end DataLayout

end Lockstep
