/-!
# Types

The types of values: integers, floating point numbers, pointers qualified by the memory they
point into, arrays, vectors, structs and functions. `Ty.text` is the spelling in listings.

Types nest through lists, so equality is decided by `Ty.same`, a Boolean comparison that
recurses along the type, and `Ty.same_iff` ties it to equality.
-/

namespace Lockstep

/-- The memory a pointer points into. Only device and constant memory are shared with the
host. -/
inductive AddressSpace where
  /-- Memory of one work-item. -/
  | workItem
  /-- Memory of the whole device. -/
  | device
  /-- Memory that the work-items of one group share. -/
  | workGroup
  /-- Device memory that is only read. -/
  | constant
  /-- A memory that only the target knows. -/
  | numbered (n : UInt32)
deriving DecidableEq

namespace AddressSpace

/-- Not shared with the host. -/
def isLocalLike : AddressSpace → Bool
  | .device | .constant => false
  | _ => true

/-- The number that listings give to the memory. -/
def number : AddressSpace → UInt32
  | .workItem => 0
  | .device => 1
  | .constant => 2
  | .workGroup => 3
  | .numbered n => n

end AddressSpace

/-- A type of the representation. -/
inductive Ty where
  | void
  | i1
  | i8
  | i16
  | i32
  | i64
  | f32
  | f64
  /-- The type of a block's address. -/
  | label
  | ptr (pointee : Ty) (space : AddressSpace)
  | array (size : UInt64) (element : Ty)
  | vector (size : UInt32) (element : Ty)
  | function (result : Ty) (params : List Ty) (variadic : Bool)
  | struct (name : Option String) (fields : List Ty) (packed : Bool)

namespace Ty

/-- An integer type of any width. -/
def isInteger : Ty → Bool
  | .i1 | .i8 | .i16 | .i32 | .i64 => true
  | _ => false

/-- A pointer type. -/
def isPointer : Ty → Bool
  | .ptr .. => true
  | _ => false

/-- The memory that a pointer type points into. -/
def addressSpace? : Ty → Option AddressSpace
  | .ptr _ space => some space
  | _ => none

/-- What a pointer points to, or what an array or a vector holds. -/
def element? : Ty → Option Ty
  | .ptr pointee _ => some pointee
  | .array _ element => some element
  | .vector _ element => some element
  | _ => none

/-! ### Spelling -/

mutual

/-- The spelling of a type in listings. -/
def text : Ty → String
  | .void => "void"
  | .i1 => "i1"
  | .i8 => "i8"
  | .i16 => "i16"
  | .i32 => "i32"
  | .i64 => "i64"
  | .f32 => "float"
  | .f64 => "double"
  | .label => "label"
  | .ptr pointee .workItem => pointee.text ++ "*"
  | .ptr pointee space =>
      pointee.text ++ " addrspace(" ++ toString space.number.toNat ++ ")*"
  | .array size element => "[" ++ toString size.toNat ++ " x " ++ element.text ++ "]"
  | .vector size element => "<" ++ toString size.toNat ++ " x " ++ element.text ++ ">"
  | .function result params variadic =>
      result.text ++ " (" ++ ", ".intercalate (texts params) ++
        (if variadic then ", ..." else "") ++ ")"
  | .struct (some name) _ _ => "%" ++ name
  | .struct none fields packed =>
      let body := "\x7b " ++ ", ".intercalate (texts fields) ++ " \x7d"
      if packed then "<" ++ body ++ ">" else body

/-- The spellings of a list of types. -/
def texts : List Ty → List String
  | [] => []
  | ty :: rest => ty.text :: texts rest

end

/-! ### Decidable equality -/

mutual

/-- Are the two types the same? -/
def same : Ty → Ty → Bool
  | .void, .void => true
  | .i1, .i1 => true
  | .i8, .i8 => true
  | .i16, .i16 => true
  | .i32, .i32 => true
  | .i64, .i64 => true
  | .f32, .f32 => true
  | .f64, .f64 => true
  | .label, .label => true
  | .ptr p s, .ptr p' s' => s = s' && same p p'
  | .array n e, .array n' e' => n = n' && same e e'
  | .vector n e, .vector n' e' => n = n' && same e e'
  | .function r ps v, .function r' ps' v' => v = v' && same r r' && sameAll ps ps'
  | .struct n fs p, .struct n' fs' p' => n = n' && p = p' && sameAll fs fs'
  | _, _ => false

/-- Are the two lists of types the same? -/
def sameAll : List Ty → List Ty → Bool
  | [], [] => true
  | a :: as, b :: bs => same a b && sameAll as bs
  | _, _ => false

end

mutual

/-- Types that are found equal are equal. -/
theorem eq_of_same : ∀ {a b : Ty}, same a b = true → a = b
  | .ptr p s, b, h => by
      cases b <;> simp [same] at h
      simp [h.1, eq_of_same h.2]
  | .array n e, b, h => by
      cases b <;> simp [same] at h
      simp [h.1, eq_of_same h.2]
  | .vector n e, b, h => by
      cases b <;> simp [same] at h
      simp [h.1, eq_of_same h.2]
  | .function r ps v, b, h => by
      cases b <;> simp [same] at h
      simp [h.1.1, eq_of_same h.1.2, eq_of_sameAll h.2]
  | .struct n fs p, b, h => by
      cases b <;> simp [same] at h
      simp [h.1.1, h.1.2, eq_of_sameAll h.2]
  | .void, b, h | .i1, b, h | .i8, b, h | .i16, b, h | .i32, b, h | .i64, b, h | .f32, b, h
  | .f64, b, h | .label, b, h => by
      cases b <;> simp [same] at h ⊢

/-- Lists of types that are found equal are equal. -/
theorem eq_of_sameAll : ∀ {as bs : List Ty}, sameAll as bs = true → as = bs
  | [], bs, h => by
      cases bs <;> simp [sameAll] at h ⊢
  | a :: as, bs, h => by
      cases bs <;> simp [sameAll] at h
      simp [eq_of_same h.1, eq_of_sameAll h.2]

end

mutual

/-- Every type is found equal to itself. -/
theorem same_self : ∀ a : Ty, same a a = true
  | .ptr p _ => by simp [same, same_self p]
  | .array _ e => by simp [same, same_self e]
  | .vector _ e => by simp [same, same_self e]
  | .function r ps _ => by simp [same, same_self r, sameAll_self ps]
  | .struct _ fs _ => by simp [same, sameAll_self fs]
  | .void | .i1 | .i8 | .i16 | .i32 | .i64 | .f32 | .f64 | .label => by simp [same]

/-- Every list of types is found equal to itself. -/
theorem sameAll_self : ∀ as : List Ty, sameAll as as = true
  | [] => by simp [sameAll]
  | a :: as => by simp [sameAll, same_self a, sameAll_self as]

end

/-- The comparison decides equality. -/
theorem same_iff {a b : Ty} : same a b = true ↔ a = b :=
  ⟨eq_of_same, fun h => h ▸ same_self a⟩

instance : DecidableEq Ty := fun _ _ => decidable_of_iff _ same_iff

end Ty

end Lockstep
