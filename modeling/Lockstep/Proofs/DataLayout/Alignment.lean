import Lockstep.Proofs.DataLayout.Unbounded
import Mathlib.Order.Bounds.Basic

/-!
# Everything is aligned

On a target whose pointers take a power of two of bytes, every alignment is a power of two. Of two
powers of two the smaller divides the larger, so the largest alignment of some fields is a common
multiple of all of them. This is why a struct can be aligned like its most demanding field only,
and why an offset that is aligned in one struct is aligned in every struct of an array.

## Main results

* `DataLayout.exists_abiAlignment_eq`: alignments are powers of two.
* `DataLayout.exists_field`: where a field is put on the way through the fields of a struct.
* `DataLayout.allocSize_lays_out`: sizes are least multiples of alignments, arrays have no gaps, and
  the fields of a struct are aligned, in order, apart and inside, also in an array of structs.
-/

namespace Lockstep

namespace DataLayout

variable {pointerSize : UInt64} {ty field : Ty} {fields before after between : List Ty}
  {value align offset stored size n : Nat} {packed : Bool}

/-! ### Multiples and powers of two -/

/-- What is rounded up is a multiple of the alignment. -/
theorem dvd_roundUp (halign : 0 < align) : align ∣ roundUp value align := by
  rw [roundUp]
  split
  · obtain rfl : align = 1 := by omega
    exact Nat.one_dvd value
  · exact Nat.dvd_mul_left align _

/-- No multiple of the alignment is skipped. -/
theorem roundUp_le (halign : 0 < align) (hdvd : align ∣ n) (hle : value ≤ n) :
    roundUp value align ≤ n := by
  rw [roundUp]
  split
  · exact hle
  · obtain ⟨c, rfl⟩ := hdvd
    have hunits : (value + (align - 1)) / align < c + 1 := by
      rw [Nat.div_lt_iff_lt_mul halign, Nat.succ_mul, Nat.mul_comm c]
      omega
    rw [Nat.mul_comm align]
    exact Nat.mul_le_mul_right align (Nat.le_of_lt_succ hunits)

/-- Rounding up gives the least multiple that is not below the value. -/
theorem isLeast_roundUp (halign : 0 < align) :
    IsLeast {n | align ∣ n ∧ value ≤ n} (roundUp value align) :=
  ⟨⟨dvd_roundUp halign, le_roundUp value align⟩, fun _ hn => roundUp_le halign hn.1 hn.2⟩

/-- A multiple is rounded up to itself. -/
theorem roundUp_eq_self (halign : 0 < align) (hdvd : align ∣ value) :
    roundUp value align = value :=
  Nat.le_antisymm (roundUp_le halign hdvd (Nat.le_refl value)) (le_roundUp value align)

/-- Of two powers of two the smaller divides the larger. -/
theorem powerOfTwo_dvd {a b : Nat} (ha : ∃ k, a = 2 ^ k) (hb : ∃ k, b = 2 ^ k) (hle : a ≤ b) :
    a ∣ b := by
  obtain ⟨j, rfl⟩ := ha
  obtain ⟨k, rfl⟩ := hb
  exact Nat.pow_dvd_pow 2 ((Nat.pow_le_pow_iff_right (by decide)).mp hle)

/-- The larger of two powers of two is one. -/
theorem powerOfTwo_max {a b : Nat} (ha : ∃ k, a = 2 ^ k) (hb : ∃ k, b = 2 ^ k) :
    ∃ k, max a b = 2 ^ k := by
  rcases Nat.le_total a b with hle | hle
  · rwa [Nat.max_eq_right hle]
  · rwa [Nat.max_eq_left hle]

/-- The power of two above a number is one. -/
theorem exists_powerOfTwoAbove_eq (n : Nat) : ∃ k, powerOfTwoAbove n = 2 ^ k := by
  rw [powerOfTwoAbove]
  split
  · exact ⟨0, rfl⟩
  · exact ⟨_, Nat.one_shiftLeft _⟩

mutual

/-- Alignments are powers of two if pointers take a power of two of bytes. -/
theorem exists_abiAlignment_eq {pointerSize : Nat} (hpointer : ∃ k, pointerSize = 2 ^ k) :
    ∀ ty : Ty, ∃ k, Unbounded.abiAlignment pointerSize ty = 2 ^ k
  | .void | .function .. | .label | .i1 | .i8 | .struct _ _ true =>
      ⟨0, by rw [Unbounded.abiAlignment]; rfl⟩
  | .i16 => ⟨1, by rw [Unbounded.abiAlignment]; rfl⟩
  | .i32 | .f32 => ⟨2, by rw [Unbounded.abiAlignment]; rfl⟩
  | .i64 | .f64 => ⟨3, by rw [Unbounded.abiAlignment]; rfl⟩
  | .ptr .. => by
      rw [Unbounded.abiAlignment]
      exact powerOfTwo_max hpointer ⟨0, rfl⟩
  | .array _ element => by
      rw [Unbounded.abiAlignment]
      exact exists_abiAlignment_eq hpointer element
  | .vector .. => by
      rw [Unbounded.abiAlignment]
      exact exists_powerOfTwoAbove_eq _
  | .struct _ fields false => by
      rw [Unbounded.abiAlignment]
      exact exists_fieldsAlignment_eq hpointer fields

/-- The alignment of some fields is a power of two. -/
theorem exists_fieldsAlignment_eq {pointerSize : Nat} (hpointer : ∃ k, pointerSize = 2 ^ k) :
    ∀ fields : List Ty, ∃ k, Unbounded.fieldsAlignment pointerSize fields = 2 ^ k
  | [] => ⟨0, by rw [Unbounded.fieldsAlignment]; rfl⟩
  | field :: rest => by
      rw [Unbounded.fieldsAlignment]
      exact powerOfTwo_max (exists_abiAlignment_eq hpointer field)
        (exists_fieldsAlignment_eq hpointer rest)

end

/-- No field is aligned more strictly than all of them together. -/
theorem abiAlignment_le_fieldsAlignment {pointerSize : Nat} (hfield : field ∈ fields) :
    Unbounded.abiAlignment pointerSize field ≤ Unbounded.fieldsAlignment pointerSize fields := by
  induction fields with
  | nil => cases hfield
  | cons first rest ih =>
      rw [Unbounded.fieldsAlignment]
      rcases List.mem_cons.mp hfield with rfl | hrest
      · exact Nat.le_max_left _ _
      · exact Nat.le_trans (ih hrest) (Nat.le_max_right _ _)

/-! ### Where fields are put -/

/-- Where a field of a struct that is not packed starts, behind the fields `before`. -/
def fieldStart (pointerSize : UInt64) (before : List Ty) (field : Ty) : Except Fault Nat := do
  let stop ← fieldsEnd pointerSize false 0 before
  let align ← abiAlignment pointerSize field
  alignTo stop align

/-- Fields are put one after another. -/
theorem fieldsEnd_append :
    fieldsEnd pointerSize packed offset (before ++ after) =
      fieldsEnd pointerSize packed offset before >>= fun stop =>
        fieldsEnd pointerSize packed stop after := by
  induction before generalizing offset with
  | nil =>
      rw [List.nil_append, fieldsEnd]
      rfl
  | cons field rest ih => simp only [List.cons_append, fieldsEnd_cons, ih, bind_assoc]

/-- **One field.** Going through the fields of a struct that is not packed, each is put where
`fieldStart` says, and the next ones are put behind the bytes it takes. -/
theorem exists_field (h : fieldsEnd pointerSize false 0 (before ++ field :: after) = .ok stored) :
    ∃ start align taken, fieldStart pointerSize before field = .ok start ∧
      abiAlignment pointerSize field = .ok align ∧ allocSize pointerSize field = .ok taken ∧
      fieldsEnd pointerSize false (start + taken) after = .ok stored := by
  rw [fieldsEnd_append] at h
  obtain ⟨stop, hstop, h⟩ := exists_of_bind_eq_ok h
  rw [fieldsEnd_cons] at h
  obtain ⟨align, halign, h⟩ := exists_of_bind_eq_ok h
  obtain ⟨start, hstart, h⟩ := exists_of_bind_eq_ok h
  obtain ⟨bytes, hbytes, h⟩ := exists_of_bind_eq_ok h
  obtain ⟨taken, htaken, h⟩ := exists_of_bind_eq_ok h
  obtain ⟨next, hnext, h⟩ := exists_of_bind_eq_ok h
  obtain rfl := Refines.word _ next hnext
  refine ⟨start, align, taken, ?_, halign, ?_, h⟩
  · rw [fieldStart, hstop, halign]
    exact hstart
  · rw [allocSize, hbytes, halign]
    exact htaken

/-- A field starts at the next multiple of its alignment behind the fields before it. -/
theorem exists_stop {start : Nat} (hstart : fieldStart pointerSize before field = .ok start)
    (halign : abiAlignment pointerSize field = .ok align) :
    ∃ stop, fieldsEnd pointerSize false 0 before = .ok stop ∧ start = roundUp stop align := by
  rw [fieldStart, halign] at hstart
  obtain ⟨stop, hstop, hround⟩ := exists_of_bind_eq_ok hstart
  exact ⟨stop, hstop, Refines.alignTo stop align start hround⟩

/-- Fields end where they begin or behind it. -/
theorem le_of_fieldsEnd_eq_ok (h : fieldsEnd pointerSize packed offset fields = .ok stored) :
    offset ≤ stored := by
  rw [fieldsEnd_refines pointerSize packed offset fields stored h]
  exact le_fieldsEnd _ _ _ _

/-- **Two fields.** A field starts behind the bytes that an earlier one takes. The fields up to the
later one end where the earlier one ends, or behind it. -/
theorem exists_later_field {next : Ty} {rest : List Ty} {start taken : Nat}
    (h : fieldsEnd pointerSize false 0 (before ++ field :: (between ++ next :: rest)) = .ok stored)
    (hstart : fieldStart pointerSize before field = .ok start)
    (htaken : allocSize pointerSize field = .ok taken) :
    ∃ later, fieldStart pointerSize (before ++ field :: between) next = .ok later ∧
      start + taken ≤ later := by
  have hsplit : before ++ field :: (between ++ next :: rest) =
      (before ++ field :: between) ++ next :: rest := by
    rw [List.append_assoc, List.cons_append]
  rw [hsplit] at h
  obtain ⟨later, align, -, hlater, halign, -, -⟩ := exists_field h
  obtain ⟨stop, hstop, rfl⟩ := exists_stop hlater halign
  refine ⟨_, hlater, Nat.le_trans ?_ (le_roundUp stop align)⟩
  obtain ⟨start', -, taken', hstart', -, htaken', hbetween⟩ := exists_field hstop
  obtain rfl := Except.ok.inj (hstart.symm.trans hstart')
  obtain rfl := Except.ok.inj (htaken.symm.trans htaken')
  exact le_of_fieldsEnd_eq_ok hbetween

/-! ### Sizes and alignments -/

/-- The parts of a size in memory. -/
theorem exists_of_allocSize_eq_ok (h : allocSize pointerSize ty = .ok size) :
    ∃ stored align, storeSize pointerSize ty = .ok stored ∧
      abiAlignment pointerSize ty = .ok align ∧ size = roundUp stored align := by
  obtain ⟨stored, hstored, h⟩ := exists_of_bind_eq_ok h
  obtain ⟨align, halign, h⟩ := exists_of_bind_eq_ok h
  exact ⟨stored, align, hstored, halign, Refines.alignTo stored align size h⟩

section

variable (hpointer : ∃ k, pointerSize.toNat = 2 ^ k)
include hpointer

/-- An alignment that can be had is a power of two. -/
theorem exists_align_eq (h : abiAlignment pointerSize ty = .ok align) : ∃ k, align = 2 ^ k := by
  rw [abiAlignment_refines pointerSize ty align h]
  exact exists_abiAlignment_eq hpointer ty

/-- An alignment that can be had is not zero. -/
theorem align_pos (h : abiAlignment pointerSize ty = .ok align) : 0 < align := by
  obtain ⟨k, rfl⟩ := exists_align_eq hpointer h
  exact Nat.two_pow_pos k

/-- An array has no gaps: the size of an element is a multiple of the alignment already. -/
theorem allocSize_array {count : UInt64} {element : Ty}
    (h : allocSize pointerSize (.array count element) = .ok size) :
    ∃ one, allocSize pointerSize element = .ok one ∧ size = count.toNat * one := by
  obtain ⟨stored, align, hstored, halign, rfl⟩ := exists_of_allocSize_eq_ok h
  rw [abiAlignment] at halign
  rw [storeSize, halign] at hstored
  obtain ⟨bytes, hbytes, hstored⟩ := exists_of_bind_eq_ok hstored
  obtain ⟨one, hone, hstored⟩ := exists_of_bind_eq_ok (x := alignTo bytes align) hstored
  obtain rfl := Refines.word _ stored hstored
  refine ⟨one, ?_, roundUp_eq_self (align_pos hpointer halign) (Nat.dvd_mul_left_of_dvd ?_ _)⟩
  · rw [allocSize, hbytes, halign]
    exact hone
  · rw [Refines.alignTo bytes align one hone]
    exact dvd_roundUp (align_pos hpointer halign)

/-- The alignment of a struct that is not packed is a multiple of the alignment of every field. -/
theorem fieldAlign_dvd {name : Option String} {fieldAlign : Nat} (hfield : field ∈ fields)
    (halign : abiAlignment pointerSize (.struct name fields false) = .ok align)
    (hfieldAlign : abiAlignment pointerSize field = .ok fieldAlign) : fieldAlign ∣ align := by
  refine powerOfTwo_dvd (exists_align_eq hpointer hfieldAlign) (exists_align_eq hpointer halign) ?_
  rw [abiAlignment_refines _ _ _ hfieldAlign, abiAlignment_refines _ _ _ halign,
    Unbounded.abiAlignment]
  exact abiAlignment_le_fieldsAlignment hfield

end

/-- **Layout.** Take pointers of a power of two of bytes and a type whose size can be computed. Its
alignment is a power of two, and its size in memory is the least multiple of the alignment that a
store fits into. An array is as large as its elements together. The fields of a struct that is not
packed start at multiples of their alignments, of which the size of the struct is a multiple too;
they follow each other without overlap and lie inside the struct; and in an array of such structs
at an aligned address, every field of every element is aligned and lies inside the array. -/
theorem allocSize_lays_out (pointerSize : UInt64) (hpointer : ∃ k, pointerSize.toNat = 2 ^ k)
    (ty : Ty) (size : Nat) (hsize : allocSize pointerSize ty = .ok size) :
    ∃ stored align, storeSize pointerSize ty = .ok stored ∧
      abiAlignment pointerSize ty = .ok align ∧
      (∃ k, align = 2 ^ k) ∧
      IsLeast {n | align ∣ n ∧ stored ≤ n} size ∧
      (∀ count element, ty = .array count element →
        ∃ one, allocSize pointerSize element = .ok one ∧ size = count.toNat * one) ∧
      ∀ name before field after, ty = .struct name (before ++ field :: after) false →
        ∃ start fieldAlign taken,
          fieldStart pointerSize before field = .ok start ∧
          abiAlignment pointerSize field = .ok fieldAlign ∧
          allocSize pointerSize field = .ok taken ∧
          fieldsEnd pointerSize false (start + taken) after = .ok stored ∧
          fieldAlign ∣ start ∧ fieldAlign ∣ size ∧ start + taken ≤ size ∧
          (∀ between next rest, after = between ++ next :: rest →
            ∃ later, fieldStart pointerSize (before ++ field :: between) next = .ok later ∧
              start + taken ≤ later) ∧
          ∀ count total arrayAlign base, allocSize pointerSize (.array count ty) = .ok total →
            abiAlignment pointerSize (.array count ty) = .ok arrayAlign → arrayAlign ∣ base →
            ∀ i < count.toNat,
              fieldAlign ∣ base + i * size + start ∧ i * size + (start + taken) ≤ total := by
  obtain ⟨stored, align, hstored, halign, rfl⟩ := exists_of_allocSize_eq_ok hsize
  have hleast : IsLeast {n | align ∣ n ∧ stored ≤ n} (roundUp stored align) :=
    isLeast_roundUp (align_pos hpointer halign)
  refine ⟨stored, align, hstored, halign, exists_align_eq hpointer halign, hleast, ?_, ?_⟩
  · rintro count element rfl
    exact allocSize_array hpointer hsize
  · rintro name before field after rfl
    rw [storeSize] at hstored
    obtain ⟨start, fieldAlign, taken, hstart, hfieldAlign, htaken, hend⟩ := exists_field hstored
    have hdvd : fieldAlign ∣ align := fieldAlign_dvd hpointer (by simp) halign hfieldAlign
    have hdvdSize := Nat.dvd_trans hdvd hleast.1.1
    have hinside := Nat.le_trans (le_of_fieldsEnd_eq_ok hend) hleast.1.2
    have hdvdStart : fieldAlign ∣ start := by
      obtain ⟨stop, -, rfl⟩ := exists_stop hstart hfieldAlign
      exact dvd_roundUp (align_pos hpointer hfieldAlign)
    refine ⟨start, fieldAlign, taken, hstart, hfieldAlign, htaken, hend, hdvdStart, hdvdSize,
      hinside, ?_, ?_⟩
    · rintro between next rest rfl
      exact exists_later_field hstored hstart htaken
    · intro count total arrayAlign base htotal harray hbase i hi
      obtain ⟨one, hone, rfl⟩ := allocSize_array hpointer htotal
      obtain rfl := Except.ok.inj (hsize.symm.trans hone)
      rw [abiAlignment] at harray
      obtain rfl := Except.ok.inj (halign.symm.trans harray)
      constructor
      · have hdvdElement : fieldAlign ∣ base + i * roundUp stored align :=
          Nat.dvd_add (Nat.dvd_trans hdvd hbase) (Nat.dvd_mul_left_of_dvd hdvdSize i)
        exact Nat.dvd_add hdvdElement hdvdStart
      · calc i * roundUp stored align + (start + taken)
            ≤ i * roundUp stored align + roundUp stored align := Nat.add_le_add_left hinside _
          _ = (i + 1) * roundUp stored align := (Nat.succ_mul _ _).symm
          _ ≤ count.toNat * roundUp stored align := Nat.mul_le_mul_right _ hi

/-- A number and a pointer, with a gap between them. -/
def pair : Ty :=
  .struct none [.i16, .ptr .i8 .workGroup] false

/-- A byte, a vector of three numbers, two pairs and a byte. -/
def record : Ty :=
  .struct none [.i8, .vector 3 .f32, .array 2 pair, .i8] false

/-- With pointers of four bytes a record has a gap before the vector and one at its end, and the
pairs in the last of three records are aligned like the pairs in the first. -/
theorem allocSize_lays_out_record :
    (∃ k, (4 : UInt64).toNat = 2 ^ k) ∧ allocSize 4 record = .ok 64 ∧
    IsLeast {n | 16 ∣ n ∧ 49 ≤ n} 64 ∧
    fieldStart 4 [.i8] (.vector 3 .f32) = .ok 16 ∧
    fieldStart 4 [.i8, .vector 3 .f32] (.array 2 pair) = .ok 32 ∧
    allocSize 4 (.array 3 record) = .ok 192 ∧
    ∀ base, 16 ∣ base → 4 ∣ base + 2 * 64 + 32 ∧ 2 * 64 + (32 + 16) ≤ 192 := by
  have hpointer : ∃ k, (4 : UInt64).toNat = 2 ^ k := ⟨2, rfl⟩
  have hsize : allocSize 4 record = .ok 64 := by decide +kernel
  have harray : allocSize 4 (.array 3 record) = .ok 192 := by decide +kernel
  have hstart : fieldStart 4 [.i8, .vector 3 .f32] (.array 2 pair) = .ok 32 := by decide +kernel
  obtain ⟨stored, align, hstored, halign, -, hleast, -, hfields⟩ :=
    allocSize_lays_out 4 hpointer record 64 hsize
  obtain rfl : stored = 49 := Except.ok.inj (hstored.symm.trans (by decide +kernel))
  obtain rfl : align = 16 := Except.ok.inj (halign.symm.trans (by decide +kernel))
  obtain ⟨start, fieldAlign, taken, hstart', hfieldAlign, htaken, -, -, -, -, -, helements⟩ :=
    hfields none [.i8, .vector 3 .f32] (.array 2 pair) [.i8] rfl
  obtain rfl : start = 32 := Except.ok.inj (hstart'.symm.trans hstart)
  obtain rfl : fieldAlign = 4 := Except.ok.inj (hfieldAlign.symm.trans (by decide +kernel))
  obtain rfl : taken = 16 := Except.ok.inj (htaken.symm.trans (by decide +kernel))
  exact ⟨hpointer, hsize, hleast, by decide +kernel, hstart, harray, fun base hbase =>
    helements 3 192 16 base harray (by decide +kernel) hbase 2 (by decide)⟩

end DataLayout

end Lockstep
