import Lockstep.Proofs.Kernel.Outcome
import Lockstep.Proofs.Kernel.Widening
import Mathlib.Data.List.ProdSigma

/-!
# What a header says

The text about a kernel is made from the kernel as it was and from its automatic locals. The
function that is found at the kernel's image was made from the same, by other code. Here the text is
read as an entry, one value for each macro, and the entry is compared with that function.

A reader of the header looks for the line that starts with the name of a macro. Such a line is
unique when the names of the kernels are different and hold neither blanks nor line ends. The name
of a macro is a kernel's name and a property, and no property, together with the bar before it, is
the end of another. So two macros of the same name speak of the same property of the same kernel.

## Main results

* `Kernel.defineName_inj`: the name of a macro determines the kernel and the property.
* `Kernel.linesStarting_header`: each macro has one line.
* `Kernel.describes_final`: the entry of a kernel describes what becomes of it.
* `Kernel.run_header_agrees`: the header that is written agrees with the module that is left.
-/

namespace Lockstep

namespace Kernel

variable {accepts : KernelPredicate} {m : Module} {id : FunctionId} {f : Function}
  {sizeOf : SizeOf}

/-! ### Lines -/

/-- The lines of a text that start with another text. -/
def linesStarting (start text : String) : List String :=
  ((text.toList.splitOn '\n').filter start.toList.isPrefixOf).map String.ofList

/-- A text of lines, each with its end, is split into them. -/
theorem splitOn_lines {lines : List String} (h : ∀ line ∈ lines, '\n' ∉ line.toList) :
    (String.join (lines.map (· ++ "\n"))).toList.splitOn '\n' =
      lines.map String.toList ++ [[]] := by
  induction lines with
  | nil => rfl
  | cons line lines ih =>
      obtain ⟨hline, hrest⟩ := List.forall_mem_cons.mp h
      have hfirst : ∀ c ∈ line.toList, (c == '\n') = false := by
        intro c hc
        simpa using fun heq : c = '\n' => hline (heq ▸ hc)
      have htext : (String.join ((line :: lines).map (· ++ "\n"))).toList =
          line.toList ++ '\n' :: (String.join (lines.map (· ++ "\n"))).toList := by
        simp [String.join_cons]
      rw [htext, List.splitOn_eq_splitOnP,
        List.splitOnP_append_cons_of_forall_mem hfirst '\n' rfl, ← List.splitOn_eq_splitOnP,
        ih hrest]
      rfl

/-- A character that is in no part is not in the whole. -/
theorem not_mem_intercalate {c : Char} {sep : List Char} {texts : List (List Char)}
    (hsep : c ∉ sep) (htexts : ∀ text ∈ texts, c ∉ text) : c ∉ sep.intercalate texts := by
  induction texts with
  | nil => simp [List.intercalate]
  | cons text texts ih =>
      obtain ⟨htext, hrest⟩ := List.forall_mem_cons.mp htexts
      cases texts with
      | nil => simpa [List.intercalate] using htext
      | cons next texts =>
          have hih := ih hrest
          simp only [List.intercalate, List.intersperse_cons_cons, List.flatten_cons,
            List.mem_append, not_or] at hih ⊢
          exact ⟨htext, hsep, hih⟩

/-- A number takes one line. -/
theorem newline_not_mem_toString (n : Nat) : '\n' ∉ (toString n).toList := by
  rw [Nat.toString_eq_ofList_toDigits, String.toList_ofList]
  intro hmem
  have hdigit := Nat.isDigit_of_mem_toDigits (by decide) (by decide) hmem
  revert hdigit
  decide

/-- A list in braces takes one line when its items do. -/
theorem newline_not_mem_braceList {items : List String} (h : ∀ item ∈ items, '\n' ∉ item.toList) :
    '\n' ∉ (braceList items).toList := by
  have hitems : '\n' ∉ ", ".toList.intercalate (items.map String.toList) := by
    refine not_mem_intercalate (by decide) fun text htext => ?_
    obtain ⟨item, hitem, rfl⟩ := List.mem_map.mp htext
    exact h item hitem
  simp only [braceList, String.toList_append, String.toList_intercalate, List.mem_append, not_or]
  exact ⟨⟨by decide, hitems⟩, by decide⟩

/-! ### Entries -/

/-- What a header says of a kernel. -/
structure Entry where
  args : Nat
  isPointer : List Bool
  isLocal : List Bool
  locals : Nat
  sizes : List Nat

namespace Entry

/-- The properties of a kernel, with their values. -/
def properties (e : Entry) : List (String × String) :=
  [("NUM_ARGS", toString e.args), ("ARG_IS_POINTER", braceList (e.isPointer.map flag)),
    ("ARG_IS_LOCAL", braceList (e.isLocal.map flag)), ("NUM_LOCALS", toString e.locals),
    ("LOCAL_SIZE", braceList (e.sizes.map toString))]

/-- The block of a header that says all this of a kernel. -/
def text (kernel : String) (e : Entry) : String :=
  String.join (e.properties.map fun property => define kernel property.1 property.2)

/-- What is said agrees with a function: the arguments are its first parameters, and the locals are
what the others point to. -/
structure Describes (sizeOf : SizeOf) (e : Entry) (f : Function) : Prop where
  arity : e.args + e.locals = f.parameters.length
  length_isPointer : e.isPointer.length = e.args
  /-- A flag is set when the parameter is a pointer. -/
  isPointer_iff : ∀ i p, i < e.args → f.parameters[i]? = some p →
    (e.isPointer[i]? = some true ↔ ∃ pointee space, p.ty = .ptr pointee space)
  length_isLocal : e.isLocal.length = e.args
  /-- A flag is set when the parameter is a pointer into memory that the host does not see. -/
  isLocal_iff : ∀ i p, i < e.args → f.parameters[i]? = some p →
    (e.isLocal[i]? = some true ↔
      ∃ pointee space, p.ty = .ptr pointee space ∧ space ≠ .device ∧ space ≠ .constant)
  length_sizes : e.sizes.length = e.locals
  /-- A size is that of what the parameter points to. -/
  size : ∀ i < e.locals, ∃ name pointee space size,
    f.parameters[e.args + i]? = some ⟨name, .ptr pointee space⟩ ∧ e.sizes[i]? = some size ∧
    sizeOf pointee = .ok size

/-- The properties that a header speaks of. -/
def names : List String :=
  ["NUM_ARGS", "ARG_IS_POINTER", "ARG_IS_LOCAL", "NUM_LOCALS", "LOCAL_SIZE"]

/-- Every entry has the same properties, in the same order. -/
theorem map_fst_properties (e : Entry) : e.properties.map Prod.fst = names := rfl

/-- A truth value takes one line. -/
theorem newline_not_mem_flag (flags : List Bool) :
    ∀ item ∈ flags.map flag, '\n' ∉ item.toList := by
  intro item hitem
  obtain ⟨b, -, rfl⟩ := List.mem_map.mp hitem
  cases b <;> decide

/-- The value of a property takes one line. -/
theorem newline_not_mem_value {e : Entry} {property value : String}
    (h : (property, value) ∈ e.properties) : '\n' ∉ value.toList := by
  have hsizes : ∀ item ∈ e.sizes.map toString, '\n' ∉ item.toList := by
    intro item hitem
    obtain ⟨n, -, rfl⟩ := List.mem_map.mp hitem
    exact newline_not_mem_toString n
  simp only [properties, List.mem_cons, Prod.mk.injEq, List.not_mem_nil, or_false] at h
  rcases h with ⟨-, rfl⟩ | ⟨-, rfl⟩ | ⟨-, rfl⟩ | ⟨-, rfl⟩ | ⟨-, rfl⟩
  · exact newline_not_mem_toString e.args
  · exact newline_not_mem_braceList (newline_not_mem_flag e.isPointer)
  · exact newline_not_mem_braceList (newline_not_mem_flag e.isLocal)
  · exact newline_not_mem_toString e.locals
  · exact newline_not_mem_braceList hsizes

end Entry

/-! ### The names of macros -/

/-- How the line of a macro starts. -/
def defineStart (kernel property : String) : String :=
  "#define _" ++ kernel ++ "_" ++ property ++ " "

/-- The name of a macro, without the bar that it starts with. -/
def defineName (kernel property : String) : List Char :=
  kernel.toList ++ '_' :: property.toList

/-- **The name of a macro determines the kernel and the property.** Both properties end the same
name, so one of them ends the other. -/
theorem defineName_inj {kernel kernel' property property' : String}
    (hproperty : property ∈ Entry.names) (hproperty' : property' ∈ Entry.names)
    (h : defineName kernel property = defineName kernel' property') :
    kernel = kernel' ∧ property = property' := by
  have hends : ∀ p ∈ Entry.names, ∀ q ∈ Entry.names,
      '_' :: p.toList <:+ '_' :: q.toList → p = q := by decide +kernel
  have hsame : property = property' := by
    rcases List.suffix_or_suffix_of_suffix ⟨_, h⟩ (List.suffix_append kernel'.toList _) with
      hsuffix | hsuffix
    · exact hends _ hproperty _ hproperty' hsuffix
    · exact (hends _ hproperty' _ hproperty hsuffix).symm
  subst hsame
  exact ⟨String.toList_inj.mp (List.append_cancel_right h), rfl⟩

/-- The name of a macro has no blank in it, so it ends at the first one. -/
theorem blank_not_mem_defineName {kernel property : String} (hkernel : ' ' ∉ kernel.toList)
    (hproperty : property ∈ Entry.names) : ' ' ∉ defineName kernel property := by
  have hblank : ∀ p ∈ Entry.names, ' ' ∉ p.toList := by decide +kernel
  simp [defineName, hkernel, hblank property hproperty]

/-- A macro line in parts: the word for macros, the name, a blank and the value. -/
theorem toList_defineStart_append (kernel property value : String) :
    (defineStart kernel property ++ value).toList =
      "#define _".toList ++ (defineName kernel property ++ ' ' :: value.toList) := by
  simp [defineStart, defineName]

/-- What stands before the first blank of a text stands before the first blank of a text that starts
with it. -/
theorem eq_of_blank_prefix {name name' rest rest' : List Char} (hname : ' ' ∉ name)
    (hname' : ' ' ∉ name') (h : name ++ ' ' :: rest <+: name' ++ ' ' :: rest') :
    name = name' := by
  have htake : ∀ {text : List Char} (rest : List Char), ' ' ∉ text →
      (text ++ ' ' :: rest).takeWhile (· != ' ') = text := by
    intro text rest htext
    have hall : ∀ c ∈ text, (c != ' ') = true := by
      intro c hc
      simpa using fun heq : c = ' ' => htext (heq ▸ hc)
    rw [List.takeWhile_append_of_pos hall]
    simp
  obtain ⟨more, hmore⟩ := h
  rw [List.append_assoc, List.cons_append] at hmore
  calc name = (name ++ ' ' :: (rest ++ more)).takeWhile (· != ' ') := (htake _ hname).symm
    _ = (name' ++ ' ' :: rest').takeWhile (· != ' ') := by rw [hmore]
    _ = name' := htake _ hname'

/-- **The lines that start like that of a macro** are those of that macro. -/
theorem defineStart_isPrefixOf_iff {kernel kernel' property property' value : String}
    (hkernel : ' ' ∉ kernel.toList) (hkernel' : ' ' ∉ kernel'.toList)
    (hproperty : property ∈ Entry.names) (hproperty' : property' ∈ Entry.names) :
    (defineStart kernel property).toList.isPrefixOf
      (defineStart kernel' property' ++ value).toList = true ↔
        (kernel', property') = (kernel, property) := by
  rw [List.isPrefixOf_iff_prefix]
  constructor
  · intro hprefix
    rw [← String.append_empty (s := defineStart kernel property), toList_defineStart_append,
      toList_defineStart_append, List.prefix_append_right_inj] at hprefix
    have hname := eq_of_blank_prefix (blank_not_mem_defineName hkernel hproperty)
      (blank_not_mem_defineName hkernel' hproperty') hprefix
    obtain ⟨rfl, rfl⟩ := defineName_inj hproperty hproperty' hname
    rfl
  · intro h
    obtain ⟨rfl, rfl⟩ := Prod.mk.inj h
    rw [String.toList_append]
    exact List.prefix_append _ _

/-! ### One line for each macro -/

/-- Of entries with different keys, one has a given key. -/
theorem filter_key_eq {α β : Type} [DecidableEq α] {l : List (α × β)} {a : α} {b : β}
    (hkeys : (l.map Prod.fst).Nodup) (hmem : (a, b) ∈ l) :
    l.filter (fun entry => decide (entry.1 = a)) = [(a, b)] := by
  induction l with
  | nil => cases hmem
  | cons first l ih =>
      obtain ⟨hfirst, hrest⟩ := List.nodup_cons.mp hkeys
      rcases List.mem_cons.mp hmem with rfl | hmem
      · have hnone : l.filter (fun entry => decide (entry.1 = a)) = [] := by
          refine List.filter_eq_nil_iff.mpr fun entry hentry heq => hfirst ?_
          exact List.mem_map.mpr ⟨entry, hentry, of_decide_eq_true heq⟩
        rw [List.filter_cons_of_pos (by simp), hnone]
      · have hne : first.1 ≠ a := by
          rintro rfl
          exact hfirst (List.mem_map.mpr ⟨_, hmem, rfl⟩)
        rw [List.filter_cons_of_neg (by simpa using hne), ih hrest hmem]

/-- The macros of a header: the entries of some kernels, one after the other. -/
def rows (kernels : List (String × Entry)) : List ((String × String) × String) :=
  kernels.flatMap fun kernel => kernel.2.properties.map fun property =>
    ((kernel.1, property.1), property.2)

/-- There is a row for each kernel and each property. -/
theorem map_fst_rows (kernels : List (String × Entry)) :
    (rows kernels).map Prod.fst = kernels.map Prod.fst ×ˢ Entry.names := by
  have hkeys : ∀ kernel : String × Entry, (kernel.2.properties.map fun property =>
      ((kernel.1, property.1), property.2)).map Prod.fst = Entry.names.map (Prod.mk kernel.1) := by
    intro kernel
    rw [← Entry.map_fst_properties kernel.2, List.map_map, List.map_map]
    rfl
  rw [rows, List.map_flatMap]
  simp only [hkeys]
  change _ = (kernels.map Prod.fst).flatMap fun name => Entry.names.map (Prod.mk name)
  rw [List.flatMap_map]

/-- A row is about one of the kernels and one of its properties. -/
theorem exists_of_mem_rows {kernels : List (String × Entry)}
    {row : (String × String) × String} (h : row ∈ rows kernels) :
    ∃ kernel ∈ kernels, row.1.1 = kernel.1 ∧ (row.1.2, row.2) ∈ kernel.2.properties := by
  obtain ⟨kernel, hkernel, hrow⟩ := List.mem_flatMap.mp h
  obtain ⟨property, hproperty, rfl⟩ := List.mem_map.mp hrow
  exact ⟨kernel, hkernel, rfl, hproperty⟩

/-- The text of a header. -/
def headerText (kernels : List (String × Entry)) : String :=
  String.join (kernels.map fun kernel => kernel.2.text kernel.1)

/-- The line of a macro, without its end. -/
def rowLine (row : (String × String) × String) : String :=
  defineStart row.1.1 row.1.2 ++ row.2

/-- The text of a header is made of the lines of its macros. -/
theorem headerText_eq (kernels : List (String × Entry)) :
    headerText kernels = String.join (((rows kernels).map rowLine).map (· ++ "\n")) := by
  induction kernels with
  | nil => rfl
  | cons kernel kernels ih =>
      have hfirst : kernel.2.text kernel.1 = String.join (((kernel.2.properties.map fun property =>
          ((kernel.1, property.1), property.2)).map rowLine).map (· ++ "\n")) := by
        rw [Entry.text, List.map_map, List.map_map]
        rfl
      have hrows : rows (kernel :: kernels) = (kernel.2.properties.map fun property =>
          ((kernel.1, property.1), property.2)) ++ rows kernels := List.flatMap_cons
      rw [headerText, List.map_cons, String.join_cons, ← headerText, ih, hfirst, hrows,
        List.map_append, List.map_append, String.join_append]

section

variable {kernels : List (String × Entry)}
  (hplain : ∀ kernel ∈ kernels, ' ' ∉ kernel.1.toList ∧ '\n' ∉ kernel.1.toList)
include hplain

/-- A row takes one line. -/
theorem newline_not_mem_rowLine {row : (String × String) × String} (h : row ∈ rows kernels) :
    '\n' ∉ (rowLine row).toList := by
  obtain ⟨kernel, hkernel, hname, hproperty⟩ := exists_of_mem_rows h
  have hproperties : ∀ p ∈ Entry.names, '\n' ∉ p.toList := by decide +kernel
  have hmem : row.1.2 ∈ Entry.names := by
    rw [← Entry.map_fst_properties kernel.2]
    exact List.mem_map_of_mem hproperty
  rw [rowLine, toList_defineStart_append, defineName, hname]
  simp [(hplain kernel hkernel).2, hproperties _ hmem, Entry.newline_not_mem_value hproperty]

variable (kernels) in
/-- **Each macro has one line**, when the names of kernels are different and hold neither blanks nor
line ends. Behind the end of the last line stands the empty text, and that is no macro's line. -/
theorem linesStarting_header (hdistinct : (kernels.map Prod.fst).Nodup) {name : String} {e : Entry}
    (hkernel : (name, e) ∈ kernels) {property value : String}
    (hproperty : (property, value) ∈ e.properties) :
    linesStarting (defineStart name property) (headerText kernels) =
      [defineStart name property ++ value] := by
  have hlines : ∀ line ∈ (rows kernels).map rowLine, '\n' ∉ line.toList := by
    intro line hline
    obtain ⟨row, hrow, rfl⟩ := List.mem_map.mp hline
    exact newline_not_mem_rowLine hplain hrow
  have hkeys : ((rows kernels).map Prod.fst).Nodup := by
    rw [map_fst_rows]
    exact hdistinct.product (by decide +kernel)
  have hmem : ((name, property), value) ∈ rows kernels :=
    List.mem_flatMap.mpr ⟨(name, e), hkernel, List.mem_map.mpr ⟨(property, value), hproperty, rfl⟩⟩
  have hstart : ∀ row ∈ rows kernels,
      ((defineStart name property).toList.isPrefixOf ∘ String.toList ∘ rowLine) row =
        decide (row.1 = (name, property)) := by
    intro row hrow
    obtain ⟨kernel, hkernel', hname, hproperty'⟩ := exists_of_mem_rows hrow
    rw [Function.comp_apply, Function.comp_apply, Bool.eq_iff_iff, decide_eq_true_iff]
    refine defineStart_isPrefixOf_iff (hplain _ hkernel).1 (hname ▸ (hplain _ hkernel').1) ?_ ?_
    · rw [← Entry.map_fst_properties e]
      exact List.mem_map_of_mem hproperty
    · rw [← Entry.map_fst_properties kernel.2]
      exact List.mem_map_of_mem hproperty'
  have hend : [([] : List Char)].filter (defineStart name property).toList.isPrefixOf = [] := by
    simp [defineStart]
  rw [linesStarting, headerText_eq, splitOn_lines hlines, List.filter_append, hend,
    List.append_nil, List.map_map, List.filter_map, List.filter_congr hstart,
    filter_key_eq hkeys hmem]
  simp [rowLine]

end

/-! ### The entry of a kernel -/

/-- The entry of a kernel. -/
def entry (sizeOf : SizeOf) (m : Module) (f : Function) : Entry where
  args := f.parameters.length
  isPointer := f.parameters.map fun p => p.ty.isPointer
  isLocal := f.parameters.map fun p => isLocalPointer p.ty
  locals := (automaticLocals m f.name).length
  sizes := ((automaticLocals m f.name).filterMap m.global?).map fun g =>
    (sizeOf g.valueType).toOption.getD 0

/-- A pointer is a type that is made as one. -/
theorem isPointer_iff {ty : Ty} :
    ty.isPointer = true ↔ ∃ pointee space, ty = .ptr pointee space := by
  cases ty <;> simp [Ty.isPointer]

/-- A pointer into memory that the host does not see is into neither device nor constant memory. -/
theorem isLocalPointer_iff {ty : Ty} : isLocalPointer ty = true ↔
    ∃ pointee space, ty = .ptr pointee space ∧ space ≠ .device ∧ space ≠ .constant := by
  cases ty with
  | ptr pointee space =>
      cases space <;> simp [isLocalPointer, Ty.addressSpace?, AddressSpace.isLocalLike]
  | _ => simp [isLocalPointer, Ty.addressSpace?]

/-- A kernel that is replaced takes its automatic locals as parameters, and one that is not has
none. -/
theorem parameters_final :
    (final m f).parameters = f.parameters ++ localParameters m (automaticLocals m f.name) := by
  rw [final]
  split
  · next hnone =>
      rw [List.isEmpty_iff.mp hnone]
      exact (List.append_nil _).symm
  · rfl

/-- A kernel keeps its name when it is replaced. -/
theorem name_final : (final m f).name = f.name := by
  rw [final]
  split <;> rfl

section

variable (hsizes : ∀ l ∈ automaticLocals m f.name, ∀ g, m.global? l = some g →
  ∃ size, sizeOf g.valueType = .ok size)
include hsizes

/-- The text about a kernel is that of its entry. -/
theorem description_eq_text (hf : m.function? id = some f) :
    description sizeOf m id = .ok ((entry sizeOf m f).text f.name) := by
  have hmap : ((automaticLocals m f.name).filterMap m.global?).mapM (fun g => sizeOf g.valueType) =
      .ok (entry sizeOf m f).sizes := by
    refine mapM_ok fun g hg => ?_
    obtain ⟨l, hl, hglobal⟩ := List.mem_filterMap.mp hg
    obtain ⟨size, hsize⟩ := hsizes l hl g hglobal
    rw [hsize]
    rfl
  have htext : (entry sizeOf m f).text f.name = describeArguments f ++
      (define f.name "NUM_LOCALS" (toString (automaticLocals m f.name).length) ++
        define f.name "LOCAL_SIZE" (braceList ((entry sizeOf m f).sizes.map toString))) := by
    simp [Entry.text, Entry.properties, entry, describeArguments, String.join_cons,
      String.append_assoc, Function.comp_def]
  rw [description, hf, htext]
  simp only [describeLocals, hmap]
  rfl

/-- **The entry of a kernel describes what becomes of it.** -/
theorem describes_final : (entry sizeOf m f).Describes sizeOf (final m f) where
  arity := by
    rw [parameters_final, List.length_append,
      length_localParameters exists_global_of_mem_automaticLocals]
    rfl
  length_isPointer := List.length_map ..
  isPointer_iff i p hi hp := by
    rw [parameters_final, List.getElem?_append_left hi] at hp
    rw [← isPointer_iff, entry, List.getElem?_map, hp]
    simp
  length_isLocal := List.length_map ..
  isLocal_iff i p hi hp := by
    rw [parameters_final, List.getElem?_append_left hi] at hp
    rw [← isLocalPointer_iff, entry, List.getElem?_map, hp]
    simp
  length_sizes := by
    rw [entry, List.length_map, length_filterMap_global exists_global_of_mem_automaticLocals]
  size i hi := by
    obtain ⟨l, hl⟩ : ∃ l, (automaticLocals m f.name)[i]? = some l :=
      ⟨_, List.getElem?_eq_getElem hi⟩
    have hmem := List.mem_of_getElem? hl
    obtain ⟨g, hg⟩ := exists_global_of_mem_automaticLocals l hmem
    obtain ⟨size, hsize⟩ := hsizes l hmem g hg
    refine ⟨"_local" ++ toString i, g.valueType, g.space, size, ?_, ?_, hsize⟩
    · rw [parameters_final, entry, List.getElem?_append_right (Nat.le_add_right _ _),
        Nat.add_sub_cancel_left,
        getElem?_localParameters exists_global_of_mem_automaticLocals hl hg]
      rfl
    · rw [entry, List.getElem?_map, getElem?_filterMap_global exists_global_of_mem_automaticLocals,
        hl, Option.bind_some, hg, Option.map_some, hsize]
      rfl

end

/-! ### The run -/

/-- The entry of the function in a slot. An empty slot is given one that is never written. -/
def entryAt (sizeOf : SizeOf) (m : Module) (id : FunctionId) : Entry :=
  ((m.function? id).map (entry sizeOf m)).getD ⟨0, [], [], 0, []⟩

/-- The entry of a kernel is that of the function in its slot. -/
theorem entryAt_eq (hf : m.function? id = some f) : entryAt sizeOf m id = entry sizeOf m f := by
  rw [entryAt, hf]
  rfl

/-- The blocks of a header: one for each kernel, in the order of their slots. -/
theorem mapM_description (hslots : m.functions.length ≤ 2 ^ 32)
    (hsized : Sized sizeOf accepts m) :
    (kernelIds accepts m).mapM (description sizeOf m) =
      .ok ((kernelIds accepts m).map fun id =>
        (entryAt sizeOf m id).text (m.functionName id)) := by
  refine mapM_ok fun id hid => ?_
  obtain ⟨hacc, f, hf⟩ := (mem_kernelIds hslots).mp hid
  rw [description_eq_text (hsized id f hacc hf) hf, entryAt_eq hf,
    Module.functionName_of_function? hf]

/-- **The header that is written agrees with the module that is left.** Take a module with room for
the replacements, where the kernels have different names without blanks and line ends, and a sink
that takes all that is written. On a target that gives sizes to all automatic locals of kernels the
pass succeeds and writes one block of text for each kernel, in the order of their slots. The entry
that the block spells out describes the function that stands for the kernel in the module that is
left, and each of its macros has exactly one line in the whole text. On any other target the pass
ends with a fault, and no kernel is replaced. -/
theorem run_header_agrees {σ : Type} [Sink σ] (sizeOf : SizeOf) (accepts : KernelPredicate)
    (detail : Detail) (m : Module) (sink : σ)
    (hslots : m.functions.length + (owners accepts m).length ≤ 2 ^ 32)
    (hdistinct : ((kernelIds accepts m).map m.functionName).Nodup)
    (hplain : ∀ id ∈ kernelIds accepts m,
      ' ' ∉ (m.functionName id).toList ∧ '\n' ∉ (m.functionName id).toList)
    (hwrite : ∀ (sink : σ) text, ∃ sink', Sink.write sink text = .ok sink')
    (hflush : ∀ sink : σ, ∃ sink', Sink.flush sink = .ok sink') :
    (Sized sizeOf accepts m →
      ∃ (entries : FunctionId → Entry) (blocks : List String) (written sink' : σ) (m' : Module)
        (changed : Bool),
        blocks = ((kernelIds accepts m).map fun id => (entries id).text (m.functionName id)) ∧
        blocks.foldlM Sink.write sink = .ok written ∧ Sink.flush written = .ok sink' ∧
        (Header.run sizeOf accepts).Ends detail ⟨m, sink⟩ (.ok changed) ⟨m', sink'⟩ ∧
        ∀ id ∈ kernelIds accepts m, ∃ f', m'.function? (image accepts m id) = some f' ∧
          f'.name = m.functionName id ∧ (entries id).Describes sizeOf f' ∧
          ∀ property value, (property, value) ∈ (entries id).properties →
            linesStarting (defineStart (m.functionName id) property) (String.join blocks) =
              [defineStart (m.functionName id) property ++ value]) ∧
    (¬Sized sizeOf accepts m → ∃ fault sink',
      (Header.run sizeOf accepts).Ends detail ⟨m, sink⟩ (.error (.fault fault)) ⟨m, sink'⟩) := by
  have hslots' : m.functions.length ≤ 2 ^ 32 := Nat.le_of_add_right_le hslots
  refine ⟨fun hsized => ?_, fun hunsized => run_faults_of_not_sized hslots' hwrite hunsized
    detail sink⟩
  obtain ⟨written, hwritten⟩ := exists_foldlM_write hwrite
    ((kernelIds accepts m).map fun id => (entryAt sizeOf m id).text (m.functionName id)) sink
  obtain ⟨sink', hflushed⟩ := hflush written
  refine ⟨entryAt sizeOf m, _, written, sink', headed accepts m, _, rfl, hwritten, hflushed,
    run_ends (length_toReplace_plan ▸ hslots) (mapM_description hslots' hsized) hwritten hflushed
      detail, ?_⟩
  intro id hid
  obtain ⟨hacc, f, hf⟩ := (mem_kernelIds hslots').mp hid
  refine ⟨final m f, function?_headed_image hslots hid hf, ?_, ?_, ?_⟩
  · rw [name_final, Module.functionName_of_function? hf]
  · rw [entryAt_eq hf]
    exact describes_final (hsized id f hacc hf)
  · have hlines := linesStarting_header ((kernelIds accepts m).map fun id =>
      (m.functionName id, entryAt sizeOf m id))
    simp only [headerText, List.map_map, List.forall_mem_map] at hlines
    intro property value hproperty
    exact hlines hplain hdistinct (List.mem_map_of_mem hid) hproperty

/-- A kernel with parameters that does nothing. -/
def pointing (name : String) : Function :=
  { idle name with
    parameters := [{ name := "in", ty := .ptr .i32 .device }, { name := "n", ty := .i32 },
      { name := "tmp", ty := .ptr .f32 .workGroup }] }

/-- A module whose kernels have names that start like each other's macros. -/
def namesakeModule : Module where
  name := "module"
  functions := [some (pointing "k"), some (idle "k_NUM"), some (idle "k_NUM_ARGS")]
  globals :=
    [{ name := "k.buffer", valueType := .array 16 .i32, space := .workGroup },
      { name := "k_NUM_ARGS.flag", valueType := .i8, space := .workGroup },
      { name := "k.count", valueType := .i64, space := .workGroup }]
  metadata := [⟨kernelsTable, [.ofFunction ⟨0⟩, .ofFunction ⟨1⟩, .ofFunction ⟨2⟩]⟩]

/-- Every macro has one line of its own, though the names of the kernels start like each other's
macros. -/
theorem run_header_agrees_namesakes :
    kernelIds (Selection.accepts {}) namesakeModule = [⟨0⟩, ⟨1⟩, ⟨2⟩] ∧
    [⟨0⟩, ⟨1⟩, ⟨2⟩].map namesakeModule.functionName = ["k", "k_NUM", "k_NUM_ARGS"] ∧
    owners (Selection.accepts {}) namesakeModule = [⟨0⟩, ⟨2⟩] ∧
    Sized (DataLayout.allocSize 8) (Selection.accepts {}) namesakeModule ∧
    ∃ (entries : FunctionId → Entry) (blocks : List String) (header : String) (m' : Module),
      blocks.foldlM Sink.write "" = .ok header ∧
      (Header.run (DataLayout.allocSize 8) (Selection.accepts {})).Ends none
        ⟨namesakeModule, ""⟩ (.ok true) ⟨m', header⟩ ∧
      header =
        "#define _k_NUM_ARGS 3\n#define _k_ARG_IS_POINTER \x7b1, 0, 1\x7d\n" ++
        "#define _k_ARG_IS_LOCAL \x7b0, 0, 1\x7d\n#define _k_NUM_LOCALS 2\n" ++
        "#define _k_LOCAL_SIZE \x7b64, 8\x7d\n" ++
        "#define _k_NUM_NUM_ARGS 0\n#define _k_NUM_ARG_IS_POINTER \x7b\x7d\n" ++
        "#define _k_NUM_ARG_IS_LOCAL \x7b\x7d\n#define _k_NUM_NUM_LOCALS 0\n" ++
        "#define _k_NUM_LOCAL_SIZE \x7b\x7d\n" ++
        "#define _k_NUM_ARGS_NUM_ARGS 0\n#define _k_NUM_ARGS_ARG_IS_POINTER \x7b\x7d\n" ++
        "#define _k_NUM_ARGS_ARG_IS_LOCAL \x7b\x7d\n#define _k_NUM_ARGS_NUM_LOCALS 1\n" ++
        "#define _k_NUM_ARGS_LOCAL_SIZE \x7b1\x7d\n" ∧
      ∀ id ∈ kernelIds (Selection.accepts {}) namesakeModule, ∃ f',
        m'.function? (image (Selection.accepts {}) namesakeModule id) = some f' ∧
        f'.name = namesakeModule.functionName id ∧
        (entries id).Describes (DataLayout.allocSize 8) f' ∧
        ∀ property value, (property, value) ∈ (entries id).properties →
          linesStarting (defineStart (namesakeModule.functionName id) property)
            (String.join blocks) =
              [defineStart (namesakeModule.functionName id) property ++ value] := by
  have hkernels : kernelIds (Selection.accepts {}) namesakeModule = [⟨0⟩, ⟨1⟩, ⟨2⟩] := by
    decide +kernel
  have hnames : [⟨0⟩, ⟨1⟩, ⟨2⟩].map namesakeModule.functionName =
      ["k", "k_NUM", "k_NUM_ARGS"] := by decide +kernel
  have howners : owners (Selection.accepts {}) namesakeModule = [⟨0⟩, ⟨2⟩] := by decide +kernel
  have hsized : Sized (DataLayout.allocSize 8) (Selection.accepts {}) namesakeModule := by
    intro id f _ _ l _ g hg
    have hmem : g ∈ namesakeModule.globals := List.mem_of_getElem? hg
    simp only [namesakeModule, List.mem_cons, List.not_mem_nil, or_false] at hmem
    rcases hmem with rfl | rfl | rfl
    · exact ⟨64, rfl⟩
    · exact ⟨1, rfl⟩
    · exact ⟨8, rfl⟩
  have hplain : ∀ id ∈ kernelIds (Selection.accepts {}) namesakeModule,
      ' ' ∉ (namesakeModule.functionName id).toList ∧
        '\n' ∉ (namesakeModule.functionName id).toList := by
    rw [hkernels]
    decide +kernel
  have hresult : ((Header.run (DataLayout.allocSize 8) (Selection.accepts {})).run none
      (⟨namesakeModule, ""⟩ : Header.Work String)).result = .ok true := by decide +kernel
  obtain ⟨entries, blocks, written, header, m', changed, -, hwritten, hflushed, hends, hall⟩ :=
    (run_header_agrees (DataLayout.allocSize 8) (Selection.accepts {}) none namesakeModule ""
      (by rw [howners]; decide) (by rw [hkernels, hnames]; decide) hplain
      (fun sink text => ⟨sink ++ text, rfl⟩) (fun sink => ⟨sink, rfl⟩)).1 hsized
  obtain rfl : written = header := Except.ok.inj hflushed
  obtain rfl : true = changed := Except.ok.inj (hresult.symm.trans hends.1)
  refine ⟨hkernels, hnames, howners, hsized, entries, blocks, written, m', hwritten, hends, ?_,
    hall⟩
  have hsink : ((Header.run (DataLayout.allocSize 8) (Selection.accepts {})).run none
      (⟨namesakeModule, ""⟩ : Header.Work String)).state.sink = written := by rw [hends.2]
  rw [← hsink]
  decide +kernel

end Kernel

end Lockstep
