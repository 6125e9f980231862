import Lockstep.Kernel
import Lockstep.Proofs.Function.Copy
import Lockstep.Proofs.Kernel.Tables
import Lockstep.Proofs.Module
import Lockstep.Proofs.Pass

/-!
# Replacing kernels

What replacing the kernels of a plan does to a module. The slots of the kernels that have automatic
locals become empty, and their copies come behind all other functions, in the order of the plan.
`Kernel.replaced` is the module that is left, as a function of the module and of the plan, and the
computations on the way end with it.

## Main results

* `Kernel.foldlM_replace_ends` and `Kernel.commit_ends`: the two steps of a replacement.
* `Kernel.function?_replaced_of_lt` and `Kernel.function?_replaced_copy`: the functions afterwards.
* `Kernel.wellFormed_replaced`: a well-formed module stays so.
-/

namespace Lockstep

namespace Kernel

variable {m : Module} {plan : List (FunctionId × List GlobalId)} {id : FunctionId} {f : Function}
  {locals : List GlobalId} {n : Nat} {detail : Detail}

/-- The copy of a kernel that takes its automatic locals as parameters. -/
theorem widened_eq : widened m f locals =
    f.copied (localMap f.parameters.length locals).apply
      (f.parameters ++ localParameters m locals) := rfl

/-! ### What a plan does -/

/-- The kernels of a plan that have automatic locals. -/
def toReplace (plan : List (FunctionId × List GlobalId)) : List (FunctionId × List GlobalId) :=
  plan.filter fun planned => !planned.2.isEmpty

/-- The slots with those of some functions emptied. -/
def emptied (ids : List FunctionId) (slots : List (Option Function)) : List (Option Function) :=
  modifyAll (fun _ => none) ArenaId.index ids slots

/-- The slots with some functions left without their names. -/
def unnamed (ids : List FunctionId) (slots : List (Option Function)) : List (Option Function) :=
  modifyAll (·.map ({ · with name := "" })) ArenaId.index ids slots

/-- The copies of the kernels of a plan that have automatic locals. -/
def copies (m : Module) (plan : List (FunctionId × List GlobalId)) : List (Option Function) :=
  (toReplace plan).map fun planned => (m.function? planned.1).map (widened m · planned.2)

/-- The kernels of a plan with what stands in for them, the next new identifier being `n`. -/
def pairsFrom : Nat → List (FunctionId × List GlobalId) → List Pair
  | _, [] => []
  | n, (id, locals) :: rest =>
      if locals.isEmpty then (id, id) :: pairsFrom n rest
      else (id, .ofIndex n) :: pairsFrom (n + 1) rest

/-- The module after the kernels of a plan were replaced. -/
def replaced (m : Module) (plan : List (FunctionId × List GlobalId)) : Module :=
  { regenerateTables m (pairsFrom m.functions.length plan) with
    functions := emptied ((toReplace plan).map Prod.fst) m.functions ++ copies m plan }

/-- A plan of a module: all kernels on it exist, and none is on it twice. -/
structure Planned (m : Module) (plan : List (FunctionId × List GlobalId)) : Prop where
  exists_function : ∀ planned ∈ plan, ∃ f, m.function? planned.1 = some f
  nodup : (plan.map Prod.fst).Nodup

namespace Planned

/-- The kernels on a plan stand in slots of the module. -/
theorem index_lt (h : Planned m plan) {planned : FunctionId × List GlobalId}
    (hmem : planned ∈ plan) : planned.1.index < m.functions.length := by
  obtain ⟨f, hf⟩ := h.exists_function planned hmem
  exact (List.getElem?_eq_some_iff.mp (Module.function?_eq_some.mp hf)).1

/-- A plan without its first kernel is one. -/
theorem tail {planned : FunctionId × List GlobalId} (h : Planned m (planned :: plan)) :
    Planned m plan :=
  ⟨fun q hq => h.exists_function q (List.mem_cons_of_mem _ hq), (List.nodup_cons.mp h.nodup).2⟩

/-- The kernels on a plan are different ones. -/
theorem ne_of_mem {first planned : FunctionId × List GlobalId} (h : Planned m (first :: plan))
    (hmem : planned ∈ plan) : planned.1 ≠ first.1 := by
  intro heq
  refine (List.nodup_cons.mp h.nodup).1 ?_
  rw [← heq]
  exact List.mem_map_of_mem hmem

/-- The kernels to be replaced stand in slots of the module. -/
theorem index_lt_of_mem_toReplace (h : Planned m plan) :
    ∀ id ∈ (toReplace plan).map Prod.fst, id.index < m.functions.length := by
  intro id hid
  obtain ⟨planned, hplanned, rfl⟩ := List.mem_map.mp hid
  exact h.index_lt (List.mem_filter.mp hplanned).1

end Planned

/-! ### The copies are added -/

/-- The module with the copies of kernels behind its functions, the kernels being left without
their names. -/
def withCopiesAdded (m : Module) (plan : List (FunctionId × List GlobalId)) : Module :=
  { m with
    functions := unnamed ((toReplace plan).map Prod.fst) m.functions ++ copies m plan }

/-- Nothing happens when no kernel has automatic locals. -/
theorem withCopiesAdded_of_isEmpty (h : (toReplace plan).isEmpty = true) :
    withCopiesAdded m plan = m := by
  have hnil := List.isEmpty_iff.mp h
  simp [withCopiesAdded, hnil, unnamed, modifyAll, copies]

/-- A kernel with automatic locals is to be replaced. -/
theorem toReplace_cons (hlocals : locals.isEmpty = false) :
    toReplace ((id, locals) :: plan) = (id, locals) :: toReplace plan := by
  rw [toReplace, List.filter_cons_of_pos (by simp [hlocals])]
  rfl

/-- A kernel without automatic locals stands in for itself. -/
theorem pairsFrom_cons_nil : pairsFrom n ((id, []) :: plan) = (id, id) :: pairsFrom n plan := rfl

/-- A kernel with automatic locals gets the next slot for its copy. -/
theorem pairsFrom_cons (hlocals : locals.isEmpty = false) :
    pairsFrom n ((id, locals) :: plan) = (id, .ofIndex n) :: pairsFrom (n + 1) plan := by
  rw [pairsFrom, if_neg (by simp [hlocals])]

/-- The module when the first copy was added. -/
def withCopy (m : Module) (id : FunctionId) (f : Function) (locals : List GlobalId) : Module :=
  ((m.setFunction id { f with name := "" }).addFunction (widened m f locals)).2

/-- The slots after a kernel was copied: it has lost its name, and the copy comes last. -/
theorem functions_withCopy (hf : m.function? id = some f) :
    (withCopy m id f locals).functions =
      m.functions.modify id.index (·.map ({ · with name := "" })) ++
        [some (widened m f locals)] := by
  rw [withCopy, Module.setFunction_eq hf ({ · with name := "" })]
  rfl

/-- Adding one copy keeps the other functions. -/
theorem function?_withCopy (hf : m.function? id = some f) {id' : FunctionId} (hne : id' ≠ id)
    {f' : Function} (hf' : m.function? id' = some f') :
    (withCopy m id f locals).function? id' = some f' := by
  have hlt := (List.getElem?_eq_some_iff.mp (Module.function?_eq_some.mp hf')).1
  rw [Module.function?_eq_some, functions_withCopy hf,
    List.getElem?_append_left (by simpa using hlt),
    List.getElem?_modify_ne _ _ fun heq => hne (ArenaId.index_inj heq).symm]
  exact Module.function?_eq_some.mp hf'

/-- What is left of a plan is one for the module with the copy. -/
theorem Planned.withCopy (h : Planned m ((id, locals) :: plan)) (hf : m.function? id = some f) :
    Planned (withCopy m id f locals) plan := by
  refine ⟨fun planned hmem => ?_, h.tail.nodup⟩
  obtain ⟨f', hf'⟩ := h.tail.exists_function planned hmem
  exact ⟨f', function?_withCopy hf (h.ne_of_mem hmem) hf'⟩

/-- The rest of the plan, after the first copy was added. -/
theorem withCopiesAdded_withCopy (h : Planned m ((id, locals) :: plan))
    (hlocals : locals.isEmpty = false) (hf : m.function? id = some f) :
    withCopiesAdded (withCopy m id f locals) plan = withCopiesAdded m ((id, locals) :: plan) := by
  have hcopies : copies (withCopy m id f locals) plan = copies m plan := by
    refine List.map_congr_left fun planned hplanned => ?_
    have hmem := (List.mem_filter.mp hplanned).1
    obtain ⟨f', hf'⟩ := h.tail.exists_function planned hmem
    rw [function?_withCopy hf (h.ne_of_mem hmem) hf', hf']
    rfl
  have hids : ∀ id' ∈ (toReplace plan).map Prod.fst,
      id'.index < (m.functions.modify id.index
        (·.map fun f => ({ f with name := "" } : Function))).length := by
    rw [List.length_modify]
    exact h.tail.index_lt_of_mem_toReplace
  have hfunctions : (withCopiesAdded (withCopy m id f locals) plan).functions =
      (withCopiesAdded m ((id, locals) :: plan)).functions := by
    rw [withCopiesAdded, withCopiesAdded, hcopies, functions_withCopy hf, unnamed,
      modifyAll_append hids, toReplace_cons hlocals, copies, copies, toReplace_cons hlocals]
    simp [hf, unnamed, modifyAll_cons]
  exact congrArg (fun slots => { m with functions := slots }) hfunctions

/-- One copy is added. -/
theorem replaceKernel_ends (hf : m.function? id = some f) :
    (replaceKernel id locals).Ends detail m (.ok (.ofIndex m.functions.length))
      (withCopy m id f locals) := by
  have hadded : ((m.setFunction id { f with name := "" }).addFunction (widened m f locals)).1 =
      .ofIndex m.functions.length := by
    rw [Module.addFunction, Module.length_setFunction]
  refine .bind .get ?_
  simp only [hf]
  refine .bind (.log rfl) (.bind (.set _) ?_)
  rw [hadded]
  exact .pure _

/-- A kernel with automatic locals is replaced by a copy in a new slot. -/
theorem replace_ends (hf : m.function? id = some f) (hlocals : locals.isEmpty = false)
    (r : Replacements) :
    (Header.replace r (id, locals)).Ends detail m
      (.ok ⟨r.pairs ++ [(id, .ofIndex m.functions.length)]⟩) (withCopy m id f locals) := by
  rw [Header.replace]
  simp only [hlocals, Bool.false_eq_true, if_false]
  exact .bind (replaceKernel_ends hf) (.pure _)

/-- **The copies are added** in the order of the plan. -/
theorem foldlM_replace_ends (h : Planned m plan) (r : Replacements) :
    (plan.foldlM Header.replace r).Ends detail m
      (.ok ⟨r.pairs ++ pairsFrom m.functions.length plan⟩) (withCopiesAdded m plan) := by
  induction plan generalizing m r with
  | nil =>
      rw [withCopiesAdded_of_isEmpty rfl, pairsFrom, List.append_nil]
      exact .pure r
  | cons planned plan ih =>
      obtain ⟨id, locals⟩ := planned
      rw [List.foldlM_cons]
      cases hlocals : locals.isEmpty with
      | true =>
          obtain rfl := List.isEmpty_iff.mp hlocals
          have hstep : (Header.replace r (id, [])).Ends detail m
              (.ok ⟨r.pairs ++ [(id, id)]⟩) m := .pure _
          have hrest := ih h.tail ⟨r.pairs ++ [(id, id)]⟩
          rw [List.append_assoc] at hrest
          exact .bind hstep hrest
      | false =>
          obtain ⟨f, hf⟩ := h.exists_function (id, locals) List.mem_cons_self
          have hrest := ih (h.withCopy hf) ⟨r.pairs ++ [(id, .ofIndex m.functions.length)]⟩
          rw [withCopiesAdded_withCopy h hlocals hf, functions_withCopy hf, List.length_append,
            List.length_modify, List.append_assoc] at hrest
          rw [pairsFrom_cons hlocals]
          exact .bind (replace_ends hf hlocals r) hrest

/-! ### The pairs -/

/-- A kernel without automatic locals stands in for itself. -/
theorem mem_pairsFrom_of_nil (hmem : (id, []) ∈ plan) : (id, id) ∈ pairsFrom n plan := by
  induction plan generalizing n with
  | nil => cases hmem
  | cons planned plan ih =>
      obtain ⟨first, locals⟩ := planned
      cases hlocals : locals.isEmpty with
      | true =>
          obtain rfl := List.isEmpty_iff.mp hlocals
          rw [pairsFrom_cons_nil]
          rcases List.mem_cons.mp hmem with heq | hmem
          · cases heq
            exact List.mem_cons_self
          · exact List.mem_cons_of_mem _ (ih hmem)
      | false =>
          rw [pairsFrom_cons hlocals]
          rcases List.mem_cons.mp hmem with heq | hmem
          · cases heq
            cases hlocals
          · exact List.mem_cons_of_mem _ (ih hmem)

/-- The copy of a kernel stands in for it. -/
theorem mem_pairsFrom_of_getElem? {k : Nat} (hget : (toReplace plan)[k]? = some (id, locals)) :
    (id, .ofIndex (n + k)) ∈ pairsFrom n plan := by
  induction plan generalizing n k with
  | nil => cases hget
  | cons planned plan ih =>
      obtain ⟨first, locals'⟩ := planned
      cases hlocals : locals'.isEmpty with
      | true =>
          obtain rfl := List.isEmpty_iff.mp hlocals
          exact List.mem_cons_of_mem _ (ih hget)
      | false =>
          rw [toReplace_cons hlocals] at hget
          rw [pairsFrom_cons hlocals]
          cases k with
          | zero =>
              cases hget
              exact List.mem_cons_self
          | succ k =>
              rw [← Nat.add_assoc, Nat.add_right_comm]
              exact List.mem_cons_of_mem _ (ih hget)

/-- **What stands in for a kernel**, by its place among those with automatic locals. -/
theorem pairsFrom_eq_map (hplan : (plan.map Prod.fst).Nodup) :
    pairsFrom n plan = plan.map fun planned =>
      (planned.1, if planned.2.isEmpty = true then planned.1
        else .ofIndex (n + ((toReplace plan).map Prod.fst).idxOf planned.1)) := by
  induction plan generalizing n with
  | nil => rfl
  | cons planned plan ih =>
      obtain ⟨id, locals⟩ := planned
      obtain ⟨hid, hrest⟩ := List.nodup_cons.mp hplan
      cases hlocals : locals.isEmpty with
      | true =>
          obtain rfl := List.isEmpty_iff.mp hlocals
          rw [pairsFrom_cons_nil, ih hrest]
          rfl
      | false =>
          rw [pairsFrom_cons hlocals, ih hrest, toReplace_cons hlocals, List.map_cons]
          simp only [List.map_cons, List.idxOf_cons_self, hlocals, Bool.false_eq_true, if_false,
            Nat.add_zero]
          refine congrArg _ (List.map_congr_left fun planned hmem => ?_)
          have hne : id ≠ planned.1 := by
            rintro rfl
            exact hid (List.mem_map.mpr ⟨planned, hmem, rfl⟩)
          rw [List.idxOf_cons_ne _ hne, Nat.succ_eq_add_one, Nat.add_right_comm, Nat.add_assoc]

/-- What stands in for a kernel is the kernel itself, if it has no automatic locals, or a new
function. -/
theorem of_mem_pairsFrom {pair : Pair} (hmem : pair ∈ pairsFrom n plan) :
    (pair.2, []) ∈ plan ∨ ∃ k < (toReplace plan).length, pair.2 = .ofIndex (n + k) := by
  induction plan generalizing n with
  | nil => cases hmem
  | cons planned plan ih =>
      obtain ⟨first, locals⟩ := planned
      cases hlocals : locals.isEmpty with
      | true =>
          obtain rfl := List.isEmpty_iff.mp hlocals
          rw [pairsFrom_cons_nil] at hmem
          rcases List.mem_cons.mp hmem with rfl | hmem
          · exact .inl List.mem_cons_self
          · exact (ih hmem).imp_left (List.mem_cons_of_mem _)
      | false =>
          rw [pairsFrom_cons hlocals] at hmem
          rw [toReplace_cons hlocals, List.length_cons]
          rcases List.mem_cons.mp hmem with rfl | hmem
          · exact .inr ⟨0, Nat.succ_pos _, rfl⟩
          · rcases ih hmem with hplan | ⟨k, hk, hnew⟩
            · exact .inl (List.mem_cons_of_mem _ hplan)
            · exact .inr ⟨k + 1, Nat.succ_lt_succ hk, by rw [hnew, Nat.add_right_comm]; rfl⟩

/-- The kernels that are not their own replacements are those with automatic locals. -/
theorem map_fst_changed (hlt : ∀ planned ∈ plan, planned.1.index < n)
    (hfits : n + (toReplace plan).length ≤ 2 ^ 32) :
    (Replacements.changed ⟨pairsFrom n plan⟩).map Prod.fst = (toReplace plan).map Prod.fst := by
  induction plan generalizing n with
  | nil => rfl
  | cons planned plan ih =>
      obtain ⟨id, locals⟩ := planned
      obtain ⟨hid, hplan⟩ := List.forall_mem_cons.mp hlt
      cases hlocals : locals.isEmpty with
      | true =>
          obtain rfl := List.isEmpty_iff.mp hlocals
          rw [pairsFrom_cons_nil, Replacements.changed, List.filter_cons_of_neg (by simp)]
          exact ih hplan hfits
      | false =>
          rw [toReplace_cons hlocals, List.length_cons] at hfits
          have hne : id ≠ .ofIndex n := by
            rintro rfl
            rw [ArenaId.index_ofIndex (by omega)] at hid
            exact Nat.lt_irrefl n hid
          have hrest := ih (fun q hq => Nat.lt_succ_of_lt (hplan q hq)) (by omega)
          rw [pairsFrom_cons hlocals, Replacements.changed,
            List.filter_cons_of_pos (by simpa using hne), toReplace_cons hlocals, List.map_cons,
            List.map_cons, ← hrest]
          rfl

/-- Some kernel was replaced when there was one to be replaced. -/
theorem anyChanged_pairsFrom (hlt : ∀ planned ∈ plan, planned.1.index < n)
    (hfits : n + (toReplace plan).length ≤ 2 ^ 32) :
    Replacements.anyChanged ⟨pairsFrom n plan⟩ = !(toReplace plan).isEmpty := by
  rw [Replacements.anyChanged, ← List.isEmpty_map (f := Prod.fst), map_fst_changed hlt hfits,
    List.isEmpty_map]

/-! ### The replaced kernels are erased -/

/-- Erasing replaced kernels empties their slots. -/
theorem forM_eraseOld_ends (detail : Detail) (m : Module) (pairs : List Pair) :
    (pairs.forM Replacements.eraseOld).Ends detail m (.ok ())
      { m with functions := emptied (pairs.map Prod.fst) m.functions } := by
  induction pairs generalizing m with
  | nil => exact .pure ()
  | cons pair pairs ih =>
      have herase : (Replacements.eraseOld pair).Ends detail m (.ok ())
          (m.eraseFunction pair.1) := .bind (.log rfl) ⟨rfl, rfl⟩
      have hrest := ih (m.eraseFunction pair.1)
      rw [Module.eraseFunction, List.set_eq_modify] at hrest herase
      rw [List.forM]
      exact .bind herase hrest

/-- **The tables are repaired and the replaced kernels erased.** -/
theorem commit_ends (detail : Detail) (m : Module) (r : Replacements) :
    r.commit.Ends detail m (.ok ())
      { regenerateTables m r.pairs with
        functions := emptied (r.changed.map Prod.fst) m.functions } := by
  have hfunctions : (regenerateTables m r.pairs).functions = m.functions := by
    rw [regenerateTables_eq]
  have herase := forM_eraseOld_ends detail (regenerateTables m r.pairs) r.changed
  rw [hfunctions] at herase
  exact .bind (a := ()) ⟨rfl, rfl⟩ herase

/-- The slots after some of them were emptied. -/
theorem getElem?_emptied {ids : List FunctionId} {slots : List (Option Function)} {i : Nat} :
    (emptied ids slots)[i]? =
      if i ∈ ids.map ArenaId.index then slots[i]?.map fun _ => none else slots[i]? :=
  getElem?_modifyAll fun _ => rfl

/-- Emptying slots adds no function. -/
theorem mem_of_mem_emptied {ids : List FunctionId} {slots : List (Option Function)}
    (h : some f ∈ emptied ids slots) : some f ∈ slots := by
  obtain ⟨i, hi⟩ := List.mem_iff_getElem?.mp h
  rw [getElem?_emptied] at hi
  split at hi
  · simp at hi
  · exact List.mem_of_getElem? hi

/-- A slot that is emptied may have lost its name before. -/
theorem emptied_unnamed (ids : List FunctionId) (slots : List (Option Function)) :
    emptied ids (unnamed ids slots) = emptied ids slots := by
  refine List.ext_getElem? fun i => ?_
  rw [getElem?_emptied, getElem?_emptied, unnamed,
    getElem?_modifyAll fun slot => by cases slot <;> rfl]
  split
  · rw [Option.map_map]
    rfl
  · rfl

/-- **What a replacement leaves**, when both steps are done. -/
theorem replaced_ends (h : Planned m plan)
    (hfits : m.functions.length + (toReplace plan).length ≤ 2 ^ 32) :
    (Replacements.commit ⟨pairsFrom m.functions.length plan⟩).Ends detail (withCopiesAdded m plan)
      (.ok ()) (replaced m plan) := by
  have hchanged := map_fst_changed (fun _ => h.index_lt) hfits
  have hemptied : emptied ((toReplace plan).map Prod.fst) (withCopiesAdded m plan).functions =
      emptied ((toReplace plan).map Prod.fst) m.functions ++ copies m plan := by
    rw [withCopiesAdded, emptied, modifyAll_append, ← emptied, emptied_unnamed]
    rw [unnamed, length_modifyAll]
    exact h.index_lt_of_mem_toReplace
  have hcommit := commit_ends detail (withCopiesAdded m plan)
    ⟨pairsFrom m.functions.length plan⟩
  rw [hchanged, hemptied, regenerateTables_eq] at hcommit
  rw [replaced, regenerateTables_eq]
  exact hcommit

/-! ### The functions afterwards -/

/-- There is a slot more for each kernel that is replaced. -/
theorem length_replaced :
    (replaced m plan).functions.length = m.functions.length + (toReplace plan).length := by
  rw [replaced, List.length_append, emptied, length_modifyAll, copies, List.length_map]

/-- The slots that there were. -/
theorem function?_replaced_of_lt (hid : id.index < m.functions.length) :
    (replaced m plan).function? id =
      if id ∈ (toReplace plan).map Prod.fst then none else m.function? id := by
  have hmem : id.index ∈ ((toReplace plan).map Prod.fst).map ArenaId.index ↔
      id ∈ (toReplace plan).map Prod.fst :=
    ⟨fun h => by
      obtain ⟨id', hid', heq⟩ := List.mem_map.mp h
      exact ArenaId.index_inj heq ▸ hid', fun h => List.mem_map_of_mem h⟩
  rw [Module.function?, replaced, List.getElem?_append_left (by simpa [emptied] using hid),
    getElem?_emptied, List.getElem?_eq_getElem hid]
  simp only [hmem]
  split
  · rfl
  · rw [Module.function?, List.getElem?_eq_getElem hid]

/-- The slots that were added. -/
theorem function?_replaced_copy {k : Nat} (hget : (toReplace plan)[k]? = some (id, locals))
    (hf : m.function? id = some f) {new : FunctionId} (hnew : new.index = m.functions.length + k) :
    (replaced m plan).function? new = some (widened m f locals) := by
  have hcopy : (copies m plan)[k]? = some (some (widened m f locals)) := by
    rw [copies, List.getElem?_map, hget, Option.map_some, hf]
    rfl
  rw [Module.function?_eq_some, replaced, hnew, List.getElem?_append_right (by simp [emptied]),
    emptied, length_modifyAll, Nat.add_sub_cancel_left, hcopy]

/-- **Replacing kernels keeps a module well-formed.** -/
theorem wellFormed_replaced (hm : m.WellFormed) : (replaced m plan).WellFormed := by
  intro g hg
  rcases List.mem_append.mp hg with hg | hg
  · exact hm g (mem_of_mem_emptied hg)
  · obtain ⟨planned, -, hcopy⟩ := List.mem_map.mp hg
    obtain ⟨f, hf, rfl⟩ := Option.map_eq_some_iff.mp hcopy
    rw [widened_eq]
    exact Function.wellFormed_copied (hm f (Module.mem_functions hf))

end Kernel

end Lockstep
