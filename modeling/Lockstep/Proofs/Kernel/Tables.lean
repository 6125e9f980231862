import Lockstep.Kernel
import Mathlib.Data.List.Nodup

/-!
# Tables after a replacement

The tables that speak of kernels, after some kernels were replaced. Only the list of tables of the
module matters, and where no two of its tables have the same name, the table of kernels ends up
behind all others.

## Main results

* `Kernel.regenerateTables_eq`: only the tables of the module change.
* `Kernel.regenerated_eq`: the tables, when their names are distinct.
* `Kernel.regenerated_eq_map`: the same, table by table.
* `Kernel.rowCopies_map`: a row is copied at most once.
* `Kernel.isListed_regenerated`: the kernels that are listed are those that stand in for others.
-/

namespace Lockstep

namespace Module

variable {m : Module} {name : String} {g : MetadataTable → MetadataTable}

/-- A list of tables with the first of a name replaced by its image. -/
def updateIn (name : String) (g : MetadataTable → MetadataTable) (tables : List MetadataTable) :
    List MetadataTable :=
  match tables.findIdx? (·.name == name) with
  | some i => tables.modify i g
  | none => tables

/-- A list of tables with one of a name. -/
def ensureIn (name : String) (tables : List MetadataTable) : List MetadataTable :=
  if tables.any (·.name == name) then tables else tables ++ [{ name := name }]

/-- Changing a table changes nothing but the list of tables. -/
theorem updateTable_eq :
    m.updateTable name g = { m with metadata := updateIn name g m.metadata } := by
  rw [updateTable, updateIn]
  cases m.metadata.findIdx? (·.name == name) <;> rfl

/-- Adding a table changes nothing but the list of tables. -/
theorem ensureTable_eq : m.ensureTable name = { m with metadata := ensureIn name m.metadata } := by
  rw [ensureTable, ensureIn]
  split <;> rfl

variable {tables : List MetadataTable}

/-- A change that keeps the name of a table keeps the names of all. -/
theorem map_name_updateIn (hg : ∀ table, (g table).name = table.name) :
    (updateIn name g tables).map MetadataTable.name = tables.map MetadataTable.name := by
  rw [updateIn]
  split
  · refine List.ext_getElem? fun i => ?_
    rw [List.getElem?_map, List.getElem?_map, List.getElem?_modify]
    cases tables[i]? with
    | none => rfl
    | some table =>
        simp only [Option.map_some]
        split <;> simp [hg]
  · rfl

/-- Where names are distinct, the tables behind one have other names than it. -/
theorem name_ne_of_nodup_cons {first : MetadataTable}
    (hnames : ((first :: tables).map MetadataTable.name).Nodup) (heq : first.name = name) :
    ∀ table ∈ tables, table.name ≠ name := by
  rintro table htable rfl
  rw [List.map_cons, List.nodup_cons] at hnames
  exact hnames.1 (heq ▸ List.mem_map_of_mem htable)

/-- Where names are distinct, the tables of a name are the first of that name. -/
theorem eraseP_eq_filter (hnames : (tables.map MetadataTable.name).Nodup) :
    tables.eraseP (·.name == name) = tables.filter (·.name != name) := by
  induction tables with
  | nil => rfl
  | cons first tables ih =>
      by_cases heq : first.name = name
      · have hkept : ∀ table ∈ tables, (table.name != name) = true := fun table htable =>
          bne_iff_ne.mpr (name_ne_of_nodup_cons hnames heq table htable)
        rw [List.eraseP_cons_of_pos (by simpa using heq),
          List.filter_cons_of_neg (by simpa using heq), List.filter_eq_self.mpr hkept]
      · rw [List.eraseP_cons_of_neg (by simpa using heq),
          List.filter_cons_of_pos (by simpa using heq), ih hnames.of_cons]

/-- Where names are distinct, a table that is erased leaves none of its name. -/
theorem name_ne_of_mem_eraseP (hnames : (tables.map MetadataTable.name).Nodup)
    {table : MetadataTable} (h : table ∈ tables.eraseP (·.name == name)) : table.name ≠ name := by
  rw [eraseP_eq_filter hnames, List.mem_filter] at h
  exact bne_iff_ne.mp h.2

/-- Where names are distinct, changing the first table of a name changes all of them. -/
theorem updateIn_eq_map (hnames : (tables.map MetadataTable.name).Nodup) :
    updateIn name g tables =
      tables.map fun table => if table.name = name then g table else table := by
  induction tables with
  | nil => rfl
  | cons first tables ih =>
      by_cases heq : first.name = name
      · have hkept : ∀ table ∈ tables, (if table.name = name then g table else table) = table :=
          fun table htable => if_neg (name_ne_of_nodup_cons hnames heq table htable)
        rw [List.map_cons, if_pos heq, List.map_congr_left hkept, List.map_id', updateIn]
        simp [List.findIdx?_cons, heq]
      · rw [List.map_cons, if_neg heq, ← ih hnames.of_cons, updateIn, updateIn]
        cases hfind : tables.findIdx? (·.name == name) <;>
          simp [List.findIdx?_cons, heq, hfind]

/-- A table whose name is new comes behind all others, and is the one that is changed. -/
theorem updateIn_ensureIn (hnew : ∀ table ∈ tables, table.name ≠ name) :
    updateIn name g (ensureIn name tables) = tables ++ [g { name := name }] := by
  have hnone : tables.findIdx? (·.name == name) = none := by
    simpa [List.findIdx?_eq_none_iff] using hnew
  have hany : tables.any (·.name == name) = false := by simpa using hnew
  have hfind : (tables ++ [({ name := name } : MetadataTable)]).findIdx? (·.name == name) =
      some tables.length := by
    simp [List.findIdx?_append, hnone]
  rw [ensureIn, if_neg (by simp [hany]), updateIn, hfind]
  simp [List.modify_eq_take_drop]

end Module

namespace Kernel

open Lockstep.Module

variable {m : Module} {tables : List MetadataTable} {pairs : List Pair} {id : FunctionId}

/-- A table of work-group sizes with copies of rows for replacements. -/
def withCopies (pairs : List Pair) (table : MetadataTable) : MetadataTable :=
  { table with nodes := table.nodes ++ table.nodes.flatMap (rowCopies pairs) }

/-- A table with a row for each replacement. -/
def withRows (pairs : List Pair) (table : MetadataTable) : MetadataTable :=
  { table with nodes := table.nodes ++ pairs.map fun pair => .ofFunction pair.2 }

/-- The tables after kernels were replaced. -/
def regenerated (tables : List MetadataTable) (pairs : List Pair) : List MetadataTable :=
  updateIn kernelsTable (withRows pairs) (ensureIn kernelsTable
    ((updateIn groupSizesTable (withCopies pairs) tables).eraseP (·.name == kernelsTable)))

/-- Nothing but the tables changes. -/
theorem regenerateTables_eq :
    regenerateTables m pairs = { m with metadata := regenerated m.metadata pairs } := by
  rw [regenerateTables]
  simp only [updateTable_eq, ensureTable_eq, eraseTable]
  rfl

/-- Copying rows keeps the names of tables different. -/
theorem nodup_withCopies (hnames : (tables.map MetadataTable.name).Nodup) :
    ((updateIn groupSizesTable (withCopies pairs) tables).map MetadataTable.name).Nodup := by
  rwa [map_name_updateIn (g := withCopies pairs) fun _ => rfl]

/-- **The tables after a replacement**, when no two had the same name before. -/
theorem regenerated_eq (hnames : (tables.map MetadataTable.name).Nodup) :
    regenerated tables pairs =
      (updateIn groupSizesTable (withCopies pairs) tables).eraseP (·.name == kernelsTable) ++
        [{ name := kernelsTable, nodes := pairs.map fun pair => .ofFunction pair.2 }] := by
  rw [regenerated, updateIn_ensureIn fun _ => name_ne_of_mem_eraseP (nodup_withCopies hnames)]
  rfl

/-- **The tables after a replacement, one by one**, when no two had the same name before: the table
of kernels is made anew, that of work-group sizes gets copies of rows, and the others stay. -/
theorem regenerated_eq_map (hnames : (tables.map MetadataTable.name).Nodup) :
    regenerated tables pairs =
      ((tables.filter (·.name != kernelsTable)).map fun table =>
        if table.name = groupSizesTable then withCopies pairs table else table) ++
        [{ name := kernelsTable, nodes := pairs.map fun pair => .ofFunction pair.2 }] := by
  have hname : ((·.name != kernelsTable) ∘ fun table : MetadataTable =>
      if table.name = groupSizesTable then withCopies pairs table else table) =
        (·.name != kernelsTable) := by
    funext table
    simp only [Function.comp_apply]
    split <;> rfl
  rw [regenerated_eq hnames, eraseP_eq_filter (nodup_withCopies hnames), updateIn_eq_map hnames,
    List.filter_map, hname]

/-- **A row is copied at most once**: for the kernel it speaks of, if that is replaced. -/
theorem rowCopies_map {kernels : List FunctionId} (hkernels : kernels.Nodup)
    (image : FunctionId → FunctionId) (node : MetadataNode) :
    rowCopies (kernels.map fun id => (id, image id)) node =
      ((node.function?.filter fun id => decide (id ∈ kernels ∧ id ≠ image id)).map fun id =>
        node.retarget (image id)).toList := by
  rw [rowCopies, List.filterMap_map]
  induction kernels with
  | nil => cases node.function? <;> simp
  | cons id kernels ih =>
      obtain ⟨hid, hkernels⟩ := List.nodup_cons.mp hkernels
      rw [List.filterMap_cons, ih hkernels]
      cases hfunction : node.function? with
      | none => simp
      | some id' =>
          by_cases heq : id' = id
          · subst heq
            by_cases hkept : image id' = id'
            · simp [hid, hkept, Option.filter]
            · simp [hid, Ne.symm hkept, Option.filter]
          · simp [heq, Option.filter]

/-- **The kernels that are listed** after a replacement are those that stand in for others. -/
theorem isListed_regenerated (hnames : (m.metadata.map MetadataTable.name).Nodup)
    {functions : List (Option Function)} :
    isListed { regenerateTables m pairs with functions } id = true ↔
      ∃ pair ∈ pairs, pair.2 = id := by
  have hnone : ((updateIn groupSizesTable (withCopies pairs) m.metadata).eraseP
      (·.name == kernelsTable)).find? (·.name == kernelsTable) = none :=
    List.find?_eq_none.mpr fun table htable => by
      simpa using name_ne_of_mem_eraseP (nodup_withCopies hnames) htable
  rw [regenerateTables_eq, isListed, table?]
  simp only [regenerated_eq hnames, List.find?_append, hnone]
  simp [MetadataNode.function?, MetadataNode.ofFunction]

end Kernel

end Lockstep
