import Lockstep.Proofs.Kernel.Replacement

/-!
# The meaning of a widened kernel

The copy that replaces a kernel takes the kernel's automatic locals as parameters behind its own. It
means what the kernel means when each of these parameters is given the address of its local.

To say so, an instruction is taken apart into its skeleton, which is all but the operands, and its
operands. The two determine it (`Instruction.eq_of_skeleton`). The skeletons of the copy are those
of the kernel. Its operands are others, but under a valuation that gives the added parameters the
values of the locals they have the values that the kernel's operands have.

## Main results

* `Kernel.passed_apply`: an operand of the copy has the value of the operand it comes from.
* `Kernel.replaceKernel_same_meaning`: the copy means what the kernel means.
-/

namespace Lockstep

universe u

/-! ### Skeletons -/

namespace Instruction

/-- The instruction without its operands: what it does, its result, its types and the blocks that
it names. -/
def skeleton : Instruction → Instruction
  | .binary result op _ _ ty => .binary result op .undef .undef ty
  | .compare result op _ _ => .compare result op .undef .undef
  | .load result _ ty => .load result .undef ty
  | .store _ _ => .store .undef .undef
  | .elementPtr result _ indices ty => .elementPtr result .undef (indices.map fun _ => .undef) ty
  | .alloca result allocated ty => .alloca result allocated ty
  | .call result _ args ty => .call result .undef (args.map fun _ => .undef) ty
  | .cast result op _ target => .cast result op .undef target
  | .select result _ _ _ ty => .select result .undef .undef .undef ty
  | .phi result incoming ty => .phi result (incoming.map fun choice => (.undef, choice.2)) ty
  | .barrier => .barrier
  | .ret value => .ret (value.map fun _ => .undef)
  | .branch target => .branch target
  | .branchCond _ ifTrue ifFalse => .branchCond .undef ifTrue ifFalse
  | .unreachable => .unreachable

/-- **Skeleton and operands leave nothing out of an instruction.** -/
theorem eq_of_skeleton {i j : Instruction} (hskeleton : i.skeleton = j.skeleton)
    (hoperands : i.operands = j.operands) : i = j := by
  cases i with
  | phi result incoming ty =>
      cases j with
      | phi result' incoming' ty' =>
          simp only [skeleton, operands, phi.injEq] at hskeleton hoperands
          obtain ⟨rfl, hlabels, rfl⟩ := hskeleton
          have hlabels' : incoming.map Prod.snd = incoming'.map Prod.snd := by
            simpa [Function.comp_def] using congrArg (List.map Prod.snd) hlabels
          rw [(List.zip_of_prod hoperands hlabels').trans (List.zip_of_prod rfl rfl).symm]
      | _ => cases hskeleton
  | ret value =>
      cases j with
      | ret value' => cases value <;> cases value' <;> simp_all [operands]
      | _ => cases hskeleton
  | _ => cases j <;> simp_all [skeleton, operands]

/-- An instruction keeps its skeleton when its operands change. -/
theorem skeleton_mapOperands (φ : Value → Value) (i : Instruction) :
    (i.mapOperands φ).skeleton = i.skeleton := by
  cases i with
  | ret value => cases value <;> rfl
  | phi => simp [mapOperands, skeleton, Function.comp_def]
  | _ => simp [mapOperands, skeleton, Function.comp_def]

end Instruction

/-- The block with its instructions without their operands. -/
def Block.skeleton (b : Block) : Block :=
  { b with instructions := b.instructions.map Instruction.skeleton }

/-- The values of the operands, at each position of each block. -/
def Function.operandValues {α : Type u} (v : Value → α) (f : Function) : List (List (List α)) :=
  f.blocks.map fun b => b.instructions.map fun i => i.operands.map v

namespace Kernel

variable {m : Module} {f : Function} {id : FunctionId} {locals : List GlobalId} {count : Nat}

/-! ### Where operands go -/

/-- The first entry for a local, the entries being counted from `k`. In the rest of the locals the
position is one less, and the count starts one higher. -/
theorem lookup_zipIdx_global (g : GlobalId) (k : Nat) :
    ((locals.zipIdx k).map fun entry =>
      (Value.global entry.1, Value.param (count + entry.2).toUInt32)).lookup (.global g) =
      if g ∈ locals then some (.param (count + (k + locals.idxOf g)).toUInt32) else none := by
  induction locals generalizing k with
  | nil => rfl
  | cons l locals ih =>
      rw [List.zipIdx_cons, List.map_cons, List.lookup_cons]
      by_cases heq : g = l
      · subst heq
        simp
      · have hne : (Value.global g == Value.global l) = false := by simpa using heq
        rw [hne]
        simp only [ih, List.mem_cons, heq, false_or, List.idxOf_cons_ne _ (Ne.symm heq)]
        split
        · congr 4
          omega
        · rfl

/-- **What becomes of an operand**: a local becomes its parameter, and every other value stays. -/
theorem apply_localMap_cases (count : Nat) (locals : List GlobalId) (x : Value) :
    (∃ g ∈ locals, x = .global g ∧
      (localMap count locals).apply x = .param (count + locals.idxOf g).toUInt32) ∨
    ((∀ g ∈ locals, x ≠ .global g) ∧ (localMap count locals).apply x = x) := by
  by_cases hlocal : ∃ g ∈ locals, x = .global g
  · obtain ⟨g, hg, rfl⟩ := hlocal
    refine .inl ⟨g, hg, rfl, ?_⟩
    rw [ValueMap.apply, localMap, lookup_zipIdx_global, if_pos hg, Nat.zero_add]
    rfl
  · have hstays : ∀ g ∈ locals, x ≠ .global g := fun g hg heq => hlocal ⟨g, hg, heq⟩
    have hnone : (localMap count locals).lookup x = none := by
      rw [List.lookup_eq_none_iff]
      rintro entry hentry
      obtain ⟨⟨g, i⟩, hg, rfl⟩ := List.mem_map.mp hentry
      simpa using hstays g (List.fst_mem_of_mem_zipIdx hg)
    refine .inr ⟨hstays, ?_⟩
    rw [ValueMap.apply, hnone]
    rfl

/-- The valuation that gives each local to its parameter; the parameters before are `count`. -/
def passed {α : Type u} (v : Value → α) (count : Nat) (locals : List GlobalId) : Value → α
  | .param p =>
      if p.toNat < count then v (.param p)
      else match locals[p.toNat - count]? with
        | some g => v (.global g)
        | none => v (.param p)
  | x => v x

/-- **An operand of the copy has the value of the operand it comes from**, unless that is a
parameter which the kernel does not have. That would be read as one that stands for a local. -/
theorem passed_apply {α : Type u} (v : Value → α) (hfits : count + locals.length ≤ 2 ^ 32)
    {x : Value} (hx : ∀ p, x = .param p → p.toNat < count) :
    passed v count locals ((localMap count locals).apply x) = v x := by
  rcases apply_localMap_cases count locals x with ⟨g, hg, rfl, happly⟩ | ⟨-, happly⟩
  · have hlt := List.idxOf_lt_length_of_mem hg
    have hposition : (count + locals.idxOf g).toUInt32.toNat = count + locals.idxOf g := by
      rw [Nat.toUInt32_eq, UInt32.toNat_ofNat']
      exact Nat.mod_eq_of_lt (by omega)
    rw [happly]
    simp only [passed, hposition]
    rw [if_neg (by omega), Nat.add_sub_cancel_left, List.getElem?_idxOf hg]
  · rw [happly]
    cases x with
    | param p => exact if_pos (hx p rfl)
    | _ => rfl

/-- No operand of the copy is a local. -/
theorem apply_localMap_ne {g : GlobalId} (hg : g ∈ locals) (x : Value) :
    (localMap count locals).apply x ≠ .global g := by
  rcases apply_localMap_cases count locals x with ⟨g', -, rfl, happly⟩ | ⟨hstays, happly⟩
  · rw [happly]
    exact Value.noConfusion
  · rw [happly]
    exact hstays g hg

/-! ### The copy -/

/-- The automatic locals of a kernel are global variables of the module. An identifier is never
beyond the position it was made from, even where that does not fit. -/
theorem exists_global_of_mem_automaticLocals {kernel : String} :
    ∀ l ∈ automaticLocals m kernel, ∃ g, m.global? l = some g := by
  intro l hl
  obtain ⟨entry, hmem, rfl⟩ := List.mem_map.mp hl
  obtain ⟨⟨g, i⟩, hi, rfl⟩ := List.mem_map.mp (List.mem_filter.mp hmem).1
  have hlt := List.snd_lt_of_mem_zipIdx hi
  have hindexLe : (ArenaId.ofIndex i : GlobalId).index ≤ i := by
    simp only [ArenaId.ofIndex, ArenaId.index, Nat.toUInt32_eq, UInt32.toNat_ofNat']
    exact Nat.mod_le i _
  exact ⟨_, List.getElem?_eq_getElem (Nat.lt_of_le_of_lt hindexLe (by simpa using hlt))⟩

section

variable (hlocals : ∀ l ∈ locals, ∃ g, m.global? l = some g)
include hlocals

/-- The global variable behind each automatic local. -/
theorem getElem?_filterMap_global (i : Nat) :
    (locals.filterMap m.global?)[i]? = locals[i]?.bind m.global? := by
  induction locals generalizing i with
  | nil => rfl
  | cons l locals ih =>
      obtain ⟨⟨g, hg⟩, hrest⟩ := List.forall_mem_cons.mp hlocals
      rw [List.filterMap_cons_some hg]
      cases i with
      | zero => exact hg.symm
      | succ i => exact ih hrest i

/-- There is a global variable behind every automatic local. -/
theorem length_filterMap_global : (locals.filterMap m.global?).length = locals.length := by
  induction locals with
  | nil => rfl
  | cons l locals ih =>
      obtain ⟨⟨g, hg⟩, hrest⟩ := List.forall_mem_cons.mp hlocals
      rw [List.filterMap_cons_some hg, List.length_cons, ih hrest, List.length_cons]

/-- There is a parameter for every automatic local. -/
theorem length_localParameters : (localParameters m locals).length = locals.length := by
  rw [localParameters, List.length_map, List.length_zipIdx, length_filterMap_global hlocals]

/-- The parameter that takes the place of a local. -/
theorem getElem?_localParameters {i : Nat} {l : GlobalId} {g : GlobalVar}
    (hl : locals[i]? = some l) (hg : m.global? l = some g) :
    (localParameters m locals)[i]? = some ⟨"_local" ++ toString i, g.pointerType⟩ := by
  rw [localParameters, List.getElem?_map, List.getElem?_zipIdx,
    getElem?_filterMap_global hlocals, hl, Option.bind_some, hg, Option.map_some, Option.map_some,
    Nat.zero_add]

end

/-- What the copy of a kernel is like from outside, and which operands it does not have. -/
structure Widens (m : Module) (f f' : Function) : Prop where
  name : f'.name = f.name
  /-- Each automatic local has a parameter. -/
  arity : f'.parameters.length = f.parameters.length + (automaticLocals m f.name).length
  /-- The parameters of the kernel come first. -/
  own : f'.parameters.take f.parameters.length = f.parameters
  /-- The others are pointers to the automatic locals. -/
  added : ∀ i l, (automaticLocals m f.name)[i]? = some l → ∃ g, m.global? l = some g ∧
    f'.parameters[f.parameters.length + i]? =
      some ⟨"_local" ++ toString i, .ptr g.valueType g.space⟩
  layout : f'.layout = f.layout
  /-- Nothing changes inside the blocks but operands. -/
  skeleton : f'.blocks.map Block.skeleton = f.blocks.map Block.skeleton
  /-- The automatic locals are no operands any more. -/
  free : ∀ b ∈ f'.blocks, ∀ i ∈ b.instructions, ∀ l ∈ automaticLocals m f.name,
    .global l ∉ i.operands

/-- **What a copy is.** A kernel with its automatic locals as parameters is wider and otherwise the
same. -/
theorem widens_widened : Widens m f (widened m f (automaticLocals m f.name)) where
  name := rfl
  arity := by
    rw [widened_eq, Function.copied, List.length_append,
      length_localParameters exists_global_of_mem_automaticLocals]
  own := List.take_left
  added i l hl := by
    obtain ⟨g, hg⟩ := exists_global_of_mem_automaticLocals l (List.mem_of_getElem? hl)
    refine ⟨g, hg, ?_⟩
    rw [widened_eq, Function.copied, List.getElem?_append_right (Nat.le_add_right _ _),
      Nat.add_sub_cancel_left,
      getElem?_localParameters exists_global_of_mem_automaticLocals hl hg]
    rfl
  layout := rfl
  skeleton := by
    rw [widened_eq, Function.copied, List.map_map]
    refine List.map_congr_left fun b _ => ?_
    simp [Block.skeleton, Block.mapOperands, Function.comp_def, Instruction.skeleton_mapOperands]
  free b hb i hi l hl hmem := by
    obtain ⟨b, -, rfl⟩ := List.mem_map.mp hb
    obtain ⟨i, -, rfl⟩ := List.mem_map.mp hi
    rw [Instruction.operands_mapOperands] at hmem
    obtain ⟨x, -, hx⟩ := List.mem_map.mp hmem
    exact apply_localMap_ne hl x hx

/-- **The operands of the copy have the values of the kernel's.** -/
theorem operandValues_widened
    (hfits : f.parameters.length + (automaticLocals m f.name).length ≤ 2 ^ 32)
    (hbody : ∀ b ∈ f.blocks, ∀ i ∈ b.instructions, ∀ p, .param p ∈ i.operands →
      p.toNat < f.parameters.length) {α : Type u} (v : Value → α) :
    (widened m f (automaticLocals m f.name)).operandValues
      (passed v f.parameters.length (automaticLocals m f.name)) = f.operandValues v := by
  rw [Function.operandValues, Function.operandValues, widened_eq, Function.copied, List.map_map]
  refine List.map_congr_left fun b hb => ?_
  rw [Function.comp_apply, Block.mapOperands, List.map_map]
  refine List.map_congr_left fun i hi => ?_
  rw [Function.comp_apply, Instruction.operands_mapOperands, List.map_map]
  refine List.map_congr_left fun x hx => ?_
  exact passed_apply v hfits fun p heq => hbody b hb i hi p (heq ▸ hx)

/-- **The copy of a kernel means what the kernel means.** Replacing a kernel succeeds and adds a
function that differs from the kernel in its parameters and operands only: behind the kernel's own
it has a parameter for each automatic local, and none of them is an operand any more. If the body of
the kernel uses no parameters but its own, then under every valuation its operands have, at each
position, the values that those of the copy have when each added parameter is given the value of its
local. -/
theorem replaceKernel_same_meaning (detail : Detail) (hf : m.function? id = some f)
    (hfits : f.parameters.length + (automaticLocals m f.name).length ≤ 2 ^ 32)
    (hbody : ∀ b ∈ f.blocks, ∀ i ∈ b.instructions, ∀ p, .param p ∈ i.operands →
      p.toNat < f.parameters.length) :
    ∃ m' f', (replaceKernel id (automaticLocals m f.name)).Ends detail m
        (.ok (.ofIndex m.functions.length)) m' ∧
      m'.functions.length = m.functions.length + 1 ∧
      m'.functions[m.functions.length]? = some (some f') ∧ Widens m f f' ∧
      ∀ {α : Type u} (v : Value → α),
        f'.operandValues (passed v f.parameters.length (automaticLocals m f.name)) =
          f.operandValues v := by
  refine ⟨withCopy m id f (automaticLocals m f.name), widened m f (automaticLocals m f.name),
    replaceKernel_ends hf, ?_, ?_, widens_widened, operandValues_widened hfits hbody⟩
  · rw [functions_withCopy hf, List.length_append, List.length_modify]
    rfl
  · rw [functions_withCopy hf, List.getElem?_append_right (by simp), List.length_modify,
      Nat.sub_self]
    rfl

/-- A kernel that names its two automatic locals, and another global variable, in all sorts of
operands. -/
def tally : Function where
  name := "tally"
  returnType := .i64
  parameters := [{ name := "n", ty := .i32 }]
  blocks :=
    [{ id := ⟨0⟩, name := "entry"
       instructions :=
        [.load 0 (.global ⟨0⟩) .i64, .elementPtr 1 (.global ⟨2⟩) [.param 0, .temp 0] .i8,
          .call (some 2) (.function ⟨0⟩) [.global ⟨1⟩, .global ⟨2⟩] .i64, .branch ⟨1⟩] },
      { id := ⟨1⟩, name := "loop"
        instructions :=
          [.phi 3 [(.global ⟨0⟩, ⟨0⟩), (.temp 4, ⟨1⟩)] .i64,
            .select 4 (.param 0) (.global ⟨0⟩) (.global ⟨2⟩) .i64,
            .store (.global ⟨2⟩) (.temp 3), .branchCond (.param 0) ⟨1⟩ ⟨2⟩] },
      { id := ⟨2⟩, name := "exit", instructions := [.ret (some (.global ⟨0⟩))] }]
  layout := [⟨0⟩, ⟨1⟩, ⟨2⟩]

/-- A module with that kernel. -/
def tallyModule : Module where
  name := "module"
  functions := [some tally]
  globals :=
    [{ name := "tally.sum", valueType := .i64, space := .workGroup },
      { name := "other", valueType := .i32, space := .device },
      { name := "tally.seen", valueType := .array 8 .i8, space := .workGroup }]

/-- Every operand that was an automatic local is now one of the two new parameters, and the other
global variable stays. -/
theorem replaceKernel_same_meaning_tally :
    tallyModule.function? ⟨0⟩ = some tally ∧ automaticLocals tallyModule "tally" = [⟨0⟩, ⟨2⟩] ∧
    ∃ m' f', (replaceKernel ⟨0⟩ [⟨0⟩, ⟨2⟩]).Ends none tallyModule (.ok ⟨1⟩) m' ∧
      m'.functions[1]? = some (some f') ∧ Widens tallyModule tally f' ∧
      f'.operandValues (fun x => x) =
        [[[.param 1], [.param 2, .param 0, .temp 0],
            [.function ⟨0⟩, .global ⟨1⟩, .param 2], []],
          [[.param 1, .temp 4], [.param 0, .param 1, .param 2], [.param 2, .temp 3], [.param 0]],
          [[.param 1]]] ∧
      ∀ v : Value → Value,
        f'.operandValues (passed v 1 [⟨0⟩, ⟨2⟩]) = tally.operandValues v := by
  have hf : tallyModule.function? ⟨0⟩ = some tally := by decide +kernel
  have hlocals : automaticLocals tallyModule tally.name = [⟨0⟩, ⟨2⟩] := by decide +kernel
  have hpositions : ∀ b ∈ tally.blocks, ∀ i ∈ b.instructions, ∀ x ∈ i.operands,
      (match x with | .param p => decide (p.toNat < 1) | _ => true) = true := by decide +kernel
  have hbody : ∀ b ∈ tally.blocks, ∀ i ∈ b.instructions, ∀ p, .param p ∈ i.operands →
      p.toNat < tally.parameters.length := fun b hb i hi p hp =>
    of_decide_eq_true (hpositions b hb i hi _ hp)
  obtain ⟨m', f', hends, -, hcopy, hwidens, hvalues⟩ := replaceKernel_same_meaning none hf
    (by rw [hlocals]; decide) hbody
  rw [hlocals] at hends hvalues
  have hoperands : (m'.functions[1]?.join.map (Function.operandValues fun x => x)) = some
      [[[.param 1], [.param 2, .param 0, .temp 0],
          [.function ⟨0⟩, .global ⟨1⟩, .param 2], []],
        [[.param 1, .temp 4], [.param 0, .param 1, .param 2], [.param 2, .temp 3], [.param 0]],
        [[.param 1]]] := by
    rw [← hends.2]
    decide +kernel
  rw [show m'.functions[1]? = some (some f') from hcopy] at hoperands
  exact ⟨hf, hlocals, m', f', hends, hcopy, hwidens, Option.some.inj hoperands, hvalues⟩

end Kernel

end Lockstep
