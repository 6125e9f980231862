import Lockstep.Builder
import Lockstep.Proofs.Function.Edit

/-!
# Functions as the builder leaves them

A builder is asked for one thing after another, and goes on when it had to refuse something. What
it holds of a function, a place in it and a number for the next result is changed by different
calls at different times. This module says what any one call can do, as a relation between
builders, and derives from it what holds after any number of calls: the blocks carry their
positions and are laid out in the order they were created, and no two instructions define the same
result.

## Main results

* `Builder.Call.step`: what a call can do.
* `Builder.Step.sound` and `Builder.sound_after`: one call, and any number of calls, keep the
  function under construction in order.
* `Builder.calls_keep_order`: this holds of every function under construction and of every function
  that is handed out, and a refused call leaves the function as it was.
-/

namespace Lockstep

/-! ### Functions in order -/

/-- The results that the instructions of a block define. -/
def Block.results (b : Block) : List TempId :=
  b.instructions.filterMap Instruction.result?

/-- The results that the instructions of a function define, in all blocks of its arena. -/
def Function.results (f : Function) : List TempId :=
  f.blocks.flatMap Block.results

/-- A function whose blocks are laid out as they were created, and whose results are numbered
below `next`. -/
structure Function.InOrder (f : Function) (next : TempId) : Prop where
  /-- Every block carries its position in the arena. -/
  id_index : ∀ (i : Nat) (b : Block), f.blocks[i]? = some b → b.id.index = i
  /-- The body lists every block of the arena once, in the order of creation. -/
  layout_index : f.layout.map ArenaId.index = List.range f.capacity
  /-- No result is defined twice. -/
  nodup_results : f.results.Nodup
  results_lt : ∀ t ∈ f.results, t < next

/-- A new instruction adds its result to those of the block. -/
theorem Block.results_push (b : Block) (instr : Instruction) :
    (b.push instr).results = b.results ++ instr.result?.toList := by
  rw [Block.results, push, List.filterMap_append, Block.results]
  cases h : instr.result? <;> simp [h]

/-- Changing one element of a list adds what the change adds to its part. -/
theorem flatMap_modify_perm {α β : Type} {change : α → α} {part : α → List β} {more : List β}
    (hpart : ∀ x, part (change x) = part x ++ more) {xs : List α} {i : Nat} (hi : i < xs.length) :
    ((xs.modify i change).flatMap part).Perm (xs.flatMap part ++ more) := by
  induction xs generalizing i with
  | nil => exact absurd hi (Nat.not_lt_zero i)
  | cons x xs ih =>
      cases i with
      | zero =>
          rw [List.modify_zero_cons, List.flatMap_cons, List.flatMap_cons, hpart,
            List.append_assoc, List.append_assoc]
          exact (List.perm_append_comm).append_left _
      | succ i =>
          rw [List.modify_succ_cons, List.flatMap_cons, List.flatMap_cons, List.append_assoc]
          exact (ih (Nat.lt_of_succ_lt_succ hi)).append_left _

namespace Function

variable {f : Function} {next next' : TempId} {id : BlockId} {instr : Instruction}

/-- An instruction at the end of a block adds its result to those of the function. -/
theorem results_modifyBlock_push (hid : id.index < f.capacity) :
    (f.modifyBlock id (·.push instr)).results.Perm (f.results ++ instr.result?.toList) :=
  flatMap_modify_perm (fun b => b.results_push instr) hid

namespace InOrder

/-- A function without a body is in order. -/
theorem empty (name : String) (returnType : Ty) :
    ({ name, returnType } : Function).InOrder 0 where
  id_index i b hb := by simp at hb
  layout_index := rfl
  nodup_results := List.nodup_nil
  results_lt t ht := by simp [results] at ht

/-- Results below a bound are below every larger one. -/
theorem mono (h : f.InOrder next) (hnext : next ≤ next') : f.InOrder next' :=
  { h with results_lt := fun t ht => UInt32.lt_of_lt_of_le (h.results_lt t ht) hnext }

/-- A new parameter keeps a function in order. -/
theorem addParameter (h : f.InOrder next) (name : String) (ty : Ty) :
    (f.addParameter name ty).2.InOrder next :=
  ⟨h.id_index, h.layout_index, h.nodup_results, h.results_lt⟩

/-- A new block goes to the end of the arena and to the end of the body. -/
theorem createBlock (h : f.InOrder next) (hroom : f.capacity < 2 ^ 32) (name : String) :
    (f.createBlock name).2.InOrder next where
  id_index i b hb := by
    rw [Function.createBlock, List.getElem?_append] at hb
    split at hb
    · exact h.id_index i b hb
    · obtain ⟨hi, rfl⟩ := List.getElem?_eq_some_iff.mp hb
      have hlast : i = f.capacity := by
        rw [List.length_singleton] at hi
        rw [capacity]
        omega
      simp [hlast, nextBlock, ArenaId.index_ofIndex hroom]
  layout_index := by
    have hcap : (f.createBlock name).2.capacity = f.capacity + 1 := by
      simp [Function.createBlock, capacity]
    rw [hcap, List.range_succ, ← h.layout_index, Function.createBlock, List.map_append]
    simp [nextBlock, ArenaId.index_ofIndex hroom]
  nodup_results := by
    simpa [Function.createBlock, results, Block.results] using h.nodup_results
  results_lt t ht := by
    refine h.results_lt t ?_
    simpa [Function.createBlock, results, Block.results] using ht

/-- An instruction keeps the order as long as its result is a new one. -/
theorem push (h : f.InOrder next) (hid : id.index < f.capacity) (hnext : next ≤ next')
    (hresult : ∀ t, instr.result? = some t → t = next ∧ next < next') :
    (f.modifyBlock id (·.push instr)).InOrder next' where
  id_index i b hb := by
    rw [modifyBlock, List.getElem?_modify] at hb
    obtain ⟨b', hb', rfl⟩ := Option.map_eq_some_iff.mp hb
    split <;> exact h.id_index i b' hb'
  layout_index := by
    rw [layout_modifyBlock, capacity_modifyBlock, h.layout_index]
  nodup_results := by
    rw [(results_modifyBlock_push hid).nodup_iff, List.nodup_append]
    refine ⟨h.nodup_results, by cases instr.result? <;> simp, fun t ht u hu heq => ?_⟩
    have hfresh := (hresult u (Option.mem_toList.mp hu)).1
    exact UInt32.lt_irrefl _ (hfresh ▸ heq ▸ h.results_lt t ht)
  results_lt t ht := by
    rcases List.mem_append.mp ((results_modifyBlock_push hid).mem_iff.mp ht) with ht | ht
    · exact UInt32.lt_of_lt_of_le (h.results_lt t ht) hnext
    · obtain ⟨rfl, hlt⟩ := hresult t (Option.mem_toList.mp ht)
      exact hlt

end InOrder

end Function

/-! ### Running a step -/

namespace BuildM

variable {α β : Type} {x : BuildM α} {g : α → BuildM β} {b b' : Builder} {a : α} {stop : Stop}

/-- How a step of construction ends, and the builder behind it. -/
def exec (x : BuildM α) (b : Builder) : Except Stop α × Builder :=
  (ExceptT.run x).run b

/-- A step that only gives a value. -/
theorem exec_pure (a : α) (b : Builder) : exec (pure a) b = (.ok a, b) := rfl

/-- A step that only stops. -/
theorem exec_throw (stop : Stop) (b : Builder) :
    exec (throw stop : BuildM α) b = (.error stop, b) := rfl

/-- A step that only looks at the builder. -/
theorem exec_get (b : Builder) : exec get b = (.ok b, b) := rfl

/-- A step that only replaces the builder. -/
theorem exec_set (b b' : Builder) : exec (set b') b = (.ok (), b') := rfl

/-- A step that only changes the builder. -/
theorem exec_modify (h : Builder → Builder) (b : Builder) : exec (modify h) b = (.ok (), h b) := rfl

/-- A step that stops is the end of what it is part of. -/
theorem exec_bind (x : BuildM α) (g : α → BuildM β) (b : Builder) :
    exec (x >>= g) b =
      match exec x b with
      | (.ok a, b') => exec (g a) b'
      | (.error stop, b') => (.error stop, b') := by
  have hcont : exec (x >>= g) b = (ExceptT.bindCont g (exec x b).1).run (exec x b).2 := rfl
  rw [hcont]
  rcases exec x b with ⟨_ | _, b'⟩ <;> rfl

/-- Behind a step that has a value the next one runs. -/
theorem exec_bind_of_ok (h : exec x b = (.ok a, b')) : exec (x >>= g) b = exec (g a) b' := by
  rw [exec_bind, h]

/-- Behind a step that stops nothing runs. -/
theorem exec_bind_of_error (h : exec x b = (.error stop, b')) :
    exec (x >>= g) b = (.error stop, b') := by
  rw [exec_bind, h]

/-- Changing the value of a step changes nothing else. -/
theorem exec_map (h : α → β) (x : BuildM α) (b : Builder) :
    exec (h <$> x) b = ((exec x b).1.map h, (exec x b).2) := by
  rw [← bind_pure_comp, exec_bind]
  rcases exec x b with ⟨_ | _, b'⟩ <;> rfl

end BuildM

namespace Builder

open BuildM

variable {b b' : Builder} {f : Function} {instr : Instruction} {n : Nat}

/-! ### Calls -/

/-- What a builder can be asked for. Questions about where it stands change nothing and are left
out. -/
inductive Call where
  | newTemp
  | createFunction (name : String) (returnType : Ty)
  | addParameter (name : String) (ty : Ty)
  | createBlock (name : String)
  | positionAtEnd (block : BlockId)
  | binary (op : BinaryOp) (lhs rhs : Value) (ty : Ty)
  | compare (op : Comparison) (lhs rhs : Value)
  | load (ptr : Value) (ty : Ty)
  | store (value ptr : Value)
  | elementPtr (ptr : Value) (indices : List Value) (ty : Ty)
  | alloca (ty : Ty)
  | call (callee : Value) (args : List Value) (ty : Ty)
  | cast (op : CastOp) (value : Value) (target : Ty)
  | phi (incoming : List (Value × BlockId)) (ty : Ty)
  | barrier
  | ret (value : Option Value)
  | branch (target : BlockId)
  | branchCond (condition : Value) (ifTrue ifFalse : BlockId)
  | finish

namespace Call

/-- A step of construction that hands out no function. -/
def silent {α : Type} (step : BuildM α) : BuildM (Option Function) :=
  (fun _ => none) <$> step

/-- The step of construction that a call asks for, with the function that it hands out. -/
def perform : Call → BuildM (Option Function)
  | .newTemp => silent Builder.newTemp
  | .createFunction name returnType => some <$> Builder.createFunction name returnType
  | .addParameter name ty => silent (Builder.addParameter name ty)
  | .createBlock name => silent (Builder.createBlock name)
  | .positionAtEnd block => silent (Builder.positionAtEnd block)
  | .binary op lhs rhs ty => silent (Builder.binary op lhs rhs ty)
  | .compare op lhs rhs => silent (Builder.compare op lhs rhs)
  | .load ptr ty => silent (Builder.load ptr ty)
  | .store value ptr => silent (Builder.store value ptr)
  | .elementPtr ptr indices ty => silent (Builder.elementPtr ptr indices ty)
  | .alloca ty => silent (Builder.alloca ty)
  | .call callee args ty => silent (Builder.call callee args ty)
  | .cast op value target => silent (Builder.cast op value target)
  | .phi incoming ty => silent (Builder.phi incoming ty)
  | .barrier => silent Builder.barrier
  | .ret value => silent (Builder.ret value)
  | .branch target => silent (Builder.branch target)
  | .branchCond condition ifTrue ifFalse => silent (Builder.branchCond condition ifTrue ifFalse)
  | .finish => Builder.finish

/-- How a call ends, with the function that it hands out. -/
def answer (c : Call) (b : Builder) : Except Stop (Option Function) :=
  (exec c.perform b).1

/-- The builder behind a call, whether that was refused or not. -/
def after (c : Call) (b : Builder) : Builder :=
  (exec c.perform b).2

/-- The number of blocks that a call creates. -/
def created (c : Call) (b : Builder) : Nat :=
  match c, c.answer b with
  | .createBlock _, .ok _ => 1
  | _, _ => 0

end Call

/-- The builder behind some calls, one after another. -/
def after (b : Builder) (calls : List Call) : Builder :=
  calls.foldl (fun b c => c.after b) b

/-- The number of blocks that some calls create. -/
def created (b : Builder) : List Call → Nat
  | [] => 0
  | c :: calls => c.created b + created (c.after b) calls

/-! ### What a call can do -/

/-- What a call can do to a builder: how it ends, the builder behind it, and the number of blocks
it creates. -/
inductive Step (b : Builder) : Except Stop (Option Function) → Builder → Nat → Prop
  /-- A refused call may have used up a number. -/
  | refuse (stop : Stop) {next : TempId} (hnext : b.nextTemp ≤ next) :
      Step b (.error stop) { b with nextTemp := next } 0
  /-- Another place, or another number. -/
  | move (current : Option BlockId) {next : TempId} (hnext : b.nextTemp ≤ next) :
      Step b (.ok none) { b with current, nextTemp := next } 0
  | start (name : String) (returnType : Ty) :
      Step b (.ok (some { name, returnType })) { function := some { name, returnType } } 0
  | parameter {f : Function} (hf : b.function = some f) (name : String) (ty : Ty) :
      Step b (.ok none) { b with function := some (f.addParameter name ty).2 } 0
  | block {f : Function} (hf : b.function = some f) (name : String) :
      Step b (.ok none) { b with function := some (f.createBlock name).2 } 1
  /-- An instruction that defines nothing. -/
  | add {f : Function} (hf : b.function = some f) {id : BlockId} (hid : id.index < f.capacity)
      {instr : Instruction} (hresult : instr.result? = none) :
      Step b (.ok none) { b with function := some (f.modifyBlock id (·.push instr)) } 0
  /-- An instruction that defines the next result. -/
  | emit {f : Function} (hf : b.function = some f) {id : BlockId} (hid : id.index < f.capacity)
      {instr : Instruction} (hresult : instr.result? = some b.nextTemp)
      (hnext : b.nextTemp < b.nextTemp + 1) :
      Step b (.ok none) { b with
        function := some (f.modifyBlock id (·.push instr)), nextTemp := b.nextTemp + 1 } 0
  | finish : Step b (.ok b.function) { b with function := none, current := none } 0

/-- The number behind the last one is zero again. -/
theorem lt_succ_of_ne {t : TempId} (h : t + 1 ≠ 0) : t < t + 1 := by
  have hlt := t.toNat_lt
  have hone : (1 : TempId).toNat = 1 := rfl
  have hne : t.toNat ≠ 2 ^ 32 - 1 := by
    intro heq
    exact h (UInt32.toNat_inj.mp (by rw [UInt32.toNat_add, heq]; rfl))
  rw [UInt32.lt_iff_toNat_lt, UInt32.toNat_add, hone, Nat.mod_eq_of_lt (by omega)]
  omega

/-- A new result is the next one, unless there is none left. -/
theorem exec_newTemp (b : Builder) :
    exec newTemp b = (.error (.fault .overflow), b) ∨
      b.nextTemp < b.nextTemp + 1 ∧
        exec newTemp b = (.ok b.nextTemp, { b with nextTemp := b.nextTemp + 1 }) := by
  rw [newTemp, exec_bind_of_ok (exec_get b)]
  by_cases h : b.nextTemp + 1 = 0
  · simp only [if_pos h]
    exact .inl (exec_bind_of_error (exec_throw _ b))
  · simp only [if_neg h]
    exact .inr ⟨lt_succ_of_ne h, exec_bind_of_ok (exec_set _ _)⟩

/-- The function that is being built, unless there is none. -/
theorem exec_theFunction (b : Builder) :
    (∃ stop, exec theFunction b = (.error stop, b)) ∨
      ∃ f, b.function = some f ∧ exec theFunction b = (.ok f, b) := by
  rw [theFunction, exec_bind_of_ok (exec_get b)]
  cases hf : b.function with
  | none => exact .inl ⟨_, exec_throw _ b⟩
  | some f => exact .inr ⟨f, rfl, exec_pure f b⟩

/-- An instruction goes to the end of a block of the arena, or it is refused and nothing is
done. -/
theorem exec_add (instr : Instruction) (b : Builder) :
    (∃ stop, exec (add instr) b = (.error stop, b)) ∨
      ∃ f id, b.function = some f ∧ id.index < f.capacity ∧
        exec (add instr) b =
          (.ok (), { b with function := some (f.modifyBlock id (·.push instr)) }) := by
  rw [Builder.add]
  rcases exec_theFunction b with ⟨stop, h⟩ | ⟨f, hf, h⟩
  · exact .inl ⟨stop, exec_bind_of_error h⟩
  rw [exec_bind_of_ok h, exec_bind_of_ok (exec_get b)]
  cases hcurrent : b.current with
  | none => exact .inl ⟨_, exec_throw _ b⟩
  | some id =>
      cases hblock : f.block? id with
      | none =>
          simp only [hblock]
          exact .inl ⟨_, exec_throw _ b⟩
      | some block =>
          simp only [hblock]
          refine .inr ⟨f, id, hf, (List.getElem?_eq_some_iff.mp hblock).1, ?_⟩
          rw [setFunction, exec_modify, hcurrent]

namespace Call

/-- A call whose value is not shown steps as it does with its value. -/
theorem step_silent {α : Type} {x : BuildM α} {outcome : Except Stop α}
    (hx : exec x b = (outcome, b')) (h : Step b (outcome.map fun _ => none) b' n) :
    Step b (exec (silent x) b).1 (exec (silent x) b).2 n := by
  rw [silent, exec_map, hx]
  exact h

/-- Changing a value that is not shown changes nothing. -/
theorem exec_silent_map {α β : Type} (h : α → β) (x : BuildM α) (b : Builder) :
    exec (silent (h <$> x)) b = exec (silent x) b := by
  rw [silent, silent, exec_map, exec_map, exec_map]
  rcases exec x b with ⟨_ | _, b'⟩ <;> rfl

/-- Adding an instruction without a result keeps the function in order. -/
theorem step_add (hresult : instr.result? = none) :
    Step b (exec (silent (Builder.add instr)) b).1 (exec (silent (Builder.add instr)) b).2 0 := by
  rcases exec_add instr b with ⟨stop, h⟩ | ⟨f, id, hf, hid, h⟩
  · exact step_silent h (.refuse stop (UInt32.le_refl _))
  · exact step_silent h (.add hf hid hresult)

/-- Adding an instruction with a new result keeps the function in order. -/
theorem step_emit {instr : TempId → Instruction} (hresult : ∀ t, (instr t).result? = some t) :
    Step b (exec (silent (Builder.emit instr)) b).1 (exec (silent (Builder.emit instr)) b).2 0 := by
  rcases exec_newTemp b with h | ⟨hlt, h⟩
  · exact step_silent (exec_bind_of_error h) (.refuse _ (UInt32.le_refl _))
  · rcases exec_add (instr b.nextTemp) { b with nextTemp := b.nextTemp + 1 } with
      ⟨stop, hadd⟩ | ⟨f, id, hf, hid, hadd⟩
    · exact step_silent ((exec_bind_of_ok h).trans (exec_bind_of_error hadd))
        (.refuse stop (UInt32.le_of_lt hlt))
    · exact step_silent ((exec_bind_of_ok h).trans (exec_bind_of_ok hadd))
        (Step.emit (b := b) hf hid (hresult b.nextTemp) hlt)

/-- **What a call can do.** Calls differ in the instruction that they add, if any. -/
theorem step (c : Call) (b : Builder) : Step b (c.answer b) (c.after b) (c.created b) := by
  cases c with
  | newTemp =>
      rcases exec_newTemp b with h | ⟨hlt, h⟩
      · exact step_silent h (.refuse _ (UInt32.le_refl _))
      · exact step_silent h (.move b.current (UInt32.le_of_lt hlt))
  | createFunction name returnType => exact .start name returnType
  | addParameter name ty =>
      rcases exec_theFunction b with ⟨stop, h⟩ | ⟨f, hf, h⟩
      · exact step_silent (exec_bind_of_error h) (.refuse stop (UInt32.le_refl _))
      · exact step_silent (exec_bind_of_ok h) (.parameter hf name ty)
  | createBlock name =>
      rcases exec_theFunction b with ⟨stop, h⟩ | ⟨f, hf, h⟩
      · have hrefused : exec (Builder.createBlock name) b = (.error stop, b) :=
          exec_bind_of_error h
        have hnone : (Call.createBlock name).created b = 0 := by
          simp only [created, answer, perform, silent, exec_map, hrefused, Except.map]
        rw [hnone]
        exact step_silent hrefused (.refuse stop (UInt32.le_refl _))
      · have hadded : exec (Builder.createBlock name) b =
            (.ok f.nextBlock, { b with function := some (f.createBlock name).2 }) :=
          exec_bind_of_ok h
        have hone : (Call.createBlock name).created b = 1 := by
          simp only [created, answer, perform, silent, exec_map, hadded, Except.map]
        rw [hone]
        exact step_silent hadded (.block hf name)
  | positionAtEnd block => exact .move (some block) (UInt32.le_refl _)
  | binary | compare | load | elementPtr | alloca | cast | phi => exact step_emit fun _ => rfl
  | store | barrier | ret | branch | branchCond => exact step_add rfl
  | call callee args ty =>
      by_cases hty : ty = .void
      · subst hty
        rcases exec_add (.call none callee args .void) b with ⟨stop, h⟩ | ⟨f, id, hf, hid, h⟩
        · exact step_silent (exec_bind_of_error h) (.refuse stop (UInt32.le_refl _))
        · exact step_silent (exec_bind_of_ok h) (.add hf hid rfl)
      · have hcall : perform (.call callee args ty) = silent (some <$> Builder.emit fun result =>
            .call (some result) callee args ty) := by
          cases ty with
          | void => exact absurd rfl hty
          | _ => rfl
        rw [answer, after, hcall, exec_silent_map]
        exact step_emit fun _ => rfl
  | finish => exact .finish

end Call

/-! ### What calls keep -/

/-- The function under construction is in order and has at most `n` blocks. -/
def Sound (n : Nat) (b : Builder) : Prop :=
  ∀ f, b.function = some f → f.capacity ≤ n ∧ f.InOrder b.nextTemp

/-- **One call** keeps the function under construction in order. -/
theorem Step.sound {outcome : Except Stop (Option Function)} {k : Nat} (hstep : Step b outcome b' k)
    (h : b.Sound n) (hroom : n + k < 2 ^ 32) : b'.Sound (n + k) := by
  intro f' hf'
  cases hstep with
  | refuse stop hnext | move current hnext =>
      obtain ⟨hcap, horder⟩ := h f' hf'
      exact ⟨hcap, horder.mono hnext⟩
  | start name returnType =>
      obtain rfl := Option.some.inj hf'
      exact ⟨Nat.zero_le _, .empty name returnType⟩
  | parameter hf name ty =>
      obtain ⟨hcap, horder⟩ := h _ hf
      obtain rfl := Option.some.inj hf'
      exact ⟨hcap, horder.addParameter name ty⟩
  | block hf name =>
      obtain ⟨hcap, horder⟩ := h _ hf
      obtain rfl := Option.some.inj hf'
      refine ⟨?_, horder.createBlock (by omega) name⟩
      simpa [Function.createBlock, Function.capacity] using hcap
  | add hf hid hresult =>
      obtain ⟨hcap, horder⟩ := h _ hf
      obtain rfl := Option.some.inj hf'
      refine ⟨by rwa [Function.capacity_modifyBlock], horder.push hid (UInt32.le_refl _) ?_⟩
      simp [hresult]
  | emit hf hid hresult hnext =>
      obtain ⟨hcap, horder⟩ := h _ hf
      obtain rfl := Option.some.inj hf'
      refine ⟨by rwa [Function.capacity_modifyBlock],
        horder.push hid (UInt32.le_of_lt hnext) fun t ht => ⟨?_, hnext⟩⟩
      exact Option.some.inj (ht.symm.trans hresult)
  | finish => exact absurd hf' (by simp)

/-- A function is handed out when it is started and when it is finished. -/
theorem Step.inOrder_of_ok {k : Nat} (hstep : Step b (.ok (some f)) b' k) (h : b.Sound n) :
    f.InOrder b'.nextTemp := by
  generalize houtcome : Except.ok (some f) = outcome at hstep
  cases hstep with
  | start name returnType =>
      obtain rfl := Option.some.inj (Except.ok.inj houtcome)
      exact .empty name returnType
  | finish => exact (h f (Except.ok.inj houtcome).symm).2
  | _ => simp at houtcome

/-- A refused call leaves the function as it was. -/
theorem Step.function_eq_of_error {stop : Stop} {k : Nat} (hstep : Step b (.error stop) b' k) :
    b'.function = b.function := by
  cases hstep
  rfl

/-- **Any number of calls** keep the function under construction in order. -/
theorem sound_after {calls : List Call} (h : b.Sound n) (hroom : n + created b calls < 2 ^ 32) :
    (after b calls).Sound (n + created b calls) := by
  induction calls generalizing b n with
  | nil => exact h
  | cons c calls ih =>
      rw [created] at hroom ⊢
      rw [← Nat.add_assoc] at hroom ⊢
      exact ih ((c.step b).sound h (by omega)) hroom

/-- **Functions as the builder leaves them.** Whatever a new builder was asked for, with fewer than
`2 ^ 32` blocks created: the function under construction is in order, and so is every function that
the next call hands out. When the next call is refused, the function is as it was. -/
theorem calls_keep_order (calls : List Call) (hroom : created {} calls < 2 ^ 32) :
    (∀ f, (after {} calls).function = some f → f.InOrder (after {} calls).nextTemp) ∧
    (∀ (c : Call) f, c.answer (after {} calls) = .ok (some f) →
      f.InOrder (c.after (after {} calls)).nextTemp) ∧
    ∀ (c : Call) stop, c.answer (after {} calls) = .error stop →
      (c.after (after {} calls)).function = (after {} calls).function := by
  have hnew : Sound 0 {} := fun f hf => absurd hf (by simp)
  have hsound := sound_after hnew (by rwa [Nat.zero_add])
  refine ⟨fun f hf => (hsound f hf).2, fun c f hanswer => ?_, fun c stop hanswer => ?_⟩
  · exact (hanswer ▸ c.step (after {} calls)).inOrder_of_ok hsound
  · exact (hanswer ▸ c.step (after {} calls)).function_eq_of_error

/-- Two blocks, filled in turn. An operation comes before there is a place for it, and a load after
the builder was sent to a block that does not exist. -/
def interrupted : List Call :=
  [.createFunction "interrupted" .void, .createBlock "first", .createBlock "second",
    .binary .add (.constant 1) (.constant 2) .i32, .positionAtEnd ⟨1⟩,
    .binary .mul (.constant 3) (.constant 4) .i32, .positionAtEnd ⟨7⟩, .load .null .i32,
    .positionAtEnd ⟨0⟩, .alloca .i64, .call (.function ⟨0⟩) [] .void, .branch ⟨1⟩,
    .positionAtEnd ⟨1⟩, .ret none]

/-- What is built by `interrupted`. The two refused operations have used up the numbers 0 and 2. -/
def interruptedResult : Function where
  name := "interrupted"
  returnType := .void
  blocks := [
    ⟨⟨0⟩, "first", [.alloca 3 .i64 (.ptr .i64 .workItem), .call none (.function ⟨0⟩) [] .void,
      .branch ⟨1⟩]⟩,
    ⟨⟨1⟩, "second", [.binary 1 .mul (.constant 3) (.constant 4) .i32, .ret none]⟩]
  layout := [⟨0⟩, ⟨1⟩]

/-- Blocks filled in turn and refused operations between them leave the function in order. -/
theorem calls_keep_order_interrupted :
    created {} interrupted < 2 ^ 32 ∧
    Call.finish.answer (after {} interrupted) = .ok (some interruptedResult) ∧
    interruptedResult.InOrder 4 ∧
    ((Call.load .null .i32).after (after {} (interrupted.take 7))).function =
      (after {} (interrupted.take 7)).function := by
  have hroom : created {} interrupted < 2 ^ 32 := by decide +kernel
  have hanswer : Call.finish.answer (after {} interrupted) = .ok (some interruptedResult) := by
    decide +kernel
  have hnext : (Call.finish.after (after {} interrupted)).nextTemp = 4 := by decide +kernel
  obtain ⟨-, hfinish, -⟩ := calls_keep_order interrupted hroom
  obtain ⟨-, -, hrefused⟩ := calls_keep_order (interrupted.take 7) (by decide +kernel)
  exact ⟨hroom, hanswer, hnext ▸ hfinish .finish _ hanswer,
    hrefused (.load .null .i32) (.error (.invalidIr "interrupted" (.blockNotFound ⟨7⟩)))
      (by decide +kernel)⟩

end Builder

end Lockstep
