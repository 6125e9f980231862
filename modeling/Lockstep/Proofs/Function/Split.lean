import Lockstep.Proofs.Function.Edit
import Lockstep.Proofs.Pass

/-!
# Splitting a block

A block of the body is split at an instruction: what stands from there on moves to a new block right
behind it. This module puts together what that keeps. The instructions are the old ones in the old
order, cut in two. The paths are the old ones, with a new step where a path goes on from the split
block. Phis stay in step with the graph: where the split block led, the new one leads now, and the
phis there choose by it.

## Main results

* `SplitsOff.walk_contract` and `SplitsOff.exists_walk_contract`: walks before and after a vertex
  is split.
* `Function.WellFormed.phisMatch_split`: phis that fitted the graph fit it afterwards.
* `Function.splitInPlace_ends`: when a block can be split, and what the function is then.
-/

namespace Lockstep

/-! ### Contracting the new vertex -/

namespace SplitsOff

variable {α : Type} [DecidableEq α] {E E' : α → α → Prop} {r p n a b x y : α} {xs ys : List α}

/-- A vertex, the split one standing for the new one as well. -/
def merge (p n x : α) : α :=
  if x = n then p else x

/-- The vertices of a walk when the new vertex `n` is contracted into the split one `p`: the step
from `p` to `n` is left out, and everywhere else `n` is called `p`. -/
def contract (p n : α) : List α → List α
  | x :: y :: xs =>
      if x = p ∧ y = n then contract p n (y :: xs) else merge p n x :: contract p n (y :: xs)
  | xs => xs.map (merge p n)

/-- The new vertex is read as the old one. -/
theorem merge_self : merge p n n = p :=
  if_pos rfl

/-- All other vertices are read as they are. -/
theorem merge_of_ne (h : x ≠ n) : merge p n x = x :=
  if_neg h

/-- A path of one vertex, read in the old graph. -/
theorem contract_singleton : contract p n [x] = [merge p n x] := by
  rw [contract]
  · rfl
  · simp

/-- The step from the old vertex to the new one is left out. -/
theorem contract_new : contract p n (p :: n :: xs) = contract p n (n :: xs) := by
  rw [contract, if_pos ⟨rfl, rfl⟩]

/-- All other steps stay. -/
theorem contract_cons (h : ¬(x = p ∧ y = n)) :
    contract p n (x :: y :: xs) = merge p n x :: contract p n (y :: xs) := by
  rw [contract, if_neg h]

/-- **No path is new.** A walk of the new graph, contracted, is one of the old graph. -/
theorem walk_contract (s : SplitsOff E E' r p n) (hw : Walk E' a b ys) :
    Walk E (merge p n a) (merge p n b) (contract p n ys) := by
  induction hw with
  | here a =>
      rw [contract_singleton]
      exact .here _
  | @step a c b ys hac hcb ih =>
      obtain ⟨zs, rfl⟩ := hcb.exists_eq_cons
      rcases (s.edge_iff a c).mp hac with ⟨rfl, rfl⟩ | ⟨rfl, hpc⟩ | ⟨hap, hac⟩
      · rw [contract_new, merge_of_ne s.ne.symm]
        rwa [merge_self] at ih
      · have hc : c ≠ a := fun h => s.no_edge_to p (h ▸ hpc)
        rw [contract_cons fun h => s.ne h.1, merge_self]
        rw [merge_of_ne hc] at ih
        exact .step hpc ih
      · have ha : a ≠ n := fun h => s.no_edge_from c (h ▸ hac)
        have hc : c ≠ n := fun h => s.no_edge_to a (h ▸ hac)
        rw [contract_cons fun h => hap h.1, merge_of_ne ha]
        rw [merge_of_ne hc] at ih
        exact .step hac ih

/-- **No path is lost.** A walk of the old graph is a walk of the new graph, contracted. -/
theorem exists_walk_contract (s : SplitsOff E E' r p n) (hw : Walk E a b xs) (ha : a ≠ n) :
    ∃ ys, Walk E' a b ys ∧ contract p n ys = xs := by
  induction hw with
  | here a =>
      refine ⟨[a], .here a, ?_⟩
      rw [contract_singleton, merge_of_ne ha]
  | @step a c b xs hac _ ih =>
      obtain ⟨ys, hys, hcontract⟩ := ih fun h => s.no_edge_to a (h ▸ hac)
      obtain ⟨zs, rfl⟩ := hys.exists_eq_cons
      by_cases hap : a = p
      · subst hap
        refine ⟨a :: n :: c :: zs, .step s.edge_new (.step (s.edge_moved hac) hys), ?_⟩
        rw [contract_new, contract_cons fun h => s.ne h.1, merge_self, hcontract]
      · refine ⟨a :: c :: zs, .step (s.edge_kept hap hac) hys, ?_⟩
        rw [contract_cons fun h => hap h.1, merge_of_ne ha, hcontract]

end SplitsOff

/-! ### What a split keeps -/

/-- Phis stay phis when their labels are renamed. -/
@[simp]
theorem Instruction.isPhi_renameIncoming {old new : BlockId} {i : Instruction} :
    (i.renameIncoming old new).isPhi = i.isPhi := by
  cases i <;> rfl

namespace Function

variable {f : Function} {p x : BlockId} {k : Nat}

/-- Every phi of the block chooses by exactly the blocks that lead there. -/
def PhisMatch (f : Function) (x : BlockId) : Prop :=
  ∀ i ∈ (f.blockAt x).instructions, i.isPhi = true → ∀ a, a ∈ i.phiLabels ↔ f.Edge a x

instance (f : Function) (a x : BlockId) : Decidable (f.Edge a x) :=
  inferInstanceAs (Decidable (a ∈ f.layout ∧ x ∈ f.next a))

/-- Phis match when their labels are the blocks that lead to them. -/
theorem phisMatch_iff : f.PhisMatch x ↔ ∀ i ∈ (f.blockAt x).instructions, i.isPhi = true →
    (∀ a ∈ i.phiLabels, f.Edge a x) ∧ ∀ a ∈ f.layout, f.Edge a x → a ∈ i.phiLabels := by
  refine forall₃_congr fun i _ _ => ⟨fun h => ?_, fun h a => ⟨h.1 a, fun ha => h.2 a ha.1 ha⟩⟩
  exact ⟨fun a => (h a).mp, fun a _ => (h a).mpr⟩

instance (f : Function) (x : BlockId) : Decidable (f.PhisMatch x) :=
  decidable_of_iff' _ phisMatch_iff

/-- The block as it is when the phis behind block `p` choose by block `n` in its place. -/
def relabelled (f : Function) (p n x : BlockId) : Block :=
  if x ∈ f.next p then (f.blockAt x).relabel p n else f.blockAt x

/-- A split changes blocks and their order only. -/
theorem split_eq (f : Function) (p : BlockId) (k : Nat) :
    f.split p k = { f with blocks := (f.split p k).blocks, layout := (f.split p k).layout } := by
  have key : ∀ (g : Block → Block) (l : List BlockId) (h : Function),
      l.foldl (fun h a => h.modifyBlock a g) h =
        { h with blocks := (l.foldl (fun h a => h.modifyBlock a g) h).blocks } := by
    intro g l
    induction l with
    | nil => exact fun h => rfl
    | cons a l ih => exact fun h => ih _
  rw [split, key]
  rfl

namespace WellFormed

variable (h : f.WellFormed) (hroom : f.capacity < 2 ^ 32) (hp : p ∈ f.layout)
include h hroom hp

/-- The tail of the block moves as it is. -/
theorem blockAt_split_new :
    (f.split p k).blockAt f.nextBlock =
      ⟨f.nextBlock, (f.blockAt p).name ++ ".split", (f.blockAt p).instructions.drop k⟩ := by
  have hnew : f.nextBlock ∉ f.next p := fun hmem =>
    h.nextBlock_not_mem hroom (h.next_mem p hp _ hmem)
  rw [h.blockAt_split hroom hp, if_neg hnew, h.blockAt_detach hroom hp, if_pos rfl]

/-- The split block keeps the rest and branches to the new one. -/
theorem blockAt_split_self :
    (f.split p k).blockAt p =
      { f.blockAt p with
        instructions := (f.relabelled p f.nextBlock p).instructions.take k ++
          [.branch f.nextBlock] } := by
  rw [h.blockAt_split hroom hp, h.blockAt_detach hroom hp,
    if_neg (h.nextBlock_ne hroom hp).symm, if_pos rfl, relabelled]
  split
  · simp [Block.relabel, Instruction.renameIncoming]
  · rfl

/-- The other blocks have labels renamed, if control comes there from the split one. -/
theorem blockAt_split_other (hxn : x ≠ f.nextBlock) (hxp : x ≠ p) :
    (f.split p k).blockAt x = f.relabelled p f.nextBlock x := by
  rw [h.blockAt_split hroom hp, h.blockAt_detach hroom hp, if_neg hxn, if_neg hxp, relabelled]

/-- A phi of an old block is one of the block as it was, and its labels are the old ones, or renamed
where control comes there from the split block. -/
theorem exists_phi_of_mem_split (hxn : x ≠ f.nextBlock) {i : Instruction}
    (hi : i ∈ ((f.split p k).blockAt x).instructions) (hphi : i.isPhi = true) :
    ∃ j ∈ (f.blockAt x).instructions, j.isPhi = true ∧
      i.phiLabels = j.phiLabels.map fun a =>
        if x ∈ f.next p ∧ a = p then f.nextBlock else a := by
  have hmem : i ∈ (f.relabelled p f.nextBlock x).instructions := by
    by_cases hxp : x = p
    · subst hxp
      rw [h.blockAt_split_self hroom hp] at hi
      rcases List.mem_append.mp hi with hi | hi
      · exact List.mem_of_mem_take hi
      · rw [List.mem_singleton.mp hi] at hphi
        cases hphi
    · rwa [h.blockAt_split_other hroom hp hxn hxp] at hi
  rw [relabelled] at hmem
  split at hmem
  · rename_i hnext
    obtain ⟨j, hj, rfl⟩ := List.mem_map.mp hmem
    rw [Instruction.isPhi_renameIncoming] at hphi
    refine ⟨j, hj, hphi, ?_⟩
    simp only [Instruction.phiLabels_renameIncoming, hnext, true_and]
  · rename_i hnext
    exact ⟨i, hmem, hphi, by simp [hnext]⟩

variable (hk : k < (f.blockAt p).instructions.length)
include hk

/-- **Phis stay in step with the graph**, in every block but the new one. -/
theorem phisMatch_split (hxn : x ≠ f.nextBlock) (hx : f.PhisMatch x) :
    (f.split p k).PhisMatch x := by
  have s := h.splitsOff hroom hp hk hp
  intro i hi hphi a
  obtain ⟨j, hj, hjphi, hlabels⟩ := h.exists_phi_of_mem_split hroom hp hxn hi hphi
  have hedge : f.Edge p x ↔ x ∈ f.next p := and_iff_right hp
  simp only [hlabels, List.mem_map, hx j hj hjphi, s.edge_iff, hxn, hedge]
  constructor
  · rintro ⟨c, hc, rfl⟩
    split
    · rename_i hcond
      simp [hcond.1]
    · rename_i hcond
      by_cases hcp : c = p
      · exact absurd ⟨hedge.mp (hcp ▸ hc), hcp⟩ hcond
      · simp [hcp, hc]
  · rintro (⟨-, hfalse⟩ | ⟨rfl, hnext⟩ | ⟨hap, ha⟩)
    · exact hfalse.elim
    · exact ⟨p, hedge.mpr hnext, if_pos ⟨hnext, rfl⟩⟩
    · exact ⟨a, ha, if_neg fun hcond => hap hcond.2⟩

end WellFormed

/-! ### Splitting in place -/

/-- Splits a block of the function that a pass works on. -/
def splitInPlace (b : BlockId) (k : Nat) : Pass Function BlockId := do
  let (new, f) ← (← get).splitBlock b k
  set f
  return new

/-- The function `f'` is `f` with the instructions of block `b` from `k` on moved to block `n`. -/
structure IsSplit (f : Function) (b : BlockId) (k : Nat) (n : BlockId) (f' : Function) : Prop where
  fresh : n ∉ f.layout ∧ n.index = f.capacity
  valid : f'.validate = .ok ()
  order : ∃ pre post, f.layout = pre ++ b :: post ∧ f'.layout = pre ++ b :: n :: post
  /-- What stands before the cut stays, with labels renamed if the block leads to itself. -/
  kept : f'.blockAt b = { f.blockAt b with
    instructions := (f.relabelled b n b).instructions.take k ++ [.branch n] }
  moved : f'.blockAt n = ⟨n, (f.blockAt b).name ++ ".split", (f.blockAt b).instructions.drop k⟩
  others : ∀ x, x ≠ n → x ≠ b → f'.blockAt x = f.relabelled b n x
  rest : f' = { f with blocks := f'.blocks, layout := f'.layout }
  /-- Every path, contracted, is a path of the function before. -/
  path : ∀ x y xs, Walk f'.Edge x y xs → Walk f.Edge (SplitsOff.merge b n x)
    (SplitsOff.merge b n y) (SplitsOff.contract b n xs)
  /-- Every path of the function before comes from one between the same blocks. -/
  exists_path : ∀ x ∈ f.layout, ∀ y xs, Walk f.Edge x y xs →
    ∃ ys, Walk f'.Edge x y ys ∧ SplitsOff.contract b n ys = xs
  phis : (∀ x ∈ f.layout, f.PhisMatch x) →
    (∀ i ∈ (f.blockAt b).instructions.drop k, i.isPhi = false) → ∀ x ∈ f'.layout, f'.PhisMatch x

/-- **What a split is.** The parts of a split block, the graph and the phis are as they should
be. -/
theorem WellFormed.isSplit (h : f.WellFormed) (hroom : f.capacity < 2 ^ 32) (hp : p ∈ f.layout)
    (hk : k < (f.blockAt p).instructions.length) : f.IsSplit p k f.nextBlock (f.split p k) := by
  have hnot := h.nextBlock_not_mem hroom
  have s := h.splitsOff hroom hp hk hp
  refine ⟨⟨hnot, index_nextBlock hroom⟩, validate_eq_ok_iff.mpr (h.split hroom hp hk), ?_,
    h.blockAt_split_self hroom hp, h.blockAt_split_new hroom hp,
    fun x => h.blockAt_split_other hroom hp, split_eq f p k, fun x y xs => s.walk_contract,
    fun x hx y xs hw => s.exists_walk_contract hw fun hxn => hnot (hxn ▸ hx),
    fun hphis hmoved x hx => ?_⟩
  · rw [layout_split]
    exact exists_insertAfter_eq hp
  · by_cases hxn : x = f.nextBlock
    · intro i hi hphi
      rw [hxn, h.blockAt_split_new hroom hp] at hi
      rw [hmoved i hi] at hphi
      cases hphi
    · exact h.phisMatch_split hroom hp hk hxn (hphis x ((mem_layout_split.mp hx).resolve_left hxn))

/-- A split beyond the end of a block is an error that names the block. -/
theorem WellFormed.splitBlock_eq_error (h : f.WellFormed) (hp : p ∈ f.layout)
    (hk : (f.blockAt p).instructions.length ≤ k) :
    f.splitBlock p k =
      .error (.error (.invalidIr f.name (.splitOutOfRange k (f.blockAt p).name))) := by
  rw [splitBlock, h.block_eq hp]
  simp only [liftM, monadLift, MonadLift.monadLift, bind, Except.bind, Except.mapError, if_pos hk,
    throw, throwThe, MonadExceptOf.throw]

/-- **Splitting a block.** A block of a valid function cannot be split behind its last instruction,
and the attempt changes nothing. At each of its instructions it can: the instructions before and
behind the cut are those of two blocks that follow one another, the paths are the old ones, and phis
that fitted the graph fit it again, as long as no phi moves. -/
theorem splitInPlace_ends (detail : Detail) (f : Function) (hvalid : f.validate = .ok ())
    (hroom : f.capacity < 2 ^ 32) (b : BlockId) (hb : b ∈ f.layout) (k : Nat) :
    ((splitInPlace b k).Ends detail f (.error (.error
        (.invalidIr f.name (.splitOutOfRange k (f.blockAt b).name)))) f ↔
      (f.blockAt b).instructions.length ≤ k) ∧
    (k < (f.blockAt b).instructions.length →
      ∃ n f', (splitInPlace b k).Ends detail f (.ok n) f' ∧ f.IsSplit b k n f') := by
  have hf := validate_eq_ok_iff.mp hvalid
  have hsplits : k < (f.blockAt b).instructions.length →
      (splitInPlace b k).Ends detail f (.ok f.nextBlock) (f.split b k) := fun hk =>
    .bind .get (.bind (.lift (hf.splitBlock_eq hb hk)) (.bind (.set _) (.pure _)))
  refine ⟨⟨fun hends => ?_, fun hk => ?_⟩, fun hk =>
    ⟨_, _, hsplits hk, hf.isSplit hroom hb hk⟩⟩
  · by_contra hk
    cases (hends.unique (hsplits (Nat.lt_of_not_le hk))).1
  · exact .bind .get (.bind_error (.lift_error (hf.splitBlock_eq_error hb hk)))

/-- A block that leads to itself and starts with a phi, and one behind it that starts with a phi. -/
def spin : Function where
  name := "spin"
  returnType := .void
  parameters := [⟨"more", .i1⟩]
  blocks := [
    ⟨⟨0⟩, "entry", [.branch ⟨1⟩]⟩,
    ⟨⟨1⟩, "loop", [.phi 0 [(.constant 0, ⟨0⟩), (.constant 1, ⟨1⟩)] .i32, .barrier,
      .branchCond (.param 0) ⟨1⟩ ⟨2⟩]⟩,
    ⟨⟨2⟩, "exit", [.phi 1 [(.constant 2, ⟨1⟩)] .i32, .ret none]⟩]
  layout := [⟨0⟩, ⟨1⟩, ⟨2⟩]

/-- The loop of `spin` can be split behind its phi, but not behind its branch. -/
theorem splitInPlace_ends_spin :
    spin.validate = .ok () ∧ spin.capacity < 2 ^ 32 ∧ ⟨1⟩ ∈ spin.layout ∧
    (splitInPlace ⟨1⟩ 3).Ends none spin (.error (.error
      (.invalidIr "spin" (.splitOutOfRange 3 "loop")))) spin ∧
    ∃ f', (splitInPlace ⟨1⟩ 1).Ends none spin (.ok ⟨3⟩) f' ∧ spin.IsSplit ⟨1⟩ 1 ⟨3⟩ f' ∧
      ∀ x ∈ f'.layout, f'.PhisMatch x := by
  have hvalid : spin.validate = .ok () := by decide +kernel
  have hroom : spin.capacity < 2 ^ 32 := by decide +kernel
  have hmem : ⟨1⟩ ∈ spin.layout := by decide +kernel
  obtain ⟨herror, -⟩ := splitInPlace_ends none spin hvalid hroom ⟨1⟩ hmem 3
  obtain ⟨-, hok⟩ := splitInPlace_ends none spin hvalid hroom ⟨1⟩ hmem 1
  obtain ⟨n, f', hends, hsplit⟩ := hok (by decide +kernel)
  obtain rfl : ⟨3⟩ = n := ArenaId.index_inj hsplit.fresh.2.symm
  exact ⟨hvalid, hroom, hmem, herror.mpr (by decide +kernel), f', hends, hsplit,
    hsplit.phis (by decide +kernel) (by decide +kernel)⟩

end Function

end Lockstep
