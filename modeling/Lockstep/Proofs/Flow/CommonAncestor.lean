import Lockstep.Flow.DominatorTree
import Lockstep.Proofs.Success
import Mathlib.Logic.Relation
import Mathlib.Tactic.ByContra

/-!
# Common ancestors

The dominator tree is built from lists of parents that are trees at every moment: each block that
is in the list has its parent in it too, and the numbers of the blocks fall on the way to the
root. On such a list each block has a lineage, the blocks from it to the root, and the lineages of
two blocks join: from some block on they are the same, and before it they are apart. That block is
the deepest common ancestor, and the walk of `meet` finds it. The walk never goes past it, because
the one of its two blocks that has the larger number is always before it.

## Main results

* `DominatorTree.Rooted.meet_eq`: what `meet` gives, and after how many steps.
* `DominatorTree.Rooted.meet_eq_ok`: `meet` gives the ancestor of both blocks that all their
  other common ancestors are above.
* `DominatorTree.meet_deepest`: of the blocks on both lineages it has the largest number.
* `DominatorTree.Rooted.refine_eq_ok`: `refine` gives a block the deepest common ancestor of its
  predecessors in the tree.
-/

namespace Lockstep

namespace DominatorTree

variable {parents : List (Option BlockId)} {num : BlockId → Nat} {r a b c m p q x y z : BlockId}

/-- `y` is met on the way from `x` to the root, `x` itself counted. -/
def Up (parents : List (Option BlockId)) (x y : BlockId) : Prop :=
  Relation.ReflTransGen (fun a b => lookup parents a = some b) x y

/-- The block is in the tree. -/
def Listed (parents : List (Option BlockId)) (b : BlockId) : Prop :=
  ∃ p, lookup parents b = some p

/-- A list of parents that is a tree with root `r`, numbered so that parents come first. -/
structure Rooted (num : BlockId → Nat) (r : BlockId) (parents : List (Option BlockId)) : Prop where
  root : lookup parents r = some r
  num_root : num r = 0
  parent_listed : ∀ b p, lookup parents b = some p → Listed parents p
  num_lt : ∀ b p, lookup parents b = some p → b ≠ r → num p < num b
  num_inj : ∀ a b, Listed parents a → Listed parents b → num a = num b → a = b

namespace Up

/-- Every block is above itself. -/
theorem refl (x : BlockId) : Up parents x x :=
  Relation.ReflTransGen.refl

/-- What is above something above a block is above the block. -/
theorem trans (h : Up parents x y) (h' : Up parents y z) : Up parents x z :=
  Relation.ReflTransGen.trans h h'

/-- What is above the parent of a block is above the block. -/
theorem parent (h : lookup parents x = some y) (h' : Up parents y z) : Up parents x z :=
  Relation.ReflTransGen.head h h'

/-- The way up from a block goes through its parent. -/
theorem cases (h : Up parents x z) : x = z ∨ ∃ y, lookup parents x = some y ∧ Up parents y z :=
  Relation.ReflTransGen.cases_head h

/-- There is only one way up. -/
theorem total (h : Up parents x y) (h' : Up parents x z) : Up parents y z ∨ Up parents z y := by
  refine Relation.ReflTransGen.total_of_right_unique (fun a b c hb hc => ?_) h h'
  exact Option.some.inj (hb.symm.trans hc)

end Up

namespace Rooted

/-- The root is in the tree. -/
theorem listed_root (ht : Rooted num r parents) : Listed parents r :=
  ⟨r, ht.root⟩

/-- What is above a block in the tree is in the tree. -/
theorem listed_of_up (ht : Rooted num r parents) (h : Up parents x y) (hx : Listed parents x) :
    Listed parents y := by
  induction h with
  | refl => exact hx
  | tail _ hbc _ => exact ht.parent_listed _ _ hbc

/-- The parent of the root is the root. -/
theorem eq_root_of_parent (ht : Rooted num r parents) (h : lookup parents r = some p) : p = r :=
  Option.some.inj (h.symm.trans ht.root)

/-- Nothing is above the root. -/
theorem eq_root_of_up (ht : Rooted num r parents) (h : Up parents r y) : y = r := by
  induction h with
  | refl => rfl
  | tail _ hbc ih => exact ht.eq_root_of_parent (ih ▸ hbc)

/-- Numbers fall on the way up. -/
theorem num_le_of_up (ht : Rooted num r parents) (h : Up parents x y) : num y ≤ num x := by
  induction h with
  | refl => exact Nat.le_refl _
  | @tail b c _ hbc ih =>
      by_cases hb : b = r
      · rw [hb] at hbc ih
        rwa [ht.eq_root_of_parent hbc]
      · have := ht.num_lt b c hbc hb
        omega

/-- On the way up, a block that is not numbered lower is the block itself. -/
theorem eq_of_up (ht : Rooted num r parents) (h : Up parents x y) (hx : Listed parents x)
    (hle : num x ≤ num y) : x = y := by
  have hge := ht.num_le_of_up h
  exact ht.num_inj x y hx (ht.listed_of_up h hx) (by omega)

/-- Every way up ends at the root. -/
theorem up_root (ht : Rooted num r parents) (hx : Listed parents x) : Up parents x r := by
  induction hn : num x using Nat.strongRecOn generalizing x with
  | _ n ih =>
      by_cases heq : x = r
      · exact heq ▸ Up.refl x
      · obtain ⟨p, hp⟩ := hx
        have hlt := ht.num_lt x p hp heq
        exact Up.parent hp (ih (num p) (by omega) (ht.parent_listed x p hp) rfl)

end Rooted

/-! ### Lineages -/

/-- `path` leads from a block to the root `r`, from each block on it to its parent. -/
inductive Lineage (parents : List (Option BlockId)) (r : BlockId) :
    BlockId → List BlockId → Prop
  | root : Lineage parents r r [r]
  | child {b p : BlockId} {path : List BlockId} :
      b ≠ r → lookup parents b = some p → Lineage parents r p path →
      Lineage parents r b (b :: path)

section

variable {path path' left right above : List BlockId}

namespace Lineage

/-- A block has only one lineage. -/
theorem unique (h : Lineage parents r b path) (h' : Lineage parents r b path') : path = path' := by
  induction h generalizing path' with
  | root =>
      cases h' with
      | root => rfl
      | child hne => exact absurd rfl hne
  | child hne hp _ ih =>
      cases h' with
      | root => exact absurd rfl hne
      | child _ hp' h' =>
          obtain rfl := Option.some.inj (hp.symm.trans hp')
          rw [ih h']

/-- A lineage begins with the block itself. -/
theorem head_eq (h : Lineage parents r b (x :: path)) : x = b := by
  cases h <;> rfl

/-- Unless it ends there, a lineage goes on with the lineage of the parent. -/
theorem tail (h : Lineage parents r b (x :: path)) (hpath : path ≠ []) :
    ∃ p, b ≠ r ∧ lookup parents b = some p ∧ Lineage parents r p path := by
  cases h with
  | root => exact absurd rfl hpath
  | child hne hp h => exact ⟨_, hne, hp, h⟩

/-- From each block on, the rest of a lineage is the lineage of that block. -/
theorem of_append (h : Lineage parents r b (left ++ m :: above)) :
    Lineage parents r m (m :: above) := by
  induction left generalizing b with
  | nil => exact h.head_eq ▸ h
  | cons x left ih =>
      obtain ⟨p, -, -, h⟩ := h.tail (by simp)
      exact ih h

/-- A lineage leads to the root. -/
theorem root_mem (h : Lineage parents r b path) : r ∈ path := by
  induction h with
  | root => exact List.mem_cons_self
  | child _ _ _ ih => exact List.mem_cons_of_mem _ ih

/-- The blocks of a lineage are met on the way up. -/
theorem up_of_mem (h : Lineage parents r b path) (hx : x ∈ path) : Up parents b x := by
  induction h with
  | root => exact List.mem_singleton.mp hx ▸ Up.refl x
  | child _ hp _ ih =>
      rcases List.mem_cons.mp hx with rfl | hx
      · exact Up.refl x
      · exact Up.parent hp (ih hx)

/-- **Two lineages come together.** They share the blocks from some block `m` on, and none of the
blocks before it. The first block of the one that is in the other one too is where they join. -/
theorem exists_join (ha : Lineage parents r a path) (hb : Lineage parents r b path') :
    ∃ left right m above, path = left ++ m :: above ∧ path' = right ++ m :: above ∧
      left.Disjoint right := by
  induction ha with
  | root =>
      obtain ⟨right, above, rfl⟩ := List.append_of_mem hb.root_mem
      obtain rfl : above = [] := List.tail_eq_of_cons_eq (hb.of_append.unique .root)
      exact ⟨[], right, r, [], rfl, rfl, List.disjoint_nil_left right⟩
  | @child a p path hne hp h ih =>
      by_cases hmem : a ∈ path'
      · obtain ⟨right, above, rfl⟩ := List.append_of_mem hmem
        rw [(Lineage.child hne hp h).unique hb.of_append]
        exact ⟨[], right, a, above, rfl, rfl, List.disjoint_nil_left right⟩
      · obtain ⟨left, right, m, above, rfl, rfl, hapart⟩ := ih
        refine ⟨a :: left, right, m, above, rfl, rfl, List.disjoint_cons_left.mpr ⟨?_, hapart⟩⟩
        exact fun ha => hmem (List.mem_append_left _ ha)

end Lineage

namespace Rooted

/-- Every block in the tree has a lineage. -/
theorem exists_lineage (ht : Rooted num r parents) (hx : Listed parents x) :
    ∃ path, Lineage parents r x path := by
  induction ht.up_root hx using Relation.ReflTransGen.head_induction_on with
  | refl => exact ⟨[r], .root⟩
  | @head b p hp _ ih =>
      by_cases hb : b = r
      · exact ⟨[r], hb ▸ .root⟩
      · obtain ⟨path, h⟩ := ih (ht.parent_listed b p hp)
        exact ⟨b :: path, .child hb hp h⟩

/-- A block with a lineage is in the tree. -/
theorem listed_of_lineage (ht : Rooted num r parents) (h : Lineage parents r b path) :
    Listed parents b := by
  cases h with
  | root => exact ht.listed_root
  | child _ hp _ => exact ⟨_, hp⟩

/-- What is met on the way up is in the lineage. -/
theorem mem_of_up (ht : Rooted num r parents) (h : Lineage parents r b path)
    (hx : Up parents b x) : x ∈ path := by
  induction h with
  | root => exact List.mem_singleton.mpr (ht.eq_root_of_up hx)
  | child _ hp _ ih =>
      rcases hx.cases with rfl | ⟨p, hp', hx⟩
      · exact List.mem_cons_self
      · obtain rfl := Option.some.inj (hp.symm.trans hp')
        exact List.mem_cons_of_mem _ (ih hx)

/-- Numbers fall along a lineage. -/
theorem pairwise_num (ht : Rooted num r parents) (h : Lineage parents r b path) :
    path.Pairwise fun x y => num y < num x := by
  induction h with
  | root => exact List.pairwise_singleton _ _
  | @child b p path hne hp h ih =>
      refine List.pairwise_cons.mpr ⟨fun x hx => ?_, ih⟩
      have hle := ht.num_le_of_up (h.up_of_mem hx)
      have hlt := ht.num_lt b p hp hne
      omega

/-- No block stands in a lineage twice, so a block is found behind those before it. -/
theorem idxOf_eq_length (ht : Rooted num r parents)
    (h : Lineage parents r b (left ++ m :: above)) :
    (left ++ m :: above).idxOf m = left.length := by
  have hleft : m ∉ left := fun hm =>
    Nat.lt_irrefl _ ((List.pairwise_append.mp (ht.pairwise_num h)).2.2 m hm m List.mem_cons_self)
  rw [List.idxOf_append_of_notMem hleft, List.idxOf_cons_self, Nat.add_zero]

/-- Each step along a lineage costs at least one number. -/
theorem length_add_num_le (ht : Rooted num r parents)
    (h : Lineage parents r b (left ++ m :: above)) : left.length + num m ≤ num b := by
  induction left generalizing b with
  | nil =>
      obtain rfl := h.head_eq
      simp
  | cons x left ih =>
      obtain ⟨p, hne, hp, h⟩ := h.tail (by simp)
      have hle := ih h
      have hlt := ht.num_lt b p hp hne
      rw [List.length_cons]
      omega

end Rooted

/-- What two lineages share stands where they join or above. -/
theorem mem_of_disjoint (hapart : left.Disjoint right) (ha : x ∈ left ++ m :: above)
    (hb : x ∈ right ++ m :: above) : x ∈ m :: above := by
  rcases List.mem_append.mp ha with hleft | hx
  · exact (List.mem_append.mp hb).resolve_left (hapart hleft)
  · exact hx

/-! ### The walk of `meet` -/

/-- Of the two blocks it does not matter which comes first. -/
theorem meet_comm {budget : Nat} : meet parents num budget a b = meet parents num budget b a := by
  induction budget generalizing a b with
  | zero => rfl
  | succ budget ih =>
      rw [meet, meet]
      by_cases heq : a = b
      · rw [if_pos heq, if_pos heq.symm, heq]
      rw [if_neg heq, if_neg (Ne.symm heq)]
      rcases Nat.lt_trichotomy (num a) (num b) with hlt | hnum | hlt
      · simp only [if_neg (Nat.lt_asymm hlt), if_pos hlt, ih]
      · simp only [hnum, if_neg (Nat.lt_irrefl _)]
      · simp only [if_neg (Nat.lt_asymm hlt), if_pos hlt, ih]

/-- The block with the larger number goes to its parent. -/
theorem meet_of_lt {budget : Nat} (hlt : num b < num a) (hp : lookup parents a = some p) :
    meet parents num (budget + 1) a b = meet parents num budget p b := by
  have hne : a ≠ b := by
    rintro rfl
    exact Nat.lt_irrefl _ hlt
  rw [meet, if_neg hne, if_pos hlt, hp]

namespace Rooted

/-- If the lineages of two blocks join at `m`, the block with the larger number stands before `m`,
and `m` is in the lineage of its parent as well. -/
theorem exists_parent_of_lt (ht : Rooted num r parents)
    (ha : Lineage parents r a (left ++ m :: above))
    (hb : Lineage parents r b (right ++ m :: above)) (hlt : num b < num a) :
    ∃ p rest, lookup parents a = some p ∧ left = a :: rest ∧
      Lineage parents r p (rest ++ m :: above) := by
  cases left with
  | nil =>
      obtain rfl := ha.head_eq
      have := ht.length_add_num_le hb
      omega
  | cons x rest =>
      obtain rfl := ha.head_eq
      obtain ⟨p, -, hp, h⟩ := ha.tail (by simp)
      exact ⟨p, rest, hp, rfl, h⟩

/-- **The walk.** If the lineages of two blocks join at `m`, the walk ends there. It takes one step
for each block before `m` on either lineage, and no other steps. Two blocks with the same number are
one, and what is before `m` on its lineage would be on both sides. -/
theorem meet_eq (ht : Rooted num r parents) (ha : Lineage parents r a (left ++ m :: above))
    (hb : Lineage parents r b (right ++ m :: above)) (hapart : left.Disjoint right)
    (budget : Nat) :
    meet parents num budget a b =
      if left.length + right.length < budget then .ok m else .error .diverges := by
  induction budget generalizing a b left right with
  | zero => rfl
  | succ budget ih =>
      rcases Nat.lt_trichotomy (num a) (num b) with hlt | hnum | hlt
      · obtain ⟨p, rest, hp, rfl, h⟩ := ht.exists_parent_of_lt hb ha hlt
        rw [meet_comm, meet_of_lt hlt hp, meet_comm,
          ih ha h (List.disjoint_of_disjoint_cons_right hapart)]
        exact if_congr (by rw [List.length_cons]; omega) rfl rfl
      · obtain rfl := ht.num_inj a b (ht.listed_of_lineage ha) (ht.listed_of_lineage hb) hnum
        obtain rfl : left = right := List.append_cancel_right (ha.unique hb)
        obtain rfl : left = [] := List.eq_nil_iff_forall_not_mem.mpr fun x hx => hapart hx hx
        obtain rfl := ha.head_eq
        simp [meet]
      · obtain ⟨p, rest, hp, rfl, h⟩ := ht.exists_parent_of_lt ha hb hlt
        rw [meet_of_lt hlt hp, ih h hb (List.disjoint_of_disjoint_cons_left hapart)]
        exact if_congr (by rw [List.length_cons]; omega) rfl rfl

/-- The walk ends within as many steps as the two numbers allow. -/
theorem meet_eq_ok_of_lineage (ht : Rooted num r parents) {budget : Nat}
    (ha : Lineage parents r a (left ++ m :: above))
    (hb : Lineage parents r b (right ++ m :: above)) (hapart : left.Disjoint right)
    (hbudget : num a + num b < budget) : meet parents num budget a b = .ok m := by
  have hleft := ht.length_add_num_le ha
  have hright := ht.length_add_num_le hb
  rw [ht.meet_eq ha hb hapart, if_pos (by omega)]

/-- The lineages of two blocks in the tree join somewhere. -/
theorem exists_join (ht : Rooted num r parents) (ha : Listed parents a) (hb : Listed parents b) :
    ∃ left right m above, Lineage parents r a (left ++ m :: above) ∧
      Lineage parents r b (right ++ m :: above) ∧ left.Disjoint right := by
  obtain ⟨path, hpath⟩ := ht.exists_lineage ha
  obtain ⟨path', hpath'⟩ := ht.exists_lineage hb
  obtain ⟨left, right, m, above, rfl, rfl, hapart⟩ := hpath.exists_join hpath'
  exact ⟨left, right, m, above, hpath, hpath', hapart⟩

/-- **The deepest common ancestor.** Where the lineages of two blocks join is an ancestor of both,
and what they share is its lineage. -/
theorem meet_eq_ok (ht : Rooted num r parents) {budget : Nat} (ha : Listed parents a)
    (hb : Listed parents b) (hbudget : num a + num b < budget) :
    ∃ m, meet parents num budget a b = .ok m ∧ Up parents a m ∧ Up parents b m ∧
      ∀ x, Up parents a x → Up parents b x → Up parents m x := by
  obtain ⟨left, right, m, above, hleft, hright, hapart⟩ := ht.exists_join ha hb
  refine ⟨m, ht.meet_eq_ok_of_lineage hleft hright hapart hbudget, hleft.up_of_mem (by simp),
    hright.up_of_mem (by simp), fun x hax hbx => ?_⟩
  exact hleft.of_append.up_of_mem
    (mem_of_disjoint hapart (ht.mem_of_up hleft hax) (ht.mem_of_up hright hbx))

/-- The budget of the walk is no restriction. -/
theorem exists_meet_eq_ok (ht : Rooted num r parents) (ha : Listed parents a)
    (hb : Listed parents b) :
    ∃ m, ∀ budget, num a + num b < budget → meet parents num budget a b = .ok m := by
  obtain ⟨left, right, m, above, hleft, hright, hapart⟩ := ht.exists_join ha hb
  exact ⟨m, fun budget hbudget => ht.meet_eq_ok_of_lineage hleft hright hapart hbudget⟩

end Rooted

/-- **The deepest common ancestor, by number.** Let a list of parents be a tree with root `r`, so
numbered that parents come first. For two blocks in the tree the walk ends at the block `m` that of
all the blocks on both lineages has the largest number. It takes one step for each block before `m`
on either lineage: with a budget above that it gives `m`, as it does with the budget that the two
numbers allow, and with a smaller one it is cut off. -/
theorem meet_deepest (parents : List (Option BlockId)) (num : BlockId → Nat) (r a b : BlockId)
    (ht : Rooted num r parents) (ha : Listed parents a) (hb : Listed parents b) :
    ∃ m pathA pathB, Lineage parents r a pathA ∧ Lineage parents r b pathB ∧
      m ∈ pathA ∧ m ∈ pathB ∧ (∀ x ∈ pathA, x ∈ pathB → x ≠ m → num x < num m) ∧
      meet parents num (num a + num b + 1) a b = .ok m ∧
      ∀ budget, meet parents num budget a b =
        if pathA.idxOf m + pathB.idxOf m < budget then .ok m else .error .diverges := by
  obtain ⟨left, right, m, above, hleft, hright, hapart⟩ := ht.exists_join ha hb
  refine ⟨m, _, _, hleft, hright, by simp, by simp, fun x hxa hxb hne => ?_,
    ht.meet_eq_ok_of_lineage hleft hright hapart (Nat.lt_succ_self _), fun budget => ?_⟩
  · have hx := (List.mem_cons.mp (mem_of_disjoint hapart hxa hxb)).resolve_left hne
    exact (List.pairwise_cons.mp (ht.pairwise_num hleft.of_append)).1 x hx
  · rw [ht.idxOf_eq_length hleft, ht.idxOf_eq_length hright]
    exact ht.meet_eq hleft hright hapart budget

end

/-- What is in the tree has an entry in the list. -/
theorem Listed.mem_map_ofIndex (h : Listed parents b) :
    b ∈ (List.range parents.length).map ArenaId.ofIndex := by
  obtain ⟨p, hp⟩ := h
  have hlt : b.index < parents.length := by
    by_contra hge
    rw [lookup, List.getElem?_eq_none (Nat.le_of_not_lt hge)] at hp
    cases hp
  exact List.mem_map.mpr ⟨b.index, List.mem_range.mpr hlt, b.ofIndex_index⟩

/-- A tree in the making: block 2 is not in it yet. -/
def sapling : List (Option BlockId) :=
  [some ⟨0⟩, some ⟨0⟩, none, some ⟨1⟩, some ⟨3⟩, some ⟨1⟩, some ⟨5⟩, some ⟨4⟩]

/-- The numbers of the blocks of `sapling`. Blocks that are not in the tree share one. -/
def saplingNumber (b : BlockId) : Nat :=
  [0, 1, 7, 2, 5, 3, 4, 6].getD b.index 7

/-- The sapling is a tree with its first block as the root. -/
theorem rooted_sapling : Rooted saplingNumber ⟨0⟩ sapling := by
  have hentry : ∀ b ∈ (List.range sapling.length).map ArenaId.ofIndex,
      ∀ p ∈ lookup sapling b,
        (lookup sapling p).isSome = true ∧ (b ≠ ⟨0⟩ → saplingNumber p < saplingNumber b) := by
    decide
  have hinj : ∀ a ∈ (List.range sapling.length).map ArenaId.ofIndex,
      ∀ b ∈ (List.range sapling.length).map ArenaId.ofIndex,
        (lookup sapling a).isSome = true → (lookup sapling b).isSome = true →
        saplingNumber a = saplingNumber b → a = b := by
    decide
  constructor
  · decide
  · decide
  · exact fun b p hp =>
      Option.isSome_iff_exists.mp (hentry b (Listed.mem_map_ofIndex ⟨p, hp⟩) p hp).1
  · exact fun b p hp => (hentry b (Listed.mem_map_ofIndex ⟨p, hp⟩) p hp).2
  · exact fun a b ha hb => hinj a ha.mem_map_ofIndex b hb.mem_map_ofIndex
      (Option.isSome_iff_exists.mpr ha) (Option.isSome_iff_exists.mpr hb)

/-- From blocks 7 and 6 of `sapling` the walk goes up by turns, three steps on the one side and two
on the other, until both sides are at block 1. -/
theorem meet_deepest_sapling :
    Rooted saplingNumber ⟨0⟩ sapling ∧ Listed sapling ⟨7⟩ ∧ Listed sapling ⟨6⟩ ∧
    Lineage sapling ⟨0⟩ ⟨7⟩ [⟨7⟩, ⟨4⟩, ⟨3⟩, ⟨1⟩, ⟨0⟩] ∧
    Lineage sapling ⟨0⟩ ⟨6⟩ [⟨6⟩, ⟨5⟩, ⟨1⟩, ⟨0⟩] ∧ saplingNumber ⟨0⟩ < saplingNumber ⟨1⟩ ∧
    ∀ budget, meet sapling saplingNumber budget ⟨7⟩ ⟨6⟩ =
      if 3 + 2 < budget then .ok ⟨1⟩ else .error .diverges := by
  have hseven : Listed sapling ⟨7⟩ := ⟨⟨4⟩, by decide⟩
  have hsix : Listed sapling ⟨6⟩ := ⟨⟨5⟩, by decide⟩
  have hone : Lineage sapling ⟨0⟩ ⟨1⟩ [⟨1⟩, ⟨0⟩] := .child (by decide) (by decide) .root
  have hleft : Lineage sapling ⟨0⟩ ⟨7⟩ [⟨7⟩, ⟨4⟩, ⟨3⟩, ⟨1⟩, ⟨0⟩] :=
    .child (by decide) (by decide) (.child (by decide) (by decide)
      (.child (by decide) (by decide) hone))
  have hright : Lineage sapling ⟨0⟩ ⟨6⟩ [⟨6⟩, ⟨5⟩, ⟨1⟩, ⟨0⟩] :=
    .child (by decide) (by decide) (.child (by decide) (by decide) hone)
  obtain ⟨m, pathA, pathB, hpathA, hpathB, -, -, hdeepest, hm, hmeet⟩ :=
    meet_deepest sapling saplingNumber ⟨0⟩ ⟨7⟩ ⟨6⟩ rooted_sapling hseven hsix
  obtain rfl := hpathA.unique hleft
  obtain rfl := hpathB.unique hright
  obtain rfl : m = ⟨1⟩ := Except.ok.inj (hm.symm.trans (by decide))
  exact ⟨rooted_sapling, hseven, hsix, hleft, hright,
    hdeepest ⟨0⟩ (by decide) (by decide) (by decide), hmeet⟩

/-! ### Several blocks -/

/-- `m` is the deepest common ancestor of those of some blocks that are in the tree. -/
structure IsMeet (parents : List (Option BlockId)) (qs : List BlockId) (m : BlockId) : Prop where
  listed : Listed parents m
  above : ∀ q ∈ qs, Listed parents q → Up parents q m
  deepest : ∀ x, (∀ q ∈ qs, Listed parents q → Up parents q x) → Up parents m x

/-- A block in the tree is none without a parent. -/
theorem ne_of_listed (hx : Listed parents x) (hq : lookup parents q = none) : x ≠ q := by
  rintro rfl
  obtain ⟨p, hp⟩ := hx
  rw [hq] at hp
  cases hp

namespace IsMeet

variable {qs qs' : List BlockId}

/-- Only blocks in the tree count. -/
theorem congr (h : IsMeet parents qs m)
    (hqs : ∀ q, Listed parents q → (q ∈ qs' ↔ q ∈ qs)) : IsMeet parents qs' m where
  listed := h.listed
  above q hq hl := h.above q ((hqs q hl).mp hq) hl
  deepest x hx := h.deepest x fun q hq hl => hx q ((hqs q hl).mpr hq) hl

/-- The deepest common ancestor of two blocks may stand for them. -/
theorem expand {m₀ : BlockId} (h : IsMeet parents (m₀ :: qs) m) (hm₀ : Listed parents m₀)
    (hc : Listed parents c) (hq : Listed parents q) (hcm₀ : Up parents c m₀)
    (hqm₀ : Up parents q m₀) (hmax₀ : ∀ x, Up parents q x → Up parents c x → Up parents m₀ x) :
    IsMeet parents (c :: q :: qs) m where
  listed := h.listed
  above x hx hlx := by
    have hm₀m : Up parents m₀ m := h.above m₀ List.mem_cons_self hm₀
    rcases List.mem_cons.mp hx with rfl | hx
    · exact hcm₀.trans hm₀m
    rcases List.mem_cons.mp hx with rfl | hx
    · exact hqm₀.trans hm₀m
    · exact h.above x (List.mem_cons_of_mem _ hx) hlx
  deepest x hx := by
    refine h.deepest x fun y hy hly => ?_
    rcases List.mem_cons.mp hy with rfl | hy
    · exact hmax₀ x (hx q (by simp) hq) (hx c List.mem_cons_self hc)
    · exact hx y (List.mem_cons_of_mem _ (List.mem_cons_of_mem _ hy)) hly

end IsMeet

namespace Rooted

variable {edges : Edges} {qs : List BlockId}

/-- What a predecessor that is taken into account leads to is in the tree. -/
theorem listed_mergeParent {sofar : Option BlockId} (ht : Rooted edges.number r parents)
    (hsofar : ∀ x, sofar = some x → Listed parents x)
    (h : mergeParent edges parents sofar q = .ok (some c)) : Listed parents c := by
  cases hq : lookup parents q with
  | none =>
      simp only [mergeParent, hq] at h
      exact hsofar c (Except.ok.inj h)
  | some p =>
      have hlq : Listed parents q := ⟨p, hq⟩
      cases sofar with
      | none =>
          simp only [mergeParent, hq] at h
          obtain rfl := Option.some.inj (Except.ok.inj h)
          exact hlq
      | some current =>
          simp only [mergeParent, hq] at h
          obtain ⟨m, hm, hqm, -, -⟩ := ht.meet_eq_ok hlq (hsofar current rfl)
            (Nat.lt_succ_self (edges.number q + edges.number current))
          rw [hm] at h
          obtain rfl := Option.some.inj (Except.ok.inj h)
          exact ht.listed_of_up hqm hlq

/-- What is left of some predecessors is in the tree. -/
theorem listed_foldlM_mergeParent {sofar : Option BlockId} (ht : Rooted edges.number r parents)
    (hsofar : ∀ x, sofar = some x → Listed parents x)
    (h : qs.foldlM (mergeParent edges parents) sofar = .ok (some c)) : Listed parents c := by
  induction qs generalizing sofar with
  | nil => exact hsofar c (Except.ok.inj h)
  | cons q qs ih =>
      rw [List.foldlM_cons] at h
      obtain ⟨next, hnext, h⟩ := exists_of_bind_eq_ok h
      exact ih (fun x hx => ht.listed_mergeParent hsofar (hx ▸ hnext)) h

/-- Folding goes on from a block in the tree to the deepest common ancestor of it and the rest. -/
theorem foldlM_mergeParent_some (ht : Rooted edges.number r parents) (hc : Listed parents c) :
    ∃ m, qs.foldlM (mergeParent edges parents) (some c) = .ok (some m) ∧
      IsMeet parents (c :: qs) m := by
  induction qs generalizing c with
  | nil =>
      refine ⟨c, rfl, hc, fun q hq _ => ?_, fun x hx => hx c List.mem_cons_self hc⟩
      obtain rfl : q = c := by simpa using hq
      exact Up.refl q
  | cons q qs ih =>
      rw [List.foldlM_cons]
      cases hq : lookup parents q with
      | none =>
          have hstep : mergeParent edges parents (some c) q = .ok (some c) := by
            simp only [mergeParent, hq]
            rfl
          obtain ⟨m, hm, hmeet⟩ := ih hc
          refine ⟨m, by rw [hstep]; exact hm, hmeet.congr fun x hx => ?_⟩
          have hne : x ≠ q := ne_of_listed hx hq
          simp [hne]
      | some p =>
          have hlq : Listed parents q := ⟨p, hq⟩
          obtain ⟨m₀, hm₀, hqm₀, hcm₀, hmax₀⟩ :=
            ht.meet_eq_ok hlq hc (Nat.lt_succ_self (edges.number q + edges.number c))
          have hstep : mergeParent edges parents (some c) q = .ok (some m₀) := by
            simp only [mergeParent, hq]
            rw [hm₀]
            rfl
          have hlm₀ := ht.listed_of_up hcm₀ hc
          obtain ⟨m, hm, hmeet⟩ := ih hlm₀
          exact ⟨m, by rw [hstep]; exact hm, hmeet.expand hlm₀ hc hlq hcm₀ hqm₀ hmax₀⟩

/-- If one of the blocks is in the tree, folding gives the deepest common ancestor. -/
theorem foldlM_mergeParent_none (ht : Rooted edges.number r parents) (hq : q ∈ qs)
    (hlq : Listed parents q) :
    ∃ m, qs.foldlM (mergeParent edges parents) none = .ok (some m) ∧ IsMeet parents qs m := by
  induction qs with
  | nil => exact absurd hq List.not_mem_nil
  | cons c qs ih =>
      rw [List.foldlM_cons]
      cases hc : lookup parents c with
      | none =>
          have hstep : mergeParent edges parents none c = .ok none := by
            simp only [mergeParent, hc]
            rfl
          obtain ⟨m, hm, hmeet⟩ := ih ((List.mem_cons.mp hq).resolve_left (ne_of_listed hlq hc))
          refine ⟨m, by rw [hstep]; exact hm, hmeet.congr fun x hx => ?_⟩
          have hne : x ≠ c := ne_of_listed hx hc
          simp [hne]
      | some p =>
          have hstep : mergeParent edges parents none c = .ok (some c) := by
            simp only [mergeParent, hc]
            rfl
          rw [hstep]
          exact ht.foldlM_mergeParent_some ⟨p, hc⟩

/-- **One block.** A block with a predecessor in the tree becomes a child of the deepest common
ancestor of its predecessors. -/
theorem refine_eq_ok (ht : Rooted edges.number r parents) (hq : q ∈ edges.predecessors b)
    (hlq : Listed parents q) :
    ∃ m, refine edges parents b = .ok (parents.set b.index (some m)) ∧
      IsMeet parents (edges.predecessors b) m := by
  obtain ⟨m, hm, hmeet⟩ := ht.foldlM_mergeParent_none hq hlq
  refine ⟨m, ?_, hmeet⟩
  rw [DominatorTree.refine, hm]
  rfl

end Rooted

end DominatorTree

end Lockstep
