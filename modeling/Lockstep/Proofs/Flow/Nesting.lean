import Lockstep.Proofs.Flow.LoopForest
import Mathlib.Data.List.Perm.Subperm
import Mathlib.Logic.Relation

/-!
# The nesting of loops

The parent of a loop is the smallest larger loop that holds its header. For natural loops that
makes a forest in which a loop is below another exactly when the other holds its header: two loops
that hold one block hold each other's headers one way or the other. Walking the forest from below
visits every loop, and a loop only behind those inside it.

## Main results

* `LoopForest.below_iff`: being below in the forest is being inside.
* `LoopForest.mem_postorder_iff`: every loop is visited.
* `LoopForest.pairwise_postorder`: no loop is visited before one that is inside it.
-/

namespace Lockstep

/-- A loop whose header another one holds has fewer blocks than that one. -/
theorem Loop.Describes.length_lt {E : BlockId → BlockId → Prop} {r : BlockId} {l l' : Loop}
    (hl : l.Describes E r) (hl' : l'.Describes E r) (hne : l.header ≠ l'.header)
    (hin : InLoop E r l'.header l.header) : l.blocks.length < l'.blocks.length := by
  have hnot : l'.header ∉ l.blocks := fun hmem =>
    hne (((hl.mem_blocks _).mp hmem).antisymm hin)
  have hsub : l'.header :: l.blocks ⊆ l'.blocks := by
    intro x hx
    rw [hl'.mem_blocks]
    rcases List.mem_cons.mp hx with rfl | hx
    · exact hl'.header.inLoop
    · exact hin.trans ((hl.mem_blocks x).mp hx)
  exact (List.subperm_of_subset (List.nodup_cons.mpr ⟨hnot, hl.nodup⟩) hsub).length_le

namespace LoopForest

variable {E : BlockId → BlockId → Prop} {r : BlockId} {loops : List Loop} {i j k : Nat}
  {li lj lk : Loop}

/-- The index of the parent of a loop. -/
def outer? (loops : List Loop) (i : Nat) : Option Nat :=
  loops[i]?.bind (parentOf loops i)

/-- The number of blocks of a loop. -/
def size (loops : List Loop) (i : Nat) : Nat :=
  (loops[i]?.map fun l => l.blocks.length).getD 0

/-- The first loop is the second or comes to it by going from parent to parent. -/
def Below (loops : List Loop) : Nat → Nat → Prop :=
  Relation.ReflTransGen fun i j => outer? loops i = some j

/-- The size of a loop in the list is the number of its blocks. -/
theorem size_eq (hi : loops[i]? = some li) : size loops i = li.blocks.length := by
  rw [size, hi]
  rfl

/-- What the parent of a loop is. -/
theorem outer?_eq_some (h : outer? loops i = some j) :
    ∃ li lj, loops[i]? = some li ∧ loops[j]? = some lj ∧ lj.contains li.header = true ∧
      size loops i < size loops j ∧
      ∀ k lk, loops[k]? = some lk → k ≠ i → lk.contains li.header = true →
        size loops i < size loops k → size loops j ≤ size loops k := by
  obtain ⟨li, hi, hparent⟩ := Option.bind_eq_some_iff.mp h
  obtain ⟨⟨lj, j'⟩, hleast, rfl⟩ := Option.map_eq_some_iff.mp hparent
  obtain ⟨hmem, hle⟩ := leastBy?_eq_some hleast
  obtain ⟨hj, hcond⟩ := List.mem_filter.mp hmem
  have hj := List.mem_zipIdx_iff_getElem?.mp hj
  simp only [Bool.and_eq_true, bne_iff_ne, decide_eq_true_eq] at hcond
  refine ⟨li, lj, hi, hj, hcond.1.2, ?_, fun k lk hk hne hcont hlt => ?_⟩
  · rw [size_eq hi, size_eq hj]
    exact hcond.2
  · rw [size_eq hi, size_eq hk] at hlt
    rw [size_eq hj, size_eq hk]
    exact hle (lk, k) (List.mem_filter.mpr ⟨List.mem_zipIdx_iff_getElem?.mpr hk, by
      simpa using ⟨⟨hne, hcont⟩, hlt⟩⟩)

/-- A loop is smaller than its parent. -/
theorem size_lt_of_outer? (h : outer? loops i = some j) : size loops i < size loops j := by
  obtain ⟨-, -, -, -, -, hlt, -⟩ := outer?_eq_some h
  exact hlt

/-- A loop with a parent is in the list. -/
theorem lt_length_of_outer? (h : outer? loops i = some j) : i < loops.length := by
  obtain ⟨li, -, hi, -⟩ := outer?_eq_some h
  exact (List.getElem?_eq_some_iff.mp hi).1

/-- A loop that a larger loop holds has a parent. -/
theorem outer?_ne_none (hi : loops[i]? = some li) (hj : loops[j]? = some lj) (hne : j ≠ i)
    (hcont : lj.contains li.header = true) (hlt : size loops i < size loops j) :
    outer? loops i ≠ none := by
  rw [outer?, hi, Option.bind_some, parentOf, ne_eq, Option.map_eq_none_iff]
  rw [size_eq hi, size_eq hj] at hlt
  refine leastBy?_ne_none (x := (lj, j)) (List.mem_filter.mpr
    ⟨List.mem_zipIdx_iff_getElem?.mpr hj, ?_⟩)
  simpa using ⟨⟨hne, hcont⟩, hlt⟩

namespace Below

/-- Every loop is below itself. -/
theorem refl (loops : List Loop) (i : Nat) : Below loops i i :=
  Relation.ReflTransGen.refl

/-- What is below a loop is below its parent. -/
theorem snoc (h : Below loops i j) (hjk : outer? loops j = some k) : Below loops i k :=
  Relation.ReflTransGen.tail h hjk

/-- What a parent is below, its child is below too. -/
theorem cons (hij : outer? loops i = some j) (h : Below loops j k) : Below loops i k :=
  Relation.ReflTransGen.head hij h

/-- The way outwards is a single one. -/
theorem total (h : Below loops i j) (h' : Below loops i k) : Below loops j k ∨ Below loops k j :=
  Relation.ReflTransGen.total_of_right_unique
    (fun _ _ _ hb hc => Option.some.inj (hb.symm.trans hc)) h h'

/-- Loops grow outwards. -/
theorem size_le (h : Below loops i j) : size loops i ≤ size loops j := by
  induction h with
  | refl => exact Nat.le_refl _
  | tail _ hbc ih =>
      have hlt := size_lt_of_outer? hbc
      omega

/-- A loop below another one is that one, or its parent is below it. -/
theorem cases_head (h : Below loops i j) : i = j ∨ ∃ k, outer? loops i = some k ∧ Below loops k j :=
  Relation.ReflTransGen.cases_head h

end Below

section Described

variable (hd : (LoopForest.mk loops).Describes E r)
include hd

/-- Different loops have different headers. -/
theorem eq_of_header_eq (hi : loops[i]? = some li) (hj : loops[j]? = some lj)
    (h : li.header = lj.header) : i = j := by
  have hlt := (List.getElem?_eq_some_iff.mp hi).1
  have hnodup := hd.headers
  refine (List.getElem?_inj (by simpa using hlt) hnodup).mp ?_
  rw [List.getElem?_map, List.getElem?_map, hi, hj, Option.map_some, Option.map_some, h]

/-- A loop inside another one is smaller. -/
theorem size_lt_of_inLoop (hi : loops[i]? = some li) (hj : loops[j]? = some lj) (hne : i ≠ j)
    (hin : InLoop E r lj.header li.header) : size loops i < size loops j := by
  rw [size_eq hi, size_eq hj]
  exact (hd.loop li (List.mem_of_getElem? hi)).length_lt (hd.loop lj (List.mem_of_getElem? hj))
    (fun heq => hne (eq_of_header_eq hd hi hj heq)) hin

/-- **Nesting.** A loop is below another one in the forest exactly when the other holds its header.
The parent of a loop whose header the other one holds is the other one or inside it, for the parent
is the smallest loop around it. -/
theorem below_iff (hi : loops[i]? = some li) (hj : loops[j]? = some lj) :
    Below loops i j ↔ InLoop E r lj.header li.header := by
  constructor
  · intro h
    induction h generalizing lj with
    | refl =>
        obtain rfl := Option.some.inj (hi.symm.trans hj)
        exact (hd.loop li (List.mem_of_getElem? hi)).header.inLoop
    | @tail b c _ hbc ih =>
        obtain ⟨lb, lc, hb, hc, hcont, -, -⟩ := outer?_eq_some hbc
        obtain rfl := Option.some.inj (hc.symm.trans hj)
        have hdc := hd.loop lc (List.mem_of_getElem? hc)
        exact (hdc.contains_iff.mp hcont).trans (ih hb)
  · intro hin
    induction hn : size loops j - size loops i using Nat.strongRecOn generalizing i li with
    | _ n ih =>
        by_cases hij : i = j
        · exact hij ▸ Below.refl loops i
        have hdj := hd.loop lj (List.mem_of_getElem? hj)
        have hlt := size_lt_of_inLoop hd hi hj hij hin
        obtain ⟨k, hk⟩ := Option.ne_none_iff_exists'.mp
          (outer?_ne_none hi hj (Ne.symm hij) (hdj.contains_iff.mpr hin) hlt)
        obtain ⟨li', lk, hi', hlk, hcont, hik, hmin⟩ := outer?_eq_some hk
        obtain rfl := Option.some.inj (hi'.symm.trans hi)
        have hdk := hd.loop lk (List.mem_of_getElem? hlk)
        have hkj : InLoop E r lj.header lk.header := by
          rcases hin.total (hdk.contains_iff.mp hcont) with hin' | hin'
          · exact hin'
          · by_cases hjk : j = k
            · subst hjk
              obtain rfl := Option.some.inj (hj.symm.trans hlk)
              exact hin'
            · have hgt := size_lt_of_inLoop hd hj hlk hjk hin'
              have hle := hmin j lj hj (Ne.symm hij) (hdj.contains_iff.mpr hin) hlt
              omega
        exact Below.cons hk (ih _ (by omega) hlk hkj rfl)

end Described

/-! ### Walking the forest -/

/-- The parent and the children that nesting gives a loop. -/
theorem get?_nest_eq (hi : loops[i]? = some li) :
    ∃ l, (LoopForest.mk (nest loops)).get? i = some l ∧ l.parent = outer? loops i ∧
      l.children = (List.range loops.length).filter fun j => outer? loops j == some i := by
  rw [get?, getElem?_nest, hi]
  exact ⟨_, rfl, by rw [outer?, hi]; rfl, rfl⟩

/-- The loops right inside another one, each once. -/
theorem mem_children_iff {l : Loop} (hl : l.children =
    (List.range loops.length).filter fun j => outer? loops j == some i) :
    j ∈ (LoopForest.mk (nest loops)).byHeader l.children ↔ outer? loops j = some i := by
  rw [byHeader, (List.mergeSort_perm _ _).mem_iff, hl, List.mem_filter, List.mem_range,
    beq_iff_eq]
  exact ⟨And.right, fun h => ⟨lt_length_of_outer? h, h⟩⟩

/-- Walking from a loop visits only what is below it. -/
theorem below_of_mem_visit {budget : Nat} (h : j ∈ (LoopForest.mk (nest loops)).visit budget i) :
    Below loops j i := by
  induction budget generalizing i with
  | zero => exact absurd h List.not_mem_nil
  | succ budget ih =>
      rw [visit] at h
      cases hi : loops[i]? with
      | none =>
          rw [get?, getElem?_nest, hi] at h
          exact absurd h List.not_mem_nil
      | some li =>
          obtain ⟨l, hl, -, hchildren⟩ := get?_nest_eq hi
          rw [hl] at h
          simp only [List.mem_append, List.mem_flatMap, List.mem_singleton] at h
          rcases h with ⟨c, hc, hj⟩ | rfl
          · exact (ih hj).snoc ((mem_children_iff hchildren).mp hc)
          · exact Below.refl loops j

/-- The number of loops that are not larger than a loop. -/
def rank (loops : List Loop) (i : Nat) : Nat :=
  ((List.range loops.length).filter fun j => size loops j ≤ size loops i).length

/-- Smaller loops have smaller ranks. -/
theorem rank_lt (hi : i < loops.length) (h : size loops j < size loops i) :
    rank loops j < rank loops i := by
  have hsplit : ((List.range loops.length).filter fun k => size loops k ≤ size loops j) =
      (((List.range loops.length).filter fun k => size loops k ≤ size loops i).filter
        fun k => size loops k ≤ size loops j) := by
    rw [List.filter_filter]
    refine List.filter_congr fun k _ => ?_
    simp only [← Bool.decide_and]
    exact decide_eq_decide.mpr ⟨fun h => ⟨h, by omega⟩, And.left⟩
  rw [rank, rank, hsplit, List.length_filter_lt_length_iff_exists]
  exact ⟨i, List.mem_filter.mpr ⟨List.mem_range.mpr hi, by simp⟩, by simpa using h⟩

/-- Ranks start at one. -/
theorem rank_pos (hi : i < loops.length) : 0 < rank loops i :=
  List.length_pos_of_mem (List.mem_filter.mpr ⟨List.mem_range.mpr hi, by simp⟩)

/-- No rank is beyond the number of loops. -/
theorem rank_le (loops : List Loop) (i : Nat) : rank loops i ≤ loops.length :=
  Nat.le_trans (List.length_filter_le _ _) (by simp)

/-- Walking from a loop visits everything below it. -/
theorem mem_visit_of_below {budget : Nat} (hi : i < loops.length) (hbudget : rank loops i ≤ budget)
    (h : Below loops j i) : j ∈ (LoopForest.mk (nest loops)).visit budget i := by
  induction budget generalizing i with
  | zero =>
      have hpos := rank_pos hi
      omega
  | succ budget ih =>
      obtain ⟨l, hl, -, hchildren⟩ := get?_nest_eq (List.getElem?_eq_getElem hi)
      rw [visit, hl]
      simp only [List.mem_append, List.mem_flatMap, List.mem_singleton]
      rcases Relation.ReflTransGen.cases_tail h with rfl | ⟨c, hjc, hci⟩
      · exact .inr rfl
      · have hrank := rank_lt hi (size_lt_of_outer? hci)
        exact .inl ⟨c, (mem_children_iff hchildren).mpr hci,
          ih (lt_length_of_outer? hci) (by omega) hjc⟩

/-- Two loops with the same parent have nothing below them in common. -/
theorem not_below_of_siblings {o : Option Nat} (hj : outer? loops j = o) (hk : outer? loops k = o)
    (hne : j ≠ k) : ¬(Below loops i j ∧ Below loops i k) := by
  have hno : ∀ a b, outer? loops a = o → outer? loops b = o → a ≠ b → ¬Below loops a b := by
    intro a b ha hb hab hbelow
    rcases hbelow.cases_head with rfl | ⟨c, hc, hcb⟩
    · exact hab rfl
    · have hlt := size_lt_of_outer? (hb.trans (ha.symm.trans hc))
      have := hcb.size_le
      omega
  rintro ⟨hij, hik⟩
  rcases hij.total hik with h | h
  · exact hno j k hj hk hne h
  · exact hno k j hk hj (Ne.symm hne) h

/-- Walking from siblings keeps loops behind those below them, if walking from each does. -/
theorem pairwise_flatMap_visit {budget : Nat} {o : Option Nat} {siblings : List Nat}
    (hs : ∀ c ∈ siblings, outer? loops c = o) (hnodup : siblings.Nodup)
    (h : ∀ c ∈ siblings, ((LoopForest.mk (nest loops)).visit budget c).Pairwise
      fun i j => ¬Below loops j i) :
    (siblings.flatMap ((LoopForest.mk (nest loops)).visit budget)).Pairwise
      fun i j => ¬Below loops j i := by
  refine List.pairwise_flatMap.mpr ⟨h, List.Pairwise.imp_of_mem ?_ hnodup⟩
  intro c d hc hd hne x hx y hy hyx
  exact not_below_of_siblings (hs c hc) (hs d hd) hne
    ⟨hyx.trans (below_of_mem_visit hx), below_of_mem_visit hy⟩

/-- Walking from a loop, no loop comes before one below it. -/
theorem pairwise_visit (budget i : Nat) :
    ((LoopForest.mk (nest loops)).visit budget i).Pairwise fun i j => ¬Below loops j i := by
  induction budget generalizing i with
  | zero => exact List.Pairwise.nil
  | succ budget ih =>
      rw [visit]
      cases hi : loops[i]? with
      | none =>
          rw [get?, getElem?_nest, hi]
          exact List.Pairwise.nil
      | some li =>
          obtain ⟨l, hl, -, hchildren⟩ := get?_nest_eq hi
          rw [hl]
          refine List.pairwise_append.mpr ⟨pairwise_flatMap_visit
            (fun c hc => (mem_children_iff hchildren).mp hc) ?_ fun c _ => ih c,
            List.pairwise_singleton _ _, fun x hx y hy hyx => ?_⟩
          · rw [byHeader, (List.mergeSort_perm _ _).nodup_iff, hchildren]
            exact List.nodup_range.filter _
          · rw [List.mem_singleton.mp hy] at hyx
            obtain ⟨c, hc, hxc⟩ := List.mem_flatMap.mp hx
            have hlt := size_lt_of_outer? ((mem_children_iff hchildren).mp hc)
            have hle := (below_of_mem_visit hxc).size_le
            have hge := hyx.size_le
            omega

/-- The loops without a parent, each once. -/
def roots (loops : List Loop) : List Nat :=
  (((nest loops).zipIdx.filter fun (l, _) => l.parent.isNone).map Prod.snd)

/-- The roots are the loops without a parent. -/
theorem mem_roots_iff : i ∈ roots loops ↔ i < loops.length ∧ outer? loops i = none := by
  simp only [roots, List.mem_map, List.mem_filter, Prod.exists, List.mem_zipIdx_iff_getElem?,
    exists_eq_right, Option.isNone_iff_eq_none]
  constructor
  · rintro ⟨l, hl, hnone⟩
    rw [getElem?_nest] at hl
    obtain ⟨li, hi, rfl⟩ := Option.map_eq_some_iff.mp hl
    exact ⟨(List.getElem?_eq_some_iff.mp hi).1, by rw [outer?, hi]; exact hnone⟩
  · rintro ⟨hlt, hnone⟩
    obtain ⟨l, hl, hparent, -⟩ := get?_nest_eq (List.getElem?_eq_getElem hlt)
    exact ⟨l, hl, hparent.trans hnone⟩

/-- The roots are listed once each. -/
theorem nodup_roots (loops : List Loop) : (roots loops).Nodup := by
  refine List.Nodup.sublist (List.Sublist.map _ List.filter_sublist) ?_
  rw [List.zipIdx_map_snd]
  exact List.nodup_range'

/-- Every loop is below one without a parent. -/
theorem exists_root (hi : i < loops.length) : ∃ k ∈ roots loops, Below loops i k := by
  induction hn : loops.length - rank loops i using Nat.strongRecOn generalizing i with
  | _ n ih =>
      cases hi' : outer? loops i with
      | none => exact ⟨i, mem_roots_iff.mpr ⟨hi, hi'⟩, Below.refl loops i⟩
      | some j =>
          obtain ⟨-, lj, -, hj, -, hlt, -⟩ := outer?_eq_some hi'
          have hjlt := (List.getElem?_eq_some_iff.mp hj).1
          have hrank := rank_lt hjlt hlt
          have hle := rank_le loops j
          obtain ⟨k, hk, hjk⟩ := ih _ (by omega) hjlt rfl
          exact ⟨k, hk, Below.cons hi' hjk⟩

/-- **Every loop is visited.** -/
theorem mem_postorder_iff :
    i ∈ (LoopForest.mk (nest loops)).postorder ↔ i < loops.length := by
  have hlen : (nest loops).length = loops.length := by simp [nest]
  have hroots : ∀ c, c ∈ (LoopForest.mk (nest loops)).byHeader (roots loops) ↔ c ∈ roots loops :=
    fun c => (List.mergeSort_perm _ _).mem_iff
  rw [postorder]
  change i ∈ ((LoopForest.mk (nest loops)).byHeader (roots loops)).flatMap _ ↔ _
  rw [List.mem_flatMap]
  constructor
  · rintro ⟨c, hc, hi⟩
    rcases (below_of_mem_visit hi).cases_head with rfl | ⟨k, hk, -⟩
    · exact (mem_roots_iff.mp ((hroots i).mp hc)).1
    · exact lt_length_of_outer? hk
  · intro hi
    obtain ⟨k, hk, hik⟩ := exists_root hi
    refine ⟨k, (hroots k).mpr hk, mem_visit_of_below (mem_roots_iff.mp hk).1 ?_ hik⟩
    rw [hlen]
    exact rank_le loops k

/-- No loop is visited before one that is below it. -/
theorem pairwise_postorder_below (loops : List Loop) :
    (LoopForest.mk (nest loops)).postorder.Pairwise fun i j => ¬Below loops j i := by
  rw [postorder]
  change (((LoopForest.mk (nest loops)).byHeader (roots loops)).flatMap _).Pairwise _
  refine pairwise_flatMap_visit (o := none) (fun c hc => ?_) ?_ fun c _ => pairwise_visit _ c
  · exact (mem_roots_iff.mp ((List.mergeSort_perm _ _).mem_iff.mp hc)).2
  · exact (List.mergeSort_perm _ _).nodup_iff.mpr (nodup_roots loops)

/-- **Inner loops come first.** No loop is visited before one that is inside it. -/
theorem pairwise_postorder (hd : (LoopForest.mk loops).Describes E r) :
    (LoopForest.mk (nest loops)).postorder.Pairwise fun i j =>
      ∀ li lj, loops[i]? = some li → loops[j]? = some lj → ¬InLoop E r li.header lj.header := by
  refine (pairwise_postorder_below loops).imp fun hno li lj hi hj hin => ?_
  exact hno ((below_iff hd hj hi).mpr hin)

end LoopForest

end Lockstep
