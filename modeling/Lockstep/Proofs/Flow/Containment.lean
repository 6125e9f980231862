import Lockstep.Proofs.Flow.Loops
import Lockstep.Proofs.Flow.Nesting

/-!
# Loops inside loops

The place of a loop in the forest is found by comparing numbers of blocks and by asking which loops
hold its header. Here the places are told by the sets of blocks. Natural loops that share a block
are one inside the other, in graphs of any kind, so the loops that hold a block form a chain: the
smallest of them is a single one, and so is the smallest loop around a loop.

## Main results

* `Loop.Describes.disjoint_or_inside`: two loops are disjoint, or one is inside the other.
* `LoopForest.placed_nest`: parents, children and depths, by containment.
* `LoopForest.compute_nests`: the forest of a valid function.
-/

namespace Lockstep

/-- The second loop holds every block of the first one, and more. -/
def Loop.Inside (l l' : Loop) : Prop :=
  (∀ b, l.contains b = true → l'.contains b = true) ∧
    ∃ b, l'.contains b = true ∧ l.contains b = false

instance (l l' : Loop) : Decidable (l.Inside l') :=
  decidable_of_iff ((∀ b ∈ l.members, l'.contains b = true) ∧
    ∃ b ∈ l'.members, l.contains b = false) (by simp [Loop.Inside, Loop.contains])

/-- No loop of the kind `P` has fewer blocks than loop `i`, which is of that kind itself. -/
def LoopForest.IsSmallest (forest : LoopForest) (P : Loop → Prop) (i : Nat) : Prop :=
  ∃ l, forest.get? i = some l ∧ P l ∧
    ∀ k lk, forest.get? k = some lk → P lk → l.blocks.length ≤ lk.blocks.length

variable {E : BlockId → BlockId → Prop} {r b : BlockId}

namespace Loop.Describes

variable {l l' : Loop}

/-- A natural loop is inside another one exactly when the other holds its header. -/
theorem inside_iff (hl : l.Describes E r) (hl' : l'.Describes E r) :
    l.Inside l' ↔ l.header ≠ l'.header ∧ InLoop E r l'.header l.header := by
  constructor
  · rintro ⟨hsub, b, hb, hnot⟩
    refine ⟨fun heq => ?_, hl'.contains_iff.mp (hsub _ (hl.contains_iff.mpr hl.header.inLoop))⟩
    rw [← Bool.not_eq_true, hl.contains_iff, heq] at hnot
    exact hnot (hl'.contains_iff.mp hb)
  · rintro ⟨hne, hin⟩
    refine ⟨fun b hb => hl'.contains_iff.mpr (hin.trans (hl.contains_iff.mp hb)), l'.header,
      hl'.contains_iff.mpr hl'.header.inLoop, ?_⟩
    rw [← Bool.not_eq_true, hl.contains_iff]
    exact fun hin' => hne (hin'.antisymm hin)

/-- **Two loops.** They have no block in common, or one is inside the other. -/
theorem disjoint_or_inside (hl : l.Describes E r) (hl' : l'.Describes E r)
    (hne : l.header ≠ l'.header) :
    (∀ b, ¬(l.contains b = true ∧ l'.contains b = true)) ∨ l.Inside l' ∨ l'.Inside l := by
  by_cases hshare : ∃ b, l.contains b = true ∧ l'.contains b = true
  · obtain ⟨b, hb, hb'⟩ := hshare
    refine .inr ?_
    rcases (hl.contains_iff.mp hb).total (hl'.contains_iff.mp hb') with hin | hin
    · exact .inr ((hl'.inside_iff hl).mpr ⟨hne.symm, hin⟩)
    · exact .inl ((hl.inside_iff hl').mpr ⟨hne, hin⟩)
  · exact .inl (not_exists.mp hshare)

/-- A loop inside another one has fewer blocks. -/
theorem length_lt_of_inside (hl : l.Describes E r) (hl' : l'.Describes E r) (h : l.Inside l') :
    l.blocks.length < l'.blocks.length := by
  obtain ⟨hne, hin⟩ := (hl.inside_iff hl').mp h
  exact hl.length_lt hl' hne hin

end Loop.Describes

namespace LoopForest

variable {forest : LoopForest} {loops : List Loop} {i j k : Nat} {li lj l : Loop}

/-! ### The smallest loop of a kind -/

section Smallest

variable (hd : forest.Describes E r)
include hd

/-- Of two loops that share a block, the inner one has fewer blocks. -/
theorem eq_or_length_ne (hi : forest.get? i = some li) (hj : forest.get? j = some lj)
    (hbi : li.contains b = true) (hbj : lj.contains b = true) :
    i = j ∨ li.blocks.length ≠ lj.blocks.length := by
  have hdi := hd.loop li (List.mem_of_getElem? hi)
  have hdj := hd.loop lj (List.mem_of_getElem? hj)
  by_cases heq : li.header = lj.header
  · exact .inl (eq_of_header_eq hd hi hj heq)
  · rcases hdi.disjoint_or_inside hdj heq with hdisjoint | hin | hin
    · exact absurd ⟨hbi, hbj⟩ (hdisjoint b)
    · exact .inr (Nat.ne_of_lt (hdi.length_lt_of_inside hdj hin))
    · exact .inr (Nat.ne_of_gt (hdj.length_lt_of_inside hdi hin))

/-- Among loops that share a block there is one smallest. An answer that is a smallest one, and
none only if there is no loop of the kind, is therefore the only right answer. -/
theorem answer_iff_isSmallest {P : Loop → Prop} (hP : ∀ l, P l → l.contains b = true)
    {answer : Option Nat} (hsome : ∀ i, answer = some i → forest.IsSmallest P i)
    (hnone : answer = none → ∀ l ∈ forest.loops, ¬P l) :
    (∀ i, answer = some i ↔ forest.IsSmallest P i) ∧
      (answer = none ↔ ∀ l ∈ forest.loops, ¬P l) := by
  refine ⟨fun i => ⟨hsome i, fun hi => ?_⟩, hnone, fun hno => ?_⟩
  · obtain ⟨li, hli, hPi, hmin⟩ := hi
    cases hanswer : answer with
    | none => exact absurd hPi (hnone hanswer li (List.mem_of_getElem? hli))
    | some j =>
        obtain ⟨lj, hlj, hPj, hmin'⟩ := hsome j hanswer
        have hle := hmin j lj hlj hPj
        have hge := hmin' i li hli hPi
        rcases eq_or_length_ne hd hli hlj (hP li hPi) (hP lj hPj) with rfl | hne
        · rfl
        · exact absurd (Nat.le_antisymm hle hge) hne
  · cases hanswer : answer with
    | none => rfl
    | some i =>
        obtain ⟨li, hli, hPi, -⟩ := hsome i hanswer
        exact absurd hPi (hno li (List.mem_of_getElem? hli))

end Smallest

/-! ### Parents -/

section Described

variable (hd : (LoopForest.mk loops).Describes E r)
include hd

/-- The parent is the smallest loop around a loop. A loop inside another one has its header there
and is smaller, which is what the search for the parent looks at. -/
theorem outer?_iff_isSmallest (hi : loops[i]? = some li) :
    (∀ j, outer? loops i = some j ↔ (LoopForest.mk loops).IsSmallest li.Inside j) ∧
      (outer? loops i = none ↔ ∀ l ∈ loops, ¬li.Inside l) := by
  have hdi := hd.loop li (List.mem_of_getElem? hi)
  have hself : li.contains li.header = true := hdi.contains_iff.mpr hdi.header.inLoop
  have hinside : ∀ k lk, loops[k]? = some lk → li.Inside lk →
      k ≠ i ∧ lk.contains li.header = true ∧ size loops i < size loops k := by
    intro k lk hk hin
    have hlt := hdi.length_lt_of_inside (hd.loop lk (List.mem_of_getElem? hk)) hin
    rw [size_eq hi, size_eq hk]
    refine ⟨?_, hin.1 _ hself, hlt⟩
    rintro rfl
    obtain rfl := Option.some.inj (hi.symm.trans hk)
    exact absurd hlt (Nat.lt_irrefl _)
  refine answer_iff_isSmallest hd (b := li.header) (fun l hin => hin.1 _ hself) (fun j hj => ?_)
    fun hnone l hl hin => ?_
  · obtain ⟨li', lj, hi', hlj, hcont, hlt, hmin⟩ := outer?_eq_some hj
    obtain rfl := Option.some.inj (hi'.symm.trans hi)
    have hdj := hd.loop lj (List.mem_of_getElem? hlj)
    refine ⟨lj, hlj, (hdi.inside_iff hdj).mpr ⟨fun heq => ?_, hdj.contains_iff.mp hcont⟩,
      fun k lk hk hin => ?_⟩
    · rw [eq_of_header_eq hd hi hlj heq] at hlt
      exact absurd hlt (Nat.lt_irrefl _)
    · obtain ⟨hne, hcont', hlt'⟩ := hinside k lk hk hin
      have hle := hmin k lk hk hne hcont' hlt'
      rwa [size_eq hlj, size_eq hk] at hle
  · obtain ⟨k, hk⟩ := List.mem_iff_getElem?.mp hl
    obtain ⟨hne, hcont, hlt⟩ := hinside k l hk hin
    exact outer?_ne_none hi hk hne hcont hlt hnone

/-- The places that loops are given change no parent. -/
theorem outer?_nest (i : Nat) : outer? (nest loops) i = outer? loops i := by
  cases hi : loops[i]? with
  | none => rw [outer?, outer?, getElem?_nest, hi]; rfl
  | some li =>
      have hi' := getElem?_nest loops i
      rw [hi, Option.map_some] at hi'
      refine Option.ext fun j => ?_
      rw [(outer?_iff_isSmallest (describes_nest hd) hi').1, (outer?_iff_isSmallest hd hi).1]
      simp only [IsSmallest, get?, getElem?_nest, Option.map_eq_some_iff]
      constructor
      · rintro ⟨-, ⟨lj, hj, rfl⟩, hin, hmin⟩
        refine ⟨lj, hj, hin, fun k lk hk => ?_⟩
        have hplaced := hmin k _ ⟨lk, hk, rfl⟩
        exact hplaced
      · rintro ⟨lj, hj, hin, hmin⟩
        refine ⟨_, ⟨lj, hj, rfl⟩, hin, ?_⟩
        rintro k - ⟨lk, hk, rfl⟩ hink
        exact hmin k lk hk hink

/-! ### Depths -/

omit hd in
/-- The loops that hold a block. -/
def holders (loops : List Loop) (b : BlockId) : List Loop :=
  loops.filter fun l => l.contains b

/-- The loops that hold a block are listed once each. -/
theorem nodup_holders : (holders loops b).Nodup :=
  (List.Nodup.of_map _ hd.headers).filter _

/-- The header of a loop is held by the loops on the way outwards. -/
theorem mem_holders_iff (hi : loops[i]? = some li) :
    l ∈ holders loops li.header ↔ ∃ k, loops[k]? = some l ∧ Below loops i k := by
  rw [holders, List.mem_filter, List.mem_iff_getElem?]
  constructor
  · rintro ⟨⟨k, hk⟩, hcont⟩
    exact ⟨k, hk, (below_iff hd hi hk).mpr
      ((hd.loop l (List.mem_of_getElem? hk)).contains_iff.mp hcont)⟩
  · rintro ⟨k, hk, hbelow⟩
    exact ⟨⟨k, hk⟩, (hd.loop l (List.mem_of_getElem? hk)).contains_iff.mpr
      ((below_iff hd hi hk).mp hbelow)⟩

/-- Going inwards, one more loop holds the header. -/
theorem length_holders_of_outer? (hi : loops[i]? = some li) (hj : loops[j]? = some lj)
    (hij : outer? loops i = some j) :
    (holders loops li.header).length = 1 + (holders loops lj.header).length := by
  have hnot : li ∉ holders loops lj.header := by
    rw [mem_holders_iff hd hj]
    rintro ⟨k, hk, hbelow⟩
    obtain rfl := eq_of_header_eq hd hk hi rfl
    have hlt := size_lt_of_outer? hij
    have hle := hbelow.size_le
    omega
  have hperm : (holders loops li.header).Perm (li :: holders loops lj.header) := by
    refine (List.perm_ext_iff_of_nodup (nodup_holders hd)
      (List.nodup_cons.mpr ⟨hnot, nodup_holders hd⟩)).mpr fun l => ?_
    rw [List.mem_cons, mem_holders_iff hd hi, mem_holders_iff hd hj]
    constructor
    · rintro ⟨k, hk, hbelow⟩
      rcases hbelow.cases_head with rfl | ⟨m, hm, hmk⟩
      · exact .inl (Option.some.inj (hk.symm.trans hi))
      · obtain rfl := Option.some.inj (hij.symm.trans hm)
        exact .inr ⟨k, hk, hmk⟩
    · rintro (rfl | ⟨k, hk, hbelow⟩)
      · exact ⟨i, hi, Below.refl loops i⟩
      · exact ⟨k, hk, Below.cons hij hbelow⟩
  rw [hperm.length_eq, List.length_cons, Nat.add_comm]

/-- Only the loop itself holds the header of a loop without a parent. -/
theorem length_holders_of_root (hi : loops[i]? = some li) (hnone : outer? loops i = none) :
    (holders loops li.header).length = 1 := by
  have hperm : (holders loops li.header).Perm [li] := by
    refine (List.perm_ext_iff_of_nodup (nodup_holders hd) (List.nodup_singleton li)).mpr fun l => ?_
    rw [List.mem_singleton, mem_holders_iff hd hi]
    constructor
    · rintro ⟨k, hk, hbelow⟩
      rcases hbelow.cases_head with rfl | ⟨m, hm, -⟩
      · exact Option.some.inj (hk.symm.trans hi)
      · cases hnone.symm.trans hm
    · rintro rfl
      exact ⟨i, hi, Below.refl loops i⟩
  rw [hperm.length_eq, List.length_singleton]

/-- **Depth.** The number of steps outwards is the number of loops that hold the header: by
induction on the budget, which bounds that number. -/
theorem nesting_eq {parents : List (Option Nat)} (hparents : ∀ j, parents[j]?.join = outer? loops j)
    {budget : Nat} (hi : loops[i]? = some li)
    (hbudget : (holders loops li.header).length ≤ budget) :
    nesting parents budget (some i) = (holders loops li.header).length := by
  induction budget generalizing i li with
  | zero =>
      have hmem := (mem_holders_iff hd hi).mpr ⟨i, hi, Below.refl loops i⟩
      have hpos := List.length_pos_of_mem hmem
      omega
  | succ budget ih =>
      rw [nesting, hparents]
      cases hij : outer? loops i with
      | none =>
          rw [length_holders_of_root hd hi hij]
          cases budget <;> rfl
      | some j =>
          obtain ⟨-, lj, -, hj, -⟩ := outer?_eq_some hij
          rw [length_holders_of_outer? hd hi hj hij] at hbudget ⊢
          rw [ih hj (by omega)]

end Described

/-- The places that the loops carry are those that containment gives them. -/
structure Placed (forest : LoopForest) : Prop where
  parent : ∀ i l, forest.get? i = some l → l.parent = outer? forest.loops i
  children : ∀ i l, forest.get? i = some l →
    ∀ j, j ∈ l.children ↔ outer? forest.loops j = some i
  depth : ∀ i l, forest.get? i = some l → l.depth = (holders forest.loops l.header).length

/-- **Places.** Nesting gives the loops their places. -/
theorem placed_nest (hd : (LoopForest.mk loops).Describes E r) :
    (LoopForest.mk (nest loops)).Placed := by
  have hlen : (nest loops).length = loops.length := by simp [nest]
  refine ⟨fun i l hl => ?_, fun i l hl j => ?_, fun i l hl => ?_⟩
  · rw [get?, getElem?_nest] at hl
    obtain ⟨li, hi, rfl⟩ := Option.map_eq_some_iff.mp hl
    rw [outer?_nest hd, outer?, hi]
    rfl
  · rw [get?, getElem?_nest] at hl
    obtain ⟨li, hi, rfl⟩ := Option.map_eq_some_iff.mp hl
    rw [outer?_nest hd, List.mem_filter, List.mem_range, beq_iff_eq]
    exact ⟨And.right, fun h => ⟨lt_length_of_outer? h, h⟩⟩
  · have hparents : ∀ j, (loops.zipIdx.map fun x => parentOf loops x.2 x.1)[j]?.join =
        outer? (nest loops) j := by
      intro j
      rw [outer?_nest hd, outer?, List.getElem?_map, List.getElem?_zipIdx]
      cases loops[j]? <;> simp
    rw [← nesting_eq (describes_nest hd) hparents hl (List.length_filter_le _ _), hlen]
    rw [get?, getElem?_nest] at hl
    obtain ⟨li, hi, rfl⟩ := Option.map_eq_some_iff.mp hl
    rfl

/-! ### The innermost loop -/

/-- A loop inside another one is deeper. -/
theorem length_holders_lt (hd : forest.Describes E r) (hi : li ∈ forest.loops)
    (hj : lj ∈ forest.loops) (hin : li.Inside lj) :
    (holders forest.loops lj.header).length < (holders forest.loops li.header).length := by
  have hdi := hd.loop li hi
  have hdj := hd.loop lj hj
  obtain ⟨hne, hlj⟩ := (hdi.inside_iff hdj).mp hin
  have hnot : li ∉ holders forest.loops lj.header := fun hmem =>
    hne ((hdi.contains_iff.mp (List.mem_filter.mp hmem).2).antisymm hlj)
  have hsub : li :: holders forest.loops lj.header ⊆ holders forest.loops li.header := by
    refine List.cons_subset.mpr ⟨List.mem_filter.mpr
      ⟨hi, hdi.contains_iff.mpr hdi.header.inLoop⟩, fun l hl => ?_⟩
    obtain ⟨hmem, hcont⟩ := List.mem_filter.mp hl
    have hdl := hd.loop l hmem
    exact List.mem_filter.mpr
      ⟨hmem, hdl.contains_iff.mpr ((hdl.contains_iff.mp hcont).trans hlj)⟩
  exact (List.subperm_of_subset (List.nodup_cons.mpr ⟨hnot, nodup_holders hd⟩) hsub).length_le

/-- The innermost loop around a block is the smallest loop that holds it. A loop inside it would be
deeper. -/
theorem loopFor?_iff_isSmallest (hd : forest.Describes E r) (hp : forest.Placed) :
    (∀ i, forest.loopFor? b = some i ↔ forest.IsSmallest (fun l => l.contains b = true) i) ∧
      (forest.loopFor? b = none ↔ ∀ l ∈ forest.loops, ¬l.contains b = true) := by
  have hmem : ∀ k l, (l, k) ∈ forest.loops.zipIdx.filter (fun x => x.1.contains b) ↔
      forest.get? k = some l ∧ l.contains b = true := by
    intro k l
    rw [List.mem_filter, List.mem_zipIdx_iff_getElem?]
    rfl
  refine answer_iff_isSmallest hd (fun l hl => hl) (fun i hi => ?_) fun hnone l hl hb => ?_
  · obtain ⟨⟨l, i'⟩, hgreatest, rfl⟩ := Option.map_eq_some_iff.mp hi
    obtain ⟨hin, hdeepest⟩ := greatestBy?_eq_some hgreatest
    obtain ⟨hl, hb⟩ := (hmem i' l).mp hin
    refine ⟨l, hl, hb, fun k lk hk hbk => ?_⟩
    have hdl := hd.loop l (List.mem_of_getElem? hl)
    have hdk := hd.loop lk (List.mem_of_getElem? hk)
    have hle : lk.depth ≤ l.depth := hdeepest (lk, k) ((hmem k lk).mpr ⟨hk, hbk⟩)
    rw [hp.depth i' l hl, hp.depth k lk hk] at hle
    by_cases heq : l.header = lk.header
    · obtain rfl := eq_of_header_eq hd hl hk heq
      obtain rfl := Option.some.inj (hl.symm.trans hk)
      exact Nat.le_refl _
    · rcases hdl.disjoint_or_inside hdk heq with hdisjoint | hinside | hinside
      · exact absurd ⟨hb, hbk⟩ (hdisjoint b)
      · exact Nat.le_of_lt (hdl.length_lt_of_inside hdk hinside)
      · have hlt := length_holders_lt hd (List.mem_of_getElem? hk) (List.mem_of_getElem? hl) hinside
        omega
  · obtain ⟨k, hk⟩ := List.mem_iff_getElem?.mp hl
    rw [loopFor?, Option.map_eq_none_iff] at hnone
    exact greatestBy?_ne_none ((hmem k l).mpr ⟨hk, hb⟩) hnone

/-! ### Forests of functions -/

/-- **The forest.** The loops of a valid function form a forest by containment. Two loops are
disjoint or one is inside the other. The parent of a loop is the smallest loop around it, and the
children of a loop are the loops whose parent it is. The depth of a loop is the number of loops that
hold its header. The innermost loop around a block is the loop with the fewest blocks that holds
it. -/
theorem compute_nests (f : Function) (hvalid : f.validate = .ok ()) :
    ∃ t forest, DominatorTree.compute f = .ok t ∧ compute f t = .ok forest ∧
      (∀ i j li lj, forest.get? i = some li → forest.get? j = some lj → i ≠ j →
        (∀ b, ¬(li.contains b = true ∧ lj.contains b = true)) ∨ li.Inside lj ∨ lj.Inside li) ∧
      (∀ i l, forest.get? i = some l →
        ((∀ j, l.parent = some j ↔ forest.IsSmallest l.Inside j) ∧
          (l.parent = none ↔ ∀ l' ∈ forest.loops, ¬l.Inside l')) ∧
        (∀ j, j ∈ l.children ↔ ∃ lj, forest.get? j = some lj ∧ lj.parent = some i) ∧
        l.depth = (forest.loops.filter fun l' => l'.contains l.header).length) ∧
      ∀ b, (∀ i, forest.loopFor? b = some i ↔
          forest.IsSmallest (fun l => l.contains b = true) i) ∧
        (forest.loopFor? b = none ↔ ∀ l ∈ forest.loops, ¬l.contains b = true) := by
  have hf := Function.validate_eq_ok_iff.mp hvalid
  obtain ⟨t, loops, r, ht, hforest, hd₀, -⟩ := exists_compute_eq_ok hf
  have hd := describes_nest hd₀
  have hp := placed_nest hd₀
  refine ⟨t, ⟨nest loops⟩, ht, hforest, fun i j li lj hi hj hne => ?_, fun i l hl => ⟨?_, ?_, ?_⟩,
    fun b => loopFor?_iff_isSmallest hd hp⟩
  · exact (hd.loop li (List.mem_of_getElem? hi)).disjoint_or_inside
      (hd.loop lj (List.mem_of_getElem? hj)) fun heq => hne (eq_of_header_eq hd hi hj heq)
  · rw [hp.parent i l hl]
    exact outer?_iff_isSmallest hd hl
  · intro j
    rw [hp.children i l hl]
    constructor
    · intro hj
      obtain ⟨lj, -, hlj, -⟩ := outer?_eq_some hj
      exact ⟨lj, hlj, (hp.parent j lj hlj).trans hj⟩
    · rintro ⟨lj, hlj, hparent⟩
      exact (hp.parent j lj hlj).symm.trans hparent
  · exact hp.depth i l hl

/-- A loop with two loops side by side in it, one of which has another loop in it, and a loop apart
from these. The body is listed from the last block to the first, so outer loops are found before
inner ones. -/
def grove : Function where
  name := "grove"
  returnType := .void
  parameters := [⟨"more", .i1⟩]
  blocks := [
    ⟨⟨0⟩, "entry", [.branch ⟨1⟩]⟩,
    ⟨⟨1⟩, "outer", [.branchCond (.param 0) ⟨2⟩ ⟨6⟩]⟩,
    ⟨⟨2⟩, "middle", [.branch ⟨3⟩]⟩,
    ⟨⟨3⟩, "inner", [.branchCond (.param 0) ⟨3⟩ ⟨4⟩]⟩,
    ⟨⟨4⟩, "latch", [.branchCond (.param 0) ⟨2⟩ ⟨5⟩]⟩,
    ⟨⟨5⟩, "beside", [.branchCond (.param 0) ⟨5⟩ ⟨1⟩]⟩,
    ⟨⟨6⟩, "apart", [.branchCond (.param 0) ⟨6⟩ ⟨7⟩]⟩,
    ⟨⟨7⟩, "exit", [.ret none]⟩]
  layout := [⟨0⟩, ⟨6⟩, ⟨5⟩, ⟨4⟩, ⟨3⟩, ⟨2⟩, ⟨1⟩, ⟨7⟩]

/-- The dominator tree of `grove`. -/
def groveTree : DominatorTree where
  entry := some ⟨0⟩
  parents := [some ⟨0⟩, some ⟨0⟩, some ⟨1⟩, some ⟨2⟩, some ⟨3⟩, some ⟨4⟩, some ⟨1⟩, some ⟨6⟩]

/-- The loops of `grove`. -/
def groveLoops : LoopForest where
  loops := [
    { header := ⟨6⟩, blocks := [⟨6⟩], members := [⟨6⟩] },
    { header := ⟨5⟩, blocks := [⟨5⟩], members := [⟨5⟩], parent := some 2, depth := 2 },
    { header := ⟨1⟩, blocks := [⟨1⟩, ⟨5⟩, ⟨4⟩, ⟨3⟩, ⟨2⟩], members := [⟨2⟩, ⟨3⟩, ⟨4⟩, ⟨5⟩, ⟨1⟩],
      children := [1, 3] },
    { header := ⟨2⟩, blocks := [⟨2⟩, ⟨4⟩, ⟨3⟩], members := [⟨3⟩, ⟨4⟩, ⟨2⟩], parent := some 2,
      children := [4], depth := 2 },
    { header := ⟨3⟩, blocks := [⟨3⟩], members := [⟨3⟩], parent := some 3, depth := 3 }]

/-- Three loops hold the block of the innermost one, and each loop but two has a parent. -/
theorem compute_nests_grove :
    grove.validate = .ok () ∧ DominatorTree.compute grove = .ok groveTree ∧
    compute grove groveTree = .ok groveLoops ∧
    groveLoops.IsSmallest (fun l => l.contains ⟨3⟩ = true) 4 ∧
    (∀ l ∈ groveLoops.loops, ¬l.contains ⟨7⟩ = true) ∧
    ∀ i l, groveLoops.get? i = some l →
      ∀ j, l.parent = some j ↔ groveLoops.IsSmallest l.Inside j := by
  have hvalid : grove.validate = .ok () := by decide +kernel
  have htree : DominatorTree.compute grove = .ok groveTree := by decide +kernel
  have hloops : compute grove groveTree = .ok groveLoops := by decide +kernel
  obtain ⟨t, forest, ht, hforest, -, hplaces, hfor⟩ := compute_nests grove hvalid
  obtain rfl := Except.ok.inj (htree.symm.trans ht)
  obtain rfl := Except.ok.inj (hloops.symm.trans hforest)
  exact ⟨hvalid, htree, hloops, ((hfor ⟨3⟩).1 4).mp (by decide), (hfor ⟨7⟩).2.mp (by decide),
    fun i l hl => (hplaces i l hl).1.1⟩

end LoopForest

end Lockstep
