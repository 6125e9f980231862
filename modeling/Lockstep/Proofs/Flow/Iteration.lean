import Lockstep.Proofs.Flow.CommonAncestor
import Lockstep.Proofs.Flow.Search
import Mathlib.Algebra.Order.BigOperators.Group.List
import Mathlib.Algebra.Order.Group.Nat

/-!
# Iterating to the dominator tree

A round goes through the blocks in reverse postorder and makes each a child of the deepest common
ancestor of its predecessors. Between two blocks of a round the list of parents is a `Stage`. Two
things hold of every stage that lead to the result:

* no strict dominator of a block is lost: it dominates the parent too (`nearest`);
* a block that is given a new parent gets one above the old one (`bounded`), so the numbers of the
  parents only fall and the rounds come to an end.

The second is the harder one. A change above a block also moves the blocks below it, and it has to
be excluded that this takes an ancestor away which the predecessors of some other block still
share. Rounds go by number, so a block stays tied to its earlier predecessors until the round has
passed its parent (`tied`), and by then every change above the parent is made.

## Main results

* `DominatorTree.Stage.refine`: what working on one block keeps.
* `DominatorTree.Stage.settle`: the rounds end within their budget, with a stage that the next
  round does not change.
-/

namespace Lockstep

namespace DominatorTree

variable {f : Function} {r b c d m p q x y : BlockId} {tail : List BlockId}
  {parents : List (Option BlockId)} {k : Nat}

/-! ### Numbers and predecessors -/

/-- The blocks of an order with their successors. -/
def flowEdges (f : Function) (order : List BlockId) : Edges :=
  order.map fun b => (b, f.next b)

/-- The number of a block is its position in the order. -/
theorem number_flowEdges (order : List BlockId) (b : BlockId) :
    (flowEdges f order).number b = order.idxOf b := by
  simp only [Edges.number, flowEdges, List.findIdx_map, List.idxOf]
  rfl

/-- The predecessors that count are those in the order. -/
theorem mem_predecessors_flowEdges {order : List BlockId} :
    q ∈ (flowEdges f order).predecessors b ↔ q ∈ order ∧ b ∈ f.next q := by
  simp [Edges.predecessors, flowEdges]

/-- What a list of parents says of a block after one entry was set. -/
theorem lookup_set {v : Option BlockId} (hb : b.index < parents.length) :
    lookup (parents.set b.index v) x = if x = b then v else lookup parents x := by
  simp only [lookup, List.getElem?_set]
  by_cases hx : x = b
  · simp [hx, hb]
  · have hne : b.index ≠ x.index := fun h => hx (ArenaId.index_inj h.symm)
    simp [hx, hne]

end DominatorTree

namespace Function.Order

open DominatorTree

variable {f : Function} {r b q a : BlockId} {tail : List BlockId}

/-- The root comes first. -/
theorem number_root (_ : f.Order r tail) : (flowEdges f (r :: tail)).number r = 0 := by
  rw [number_flowEdges, List.idxOf_cons_self]

/-- Numbers are below the number of blocks. -/
theorem number_lt (_ : f.Order r tail) (hb : b ∈ r :: tail) :
    (flowEdges f (r :: tail)).number b < tail.length + 1 := by
  rw [number_flowEdges]
  exact List.idxOf_lt_length_iff.mpr hb

/-- The number tells blocks apart. -/
theorem number_inj (_ : f.Order r tail) (ha : a ∈ r :: tail)
    (h : (flowEdges f (r :: tail)).number a = (flowEdges f (r :: tail)).number b) : a = b := by
  rw [number_flowEdges, number_flowEdges] at h
  exact (List.idxOf_inj ha).mp h

/-- Every block but the first has a predecessor with a smaller number. -/
theorem exists_earlier (ho : f.Order r tail) (hb : b ∈ r :: tail) (hne : b ≠ r) :
    ∃ q ∈ (flowEdges f (r :: tail)).predecessors b,
      (flowEdges f (r :: tail)).number q < (flowEdges f (r :: tail)).number b := by
  have hb : b ∈ tail := (List.mem_cons.mp hb).resolve_left hne
  obtain ⟨front, back, rfl⟩ := List.append_of_mem hb
  obtain ⟨q, hq, hqb⟩ := ho.grounded.exists_pred
  have hq : q ∈ r :: front :=
    hq.elim (fun h => List.mem_cons.mpr (.inl (List.mem_singleton.mp h))) (List.mem_cons_of_mem _)
  have hnot : b ∉ r :: front := by
    intro hmem
    have hnodup := ho.nodup
    rw [← List.cons_append] at hnodup
    exact (List.nodup_append.mp hnodup).2.2 b hmem b List.mem_cons_self rfl
  refine ⟨q, mem_predecessors_flowEdges.mpr ⟨?_, hqb.2⟩, ?_⟩
  · rw [← List.cons_append]
    exact List.mem_append_left _ hq
  · rw [number_flowEdges, number_flowEdges, ← List.cons_append, List.idxOf_append_of_mem hq,
      List.idxOf_append_of_notMem hnot, List.idxOf_cons_self]
    have := List.idxOf_lt_length_iff.mpr hq
    omega

end Function.Order

namespace DominatorTree

variable {f : Function} {r b c d m p q x y : BlockId} {tail : List BlockId}
  {parents : List (Option BlockId)} {k : Nat}

/-! ### Stages -/

/-- A list of parents inside a round, when the blocks with numbers below `k` were worked on. -/
structure Stage (f : Function) (r : BlockId) (tail : List BlockId) (k : Nat)
    (parents : List (Option BlockId)) : Prop where
  size : parents.length = f.capacity
  rooted : Rooted (flowEdges f (r :: tail)).number r parents
  mem_order : ∀ b, Listed parents b → b ∈ r :: tail
  settled : ∀ b ∈ r :: tail, (flowEdges f (r :: tail)).number b < k → Listed parents b
  /-- The strict dominators of a block dominate its parent. -/
  nearest : ∀ b p, lookup parents b = some p → b ≠ r →
    ∀ d, d ≠ b → Dominates f.Edge r d b → Dominates f.Edge r d p
  /-- What is above all predecessors of a block is above its parent. -/
  bounded : ∀ b p, lookup parents b = some p → b ≠ r →
    ∀ x, (∀ q ∈ (flowEdges f (r :: tail)).predecessors b, Listed parents q → Up parents q x) →
      Up parents p x
  /-- The parent of a block is above its earlier predecessors, unless the round has passed the
  parent and not the block. -/
  tied : ∀ b p q, lookup parents b = some p → b ≠ r →
    q ∈ (flowEdges f (r :: tail)).predecessors b →
    (flowEdges f (r :: tail)).number q < (flowEdges f (r :: tail)).number b →
    (flowEdges f (r :: tail)).number b < k ∨ k ≤ (flowEdges f (r :: tail)).number p + 1 →
      Up parents q p

/-- The way up after block `b` became a child of `m`, from a block that is not below `b`. -/
theorem up_set_of_not_up (hb : b.index < parents.length) (hx : ¬Up parents x b) :
    Up (parents.set b.index (some m)) x y ↔ Up parents x y := by
  have hstep : ∀ {a c}, ¬Up parents a b →
      (lookup (parents.set b.index (some m)) a = some c ↔ lookup parents a = some c) := by
    intro a c ha
    have hne : a ≠ b := fun h => ha (h ▸ Up.refl a)
    rw [lookup_set hb, if_neg hne]
  constructor
  · intro h
    induction h using Relation.ReflTransGen.head_induction_on with
    | refl => exact Up.refl y
    | head hac _ ih =>
        have hac := (hstep hx).mp hac
        exact Up.parent hac (ih fun h => hx (Up.parent hac h))
  · intro h
    induction h using Relation.ReflTransGen.head_induction_on with
    | refl => exact Up.refl y
    | head hac _ ih =>
        exact Up.parent ((hstep hx).mpr hac) (ih fun h => hx (Up.parent hac h))

/-- The way up after block `b` became a child of `m`, from a block below `b`: as before up to
`b`, then on from `m`. -/
theorem up_set_of_up {num : BlockId → Nat} (ht : Rooted num r parents)
    (hb : b.index < parents.length) (hm : ¬Up parents m b) (hx : Up parents x b) :
    Up (parents.set b.index (some m)) x y ↔ (Up parents x y ∧ Up parents y b) ∨ Up parents m y := by
  have hparent : lookup (parents.set b.index (some m)) b = some m := by
    rw [lookup_set hb, if_pos rfl]
  have hbelow : ∀ {y}, Up parents x y → Up parents y b →
      Up (parents.set b.index (some m)) x y := by
    intro y hxy hyb
    clear hx
    induction hxy using Relation.ReflTransGen.head_induction_on with
    | refl => exact Up.refl y
    | @head a c hac hcy ih =>
        by_cases hab : a = b
        · subst hab
          have hay : Up parents a y := Up.parent hac hcy
          rw [ht.eq_of_up hay ⟨c, hac⟩ (ht.num_le_of_up hyb)]
          exact Up.refl y
        · exact Up.parent (by rw [lookup_set hb, if_neg hab]; exact hac) ih
  constructor
  · intro h
    clear hbelow
    induction h using Relation.ReflTransGen.head_induction_on with
    | refl => exact .inl ⟨Up.refl y, hx⟩
    | @head a c hac hcy ih =>
        by_cases hab : a = b
        · subst hab
          rw [hparent, Option.some.injEq] at hac
          subst hac
          exact .inr ((up_set_of_not_up hb hm).mp hcy)
        · rw [lookup_set hb, if_neg hab] at hac
          rcases hx.cases with h | ⟨c', hc', hc'b⟩
          · exact absurd h hab
          · obtain rfl : c = c' := Option.some.inj (hac.symm.trans hc')
            exact (ih hc'b).imp (fun h => ⟨Up.parent hac h.1, h.2⟩) id
  · rintro (⟨hxy, hyb⟩ | hmy)
    · exact hbelow hxy hyb
    · exact (hbelow hx (Up.refl b)).trans
        (Up.parent hparent ((up_set_of_not_up hb hm).mpr hmy))

/-- The blocks with a parent after block `b` became a child of `m`. -/
theorem listed_set (hb : b.index < parents.length) :
    Listed (parents.set b.index (some m)) x ↔ x = b ∨ Listed parents x := by
  simp only [Listed, lookup_set hb]
  by_cases hx : x = b <;> simp [hx]

/-- A tree stays one when a block becomes a child of an earlier one. -/
theorem Rooted.set {num : BlockId → Nat} (ht : Rooted num r parents) (hb : b.index < parents.length)
    (hbr : b ≠ r) (hm : Listed parents m) (hlt : num m < num b)
    (hinj : ∀ c, Listed parents c → num b = num c → b = c) :
    Rooted num r (parents.set b.index (some m)) where
  root := by
    rw [lookup_set hb, if_neg hbr.symm]
    exact ht.root
  num_root := ht.num_root
  parent_listed c p hp := by
    rw [lookup_set hb] at hp
    rw [listed_set hb]
    split at hp
    · exact .inr (Option.some.inj hp ▸ hm)
    · exact .inr (ht.parent_listed c p hp)
  num_lt c p hp hcr := by
    rw [lookup_set hb] at hp
    split at hp
    · rename_i heq
      rw [heq, ← Option.some.inj hp]
      exact hlt
    · exact ht.num_lt c p hp hcr
  num_inj a c ha hc hac := by
    rcases (listed_set hb).mp ha with hab | ha <;> rcases (listed_set hb).mp hc with hcb | hc
    · rw [hab, hcb]
    · rw [hab] at hac ⊢
      exact hinj c hc hac
    · rw [hcb] at hac ⊢
      exact (hinj a ha hac.symm).symm
    · exact ht.num_inj a c ha hc hac

namespace Stage

/-- On the way up a dominator is kept, or is passed. -/
theorem dominates_or_up (hs : Stage f r tail k parents) (hd : Dominates f.Edge r d q)
    (h : Up parents q m) : Dominates f.Edge r d m ∨ (Up parents q d ∧ Up parents d m) := by
  induction h using Relation.ReflTransGen.head_induction_on with
  | refl => exact .inl hd
  | @head a c hac hcm ih =>
      by_cases hda : d = a
      · subst hda
        exact .inr ⟨Up.refl d, Up.parent hac hcm⟩
      · have har : a ≠ r := by
          rintro rfl
          exact hda hd.eq_root
        rcases ih (hs.nearest a c hac har d hda hd) with h | ⟨h, h'⟩
        · exact .inl h
        · exact .inr ⟨Up.parent hac h, h'⟩

/-- The dominators of a block in the tree are above it. -/
theorem up_of_dominates (hs : Stage f r tail k parents) (hq : Listed parents q)
    (hd : Dominates f.Edge r d q) : Up parents q d := by
  rcases hs.dominates_or_up hd (hs.rooted.up_root hq) with h | ⟨h, -⟩
  · exact h.eq_root ▸ hs.rooted.up_root hq
  · exact h

/-- A predecessor with a smaller number that is in the tree already. -/
theorem exists_listed_earlier (hs : Stage f r tail k parents) (ho : f.Order r tail)
    (hb : b ∈ r :: tail) (hbr : b ≠ r) (hk : (flowEdges f (r :: tail)).number b = k) :
    ∃ q ∈ (flowEdges f (r :: tail)).predecessors b, Listed parents q ∧
      (flowEdges f (r :: tail)).number q < (flowEdges f (r :: tail)).number b := by
  obtain ⟨q, hq, hlt⟩ := ho.exists_earlier hb hbr
  exact ⟨q, hq, hs.settled q (mem_predecessors_flowEdges.mp hq).1 (by omega), hlt⟩

/-- The new parent has a smaller number than the block. -/
theorem number_meet_lt (hs : Stage f r tail k parents) (ho : f.Order r tail)
    (hb : b ∈ r :: tail) (hbr : b ≠ r) (hk : (flowEdges f (r :: tail)).number b = k)
    (hm : IsMeet parents ((flowEdges f (r :: tail)).predecessors b) m) :
    (flowEdges f (r :: tail)).number m < (flowEdges f (r :: tail)).number b := by
  obtain ⟨q, hq, hlq, hlt⟩ := hs.exists_listed_earlier ho hb hbr hk
  have := hs.rooted.num_le_of_up (hm.above q hq hlq)
  omega

/-- The new parent is above the old one. -/
theorem up_meet (hs : Stage f r tail k parents) (hbr : b ≠ r)
    (hm : IsMeet parents ((flowEdges f (r :: tail)).predecessors b) m)
    (hp : lookup parents b = some p) : Up parents p m :=
  hs.bounded b p hp hbr m hm.above

/-- Working on a block takes ancestors away and adds none. -/
theorem up_of_up_set (hs : Stage f r tail k parents) (hb : b.index < parents.length)
    (hbr : b ≠ r) (hm : IsMeet parents ((flowEdges f (r :: tail)).predecessors b) m)
    (hnot : ¬Up parents m b) (hq : Listed parents q)
    (h : Up (parents.set b.index (some m)) q x) : Up parents q x := by
  by_cases hqb : Up parents q b
  · obtain ⟨p, hp⟩ := hs.rooted.listed_of_up hqb hq
    rcases (up_set_of_up hs.rooted hb hnot hqb).mp h with ⟨hqx, -⟩ | hmx
    · exact hqx
    · exact hqb.trans (Up.parent hp ((hs.up_meet hbr hm hp).trans hmx))
  · exact (up_set_of_not_up hb hqb).mp h

/-- The strict dominators of a block dominate its new parent. They are above every predecessor,
hence above the new parent, and none of them is passed on the way up to it. -/
theorem dominates_meet (hs : Stage f r tail k parents) (ho : f.Order r tail)
    (h : f.WellFormed) (hr : r ∈ f.layout)
    (hb : b ∈ r :: tail) (hbr : b ≠ r) (hk : (flowEdges f (r :: tail)).number b = k)
    (hm : IsMeet parents ((flowEdges f (r :: tail)).predecessors b) m)
    (hne : d ≠ b) (hd : Dominates f.Edge r d b) : Dominates f.Edge r d m := by
  have hpred : ∀ q ∈ (flowEdges f (r :: tail)).predecessors b, Dominates f.Edge r d q := by
    intro q hq
    obtain ⟨hqo, hqb⟩ := mem_predecessors_flowEdges.mp hq
    have hql := Search.mem_layout_of_reaches h hr ((ho.mem_iff q).mp hqo)
    exact hd.pred hne ⟨hql, hqb⟩
  obtain ⟨q, hq, hlq, -⟩ := hs.exists_listed_earlier ho hb hbr hk
  rcases hs.dominates_or_up (hpred q hq) (hm.above q hq hlq) with h | ⟨hqd, hdm⟩
  · exact h
  · have hmd : Up parents m d :=
      hm.deepest d fun q' hq' hlq' => hs.up_of_dominates hlq' (hpred q' hq')
    have heq : d = m :=
      hs.rooted.eq_of_up hdm (hs.rooted.listed_of_up hqd hlq) (hs.rooted.num_le_of_up hmd)
    exact heq ▸ Dominates.refl d

/-- What `refine` does to block `b` keeps the ancestors that predecessors share. The one case of
substance is a block `y` whose parent is below `b`: it is still tied to an earlier predecessor, so
that one is below `b` too and has lost the same ancestors. -/
theorem bounded_set (hs : Stage f r tail k parents) (ho : f.Order r tail)
    (hlen : b.index < parents.length) (hbr : b ≠ r)
    (hk : (flowEdges f (r :: tail)).number b = k)
    (hm : IsMeet parents ((flowEdges f (r :: tail)).predecessors b) m) (hnot : ¬Up parents m b)
    (hp : lookup (parents.set b.index (some m)) y = some p) (hyr : y ≠ r)
    (hx : ∀ q ∈ (flowEdges f (r :: tail)).predecessors y, Listed parents q →
      Up (parents.set b.index (some m)) q x) : Up (parents.set b.index (some m)) p x := by
  have hx' : ∀ q ∈ (flowEdges f (r :: tail)).predecessors y, Listed parents q → Up parents q x :=
    fun q hq hlq => hs.up_of_up_set hlen hbr hm hnot hlq (hx q hq hlq)
  rw [lookup_set hlen] at hp
  split at hp
  · rename_i heq
    subst heq
    rw [← Option.some.inj hp, up_set_of_not_up hlen hnot]
    exact hm.deepest x hx'
  · have hpx : Up parents p x := hs.bounded y p hp hyr x hx'
    by_cases hpb : Up parents p b
    · obtain ⟨q, hq, hlt⟩ := ho.exists_earlier (hs.mem_order y ⟨p, hp⟩) hyr
      have hle := hs.rooted.num_le_of_up hpb
      have hqp : Up parents q p := hs.tied y p q hp hyr hq hlt (.inr (by omega))
      have hlq : Listed parents q := by
        rcases hqp.cases with rfl | ⟨z, hz, -⟩
        · exact hs.rooted.parent_listed y q hp
        · exact ⟨z, hz⟩
      rw [up_set_of_up hs.rooted hlen hnot hpb]
      rcases (up_set_of_up hs.rooted hlen hnot (hqp.trans hpb)).mp (hx q hq hlq) with ⟨-, hxb⟩ | hmx
      · exact .inl ⟨hpx, hxb⟩
      · exact .inr hmx
    · exact (up_set_of_not_up hlen hpb).mpr hpx

/-- What `refine` does to block `b` leaves blocks tied to their earlier predecessors, as far as
the round has come. -/
theorem tied_set (hs : Stage f r tail k parents) (ho : f.Order r tail)
    (hlen : b.index < parents.length) (hb : b ∈ r :: tail)
    (hk : (flowEdges f (r :: tail)).number b = k)
    (hm : IsMeet parents ((flowEdges f (r :: tail)).predecessors b) m) (hnot : ¬Up parents m b)
    (hp : lookup (parents.set b.index (some m)) y = some p) (hyr : y ≠ r)
    (hq : q ∈ (flowEdges f (r :: tail)).predecessors y)
    (hlt : (flowEdges f (r :: tail)).number q < (flowEdges f (r :: tail)).number y)
    (hround : (flowEdges f (r :: tail)).number y < k + 1 ∨
      k + 1 ≤ (flowEdges f (r :: tail)).number p + 1) :
    Up (parents.set b.index (some m)) q p := by
  have hkeep : (flowEdges f (r :: tail)).number q < k → Up parents q p →
      Up (parents.set b.index (some m)) q p := by
    intro hqk hqp
    refine (up_set_of_not_up hlen fun hqb => ?_).mpr hqp
    have := hs.rooted.num_le_of_up hqb
    omega
  rw [lookup_set hlen] at hp
  split at hp
  · rename_i heq
    subst heq
    obtain rfl := Option.some.inj hp
    have hqo := (mem_predecessors_flowEdges.mp hq).1
    exact hkeep (by omega) (hm.above q hq (hs.settled q hqo (by omega)))
  · rename_i hyb
    have hne : (flowEdges f (r :: tail)).number y ≠ k := fun heq =>
      hyb (ho.number_inj (hs.mem_order y ⟨p, hp⟩) (heq.trans hk.symm))
    have hqp : Up parents q p := hs.tied y p q hp hyr hq hlt (by omega)
    rcases hround with hround | hround
    · exact hkeep (by omega) hqp
    by_cases hqb : Up parents q b
    · have hpb : Up parents p b := by
        rcases hqp.total hqb with h | h
        · exact h
        · have hle := hs.rooted.num_le_of_up h
          have heq : (flowEdges f (r :: tail)).number b = (flowEdges f (r :: tail)).number p := by
            omega
          exact ho.number_inj hb heq ▸ Up.refl b
      exact (up_set_of_up hs.rooted hlen hnot hqb).mpr (.inl ⟨hqp, hpb⟩)
    · exact (up_set_of_not_up hlen hqb).mpr hqp

/-- **One block of a round.** -/
theorem refine (hs : Stage f r tail k parents) (ho : f.Order r tail) (h : f.WellFormed)
    (hr : r ∈ f.layout) (hb : b ∈ r :: tail) (hbr : b ≠ r)
    (hk : (flowEdges f (r :: tail)).number b = k)
    (hm : IsMeet parents ((flowEdges f (r :: tail)).predecessors b) m) :
    Stage f r tail (k + 1) (parents.set b.index (some m)) := by
  have hlen : b.index < parents.length := by
    rw [hs.size]
    exact h.index_lt b (Search.mem_layout_of_reaches h hr ((ho.mem_iff b).mp hb))
  have hlt := hs.number_meet_lt ho hb hbr hk hm
  have hnot : ¬Up parents m b := by
    intro hup
    have := hs.rooted.num_le_of_up hup
    omega
  refine ⟨by rw [List.length_set, hs.size], ?_, ?_, ?_, ?_, ?_, ?_⟩
  · exact hs.rooted.set hlen hbr hm.listed hlt fun _ _ heq => ho.number_inj hb heq
  · intro x hx
    exact ((listed_set hlen).mp hx).elim (fun hxb => hxb ▸ hb) (hs.mem_order x)
  · intro c hc hck
    rw [listed_set hlen]
    by_cases hcb : c = b
    · exact .inl hcb
    · have hne : (flowEdges f (r :: tail)).number c ≠ k := fun heq =>
        hcb (ho.number_inj hc (heq.trans hk.symm))
      exact .inr (hs.settled c hc (by omega))
  · intro c p hp hcr d hdc hd
    rw [lookup_set hlen] at hp
    split at hp
    · rename_i heq
      subst heq
      exact Option.some.inj hp ▸ hs.dominates_meet ho h hr hb hbr hk hm hdc hd
    · exact hs.nearest c p hp hcr d hdc hd
  · intro y p hp hyr x hx
    exact hs.bounded_set ho hlen hbr hk hm hnot hp hyr fun q hq hlq =>
      hx q hq ((listed_set hlen).mpr (.inr hlq))
  · intro y p q hp hyr hq hlt' hround
    exact hs.tied_set ho hlen hb hk hm hnot hp hyr hq hlt' hround

/-- After a round the next one can begin. -/
theorem restart (hs : Stage f r tail (tail.length + 1) parents) (ho : f.Order r tail) :
    Stage f r tail 1 parents where
  size := hs.size
  rooted := hs.rooted
  mem_order := hs.mem_order
  settled b hb hlt := hs.settled b hb (by omega)
  nearest := hs.nearest
  bounded := hs.bounded
  tied b p q hp hbr hq hlt _ :=
    hs.tied b p q hp hbr hq hlt (.inl (ho.number_lt (hs.mem_order b ⟨p, hp⟩)))

/-- The tree of the root alone. -/
theorem initial (ho : f.Order r tail) (h : f.WellFormed) (hr : r ∈ f.layout) :
    Stage f r tail 1 ((List.replicate f.capacity none).set r.index (some r)) := by
  have hlen : r.index < (List.replicate f.capacity (none : Option BlockId)).length := by
    rw [List.length_replicate]
    exact h.index_lt r hr
  have hlook : ∀ x, lookup ((List.replicate f.capacity none).set r.index (some r)) x =
      if x = r then some r else none := by
    intro x
    have hnone : lookup (List.replicate f.capacity none) x = none := by
      rw [lookup, List.getElem?_replicate]
      split <;> rfl
    rw [lookup_set hlen, hnone]
  have hroot : ∀ {b p}, lookup ((List.replicate f.capacity none).set r.index (some r)) b = some p →
      b = r ∧ p = r := by
    intro b p hp
    rw [hlook] at hp
    split at hp
    · rename_i heq
      exact ⟨heq, (Option.some.inj hp).symm⟩
    · cases hp
  refine ⟨by simp, ⟨by rw [hlook, if_pos rfl], ho.number_root, ?_, ?_, ?_⟩, ?_, ?_, ?_, ?_, ?_⟩
  · intro b p hp
    exact ⟨r, by rw [hlook, if_pos (hroot hp).2]⟩
  · intro b p hp hbr
    exact absurd (hroot hp).1 hbr
  · rintro a b ⟨p, hp⟩ ⟨q, hq⟩ -
    rw [(hroot hp).1, (hroot hq).1]
  · rintro b ⟨p, hp⟩
    rw [(hroot hp).1]
    exact List.mem_cons_self
  · intro b hb hlt
    have heq : b = r := ho.number_inj hb (by rw [ho.number_root]; omega)
    exact ⟨r, by rw [hlook, if_pos heq]⟩
  · exact fun b p hp hbr => absurd (hroot hp).1 hbr
  · exact fun b p hp hbr => absurd (hroot hp).1 hbr
  · exact fun b p q hp hbr => absurd (hroot hp).1 hbr

end Stage

/-! ### Rounds -/

/-- The number of a block's parent; more than any number for a block that is not in the tree. -/
def score (f : Function) (r : BlockId) (tail : List BlockId) (parents : List (Option BlockId))
    (b : BlockId) : Nat :=
  match lookup parents b with
  | some p => (flowEdges f (r :: tail)).number p
  | none => tail.length + 1

/-- The sum of the numbers of all parents. -/
def potential (f : Function) (r : BlockId) (tail : List BlockId)
    (parents : List (Option BlockId)) : Nat :=
  ((r :: tail).map (score f r tail parents)).sum

/-- An entry that is set to what it was. -/
theorem set_eq_self (h : lookup parents b = some m) : parents.set b.index (some m) = parents := by
  rw [lookup, Option.join_eq_some_iff] at h
  obtain ⟨hlt, hget⟩ := List.getElem?_eq_some_iff.mp h
  rw [← hget]
  exact List.set_getElem_self hlt

/-- A round goes over all blocks but the root. -/
theorem round_flowEdges :
    round (flowEdges f (r :: tail)) parents =
      tail.foldlM (refine (flowEdges f (r :: tail))) parents := by
  simp [round, flowEdges, Function.comp_def]

namespace Stage

/-- **The parent of a block only moves up.** A new parent has a smaller number than the old one. -/
theorem eq_or_number_lt (hs : Stage f r tail k parents) (ho : f.Order r tail) (hbr : b ≠ r)
    (hm : IsMeet parents ((flowEdges f (r :: tail)).predecessors b) m)
    (hp : lookup parents b = some p) :
    m = p ∨ (flowEdges f (r :: tail)).number m < (flowEdges f (r :: tail)).number p := by
  have hle := hs.rooted.num_le_of_up (hs.up_meet hbr hm hp)
  rcases Nat.eq_or_lt_of_le hle with heq | hlt
  · exact .inl (ho.number_inj (hs.mem_order m hm.listed) heq)
  · exact .inr hlt

/-- Working on a block lowers the potential, unless it changes nothing. -/
theorem potential_set (hs : Stage f r tail k parents) (ho : f.Order r tail)
    (hlen : b.index < parents.length) (hb : b ∈ r :: tail) (hbr : b ≠ r)
    (hm : IsMeet parents ((flowEdges f (r :: tail)).predecessors b) m) :
    lookup parents b = some m ∨
      potential f r tail (parents.set b.index (some m)) < potential f r tail parents := by
  by_cases hsame : lookup parents b = some m
  · exact .inl hsame
  refine .inr ?_
  have hother : ∀ c, c ≠ b →
      score f r tail (parents.set b.index (some m)) c = score f r tail parents c := by
    intro c hc
    simp only [score, lookup_set hlen, if_neg hc]
  have hnew : score f r tail (parents.set b.index (some m)) b =
      (flowEdges f (r :: tail)).number m := by
    simp only [score, lookup_set hlen, if_pos]
  have hlt : score f r tail (parents.set b.index (some m)) b < score f r tail parents b := by
    rw [hnew]
    cases hp : lookup parents b with
    | none =>
        simp only [score, hp]
        exact ho.number_lt (hs.mem_order m hm.listed)
    | some p =>
        simp only [score, hp]
        exact (hs.eq_or_number_lt ho hbr hm hp).resolve_left fun heq => hsame (heq ▸ hp)
  refine List.sum_lt_sum _ _ (fun c _ => ?_) ⟨b, hb, hlt⟩
  by_cases hc : c = b
  · rw [hc]
    exact Nat.le_of_lt hlt
  · exact Nat.le_of_eq (hother c hc)

/-- **The next block of a round.** It becomes a child of the deepest common ancestor of its
predecessors, and the stage behind it is reached. -/
theorem exists_refine (ho : f.Order r tail) (h : f.WellFormed) (hr : r ∈ f.layout)
    {done rest : List BlockId} (htail : tail = done ++ b :: rest)
    (hs : Stage f r tail (done.length + 1) parents) :
    b ∈ r :: tail ∧ b ≠ r ∧ b.index < parents.length ∧
      ∃ m, DominatorTree.refine (flowEdges f (r :: tail)) parents b =
          .ok (parents.set b.index (some m)) ∧
        IsMeet parents ((flowEdges f (r :: tail)).predecessors b) m ∧
        Stage f r tail ((done ++ [b]).length + 1) (parents.set b.index (some m)) := by
  have hbt : b ∈ tail := by simp [htail]
  have hb : b ∈ r :: tail := List.mem_cons_of_mem _ hbt
  have hbr : b ≠ r := by
    rintro rfl
    exact (List.nodup_cons.mp ho.nodup).1 hbt
  have hk : (flowEdges f (r :: tail)).number b = done.length + 1 := by
    have hnot : b ∉ r :: done := by
      have hnodup := ho.nodup
      rw [htail, ← List.cons_append] at hnodup
      exact fun hmem => (List.nodup_append.mp hnodup).2.2 b hmem b List.mem_cons_self rfl
    rw [number_flowEdges, htail, ← List.cons_append, List.idxOf_append_of_notMem hnot,
      List.idxOf_cons_self]
    simp
  have hlen : b.index < parents.length := by
    rw [hs.size]
    exact h.index_lt b (Search.mem_layout_of_reaches h hr ((ho.mem_iff b).mp hb))
  obtain ⟨q, hq, hlq, -⟩ := hs.exists_listed_earlier ho hb hbr hk
  obtain ⟨m, hm, hmeet⟩ := hs.rooted.refine_eq_ok hq hlq
  exact ⟨hb, hbr, hlen, m, hm, hmeet, by simpa using hs.refine ho h hr hb hbr hk hmeet⟩

/-- **A round, or the rest of one.** It ends at the stage behind the last block. It lowers the
potential, unless every block that it worked on was a child of the deepest common ancestor of its
predecessors already. -/
theorem foldlM_refine (ho : f.Order r tail) (h : f.WellFormed) (hr : r ∈ f.layout)
    {done rest : List BlockId} (htail : tail = done ++ rest)
    (hs : Stage f r tail (done.length + 1) parents) :
    ∃ parents',
      rest.foldlM (DominatorTree.refine (flowEdges f (r :: tail))) parents = .ok parents' ∧
      Stage f r tail (tail.length + 1) parents' ∧
      (potential f r tail parents' < potential f r tail parents ∨
        parents' = parents ∧ ∀ b ∈ rest, ∃ m, lookup parents b = some m ∧
          IsMeet parents ((flowEdges f (r :: tail)).predecessors b) m) := by
  induction rest generalizing done parents with
  | nil =>
      rw [List.append_nil] at htail
      subst htail
      exact ⟨parents, rfl, hs, .inr ⟨rfl, fun b hb => absurd hb List.not_mem_nil⟩⟩
  | cons b rest ih =>
      obtain ⟨hb, hbr, hlen, m, hm, hmeet, hnext⟩ := hs.exists_refine ho h hr htail
      have hmoved : tail = (done ++ [b]) ++ rest := by rw [htail, List.append_assoc]; rfl
      obtain ⟨parents', hfold, hs', hdrop⟩ := ih hmoved hnext
      refine ⟨parents', by rw [List.foldlM_cons, hm]; exact hfold, hs', ?_⟩
      rcases hs.potential_set ho hlen hb hbr hmeet with hsame | hlt
      · rw [set_eq_self hsame] at hdrop
        refine hdrop.imp id fun ⟨heq, hrest⟩ => ⟨heq, fun c hc => ?_⟩
        rcases List.mem_cons.mp hc with rfl | hc
        · exact ⟨m, hsame, hmeet⟩
        · exact hrest c hc
      · refine .inl ?_
        rcases hdrop with hdrop | ⟨rfl, -⟩
        · omega
        · exact hlt

/-- **All rounds.** With a budget above the potential the rounds come to a stage at which every
block is a child of the deepest common ancestor of its predecessors. -/
theorem settle (ho : f.Order r tail) (h : f.WellFormed) (hr : r ∈ f.layout) {budget : Nat}
    (hs : Stage f r tail 1 parents) (hbudget : potential f r tail parents < budget) :
    ∃ final, DominatorTree.settle (flowEdges f (r :: tail)) budget parents = .ok final ∧
      Stage f r tail (tail.length + 1) final ∧
      ∀ b ∈ tail, ∃ m, lookup final b = some m ∧
        IsMeet final ((flowEdges f (r :: tail)).predecessors b) m := by
  induction budget generalizing parents with
  | zero => omega
  | succ budget ih =>
      obtain ⟨parents', hfold, hs', hdrop⟩ :=
        foldlM_refine ho h hr (List.nil_append tail).symm hs
      rw [DominatorTree.settle, round_flowEdges, hfold]
      simp only [bind, Except.bind]
      rcases hdrop with hlt | ⟨rfl, hmeets⟩
      · rw [if_neg (by rintro rfl; omega)]
        exact ih (hs'.restart ho) (by omega)
      · exact ⟨parents', by simp [pure, Except.pure], hs', hmeets⟩

end Stage

end DominatorTree

end Lockstep
