import Lockstep.Proofs.Flow.Iteration
import Lockstep.Proofs.Flow.SplitVertex

/-!
# Correct dominator trees

A dominator tree is correct for a function when its parents are the immediate dominators of the
graph, said in terms of walks. There is only one correct tree, so a tree that was kept up to date
by correct updates equals one that is computed afresh.

## Main results

* `DominatorTree.compute_eq_ok`: the computed tree exists and is correct.
* `DominatorTree.Correct.unique`: two correct trees are equal.
* `DominatorTree.Correct.dominates_eq_ok`: a correct tree answers questions about dominance.
* `DominatorTree.Correct.addSplitBlock`: the update after a split keeps a tree correct.
* `DominatorTree.Correct.mismatch?_eq`: nothing is found wrong with a correct tree.
-/

namespace Lockstep

namespace DominatorTree

variable {f f' : Function} {t t' : DominatorTree} {r a b n p q x y : BlockId}
  {tail : List BlockId} {parents : List (Option BlockId)}

/-- The tree lists the immediate dominators of the blocks that the entry `r` reaches. -/
structure Correct (t : DominatorTree) (f : Function) (r : BlockId) : Prop where
  entry : t.entry = some r
  size : t.parents.length = f.capacity
  root : lookup t.parents r = some r
  parent : ∀ b p, b ≠ r → lookup t.parents b = some p → ImmediatelyDominates f.Edge r p b
  listed : ∀ b, Reaches f.Edge r b → Listed t.parents b

namespace Correct

/-- The blocks in the tree are those that can be reached. -/
theorem listed_iff (ht : t.Correct f r) : Listed t.parents b ↔ Reaches f.Edge r b := by
  refine ⟨?_, ht.listed b⟩
  rintro ⟨p, hp⟩
  by_cases hbr : b = r
  · exact hbr ▸ Reaches.refl b
  · exact (ht.parent b p hbr hp).reaches

/-- The tree knows which blocks can be reached. -/
theorem isReachable_iff (ht : t.Correct f r) : t.isReachable b = true ↔ Reaches f.Edge r b := by
  rw [← ht.listed_iff, isReachable, Option.isSome_iff_exists]
  rfl

/-- The parent of a block other than the root is its immediate dominator. -/
theorem parent_iff (ht : t.Correct f r) (hbr : b ≠ r) :
    lookup t.parents b = some p ↔ ImmediatelyDominates f.Edge r p b := by
  refine ⟨ht.parent b p hbr, fun hp => ?_⟩
  obtain ⟨q, hq⟩ := ht.listed b hp.reaches
  rw [hq, (ht.parent b q hbr hq).unique hp]

/-- A correct tree says the same of a block as any other correct tree. -/
theorem lookup_eq (ht : t.Correct f r) (ht' : t'.Correct f r) :
    lookup t.parents b = lookup t'.parents b := by
  by_cases hbr : b = r
  · rw [hbr, ht.root, ht'.root]
  · refine Option.ext fun p => ?_
    rw [ht.parent_iff hbr, ht'.parent_iff hbr]

/-- **Uniqueness.** There is only one correct tree. -/
theorem unique (ht : t.Correct f r) (ht' : t'.Correct f r) (h : f.WellFormed) : t = t' := by
  obtain ⟨entry, parents⟩ := t
  obtain ⟨entry', parents'⟩ := t'
  have hentry : entry = entry' := ht.entry.trans ht'.entry.symm
  have hsize : parents.length = parents'.length := ht.size.trans ht'.size.symm
  have hparents : parents = parents' := by
    refine List.ext_getElem hsize fun i hi hi' => ?_
    have hcap : i < f.capacity := ht.size ▸ hi
    have hindex : (ArenaId.ofIndex i : BlockId).index = i :=
      ArenaId.index_ofIndex (Nat.lt_of_lt_of_le hcap h.fits)
    have hlook := ht.lookup_eq ht' (b := ArenaId.ofIndex i)
    simpa [lookup, hindex, hi, hi'] using hlook
  rw [hentry, hparents]

end Correct

/-! ### The computed tree -/

/-- At a fixed point, what is above a block dominates it: by induction along a walk, since the
parent of a block is above each of its predecessors. -/
theorem mem_walk_of_up (ho : f.Order r tail) {k : Nat} (hs : Stage f r tail k parents)
    (hfix : ∀ b ∈ tail, ∃ m, lookup parents b = some m ∧
      IsMeet parents ((flowEdges f (r :: tail)).predecessors b) m)
    {xs : List BlockId} (hxs : Walk f.Edge r b xs) (ha : Up parents b a) : a ∈ xs := by
  have hlisted : ∀ q ∈ r :: tail, Listed parents q := by
    intro q hq
    rcases List.mem_cons.mp hq with rfl | hq
    · exact hs.rooted.listed_root
    · obtain ⟨m, hm, -⟩ := hfix q hq
      exact ⟨m, hm⟩
  refine hxs.snoc_induction (P := fun b xs => ∀ a, Up parents b a → a ∈ xs) ?_ ?_ a ha
  · intro a ha
    obtain rfl : a = r := hs.rooted.eq_root_of_up ha
    exact List.mem_cons_self
  · intro q b ys hys hqb ih a ha
    by_cases hbr : b = r
    · subst hbr
      obtain rfl : a = b := hs.rooted.eq_root_of_up ha
      exact List.mem_append_left _ hys.start_mem
    have hqo : q ∈ r :: tail := (ho.mem_iff q).mpr ⟨ys, hys⟩
    have hbo : b ∈ r :: tail := (ho.mem_iff b).mpr (Reaches.snoc ⟨ys, hys⟩ hqb)
    obtain ⟨m, hm, hmeet⟩ := hfix b ((List.mem_cons.mp hbo).resolve_left hbr)
    rcases ha.cases with rfl | ⟨m', hm', hm'a⟩
    · exact List.mem_append_right _ List.mem_cons_self
    · obtain rfl : m = m' := Option.some.inj (hm.symm.trans hm')
      have hqm := hmeet.above q (mem_predecessors_flowEdges.mpr ⟨hqo, hqb.2⟩) (hlisted q hqo)
      exact List.mem_append_left _ (ih a (hqm.trans hm'a))

/-- The number of rounds that the budget allows is enough. -/
theorem Stage.potential_lt {k : Nat} (hs : Stage f r tail k parents) (ho : f.Order r tail) :
    potential f r tail parents < (r :: tail).length * (r :: tail).length + 2 := by
  have hscore : ∀ b ∈ r :: tail, score f r tail parents b ≤ (r :: tail).length := by
    intro b _
    rw [score]
    split
    · rename_i p hp
      exact Nat.le_of_lt (ho.number_lt (hs.mem_order p (hs.rooted.parent_listed b p hp)))
    · exact Nat.le_refl _
  have hsum := List.sum_le_card_nsmul ((r :: tail).map (score f r tail parents))
    (r :: tail).length (by
      intro s hs
      obtain ⟨b, hb, rfl⟩ := List.mem_map.mp hs
      exact hscore b hb)
  rw [List.length_map, Nat.nsmul_eq_mul] at hsum
  rw [potential]
  omega

/-- The blocks of an order of the body with their successors. -/
theorem mapM_successors_eq_ok (h : f.WellFormed) {order : List BlockId}
    (hlayout : ∀ b ∈ order, b ∈ f.layout) :
    order.mapM (fun b => return (b, ← f.successors b)) =
      (.ok (flowEdges f order) : Except Fault Edges) := by
  refine mapM_ok fun b hb => ?_
  rw [h.successors_eq (hlayout b hb)]
  rfl

/-- The parts of the computation. -/
theorem compute_eq_of_settle {order : List BlockId} {edges : Edges} (hr : f.entry? = some r)
    (horder : f.reversePostorder r = .ok order)
    (hedges : order.mapM (fun b => return (b, ← f.successors b)) = .ok edges)
    (hsettle : settle edges (order.length * order.length + 2)
      ((List.replicate f.capacity none).set r.index (some r)) = .ok parents) :
    compute f = .ok ⟨some r, parents⟩ := by
  rw [compute, hr]
  simp only [horder, bind, Except.bind] at hedges ⊢
  rw [hedges]
  simp only [hsettle, pure, Except.pure]

/-- **The computed tree.** For a well-formed function with a body the computation gives a correct
tree, and the blocks can be numbered along it. -/
theorem compute_eq_ok (h : f.WellFormed) (hr : f.entry? = some r) :
    ∃ t, compute f = .ok t ∧ t.Correct f r ∧
      ∃ num, Rooted num r t.parents ∧ ∀ b, Listed t.parents b → num b ≤ f.capacity := by
  have hrl : r ∈ f.layout := List.mem_of_head? hr
  obtain ⟨tail, horder, ho⟩ := h.reversePostorder_eq_ok hrl
  have hlayout : ∀ b ∈ r :: tail, b ∈ f.layout := fun b hb =>
    Search.mem_layout_of_reaches h hrl ((ho.mem_iff b).mp hb)
  have hedges := mapM_successors_eq_ok h hlayout
  have hinit := Stage.initial ho h hrl
  obtain ⟨parents, hsettle, hs, hfix⟩ := hinit.settle ho h hrl (hinit.potential_lt ho)
  refine ⟨⟨some r, parents⟩, compute_eq_of_settle hr horder hedges hsettle,
    ⟨rfl, hs.size, hs.rooted.root, fun b p hbr hp => ?_, fun b hb => ?_⟩,
    (flowEdges f (r :: tail)).number, hs.rooted, fun b hb => ?_⟩
  · have hbo := hs.mem_order b ⟨p, hp⟩
    refine ⟨(ho.mem_iff b).mp hbo, ?_, fun xs hxs => ?_, fun d hd hdom => ?_⟩
    · rintro rfl
      exact absurd (hs.rooted.num_lt p p hp hbr) (Nat.lt_irrefl _)
    · exact mem_walk_of_up ho hs hfix hxs (Up.parent hp (Up.refl p))
    · exact hs.nearest b p hp hbr d hd hdom
  · exact hs.settled b ((ho.mem_iff b).mpr hb) (ho.number_lt ((ho.mem_iff b).mpr hb))
  · have hlt := ho.number_lt (hs.mem_order b hb)
    have hlen : (r :: tail).length ≤ f.capacity :=
      length_le_of_index_lt ho.nodup fun a ha => h.index_lt a (hlayout a ha)
    rw [List.length_cons] at hlen
    omega

/-! ### Questions to the tree -/

/-- A tree decides dominance if it knows which blocks can be reached and a climb decides it between
different blocks that can be. -/
theorem dominates_of_climb (hb : t.isReachable b = true ↔ Reaches f.Edge r b)
    (ha : Reaches f.Edge r a → t.isReachable a = true)
    (hclimb : a ≠ b → Reaches f.Edge r b →
      ∃ v, t.climb a (t.parents.length + 1) b = .ok v ∧ (v = true ↔ Dominates f.Edge r a b)) :
    ∃ v, t.dominates a b = .ok v ∧ (v = true ↔ Dominates f.Edge r a b) := by
  rw [DominatorTree.dominates]
  by_cases hab : a = b
  · exact ⟨true, if_pos hab, by simpa [hab] using Dominates.refl b⟩
  rw [if_neg hab]
  by_cases htb : t.isReachable b = true
  · by_cases hta : t.isReachable a = true
    · obtain ⟨v, hv, hiff⟩ := hclimb hab (hb.mp htb)
      exact ⟨v, by simp [hta, htb, hv], hiff⟩
    · refine ⟨false, by simp [hta, htb], ?_⟩
      simp only [Bool.false_eq_true, false_iff]
      exact fun hdom => hta (ha (hdom.reaches (hb.mp htb)))
  · refine ⟨true, by simp [htb], ?_⟩
    simp only [true_iff]
    exact fun xs hxs => absurd (hb.mpr ⟨xs, hxs⟩) htb

namespace Correct

/-- The blocks can be numbered along a correct tree. -/
theorem exists_rooted (ht : t.Correct f r) (h : f.WellFormed) (hr : f.entry? = some r) :
    ∃ num, Rooted num r t.parents ∧ ∀ b, Listed t.parents b → num b ≤ f.capacity := by
  obtain ⟨t', -, ht', hnum⟩ := compute_eq_ok h hr
  exact (ht.unique ht' h) ▸ hnum

/-- A correct tree is the one that is computed. -/
theorem compute_eq (ht : t.Correct f r) (h : f.WellFormed) (hr : f.entry? = some r) :
    compute f = .ok t := by
  obtain ⟨t', hcompute, ht', -⟩ := compute_eq_ok h hr
  rw [hcompute, ht.unique ht' h]

/-- A correct tree agrees with the tree that is computed afresh. -/
theorem mismatch?_eq (ht : t.Correct f r) (h : f.WellFormed) (hr : f.entry? = some r) :
    t.mismatch? f = .ok none := by
  rw [mismatch?, ht.compute_eq h hr]
  simp only [bind, Except.bind, pure, Except.pure, and_self, if_true]
  rw [List.findSome?_eq_none_iff.mpr fun _ _ => rfl]

/-- Above a block in a correct tree are exactly its dominators. -/
theorem up_iff (ht : t.Correct f r) (h : f.WellFormed) (hr : f.entry? = some r)
    (hb : Reaches f.Edge r b) : Up t.parents b a ↔ Dominates f.Edge r a b := by
  obtain ⟨num, hnum, -⟩ := ht.exists_rooted h hr
  constructor
  · intro hup
    induction hup with
    | refl => exact Dominates.refl b
    | @tail x y _ hxy ih =>
        by_cases hxr : x = r
        · obtain rfl : y = r := hnum.eq_root_of_parent (hxr ▸ hxy)
          exact Dominates.root b
        · exact (ht.parent x y hxr hxy).dominates.trans ih
  · intro hdom
    induction hn : num b using Nat.strongRecOn generalizing b with
    | _ k ih =>
        by_cases hab : a = b
        · exact hab ▸ Up.refl a
        have hbr : b ≠ r := by
          rintro rfl
          exact hab hdom.eq_root
        obtain ⟨p, hp⟩ := ht.listed b hb
        have himm := ht.parent b p hbr hp
        have hlt := hnum.num_lt b p hp hbr
        exact Up.parent hp (ih (num p) (by omega)
          (ht.listed_iff.mp (hnum.parent_listed b p hp)) (himm.nearest a hab hdom) rfl)

/-- The climb from a block finds what is above its parent. -/
theorem climb_eq_ok (ht : t.Correct f r) {num : BlockId → Nat} (hnum : Rooted num r t.parents)
    {budget : Nat} (hb : Listed t.parents b) (hbudget : num b < budget) :
    ∃ v, t.climb a budget b = .ok v ∧
      (v = true ↔ b ≠ r ∧ ∃ p, lookup t.parents b = some p ∧ Up t.parents p a) := by
  induction budget generalizing b with
  | zero => omega
  | succ budget ih =>
      obtain ⟨p, hp⟩ := hb
      by_cases hbr : b = r
      · refine ⟨false, ?_, by simp [hbr]⟩
        rw [climb, idom?, if_pos (by rw [ht.entry, hbr])]
      have hidom : t.idom? b = some p := by
        rw [idom?, if_neg (by rw [ht.entry]; exact fun h => hbr (Option.some.inj h).symm), hp]
      rw [climb, hidom]
      by_cases hpa : p = a
      · exact ⟨true, if_pos hpa, by simpa using ⟨hbr, p, hp, hpa ▸ Up.refl p⟩⟩
      · have hlt := hnum.num_lt b p hp hbr
        obtain ⟨v, hv, hiff⟩ := ih (hnum.parent_listed b p hp) (by omega)
        refine ⟨v, by simp only [if_neg hpa, hv], hiff.trans ?_⟩
        constructor
        · rintro ⟨-, q, hq, hqa⟩
          exact ⟨hbr, p, hp, Up.parent hq hqa⟩
        · rintro ⟨-, p', hp', hup⟩
          obtain rfl : p = p' := Option.some.inj (hp.symm.trans hp')
          rcases hup.cases with rfl | ⟨q, hq, hqa⟩
          · exact absurd rfl hpa
          · refine ⟨?_, q, hq, hqa⟩
            rintro rfl
            exact hpa (hnum.eq_root_of_up hup).symm

/-- The climb from a block that can be reached finds its strict dominators. -/
theorem climb_dominates (ht : t.Correct f r) (h : f.WellFormed) (hr : f.entry? = some r)
    (hab : a ≠ b) (hb : Reaches f.Edge r b) :
    ∃ v, t.climb a (t.parents.length + 1) b = .ok v ∧ (v = true ↔ Dominates f.Edge r a b) := by
  have hlisted := ht.listed b hb
  obtain ⟨num, hnum, hbound⟩ := ht.exists_rooted h hr
  have hbudget : num b < t.parents.length + 1 := by
    rw [ht.size]
    exact Nat.lt_succ_of_le (hbound b hlisted)
  obtain ⟨v, hv, hiff⟩ := ht.climb_eq_ok hnum hlisted hbudget (a := a)
  refine ⟨v, hv, hiff.trans ((Iff.symm ?_).trans (ht.up_iff h hr hb))⟩
  constructor
  · intro hup
    rcases hup.cases with rfl | ⟨p, hp, hpa⟩
    · exact absurd rfl hab
    · refine ⟨?_, p, hp, hpa⟩
      rintro rfl
      exact hab (hnum.eq_root_of_up hup)
  · rintro ⟨-, p, hp, hpa⟩
    exact Up.parent hp hpa

/-- **Dominance.** The tree decides dominance for all blocks, those that cannot be reached
included. -/
theorem dominates_eq_ok (ht : t.Correct f r) (h : f.WellFormed) (hr : f.entry? = some r)
    (a b : BlockId) : ∃ v, t.dominates a b = .ok v ∧ (v = true ↔ Dominates f.Edge r a b) :=
  dominates_of_climb ht.isReachable_iff ht.isReachable_iff.mpr (ht.climb_dominates h hr)

/-! ### Keeping the tree -/

/-- The tree depends on the edges and on the size of the arena only. -/
theorem of_edge_iff (ht : t.Correct f r) (hcap : f'.capacity = f.capacity)
    (hedge : f'.Edge = f.Edge) : t.Correct f' r :=
  ⟨ht.entry, ht.size.trans hcap.symm, ht.root, hedge ▸ ht.parent, hedge ▸ ht.listed⟩

/-- Room for one more block changes nothing for the others. -/
theorem lookup_append_none (parents : List (Option BlockId)) (x : BlockId) :
    lookup (parents ++ [none]) x = lookup parents x := by
  rw [lookup, lookup, List.getElem?_append]
  split
  · rfl
  · rename_i hge
    rw [List.getElem?_eq_none (Nat.le_of_not_lt hge)]
    cases x.index - parents.length with
    | zero => rfl
    | succ k => rfl

/-- What the updated tree says of a block when the block that was split can be reached. -/
theorem lookup_addSplitBlock (ht : t.Correct f r) (hn : n.index = f.capacity)
    (hp : t.isReachable p = true) :
    lookup (t.addSplitBlock p n).parents x =
      if x = n then some p else if x = r then some r
      else (lookup t.parents x).map fun d => if d = p then n else d := by
  have hext : n.index + 1 - t.parents.length = 1 := by rw [ht.size, hn]; omega
  have hlr : r.index < t.parents.length := by
    rw [ht.size]
    have hroot := ht.root
    rw [lookup] at hroot
    by_contra hge
    rw [List.getElem?_eq_none (by rw [ht.size]; omega)] at hroot
    exact absurd hroot (by simp)
  have hp' : (lookup (t.parents ++ [none]) p).isSome = true := by
    rwa [lookup_append_none]
  rw [addSplitBlock]
  simp only [hext, List.replicate_one, isReachable, hp', ht.entry, if_true]
  rw [lookup_set (by simp [ht.size, hn]), lookup_set (by simp; omega)]
  by_cases hxn : x = n
  · simp [hxn]
  rw [if_neg hxn, if_neg hxn]
  by_cases hxr : x = r
  · simp [hxr]
  rw [if_neg hxr, if_neg hxr, ← lookup_append_none t.parents, lookup, lookup, List.getElem?_map]
  rcases (t.parents ++ [none])[x.index]? with _ | _ | d
  · rfl
  · rfl
  · by_cases hdp : d = p <;> simp [hdp]

/-- A new block makes the list of parents longer by one. -/
theorem length_addSplitBlock (ht : t.Correct f r) (hn : n.index = f.capacity) :
    (t.addSplitBlock p n).parents.length = f.capacity + 1 := by
  have hlen : (t.parents ++ List.replicate (n.index + 1 - t.parents.length) none).length =
      f.capacity + 1 := by
    rw [List.length_append, List.length_replicate, ht.size, hn]
    omega
  rw [DominatorTree.addSplitBlock]
  simp only [ht.entry]
  split
  · rw [List.length_set, List.length_set, List.length_map, hlen]
  · exact hlen

/-- **The update.** After a split the updated tree is correct again. If the split block cannot be
reached, it dominates nothing that can, so no parent changes. -/
theorem addSplitBlock (ht : t.Correct f r) (hsplit : SplitsOff f.Edge f'.Edge r p n)
    (hn : n.index = f.capacity) (hcap : f'.capacity = f.capacity + 1) :
    (t.addSplitBlock p n).Correct f' r := by
  have hext : n.index + 1 - t.parents.length = 1 := by rw [ht.size, hn]; omega
  have hsize := (ht.length_addSplitBlock hn (p := p)).trans hcap.symm
  have hentry : (t.addSplitBlock p n).entry = some r := by
    rw [DominatorTree.addSplitBlock]
    split <;> exact ht.entry
  by_cases hp : t.isReachable p = true
  · have hlook := fun x => ht.lookup_addSplitBlock hn hp (x := x)
    have hpr := ht.isReachable_iff.mp hp
    refine ⟨hentry, hsize, ?_, fun b q hbr hq => ?_, fun b hb => ?_⟩
    · rw [hlook, if_neg hsplit.ne_root.symm, if_pos rfl]
    · by_cases hbn : b = n
      · rw [hlook, if_pos hbn] at hq
        rw [hbn, ← Option.some.inj hq]
        exact hsplit.immediate_new hpr
      · rw [hlook, if_neg hbn, if_neg hbr] at hq
        obtain ⟨d, hd, rfl⟩ := Option.map_eq_some_iff.mp hq
        have himm := ht.parent b d hbr hd
        by_cases hdp : d = p
        · rw [if_pos hdp]
          exact hsplit.immediate_moved (hdp ▸ himm)
        · rw [if_neg hdp]
          exact hsplit.immediate_kept himm hdp
    · rw [Listed, hlook]
      by_cases hbn : b = n
      · exact ⟨p, if_pos hbn⟩
      by_cases hbr : b = r
      · exact ⟨r, by rw [if_neg hbn, if_pos hbr]⟩
      obtain ⟨d, hd⟩ := ht.listed b ((hsplit.reaches_iff hbn).mp hb)
      exact ⟨_, by rw [if_neg hbn, if_neg hbr, hd]; rfl⟩
  · have hpr : ¬Reaches f.Edge r p := fun hreach => hp (ht.isReachable_iff.mpr hreach)
    have hlook : ∀ x, lookup (t.addSplitBlock p n).parents x = lookup t.parents x := by
      intro x
      rw [DominatorTree.addSplitBlock]
      simp only [hext, List.replicate_one, isReachable, lookup_append_none]
      rw [isReachable] at hp
      rw [if_neg hp, lookup_append_none]
    refine ⟨hentry, hsize, by rw [hlook, ht.root], fun b q hbr hq => ?_, fun b hb => ?_⟩
    · have himm := ht.parent b q hbr ((hlook b).symm.trans hq)
      refine hsplit.immediate_kept himm ?_
      rintro rfl
      exact hpr (himm.dominates.reaches himm.reaches)
    · have hbn : b ≠ n := by
        rintro rfl
        exact hpr (hsplit.reaches_new_iff.mp hb)
      rw [Listed, hlook]
      exact ht.listed b ((hsplit.reaches_iff hbn).mp hb)

end Correct

end DominatorTree

end Lockstep
