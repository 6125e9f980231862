import Lockstep.Proofs.Flow.DominatorTree

/-!
# The rounds come to an end

The dominator tree is computed in rounds until one of them changes nothing. This module follows
the computation from block to block and says what makes it stop: once a block is in the tree, its
parent is only ever replaced by one with a smaller number. A round that changes something thus
lowers the sum of the numbers of all parents, where a block that is not in the tree yet counts for
more than any number. On the way the deepest common ancestor of two blocks is asked for again and
again, always of blocks in the tree, and in the tree each step towards the root goes to a smaller
number.

## Main results

* `DominatorTree.Rounds.stage` and `DominatorTree.Rounds.add_potential_le`: what holds at the
  beginning of each round.
* `DominatorTree.Stage.foldlM_done`: what holds inside a round.
* `DominatorTree.compute_settles`: the computation ends, and what its steps do.
-/

namespace Lockstep

namespace DominatorTree

variable {f : Function} {r b : BlockId} {tail : List BlockId} {edges : Edges}
  {first parents final : List (Option BlockId)} {n k : Nat}

/-- Beginning with `first`, the computation makes `n` rounds that change something and gets to
`parents`. -/
inductive Rounds (edges : Edges) (first : List (Option BlockId)) :
    Nat → List (Option BlockId) → Prop
  | start : Rounds edges first 0 first
  | again {n : Nat} {parents next : List (Option BlockId)} :
      Rounds edges first n parents → round edges parents = .ok next → next ≠ parents →
      Rounds edges first (n + 1) next

/-- Every block that can be reached from the entry `r` has a parent with a smaller number, the entry
itself excepted. -/
def Descends (f : Function) (r : BlockId) (edges : Edges) (parents : List (Option BlockId)) :
    Prop :=
  ∀ b, Reaches f.Edge r b → b ≠ r →
    ∃ p, lookup parents b = some p ∧ edges.number p < edges.number b

/-- At work on block `b`, the deepest common ancestor of `pred` and `current` is asked for: `pred`
is a predecessor in the tree, and `current` is what the predecessors before it led to. -/
def AsksMeet (edges : Edges) (parents : List (Option BlockId)) (b pred current : BlockId) : Prop :=
  ∃ before after, edges.predecessors b = before ++ pred :: after ∧
    before.foldlM (mergeParent edges parents) none = .ok (some current) ∧
    (lookup parents pred).isSome = true

/-- Computing the tree means making rounds until one changes nothing. -/
theorem exists_rounds_of_settle {budget : Nat} (hrounds : Rounds edges first n parents)
    (h : settle edges budget parents = .ok final) :
    ∃ last, Rounds edges first last final ∧ round edges final = .ok final := by
  induction budget generalizing n parents with
  | zero => cases h
  | succ budget ih =>
      obtain ⟨next, hnext, h⟩ := exists_of_bind_eq_ok h
      split at h
      · rename_i heq
        obtain rfl := Except.ok.inj h
        exact ⟨n, hrounds, heq ▸ hnext⟩
      · rename_i hne
        exact ih (hrounds.again hnext hne) h

/-- Questions for common ancestors are about blocks in the tree, so they are answered. -/
theorem Rooted.exists_answer (ht : Rooted edges.number r parents) {pred current : BlockId}
    (hasks : AsksMeet edges parents b pred current) :
    ∃ m, ∀ budget, edges.number pred + edges.number current < budget →
      meet parents edges.number budget pred current = .ok m := by
  obtain ⟨before, after, -, hcurrent, hpred⟩ := hasks
  exact ht.exists_meet_eq_ok (Option.isSome_iff_exists.mp hpred)
    (ht.listed_foldlM_mergeParent (fun x hx => by cases hx) hcurrent)

namespace Stage

/-- At a stage at which all blocks are in the tree, parents have smaller numbers. -/
theorem descends (hs : Stage f r tail k parents) (ho : f.Order r tail)
    (hall : ∀ b ∈ r :: tail, Listed parents b) :
    Descends f r (flowEdges f (r :: tail)) parents := by
  intro b hb hbr
  obtain ⟨p, hp⟩ := hall b ((ho.mem_iff b).mpr hb)
  exact ⟨p, hp, hs.rooted.num_lt b p hp hbr⟩

/-- **Inside a round.** Before each of its blocks the round is at the stage of that block, and no
block that was in the tree has left it. -/
theorem foldlM_done (ho : f.Order r tail) (h : f.WellFormed) (hr : r ∈ f.layout)
    {before done rest : List BlockId} (htail : tail = before ++ (done ++ rest))
    (hs : Stage f r tail (before.length + 1) parents) :
    ∃ parents',
      done.foldlM (DominatorTree.refine (flowEdges f (r :: tail))) parents = .ok parents' ∧
      Stage f r tail ((before ++ done).length + 1) parents' ∧
      ∀ c, Listed parents c → Listed parents' c := by
  induction done generalizing before parents with
  | nil => exact ⟨parents, rfl, by simpa using hs, fun c hc => hc⟩
  | cons b done ih =>
      obtain ⟨-, -, hlen, m, hm, -, hnext⟩ := hs.exists_refine ho h hr htail
      have hmoved : tail = (before ++ [b]) ++ (done ++ rest) := by
        rw [htail, List.append_assoc]
        rfl
      obtain ⟨parents', hfold, hs', hkept⟩ := ih hmoved hnext
      refine ⟨parents', by rw [List.foldlM_cons, hm]; exact hfold, by simpa using hs', ?_⟩
      rintro c ⟨p, hp⟩
      refine hkept c ?_
      by_cases hcb : c = b
      · exact ⟨m, by rw [lookup_set hlen, if_pos hcb]⟩
      · exact ⟨p, by rw [lookup_set hlen, if_neg hcb, hp]⟩

/-- A whole round: it can be made, all blocks are in the tree behind it, and it lowers the potential
unless it changes nothing. -/
theorem exists_round (ho : f.Order r tail) (h : f.WellFormed) (hr : r ∈ f.layout)
    (hs : Stage f r tail 1 parents) :
    ∃ next, round (flowEdges f (r :: tail)) parents = .ok next ∧ Stage f r tail 1 next ∧
      (∀ b ∈ r :: tail, Listed next b) ∧
      (next ≠ parents → potential f r tail next < potential f r tail parents) := by
  obtain ⟨next, hfold, hs', hdrop⟩ := foldlM_refine ho h hr (List.nil_append tail).symm hs
  refine ⟨next, round_flowEdges.trans hfold, hs'.restart ho,
    fun b hb => hs'.settled b hb (ho.number_lt hb), fun hne => ?_⟩
  exact hdrop.resolve_right fun hsame => hne hsame.1

end Stage

namespace Rounds

/-- **Each round.** It begins at the first stage, behind the first round with all blocks in the
tree. -/
theorem stage (ho : f.Order r tail) (h : f.WellFormed) (hr : r ∈ f.layout)
    (hfirst : Stage f r tail 1 first) (hrounds : Rounds (flowEdges f (r :: tail)) first n parents) :
    Stage f r tail 1 parents ∧ (0 < n → ∀ b ∈ r :: tail, Listed parents b) := by
  induction hrounds with
  | start => exact ⟨hfirst, fun hpos => absurd hpos (Nat.lt_irrefl 0)⟩
  | again _ hnext _ ih =>
      obtain ⟨next', hnext', hs, hall, -⟩ := ih.1.exists_round ho h hr
      obtain rfl := Except.ok.inj (hnext.symm.trans hnext')
      exact ⟨hs, fun _ => hall⟩

/-- Each round has cost some of the potential. -/
theorem add_potential_le (ho : f.Order r tail) (h : f.WellFormed) (hr : r ∈ f.layout)
    (hfirst : Stage f r tail 1 first) (hrounds : Rounds (flowEdges f (r :: tail)) first n parents) :
    n + potential f r tail parents ≤ potential f r tail first := by
  induction hrounds with
  | start => omega
  | again hrounds hnext hne ih =>
      obtain ⟨next', hnext', -, -, hdrop⟩ :=
        (hrounds.stage ho h hr hfirst).1.exists_round ho h hr
      obtain rfl := Except.ok.inj (hnext.symm.trans hnext')
      have := hdrop hne
      omega

end Rounds

/-- **The computation ends.** For a valid function with a body, let `order` be the reverse postorder
from the entry `r`, by which blocks are numbered, and `first` the tree of the entry alone. The
computation makes finitely many rounds that change something, and one that changes nothing. In each
round, when it gets to a block `b`, the parent that `b` is given is the one it has or one with a
smaller number, and every question for a common ancestor that comes up is answered within as many
steps as the two numbers allow. From the end of the first round on, every block that can be reached
has a parent with a smaller number, the entry excepted. -/
theorem compute_settles (f : Function) (hvalid : f.validate = .ok ()) (hbody : f.layout ≠ []) :
    ∃ r order edges first final last,
      f.entry? = some r ∧ f.reversePostorder r = .ok order ∧
      order.mapM (fun b => return (b, ← f.successors b)) = .ok edges ∧
      first = (List.replicate f.capacity none).set r.index (some r) ∧
      compute f = .ok ⟨some r, final⟩ ∧
      Rounds edges first last final ∧ round edges final = .ok final ∧
      ∀ n start, Rounds edges first n start →
        n ≤ order.length * order.length + 1 ∧
        (∃ next, round edges start = .ok next ∧ Descends f r edges next) ∧
        ∀ done b rest, order.tail = done ++ b :: rest →
          ∃ parents m, done.foldlM (refine edges) start = .ok parents ∧
            (0 < n → Descends f r edges parents) ∧
            refine edges parents b = .ok (parents.set b.index (some m)) ∧
            (∀ p, lookup parents b = some p → m ≠ p → edges.number m < edges.number p) ∧
            ∀ pred current, AsksMeet edges parents b pred current →
              ∃ answer, ∀ budget, edges.number pred + edges.number current < budget →
                meet parents edges.number budget pred current = .ok answer := by
  have h := Function.validate_eq_ok_iff.mp hvalid
  obtain ⟨r, hr⟩ : ∃ r, f.entry? = some r :=
    Option.ne_none_iff_exists'.mp fun hnone => hbody (List.head?_eq_none_iff.mp hnone)
  have hrl : r ∈ f.layout := List.mem_of_head? hr
  obtain ⟨tail, horder, ho⟩ := h.reversePostorder_eq_ok hrl
  have hedges := mapM_successors_eq_ok h fun b hb =>
    Search.mem_layout_of_reaches h hrl ((ho.mem_iff b).mp hb)
  have hfirst := Stage.initial ho h hrl
  have hbudget := hfirst.potential_lt ho
  obtain ⟨final, hsettle, -, -⟩ := hfirst.settle ho h hrl hbudget
  obtain ⟨last, hlast, hfix⟩ := exists_rounds_of_settle .start hsettle
  refine ⟨r, r :: tail, _, _, final, last, hr, horder, hedges, rfl,
    compute_eq_of_settle hr horder hedges hsettle, hlast, hfix, fun n start hrounds => ?_⟩
  obtain ⟨hs, hall⟩ := hrounds.stage ho h hrl hfirst
  refine ⟨?_, ?_, fun done b rest htail => ?_⟩
  · have hle := hrounds.add_potential_le ho h hrl hfirst
    omega
  · obtain ⟨next, hnext, hs', hall', -⟩ := hs.exists_round ho h hrl
    exact ⟨next, hnext, hs'.descends ho hall'⟩
  · have hwhole : tail = [] ++ (done ++ b :: rest) := htail
    obtain ⟨parents, hdone, hs', hkept⟩ := Stage.foldlM_done ho h hrl hwhole hs
    obtain ⟨-, hbr, -, m, hm, hmeet, -⟩ := hs'.exists_refine ho h hrl htail
    refine ⟨parents, m, hdone, fun hn => hs'.descends ho fun c hc => hkept c (hall hn c hc), hm,
      fun p hp hne => (hs'.eq_or_number_lt ho hbr hmeet hp).resolve_left hne,
      fun pred current hasks => hs'.rooted.exists_answer hasks⟩

/-- Three blocks in a row, each leading to its neighbours, that the entry reaches by two ways: one
leads to the first of them, and the other to the second and the third. -/
def braided : Function where
  name := "braided"
  returnType := .void
  parameters := [⟨"more", .i1⟩]
  blocks := [
    ⟨⟨0⟩, "entry", [.branchCond (.param 0) ⟨1⟩ ⟨2⟩]⟩,
    ⟨⟨1⟩, "left", [.branch ⟨3⟩]⟩,
    ⟨⟨2⟩, "right", [.branchCond (.param 0) ⟨4⟩ ⟨5⟩]⟩,
    ⟨⟨3⟩, "first", [.branch ⟨4⟩]⟩,
    ⟨⟨4⟩, "second", [.branchCond (.param 0) ⟨3⟩ ⟨5⟩]⟩,
    ⟨⟨5⟩, "third", [.branch ⟨4⟩]⟩]
  layout := [⟨0⟩, ⟨1⟩, ⟨2⟩, ⟨3⟩, ⟨4⟩, ⟨5⟩]

/-- The blocks of `braided` in reverse postorder with their successors. -/
def braidedEdges : Edges :=
  [(⟨0⟩, [⟨1⟩, ⟨2⟩]), (⟨2⟩, [⟨4⟩, ⟨5⟩]), (⟨1⟩, [⟨3⟩]), (⟨3⟩, [⟨4⟩]), (⟨4⟩, [⟨3⟩, ⟨5⟩]),
    (⟨5⟩, [⟨4⟩])]

/-- The parents of the blocks of `braided` after one round. -/
def braidedParents : List (Option BlockId) :=
  [some ⟨0⟩, some ⟨0⟩, some ⟨0⟩, some ⟨1⟩, some ⟨0⟩, some ⟨0⟩]

/-- In the first round the first block of the row becomes a child of the only predecessor that is in
the tree. In the second round its other predecessor is in the tree too, and it moves up to the
entry. -/
theorem compute_settles_braided :
    braided.validate = .ok () ∧ braided.layout ≠ [] ∧
    Rounds braidedEdges [some ⟨0⟩, none, none, none, none, none] 1 braidedParents ∧
    [⟨2⟩, ⟨1⟩].foldlM (refine braidedEdges) braidedParents = .ok braidedParents ∧
    Descends braided ⟨0⟩ braidedEdges braidedParents ∧
    AsksMeet braidedEdges braidedParents ⟨3⟩ ⟨4⟩ ⟨1⟩ ∧
    (∃ answer, ∀ budget, 4 + 2 < budget →
      meet braidedParents braidedEdges.number budget ⟨4⟩ ⟨1⟩ = .ok answer) ∧
    lookup braidedParents ⟨3⟩ = some ⟨1⟩ ∧
    refine braidedEdges braidedParents ⟨3⟩ = .ok (braidedParents.set 3 (some ⟨0⟩)) ∧
    braidedEdges.number ⟨0⟩ < braidedEdges.number ⟨1⟩ := by
  have hvalid : braided.validate = .ok () := by decide +kernel
  have hbody : braided.layout ≠ [] := by decide
  obtain ⟨r, order, edges, first, final, last, hr, horder, hedges, rfl, -, -, -, hrounds⟩ :=
    compute_settles braided hvalid hbody
  obtain rfl : r = ⟨0⟩ := (Option.some.inj hr).symm
  obtain rfl : order = [⟨0⟩, ⟨2⟩, ⟨1⟩, ⟨3⟩, ⟨4⟩, ⟨5⟩] :=
    Except.ok.inj (horder.symm.trans (by decide +kernel))
  obtain rfl : edges = braidedEdges := Except.ok.inj (hedges.symm.trans (by decide +kernel))
  have hstart : Rounds braidedEdges [some ⟨0⟩, none, none, none, none, none] 1 braidedParents :=
    .again .start (by decide +kernel) (by decide)
  obtain ⟨-, -, hblocks⟩ := hrounds 1 _ hstart
  obtain ⟨parents, m, hdone, hdescends, hrefine, hlower, hanswer⟩ :=
    hblocks [⟨2⟩, ⟨1⟩] ⟨3⟩ [⟨4⟩, ⟨5⟩] rfl
  obtain rfl : parents = braidedParents := Except.ok.inj (hdone.symm.trans (by decide +kernel))
  have hmoved : refine braidedEdges braidedParents ⟨3⟩ =
      .ok (braidedParents.set 3 (some ⟨0⟩)) := by decide +kernel
  obtain rfl : m = ⟨0⟩ := by
    have hset := congrArg (lookup · ⟨3⟩) (Except.ok.inj (hrefine.symm.trans hmoved))
    exact Option.some.inj hset
  have hasks : AsksMeet braidedEdges braidedParents ⟨3⟩ ⟨4⟩ ⟨1⟩ :=
    ⟨[⟨1⟩], [], by decide +kernel, by decide +kernel, by decide⟩
  exact ⟨hvalid, hbody, hstart, hdone, hdescends (by decide), hasks, hanswer _ _ hasks, by decide,
    hmoved, hlower ⟨1⟩ (by decide) (by decide)⟩

end DominatorTree

end Lockstep
