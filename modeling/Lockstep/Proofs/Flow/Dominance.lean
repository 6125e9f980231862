import Lockstep.Proofs.Flow.DominatorTree
import Lockstep.Proofs.Function.Edit

/-!
# What dominator trees say of valid functions

The dominator tree of a function that the check accepts, held against the paths of its graph: the
questions that passes put to the tree have the answers that the paths give. When blocks are split
one after another and the tree takes note of each split, it stays the tree that a computation from
scratch gives, so nothing that the paths say is lost on the way.

A tree of any other origin may be held against a function too. The check looks at the blocks of the
body only, and there at two answers only: not at the entry that the tree names, not at its size, and
not at what it says of other blocks. That is enough, since a climb from a block of the body meets
blocks of the body only.

## Main results

* `DominatorTree.compute_answers`: the computed tree decides dominance and reachability, and lists
  the immediate dominators.
* `DominatorTree.compute_splits`: after any number of splits the tree that was kept up to date is
  the computed one.
* `DominatorTree.checked_answers`: whatever tree passes the check answers like the computed one.
-/

namespace Lockstep

namespace DominatorTree

variable {f f' g g' : Function} {t t' u : DominatorTree} {r a b d n : BlockId} {k : Nat}

/-! ### Answers of the computed tree -/

/-- The tree lists exactly the immediate dominators. The entry is in the tree as its own parent,
and has none. -/
theorem Correct.idom?_eq_some_iff (ht : t.Correct f r) :
    t.idom? b = some d ↔ ImmediatelyDominates f.Edge r d b := by
  by_cases hbr : b = r
  · rw [idom?, if_pos (by rw [ht.entry, hbr])]
    simp only [reduceCtorEq, false_iff]
    intro himm
    exact himm.ne ((hbr ▸ himm.dominates).eq_root.trans hbr.symm)
  · rw [idom?, if_neg (by rw [ht.entry]; exact fun h => hbr (Option.some.inj h).symm)]
    exact ht.parent_iff hbr

/-- Every well-formed function has a dominator tree. -/
theorem exists_compute_eq_ok (h : f.WellFormed) : ∃ t, compute f = .ok t := by
  cases hr : f.entry? with
  | none => exact ⟨_, by rw [compute, hr]; rfl⟩
  | some r =>
      obtain ⟨t, ht, -⟩ := compute_eq_ok h hr
      exact ⟨t, ht⟩

/-- The tree that the computation gave is correct. -/
theorem correct_of_compute (h : f.WellFormed) (hr : f.entry? = some r) (ht : compute f = .ok t) :
    t.Correct f r := by
  obtain ⟨t', ht', hcorrect, -⟩ := compute_eq_ok h hr
  obtain rfl : t' = t := Except.ok.inj (ht'.symm.trans ht)
  exact hcorrect

/-- **The computed tree.** For a valid function with a body, the tree exists and answers every
question as the paths from the entry do: a block dominates another when all paths to the other go
through it, a block can be reached when there is a path to it, and the immediate dominator of a
block is the strict dominator that all strict dominators of the block dominate. -/
theorem compute_answers (f : Function) (hvalid : f.validate = .ok ()) (hbody : f.layout ≠ []) :
    ∃ r t, f.entry? = some r ∧ compute f = .ok t ∧
      (∀ a b, ∃ answer, t.dominates a b = .ok answer ∧
        (answer = true ↔ ∀ path, Walk f.Edge r b path → a ∈ path)) ∧
      (∀ b, t.isReachable b = true ↔ ∃ path, Walk f.Edge r b path) ∧
      (∀ b d, t.idom? b = some d ↔
        Reaches f.Edge r b ∧ b ≠ r ∧ (d ≠ b ∧ Dominates f.Edge r d b) ∧
          ∀ e, e ≠ b → Dominates f.Edge r e b → Dominates f.Edge r e d) := by
  have h := Function.validate_eq_ok_iff.mp hvalid
  obtain ⟨r, hr⟩ : ∃ r, f.entry? = some r :=
    Option.ne_none_iff_exists'.mp fun hnone => hbody (List.head?_eq_none_iff.mp hnone)
  obtain ⟨t, hcompute, ht, -⟩ := compute_eq_ok h hr
  refine ⟨r, t, hr, hcompute, ht.dominates_eq_ok h hr, fun b => ht.isReachable_iff, fun b d => ?_⟩
  rw [ht.idom?_eq_some_iff]
  constructor
  · intro himm
    have hbr : b ≠ r := by
      rintro rfl
      exact himm.ne himm.dominates.eq_root
    exact ⟨himm.reaches, hbr, ⟨himm.ne, himm.dominates⟩, himm.nearest⟩
  · rintro ⟨hreach, -, ⟨hne, hdom⟩, hnearest⟩
    exact ⟨hreach, hne, hdom, hnearest⟩

/-- Two blocks that lead to each other and are entered both ways, one of them also leading to
itself and the other back to the entry, and a block that nothing leads to. -/
def tangled : Function where
  name := "tangled"
  returnType := .void
  parameters := [⟨"more", .i1⟩]
  blocks := [
    ⟨⟨0⟩, "entry", [.branchCond (.param 0) ⟨1⟩ ⟨2⟩]⟩,
    ⟨⟨1⟩, "left", [.phi 0 [(.constant 0, ⟨0⟩), (.constant 1, ⟨2⟩), (.constant 2, ⟨3⟩)] .i32,
      .branchCond (.param 0) ⟨2⟩ ⟨0⟩]⟩,
    ⟨⟨2⟩, "right", [.barrier, .branchCond (.param 0) ⟨1⟩ ⟨2⟩]⟩,
    ⟨⟨3⟩, "lost", [.branch ⟨1⟩]⟩]
  layout := [⟨0⟩, ⟨1⟩, ⟨2⟩, ⟨3⟩]

/-- The dominator tree of `tangled`. -/
def tangledTree : DominatorTree where
  entry := some ⟨0⟩
  parents := [some ⟨0⟩, some ⟨0⟩, some ⟨0⟩, none]

/-- Neither of the two blocks of the cycle dominates the other, and only the entry is above them;
the lost block is dominated by everything and dominates nothing else. -/
theorem compute_answers_tangled :
    tangled.validate = .ok () ∧ tangled.layout ≠ [] ∧ compute tangled = .ok tangledTree ∧
    ¬Dominates tangled.Edge ⟨0⟩ ⟨1⟩ ⟨2⟩ ∧ ¬Dominates tangled.Edge ⟨0⟩ ⟨2⟩ ⟨1⟩ ∧
    ¬Dominates tangled.Edge ⟨0⟩ ⟨3⟩ ⟨1⟩ ∧ Dominates tangled.Edge ⟨0⟩ ⟨2⟩ ⟨3⟩ ∧
    ¬Reaches tangled.Edge ⟨0⟩ ⟨3⟩ ∧ Reaches tangled.Edge ⟨0⟩ ⟨2⟩ := by
  have hvalid : tangled.validate = .ok () := by decide +kernel
  have hbody : tangled.layout ≠ [] := by decide
  have hcompute : compute tangled = .ok tangledTree := by decide +kernel
  obtain ⟨r, t, hr, ht, hdom, hreach, -⟩ := compute_answers tangled hvalid hbody
  obtain rfl : r = ⟨0⟩ := (Option.some.inj hr).symm
  obtain rfl := Except.ok.inj (ht.symm.trans hcompute)
  have hanswer : ∀ a b v, tangledTree.dominates a b = .ok v →
      (v = true ↔ Dominates tangled.Edge ⟨0⟩ a b) := by
    intro a b v hv
    obtain ⟨v', hv', hiff⟩ := hdom a b
    obtain rfl := Except.ok.inj (hv.symm.trans hv')
    exact hiff
  have hnot : ∀ a b, tangledTree.dominates a b = .ok false →
      ¬Dominates tangled.Edge ⟨0⟩ a b := fun a b hv h =>
    Bool.false_ne_true ((hanswer a b false hv).mpr h)
  exact ⟨hvalid, hbody, hcompute, hnot _ _ (by decide +kernel), hnot _ _ (by decide +kernel),
    hnot _ _ (by decide +kernel), (hanswer _ _ true (by decide +kernel)).mp rfl,
    fun h => absurd ((hreach _).mpr h) (by decide), (hreach _).mp (by decide)⟩

/-! ### Splits -/

/-- Blocks of `f` are split one after another, and the tree beside it, which is `t` at first, takes
note of each split. -/
inductive Splits (f : Function) (t : DominatorTree) : Function → DominatorTree → Prop
  | refl : Splits f t f t
  | snoc {g g' : Function} {u : DominatorTree} {b n : BlockId} {k : Nat} :
      Splits f t g u → g.capacity < 2 ^ 32 → b ∈ g.layout → g.splitBlock b k = .ok (n, g') →
      Splits f t g' (u.addSplitBlock b n)

/-- Nothing is found wrong with the tree that the computation gives. -/
theorem mismatch?_eq_of_compute (ht : compute f = .ok t) : t.mismatch? f = .ok none := by
  rw [mismatch?, ht]
  simp only [bind, Except.bind, pure, Except.pure, and_self, if_true]
  rw [List.findSome?_eq_none_iff.mpr fun _ _ => rfl]

/-- **One split.** The tree that takes note of a split is the one that the split function has. -/
theorem compute_split (h : f.WellFormed) (hroom : f.capacity < 2 ^ 32) (hb : b ∈ f.layout)
    (hsplit : f.splitBlock b k = .ok (n, f')) (ht : compute f = .ok t) :
    f'.WellFormed ∧ compute f' = .ok (t.addSplitBlock b n) := by
  obtain ⟨hk, rfl, rfl⟩ := h.of_splitBlock_eq_ok hb hsplit
  obtain ⟨r, hr⟩ := Function.exists_entry hb
  have hsplits := h.splitsOff hroom hb hk (List.mem_of_head? hr)
  have hwell := h.split hroom hb hk
  have hcorrect := (correct_of_compute h hr ht).addSplitBlock hsplits
    (Function.WellFormed.index_nextBlock hroom) Function.capacity_split
  exact ⟨hwell, hcorrect.compute_eq hwell ((Function.entry?_split hb).trans hr)⟩

/-- What was computed before the first split is what a computation gives behind the last one. -/
theorem Splits.compute_eq (hsplits : Splits f t f' t') (h : f.WellFormed) (ht : compute f = .ok t) :
    f'.WellFormed ∧ compute f' = .ok t' := by
  induction hsplits with
  | refl => exact ⟨h, ht⟩
  | snoc _ hroom hb hsplit ih => exact compute_split ih.1 hroom hb hsplit ih.2

/-- **Any number of splits.** A valid function has a dominator tree. However many of its blocks are
split, as long as there is an identifier for each new one, the tree that took note of the splits is
the tree that is computed afresh, and nothing is found wrong with it. -/
theorem compute_splits (f : Function) (hvalid : f.validate = .ok ()) :
    ∃ t, compute f = .ok t ∧ ∀ f' t', Splits f t f' t' →
      compute f' = .ok t' ∧ t'.mismatch? f' = .ok none := by
  have h := Function.validate_eq_ok_iff.mp hvalid
  obtain ⟨t, ht⟩ := exists_compute_eq_ok h
  refine ⟨t, ht, fun f' t' hsplits => ?_⟩
  have hcompute := (hsplits.compute_eq h ht).2
  exact ⟨hcompute, mismatch?_eq_of_compute hcompute⟩

/-- The block that leads to itself is split, then the entry, which is in a loop, then the block that
cannot be reached. -/
theorem compute_splits_tangled :
    tangled.validate = .ok () ∧
    ∃ f' t', Splits tangled tangledTree f' t' ∧
      f'.layout = [⟨0⟩, ⟨5⟩, ⟨1⟩, ⟨2⟩, ⟨4⟩, ⟨3⟩, ⟨6⟩] ∧
      t'.parents = [some ⟨0⟩, some ⟨5⟩, some ⟨5⟩, none, some ⟨2⟩, some ⟨0⟩, none] ∧
      compute f' = .ok t' ∧ t'.mismatch? f' = .ok none := by
  have hvalid : tangled.validate = .ok () := by decide +kernel
  obtain ⟨t, ht, hkept⟩ := compute_splits tangled hvalid
  obtain rfl : t = tangledTree := Except.ok.inj (ht.symm.trans (by decide +kernel))
  have hself : Splits tangled tangledTree (tangled.split ⟨2⟩ 1)
      (tangledTree.addSplitBlock ⟨2⟩ ⟨4⟩) :=
    .snoc .refl (k := 1) (by decide) (by decide) (by decide +kernel)
  have hentry : Splits tangled tangledTree ((tangled.split ⟨2⟩ 1).split ⟨0⟩ 0)
      ((tangledTree.addSplitBlock ⟨2⟩ ⟨4⟩).addSplitBlock ⟨0⟩ ⟨5⟩) :=
    .snoc hself (k := 0) (by decide +kernel) (by decide +kernel) (by decide +kernel)
  have hlost : Splits tangled tangledTree (((tangled.split ⟨2⟩ 1).split ⟨0⟩ 0).split ⟨3⟩ 0)
      (((tangledTree.addSplitBlock ⟨2⟩ ⟨4⟩).addSplitBlock ⟨0⟩ ⟨5⟩).addSplitBlock ⟨3⟩ ⟨6⟩) :=
    .snoc hentry (k := 0) (by decide +kernel) (by decide +kernel) (by decide +kernel)
  exact ⟨hvalid, _, _, hlost, by decide +kernel, by decide +kernel, hkept _ _ hlost⟩

/-! ### Trees of any origin -/

/-- A larger budget changes no answer of a climb. -/
theorem climb_mono {budget more : Nat} {v : Bool} (h : t.climb a budget b = .ok v)
    (hle : budget ≤ more) : t.climb a more b = .ok v := by
  induction budget generalizing b more with
  | zero => cases h
  | succ budget ih =>
      obtain ⟨more, rfl⟩ : ∃ m, more = m + 1 := ⟨more - 1, by omega⟩
      rw [climb] at h ⊢
      cases hb : t.idom? b with
      | none =>
          rw [hb] at h
          exact h
      | some p =>
          rw [hb] at h
          by_cases hpa : p = a
          · simpa only [if_pos hpa] using h
          · simp only [if_neg hpa] at h ⊢
            exact ih h (by omega)

/-- A block with an immediate dominator is one that the tree knows. -/
theorem index_lt_of_idom? (h : t.idom? b = some d) : b.index < t.parents.length := by
  rw [idom?] at h
  split at h
  · cases h
  · rw [lookup] at h
    by_contra hge
    rw [List.getElem?_eq_none (Nat.le_of_not_lt hge)] at h
    cases h

/-- A climb that needs its whole budget comes by as many different blocks: from each of them the
rest of the climb needs less, so it does not come back. -/
theorem exists_nodup_of_climb {budget : Nat} {v : Bool} (hok : t.climb a (budget + 1) b = .ok v)
    (hno : ∀ v, t.climb a budget b ≠ .ok v) :
    ∃ xs : List BlockId, xs.length = budget ∧ xs.Nodup ∧
      ∀ x ∈ xs, x.index < t.parents.length ∧ ∃ v, t.climb a (budget + 1) x = .ok v := by
  induction budget generalizing b with
  | zero => exact ⟨[], rfl, List.nodup_nil, List.forall_mem_nil _⟩
  | succ budget ih =>
      have hb := hok
      rw [climb] at hb
      rw [climb] at hno
      cases hp : t.idom? b with
      | none => exact absurd (by rw [hp]) (hno false)
      | some p =>
          rw [hp] at hb hno
          by_cases hpa : p = a
          · exact absurd (if_pos hpa) (hno true)
          · simp only [if_neg hpa] at hb hno
            obtain ⟨xs, hlen, hnodup, hxs⟩ := ih hb hno
            have hnot : b ∉ xs := by
              intro hmem
              obtain ⟨w, hw⟩ := (hxs b hmem).2
              rw [climb, hp] at hw
              simp only [if_neg hpa] at hw
              exact hno w hw
            refine ⟨b :: xs, by rw [List.length_cons, hlen], List.nodup_cons.mpr ⟨hnot, hnodup⟩,
              List.forall_mem_cons.mpr ⟨⟨index_lt_of_idom? hp, v, hok⟩, fun x hx => ?_⟩⟩
            obtain ⟨hlt, w, hw⟩ := hxs x hx
            exact ⟨hlt, w, climb_mono hw (Nat.le_succ _)⟩

/-- **The budget is no restriction.** A climb that ends at all ends within the budget that questions
about dominance give it. -/
theorem climb_of_climb {budget : Nat} {v : Bool} (h : t.climb a budget b = .ok v) :
    t.climb a (t.parents.length + 1) b = .ok v := by
  induction budget with
  | zero => cases h
  | succ budget ih =>
      by_cases hless : ∃ w, t.climb a budget b = .ok w
      · obtain ⟨w, hw⟩ := hless
        obtain rfl : v = w :=
          Except.ok.inj (h.symm.trans (climb_mono hw (Nat.le_succ _)))
        exact ih hw
      · obtain ⟨xs, hlen, hnodup, hxs⟩ :=
          exists_nodup_of_climb h fun w hw => hless ⟨w, hw⟩
        have hle := length_le_of_index_lt hnodup fun x hx => (hxs x hx).1
        exact climb_mono h (by omega)

/-- What the check compares. -/
theorem mismatch?_eq_none_iff (hu : compute f = .ok u) :
    t.mismatch? f = .ok none ↔
      ∀ b ∈ f.layout, t.idom? b = u.idom? b ∧ t.isReachable b = u.isReachable b := by
  rw [mismatch?, hu]
  simp only [bind, Except.bind, pure, Except.pure, Except.ok.injEq, List.findSome?_eq_none_iff]
  refine forall₂_congr fun b _ => ?_
  split <;> simp_all

/-- A climb from a block of the body stays in the body, so it is the same in two trees that agree
there. -/
theorem Correct.climb_congr (hu : u.Correct f r) (h : f.WellFormed) (hr : f.entry? = some r)
    (hagree : ∀ b ∈ f.layout, t.idom? b = u.idom? b) (hb : b ∈ f.layout) (budget : Nat) :
    t.climb a budget b = u.climb a budget b := by
  induction budget generalizing b with
  | zero => rfl
  | succ budget ih =>
      rw [climb, climb, hagree b hb]
      cases hp : u.idom? b with
      | none => rfl
      | some p =>
          have himm := hu.idom?_eq_some_iff.mp hp
          have hmem : p ∈ f.layout := Search.mem_layout_of_reaches h (List.mem_of_head? hr)
            (himm.dominates.reaches himm.reaches)
          simp only [ih hmem]

/-- **The check.** Take a valid function with a body and a tree of any origin: computed for another
function, out of date, or damaged. If nothing is found wrong with it, then it answers every question
about a block of the body as the paths from the entry do, and no climb towards the root runs in a
circle. -/
theorem checked_answers (f : Function) (t : DominatorTree) (hvalid : f.validate = .ok ())
    (hbody : f.layout ≠ []) (hcheck : t.mismatch? f = .ok none) :
    ∃ r, f.entry? = some r ∧ ∀ b ∈ f.layout,
      (∀ a, ∃ answer, t.dominates a b = .ok answer ∧
        (answer = true ↔ ∀ path, Walk f.Edge r b path → a ∈ path)) ∧
      (t.isReachable b = true ↔ ∃ path, Walk f.Edge r b path) := by
  have h := Function.validate_eq_ok_iff.mp hvalid
  obtain ⟨r, hr⟩ : ∃ r, f.entry? = some r :=
    Option.ne_none_iff_exists'.mp fun hnone => hbody (List.head?_eq_none_iff.mp hnone)
  obtain ⟨u, hcompute, hu, -⟩ := compute_eq_ok h hr
  have hagree := (mismatch?_eq_none_iff hcompute).mp hcheck
  have hreach : ∀ b ∈ f.layout, (t.isReachable b = true ↔ Reaches f.Edge r b) := fun b hb => by
    rw [(hagree b hb).2, hu.isReachable_iff]
  refine ⟨r, hr, fun b hb => ⟨fun a => dominates_of_climb (hreach b hb) (fun hra => ?_)
    fun hab hrb => ?_, hreach b hb⟩⟩
  · exact (hreach a (Search.mem_layout_of_reaches h (List.mem_of_head? hr) hra)).mpr hra
  · obtain ⟨v, hv, hiff⟩ := hu.climb_dominates h hr hab hrb
    rw [← hu.climb_congr h hr (fun b hb => (hagree b hb).1) hb] at hv
    exact ⟨v, climb_of_climb hv, hiff⟩

/-- A tree that is larger than the arena of `tangled` and says of two blocks that do not exist that
they are above each other. -/
def strayTree : DominatorTree where
  entry := some ⟨0⟩
  parents := [some ⟨0⟩, some ⟨0⟩, some ⟨0⟩, none, some ⟨5⟩, some ⟨4⟩]

/-- A climb from one of the blocks that do not exist never ends, and yet nothing is wrong with what
the tree says of the body. -/
theorem checked_answers_stray :
    tangled.validate = .ok () ∧ tangled.layout ≠ [] ∧ strayTree.mismatch? tangled = .ok none ∧
    compute tangled ≠ .ok strayTree ∧ strayTree.dominates ⟨0⟩ ⟨4⟩ = .error .diverges ∧
    ∀ b ∈ tangled.layout,
      (∀ a, ∃ answer, strayTree.dominates a b = .ok answer ∧
        (answer = true ↔ Dominates tangled.Edge ⟨0⟩ a b)) ∧
      (strayTree.isReachable b = true ↔ Reaches tangled.Edge ⟨0⟩ b) := by
  have hvalid : tangled.validate = .ok () := by decide +kernel
  have hbody : tangled.layout ≠ [] := by decide
  have hcheck : strayTree.mismatch? tangled = .ok none := by decide +kernel
  obtain ⟨r, hr, hanswers⟩ := checked_answers tangled strayTree hvalid hbody hcheck
  obtain rfl : r = ⟨0⟩ := (Option.some.inj hr).symm
  exact ⟨hvalid, hbody, hcheck, by decide +kernel, by decide +kernel, hanswers⟩

end DominatorTree

end Lockstep
