import Lockstep.Proofs.Flow.Dominance
import Mathlib.Data.List.Chain

/-!
# Edges that lead back

In reverse postorder most edges lead forward. One that leads back, from a block to itself or to one
before it, closes a cycle: the target leads to the source without leaving the blocks that stand at
or behind the target.

The search makes it so. When a block is finished, the blocks at or before it in the order are those
on the path, and the path is a walk. A block that is found later is put between the path and the
finished blocks, so what stood at or behind some block still does.

## Main results

* `Search.Backed.step`: every edge that leads back from a finished block closes a cycle, and a step
  keeps this.
* `Search.run_induction`: what every step keeps, a run keeps.
* `Function.reversePostorder_orders`: what the reverse postorder of a valid function is.
-/

namespace Lockstep

section

variable {α : Type} {E : α → α → Prop} {u v x : α} {xs ys : List α}

/-- A list in which each vertex leads to the next one is a walk. -/
theorem Walk.of_isChain (h : (u :: xs ++ [v]).IsChain E) : Walk E u v (u :: xs ++ [v]) := by
  induction xs generalizing u with
  | nil => exact .step (List.isChain_pair.mp h) (.here v)
  | cons x xs ih =>
      obtain ⟨hux, hchain⟩ := List.isChain_cons_cons.mp h
      exact .step hux (ih hchain)

/-- Of two vertices of a list one stands before the other, or they stand at one place. -/
theorem append_cons_cases {front back : List α} (h : xs ++ x :: ys = front ++ v :: back) :
    (∃ mid, front = xs ++ x :: mid ∧ ys = mid ++ v :: back) ∨
      (front = xs ∧ v = x ∧ back = ys) ∨ ∃ mid, xs = front ++ v :: mid ∧ back = mid ++ x :: ys := by
  rcases List.append_eq_append_iff.mp h with ⟨mid, hfront, htail⟩ | ⟨mid, hxs, htail⟩
  · cases mid with
    | nil =>
        obtain ⟨hxv, hback⟩ := List.cons.inj htail
        exact .inr (.inl ⟨hfront.trans (List.append_nil xs), hxv.symm, hback.symm⟩)
    | cons y mid =>
        obtain ⟨rfl, hys⟩ := List.cons.inj htail
        exact .inl ⟨mid, hfront, hys⟩
  · cases mid with
    | nil =>
        obtain ⟨hvx, hback⟩ := List.cons.inj htail
        exact .inr (.inl ⟨(hxs.trans (List.append_nil front)).symm, hvx, hback⟩)
    | cons y mid =>
        obtain ⟨rfl, hback⟩ := List.cons.inj htail
        exact .inr (.inr ⟨mid, hxs, hback⟩)

/-- If `u` stands at or behind `v` in the order, there is a walk from `v` to `u` along which nothing
stands before `v`. -/
def Returns (E : α → α → Prop) (order : List α) (u v : α) : Prop :=
  ∀ front back, order = front ++ v :: back → u ∈ v :: back →
    ∃ path, Walk E v u path ∧ ∀ x ∈ path, x ∈ v :: back

/-- Another vertex in the order does no harm. -/
theorem Returns.insert (h : Returns E (xs ++ ys) u v) (hu : u ≠ x) (hv : v ≠ x) :
    Returns E (xs ++ x :: ys) u v := by
  intro front back horder hmem
  rcases append_cons_cases horder with ⟨mid, rfl, rfl⟩ | ⟨-, hvx, -⟩ | ⟨mid, rfl, rfl⟩
  · exact h (xs ++ mid) back (List.append_assoc _ _ _).symm hmem
  · exact absurd hvx hv
  · have hmem' : u ∈ v :: (mid ++ ys) := by
      simp only [List.mem_cons, List.mem_append] at hmem ⊢
      tauto
    obtain ⟨path, hpath, hbehind⟩ := h front (mid ++ ys) (List.append_assoc _ _ _) hmem'
    refine ⟨path, hpath, fun z hz => ?_⟩
    have hz := hbehind z hz
    simp only [List.mem_cons, List.mem_append] at hz ⊢
    tauto

end

namespace Search

variable {f : Function} {r b : BlockId} {s s' : Search}

/-- What holds at every moment of the edges that lead back. -/
structure Backed (f : Function) (s : Search) : Prop where
  /-- From each block on the path an edge leads to the next one. -/
  chain : (s.path.map Prod.fst).reverse.IsChain f.Edge
  returns : ∀ u ∈ s.finished, ∀ v ∈ f.next u, Returns f.Edge s.order u v

/-- A search sees no block twice. -/
theorem Invariant.nodup_order (hs : Invariant f r s) : s.order.Nodup :=
  hs.perm.nodup hs.nodup

namespace Backed

/-- The path, written from the entry to its innermost block. -/
theorem isChain_innermost {rest finished visited : List BlockId}
    {path : List (BlockId × List BlockId)}
    (hb : Backed f ⟨(b, rest) :: path, visited, finished⟩) :
    ((path.map Prod.fst).reverse ++ [b]).IsChain f.Edge := by
  simpa using hb.chain

/-- The innermost block of the path stands behind the blocks on the path only, and each of them
leads to it along the path. -/
theorem returns_innermost {rest finished visited : List BlockId}
    {path : List (BlockId × List BlockId)} {v : BlockId}
    (hs : Invariant f r ⟨(b, rest) :: path, visited, finished⟩)
    (hb : Backed f ⟨(b, rest) :: path, visited, finished⟩) :
    Returns f.Edge (order ⟨(b, rest) :: path, visited, finished⟩) b v := by
  have horder : order ⟨(b, rest) :: path, visited, finished⟩ =
      (path.map Prod.fst).reverse ++ b :: finished := by
    simp [order]
  have hchain := hb.isChain_innermost
  have hnodup := hs.nodup_order
  rw [horder] at hnodup ⊢
  intro front back hsplit hmem
  rcases append_cons_cases hsplit with ⟨mid, rfl, rfl⟩ | ⟨rfl, rfl, rfl⟩ | ⟨mid, hpath, rfl⟩
  · have honce := (List.nodup_cons.mp (List.nodup_append.mp hnodup).2.1).1
    exact absurd (List.mem_append_right mid hmem) honce
  · exact ⟨[v], .here v, fun x hx => List.mem_singleton.mp hx ▸ List.mem_cons_self⟩
  · rw [hpath, List.append_assoc] at hchain
    refine ⟨_, .of_isChain hchain.right_of_append, fun x hx => ?_⟩
    simp only [List.cons_append, List.mem_cons, List.mem_append, List.not_mem_nil, or_false] at hx ⊢
    tauto

/-- Entering a block that is new to the search. -/
theorem enter_new {next : BlockId} {rest succs finished visited : List BlockId}
    {path : List (BlockId × List BlockId)}
    (hs : Invariant f r ⟨(b, next :: rest) :: path, visited, finished⟩)
    (hb : Backed f ⟨(b, next :: rest) :: path, visited, finished⟩) (hnew : next ∉ visited)
    (hedge : f.Edge b next) :
    Backed f ⟨(next, succs) :: (b, rest) :: path, next :: visited, finished⟩ := by
  have hnew : next ∉ order ⟨(b, next :: rest) :: path, visited, finished⟩ := fun hmem =>
    hnew (hs.mem_visited.mpr hmem)
  constructor
  · have hnext : ((path.map Prod.fst).reverse ++ [b, next]).IsChain f.Edge :=
      List.isChain_append_cons_cons.mpr
        ⟨hb.isChain_innermost, hedge, List.isChain_singleton next⟩
    simpa using hnext
  · intro u hu v hv
    have hu' : u ∈ order ⟨(b, next :: rest) :: path, visited, finished⟩ :=
      List.mem_append_right _ hu
    have hv' := hs.finished u hu v hv
    have hreturns := (hb.returns u hu v hv).insert (ne_of_mem_of_not_mem hu' hnew)
      (ne_of_mem_of_not_mem hv' hnew)
    simpa [order] using hreturns

/-- **One step** keeps the edges that lead back in order. -/
theorem step (hs : Invariant f r s) (h : f.WellFormed) (hr : r ∈ f.layout) (hb : Backed f s)
    (hstep : Search.step f s = .ok s') : Backed f s' := by
  obtain ⟨path, visited, finished⟩ := s
  match path with
  | [] =>
      obtain rfl := Except.ok.inj hstep
      exact hb
  | (b, []) :: path =>
      obtain rfl := Except.ok.inj hstep
      have horder : order ⟨path, visited, b :: finished⟩ =
          order ⟨(b, []) :: path, visited, finished⟩ := by
        simp [order]
      refine ⟨hb.isChain_innermost.left_of_append, fun u hu v hv => ?_⟩
      rw [horder]
      rcases List.mem_cons.mp hu with rfl | hu
      · exact returns_innermost hs hb
      · exact hb.returns u hu v hv
  | (b, next :: rest) :: path =>
      by_cases hvisited : next ∈ visited
      · obtain rfl : ⟨(b, rest) :: path, visited, finished⟩ = s' := by
          simpa [Search.step, hvisited, pure, Except.pure] using hstep
        exact ⟨hb.chain, hb.returns⟩
      · simp only [Search.step, List.contains_eq_mem, hvisited, decide_false] at hstep
        obtain ⟨succs, -, hsuccs⟩ := exists_of_bind_eq_ok hstep
        obtain rfl := Except.ok.inj hsuccs
        obtain ⟨done, hdone, -⟩ := hs.path b (next :: rest) List.mem_cons_self
        have hmem : b ∈ order ⟨(b, next :: rest) :: path, visited, finished⟩ := by simp [order]
        exact enter_new hs hb hvisited ⟨hs.mem_layout h hr hmem, by simp [hdone]⟩

end Backed

/-- **A run.** What every step keeps holds at the end, and nothing is left on the path. -/
theorem run_induction {P : Search → Prop} {budget : Nat}
    (hstep : ∀ s s', P s → s.path ≠ [] → step f s = .ok s' → P s') (hs : P s)
    (hrun : run f budget s = .ok s') : P s' ∧ s'.path = [] := by
  induction budget generalizing s with
  | zero =>
      rw [run] at hrun
      split at hrun
      · rename_i hpath
        obtain rfl := Except.ok.inj hrun
        exact ⟨hs, List.isEmpty_iff.mp hpath⟩
      · cases hrun
  | succ budget ih =>
      rw [run] at hrun
      split at hrun
      · rename_i hpath
        obtain rfl := Except.ok.inj hrun
        exact ⟨hs, List.isEmpty_iff.mp hpath⟩
      · rename_i hpath
        obtain ⟨t, ht, hrun⟩ := exists_of_bind_eq_ok hrun
        exact ih (hstep s t hs (fun hnil => hpath (List.isEmpty_iff.mpr hnil)) ht) hrun

end Search

namespace Function

variable {f : Function} {r u v : BlockId}

/-- In the order that the search finds, every edge that leads back closes a cycle. -/
theorem WellFormed.returns_of_reversePostorder {order : List BlockId} (h : f.WellFormed)
    (hr : r ∈ f.layout) (horder : f.reversePostorder r = .ok order) (hedge : f.Edge u v)
    (hu : u ∈ order) : Returns f.Edge order u v := by
  obtain ⟨s₀, hstart, hs₀, -⟩ := Search.Invariant.start h hr
  obtain ⟨s₁, hs₁, horder⟩ := exists_of_bind_eq_ok horder
  obtain rfl := Except.ok.inj (hstart.symm.trans hs₁)
  obtain ⟨s, hrun, hs⟩ := exists_of_bind_eq_ok horder
  obtain rfl := Except.ok.inj hs
  have hb₀ : Search.Backed f s₀ := by
    rw [Search.start, Search.enter_eq h hr] at hstart
    obtain rfl := Except.ok.inj hstart
    exact ⟨List.isChain_singleton r, fun u hu => absurd hu List.not_mem_nil⟩
  obtain ⟨⟨-, hb⟩, hpath⟩ := Search.run_induction
    (P := fun s => Search.Invariant f r s ∧ Search.Backed f s) (fun s s' hs hne hstep => by
      obtain ⟨t, ht, hinv, -⟩ := hs.1.step h hr hne
      obtain rfl := Except.ok.inj (hstep.symm.trans ht)
      exact ⟨hinv, hs.2.step hs.1 h hr hstep⟩) ⟨hs₀, hb₀⟩ hrun
  have hreturns := hb.returns u hu v hedge.2
  rwa [Search.order, hpath] at hreturns

/-- **Reverse postorder.** For a valid function with a body the search from the entry ends. It lists
the blocks that the entry reaches, each once, the entry first and every other block behind one of
its predecessors. If an edge leads from a block to itself or to one before it in the list, then the
target leads to the source by way of blocks that stand at or behind the target only. -/
theorem reversePostorder_orders (f : Function) (hvalid : f.validate = .ok ())
    (hbody : f.layout ≠ []) :
    ∃ r order, f.entry? = some r ∧ f.reversePostorder r = .ok order ∧
      order.head? = some r ∧ order.Nodup ∧ (∀ b, b ∈ order ↔ ∃ path, Walk f.Edge r b path) ∧
      (∀ front b back, order = front ++ b :: back → b ≠ r → ∃ q ∈ front, f.Edge q b) ∧
      ∀ u v front back, f.Edge u v → order = front ++ v :: back → u ∈ v :: back →
        ∃ path, Walk f.Edge v u path ∧ ∀ x ∈ path, x ∈ v :: back := by
  have h := validate_eq_ok_iff.mp hvalid
  obtain ⟨r, hr⟩ : ∃ r, f.entry? = some r :=
    Option.ne_none_iff_exists'.mp fun hnone => hbody (List.head?_eq_none_iff.mp hnone)
  have hrl : r ∈ f.layout := List.mem_of_head? hr
  obtain ⟨tail, horder, ho⟩ := h.reversePostorder_eq_ok hrl
  refine ⟨r, r :: tail, hr, horder, rfl, ho.nodup, ho.mem_iff, ?_, ?_⟩
  · intro front b back hsplit hbr
    cases front with
    | nil => exact absurd (List.cons.inj hsplit).1.symm hbr
    | cons x front =>
        obtain ⟨rfl, rfl⟩ := List.cons.inj hsplit
        obtain ⟨q, hq, hqb⟩ := ho.grounded.exists_pred
        exact ⟨q, List.mem_cons.mpr (hq.imp List.mem_singleton.mp id), hqb⟩
  · intro u v front back hedge hsplit hu
    have hmem : u ∈ r :: tail := hsplit ▸ List.mem_append_right front hu
    exact h.returns_of_reversePostorder hrl horder hedge hmem front back hsplit hu

/-- In `tangled` the block that leads back to the entry is reached from it, and of the two blocks of
the cycle the earlier one leads to the later one without passing the entry. -/
theorem reversePostorder_orders_tangled :
    DominatorTree.tangled.validate = .ok () ∧ DominatorTree.tangled.layout ≠ [] ∧
    DominatorTree.tangled.reversePostorder ⟨0⟩ = .ok [⟨0⟩, ⟨1⟩, ⟨2⟩] ∧
    (∃ path, Walk DominatorTree.tangled.Edge ⟨0⟩ ⟨1⟩ path) ∧
    (∃ path, Walk DominatorTree.tangled.Edge ⟨1⟩ ⟨2⟩ path ∧ ∀ x ∈ path, x ≠ ⟨0⟩) ∧
    ∃ path, Walk DominatorTree.tangled.Edge ⟨2⟩ ⟨2⟩ path ∧ ∀ x ∈ path, x = ⟨2⟩ := by
  have hvalid : DominatorTree.tangled.validate = .ok () := by decide +kernel
  have hbody : DominatorTree.tangled.layout ≠ [] := by decide
  have horder : DominatorTree.tangled.reversePostorder ⟨0⟩ = .ok [⟨0⟩, ⟨1⟩, ⟨2⟩] := by
    decide +kernel
  obtain ⟨r, order, hr, hresult, -, -, hreach, -, hback⟩ :=
    reversePostorder_orders DominatorTree.tangled hvalid hbody
  obtain rfl : r = ⟨0⟩ := (Option.some.inj hr).symm
  obtain rfl := Except.ok.inj (hresult.symm.trans horder)
  obtain ⟨path, hpath, hbehind⟩ := hback ⟨2⟩ ⟨1⟩ [⟨0⟩] [⟨2⟩]
    ⟨by decide, by decide⟩ rfl (by decide)
  obtain ⟨self, hself, hself'⟩ := hback ⟨2⟩ ⟨2⟩ [⟨0⟩, ⟨1⟩] []
    ⟨by decide, by decide⟩ rfl (by decide)
  refine ⟨hvalid, hbody, horder, (hreach ⟨1⟩).mp (by decide), ⟨path, hpath, fun x hx => ?_⟩,
    self, hself, fun x hx => List.mem_singleton.mp (hself' x hx)⟩
  rintro rfl
  exact absurd (hbehind _ hx) (by decide)

end Function

end Lockstep
