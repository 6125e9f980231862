import Mathlib.Tactic.ByContra
import Mathlib.Tactic.Push

/-!
# Walks and dominance

Control flow is a graph with a root, and this module is about such graphs alone. A walk is
carried with the list of the vertices it visits, both ends included, so that going through a
vertex, or around it, is membership in that list. A vertex dominates another when every walk
from the root to the other goes through it.

## Main results

* `Dominates.trans` and `Dominates.antisymm`: dominance is an order on the vertices that the
  root reaches.
* `Dominates.total`: two dominators of a vertex that can be reached dominate one another one
  way round, so the dominators of a vertex form a chain.
* `ImmediatelyDominates.unique`: a vertex has at most one immediate dominator.
-/

namespace Lockstep

variable {α : Type} {E : α → α → Prop} {r a b c d x : α} {xs ys : List α}

/-- A walk from one vertex to another along the edges `E`, with the vertices it visits. -/
inductive Walk (E : α → α → Prop) : α → α → List α → Prop
  | here (a : α) : Walk E a a [a]
  | step {a b c : α} {xs : List α} : E a b → Walk E b c xs → Walk E a c (a :: xs)

namespace Walk

/-- A walk visits the vertex that it starts from. -/
theorem start_mem (h : Walk E a b xs) : a ∈ xs := by
  cases h with
  | here => exact List.mem_cons_self
  | step => exact List.mem_cons_self

/-- A walk lists its start first. -/
theorem exists_eq_cons (h : Walk E a b xs) : ∃ ys, xs = a :: ys := by
  cases h with
  | here => exact ⟨[], rfl⟩
  | step => exact ⟨_, rfl⟩

/-- A walk visits the vertex that it arrives at. -/
theorem finish_mem (h : Walk E a b xs) : b ∈ xs := by
  induction h with
  | here => exact List.mem_cons_self
  | step _ _ ih => exact List.mem_cons_of_mem _ ih

/-- An edge at the end makes a walk longer. -/
theorem snoc (h : Walk E a b xs) (hbc : E b c) : Walk E a c (xs ++ [c]) := by
  induction h with
  | here => exact step hbc (here c)
  | step hab _ ih => exact step hab (ih hbc)

/-- Two walks that meet make one, which visits nothing else. -/
theorem append (h : Walk E a b xs) (h' : Walk E b c ys) :
    ∃ zs, Walk E a c zs ∧ ∀ z ∈ zs, z ∈ xs ∨ z ∈ ys := by
  induction h with
  | here => exact ⟨ys, h', fun z hz => .inr hz⟩
  | @step a _ _ xs hab _ ih =>
      obtain ⟨zs, hzs, hsub⟩ := ih h'
      refine ⟨a :: zs, step hab hzs, fun z hz => ?_⟩
      rcases List.mem_cons.mp hz with rfl | hz
      · exact .inl List.mem_cons_self
      · exact (hsub z hz).imp (List.mem_cons_of_mem _) id

/-- The last edge of a walk that is not over at once. -/
theorem last_edge (h : Walk E a b xs) :
    (b = a ∧ xs = [a]) ∨ ∃ c ys, Walk E a c ys ∧ E c b ∧ xs = ys ++ [b] := by
  induction h with
  | here => exact .inl ⟨rfl, rfl⟩
  | @step a b' _ xs hab _ ih =>
      refine .inr ?_
      rcases ih with ⟨rfl, rfl⟩ | ⟨c, ys, hys, hcb, rfl⟩
      · exact ⟨a, [a], here a, hab, rfl⟩
      · exact ⟨c, a :: ys, step hab hys, hcb, rfl⟩

/-- A walk lists its end last. -/
theorem exists_eq_append (h : Walk E a b xs) : ∃ ys, xs = ys ++ [b] := by
  rcases h.last_edge with ⟨rfl, rfl⟩ | ⟨-, ys, -, -, rfl⟩
  · exact ⟨[], rfl⟩
  · exact ⟨ys, rfl⟩

/-- Induction along a walk from its start, one edge at the end at a time. -/
theorem snoc_induction {P : α → List α → Prop} (h : Walk E a b xs) (hhere : P a [a])
    (hsnoc : ∀ {b c xs}, Walk E a b xs → E b c → P b xs → P c (xs ++ [c])) : P b xs := by
  have key : ∀ n, ∀ {b xs}, xs.length ≤ n → Walk E a b xs → P b xs := by
    intro n
    induction n with
    | zero =>
        intro b xs hn h
        have hpos := List.length_pos_of_mem h.start_mem
        omega
    | succ n ih =>
        intro b xs hn h
        rcases h.last_edge with ⟨rfl, rfl⟩ | ⟨c, ys, hys, hcb, rfl⟩
        · exact hhere
        · refine hsnoc hys hcb (ih ?_ hys)
          simp only [List.length_append, List.length_cons, List.length_nil] at hn
          omega
  exact key xs.length (Nat.le_refl _) h

/-- The part of a walk up to a vertex on it; it is shorter unless that is where the walk
arrives. -/
theorem upTo (h : Walk E a b xs) (hx : x ∈ xs) :
    ∃ ys, Walk E a x ys ∧ (∀ y ∈ ys, y ∈ xs) ∧ (x ≠ b → ys.length < xs.length) := by
  induction h with
  | here a =>
      obtain rfl : x = a := by simpa using hx
      exact ⟨[x], here x, fun y hy => hy, fun h => absurd rfl h⟩
  | @step a _ _ xs hab htail ih =>
      rcases List.mem_cons.mp hx with rfl | hx
      · refine ⟨[x], here x, fun y hy => ?_, fun _ => ?_⟩
        · rw [List.mem_singleton.mp hy]
          exact List.mem_cons_self
        · have hpos := List.length_pos_of_mem htail.start_mem
          simp only [List.length_cons, List.length_nil]
          omega
      · obtain ⟨ys, hys, hsub, hlen⟩ := ih hx
        refine ⟨a :: ys, step hab hys, fun y hy => ?_, fun hne => ?_⟩
        · rcases List.mem_cons.mp hy with rfl | hy
          · exact List.mem_cons_self
          · exact List.mem_cons_of_mem _ (hsub y hy)
        · have := hlen hne
          simp only [List.length_cons]
          omega

/-- The part of a walk from the last visit to a vertex on: it does not come back there. -/
theorem fromLast (h : Walk E a b xs) (hx : x ∈ xs) :
    ∃ ys, Walk E x b (x :: ys) ∧ x ∉ ys ∧ ∀ y ∈ ys, y ∈ xs := by
  induction h with
  | here a =>
      obtain rfl : x = a := by simpa using hx
      exact ⟨[], here x, List.not_mem_nil, fun y hy => absurd hy List.not_mem_nil⟩
  | @step a _ _ xs hab htail ih =>
      by_cases hmem : x ∈ xs
      · obtain ⟨ys, hys, hnot, hsub⟩ := ih hmem
        exact ⟨ys, hys, hnot, fun y hy => List.mem_cons_of_mem _ (hsub y hy)⟩
      · obtain rfl : x = a := (List.mem_cons.mp hx).resolve_right hmem
        exact ⟨xs, step hab htail, hmem, fun y hy => List.mem_cons_of_mem _ hy⟩

/-- The part of a walk before the first vertex of some kind, and the edge that leads to it. -/
theorem toFirst {P : α → Prop} (h : Walk E a b xs) (ha : ¬P a) (hP : ∃ x ∈ xs, P x) :
    ∃ y x ys zs, Walk E a y ys ∧ E y x ∧ P x ∧ (∀ z ∈ ys, ¬P z) ∧ xs = ys ++ x :: zs := by
  induction h with
  | here a =>
      obtain ⟨x, hx, hPx⟩ := hP
      exact absurd (List.mem_singleton.mp hx ▸ hPx) ha
  | @step a c _ xs hac htail ih =>
      by_cases hc : P c
      · obtain ⟨zs, rfl⟩ : ∃ zs, xs = c :: zs := by
          cases htail with
          | here => exact ⟨[], rfl⟩
          | step => exact ⟨_, rfl⟩
        exact ⟨a, c, [a], zs, here a, hac, hc, by simpa using ha, rfl⟩
      · obtain ⟨x, hx, hPx⟩ := hP
        have hx : x ∈ xs := (List.mem_cons.mp hx).resolve_left fun heq => ha (heq ▸ hPx)
        obtain ⟨y, z, ys, zs, hys, hyz, hPz, hnot, rfl⟩ := ih hc ⟨x, hx, hPx⟩
        exact ⟨y, z, a :: ys, zs, step hac hys, hyz, hPz,
          List.forall_mem_cons.mpr ⟨ha, hnot⟩, rfl⟩

/-- The first edge of a walk that starts at a vertex and does not come back there. -/
theorem first_edge (h : Walk E a b (a :: ys)) (hne : a ≠ b) :
    ∃ c, E a c ∧ Walk E c b ys := by
  cases h with
  | here => exact absurd rfl hne
  | step hac htail => exact ⟨_, hac, htail⟩

/-- A walk stays in a set that the edges do not leave. -/
theorem forall_mem {S : α → Prop} (h : Walk E a b xs) (ha : S a)
    (hclosed : ∀ x y, S x → E x y → S y) : ∀ x ∈ xs, S x := by
  induction h with
  | here => simpa using ha
  | step hab _ ih =>
      intro x hx
      rcases List.mem_cons.mp hx with rfl | hx
      · exact ha
      · exact ih (hclosed _ _ ha hab) x hx

end Walk

/-! ### Reachability -/

/-- There is a walk from the first vertex to the second. -/
def Reaches (E : α → α → Prop) (a b : α) : Prop :=
  ∃ xs, Walk E a b xs

/-- Every vertex reaches itself. -/
theorem Reaches.refl (a : α) : Reaches E a a :=
  ⟨[a], Walk.here a⟩

/-- What can be reached leads to more that can. -/
theorem Reaches.snoc (h : Reaches E a b) (hbc : E b c) : Reaches E a c := by
  obtain ⟨xs, hxs⟩ := h
  exact ⟨_, hxs.snoc hbc⟩

/-- Every vertex on a walk from a reachable vertex is reachable. -/
theorem Reaches.of_mem (h : Walk E a b xs) (hx : x ∈ xs) : Reaches E a x := by
  obtain ⟨ys, hys, -, -⟩ := h.upTo hx
  exact ⟨ys, hys⟩

/-! ### Dominance -/

/-- Every walk from the root `r` to `b` goes through `d`. -/
def Dominates (E : α → α → Prop) (r d b : α) : Prop :=
  ∀ xs, Walk E r b xs → d ∈ xs

namespace Dominates

/-- Every vertex dominates itself. -/
theorem refl (b : α) : Dominates E r b b :=
  fun _ h => h.finish_mem

/-- The root dominates everything. -/
theorem root (b : α) : Dominates E r r b :=
  fun _ h => h.start_mem

/-- Only the root dominates the root. -/
theorem eq_root (h : Dominates E r d r) : d = r := by
  simpa using h [r] (Walk.here r)

/-- A dominator of a vertex that can be reached can be reached itself. -/
theorem reaches (h : Dominates E r d b) (hb : Reaches E r b) : Reaches E r d := by
  obtain ⟨xs, hxs⟩ := hb
  exact Reaches.of_mem hxs (h xs hxs)

/-- What does not dominate a vertex is avoided by some walk to it. -/
theorem exists_avoiding (h : ¬Dominates E r d b) : ∃ xs, Walk E r b xs ∧ d ∉ xs := by
  unfold Dominates at h
  push Not at h
  exact h

/-- Dominance goes from one vertex to the next. -/
theorem trans (h : Dominates E r d b) (h' : Dominates E r b c) : Dominates E r d c := by
  intro xs hxs
  obtain ⟨ys, hys, hsub, -⟩ := hxs.upTo (h' xs hxs)
  exact hsub d (h ys hys)

/-- A dominator of a vertex dominates its predecessors, unless it is the vertex itself. -/
theorem pred (h : Dominates E r d b) (hne : d ≠ b) (hab : E a b) : Dominates E r d a := by
  intro xs hxs
  rcases List.mem_append.mp (h _ (hxs.snoc hab)) with hd | hd
  · exact hd
  · exact absurd (List.mem_singleton.mp hd) hne

/-- Two vertices that dominate each other are the same. Otherwise each walk to one would hold a
shorter walk to it, by way of the other. -/
theorem antisymm (h : Dominates E r a b) (h' : Dominates E r b a) (ha : Reaches E r a) :
    a = b := by
  by_contra hne
  have key : ∀ n, ∀ xs, xs.length ≤ n → ¬Walk E r a xs := by
    intro n
    induction n with
    | zero =>
        intro xs hn hxs
        have hpos := List.length_pos_of_mem hxs.start_mem
        omega
    | succ n ih =>
        intro xs hn hxs
        obtain ⟨ys, hys, -, hlen⟩ := hxs.upTo (h' xs hxs)
        obtain ⟨zs, hzs, -, hlen'⟩ := hys.upTo (h ys hys)
        have := hlen (Ne.symm hne)
        have := hlen' hne
        exact ih zs (by omega) hzs
  obtain ⟨xs, hxs⟩ := ha
  exact key xs.length xs (Nat.le_refl _) hxs

/-- The dominators of a vertex that can be reached form a chain. Behind the last visit to the one of
two dominators, a walk either avoids the other one, or avoids the first behind the last visit to the
other. -/
theorem total (ha : Dominates E r a c) (hb : Dominates E r b c) (hc : Reaches E r c) :
    Dominates E r a b ∨ Dominates E r b a := by
  by_contra hneither
  push Not at hneither
  obtain ⟨pb, hpb, hapb⟩ := exists_avoiding hneither.1
  obtain ⟨pa, hpa, hbpa⟩ := exists_avoiding hneither.2
  obtain ⟨xs, hxs⟩ := hc
  obtain ⟨ys, hys, haya, -⟩ := hxs.fromLast (ha xs hxs)
  by_cases hbys : b ∈ a :: ys
  · have hne : b ≠ a := fun h => hapb (h ▸ hpb.finish_mem)
    have hbys : b ∈ ys := (List.mem_cons.mp hbys).resolve_left hne
    cases hys with
    | here => exact absurd hbys List.not_mem_nil
    | step _ htail =>
        obtain ⟨zs, hzs, -, hzy⟩ := htail.fromLast hbys
        obtain ⟨ws, hws, hsub⟩ := hpb.append hzs
        rcases hsub a (ha ws hws) with h | h
        · exact hapb h
        · rcases List.mem_cons.mp h with h | h
          · exact hne h.symm
          · exact haya (hzy a h)
  · obtain ⟨zs, hzs, hsub⟩ := hpa.append hys
    rcases hsub b (hb zs hzs) with h | h
    · exact hbpa h
    · exact hbys h

end Dominates

/-! ### Immediate dominators -/

/-- The nearest strict dominator of a vertex that can be reached: every other one dominates
it. -/
structure ImmediatelyDominates (E : α → α → Prop) (r p b : α) : Prop where
  reaches : Reaches E r b
  ne : p ≠ b
  dominates : Dominates E r p b
  nearest : ∀ d, d ≠ b → Dominates E r d b → Dominates E r d p

namespace ImmediatelyDominates

variable {p q : α}

/-- A vertex has one immediate dominator at most. -/
theorem unique (h : ImmediatelyDominates E r p b) (h' : ImmediatelyDominates E r q b) :
    p = q :=
  (h'.nearest p h.ne h.dominates).antisymm (h.nearest q h'.ne h'.dominates)
    (h.dominates.reaches h.reaches)

end ImmediatelyDominates

end Lockstep
