import Mathlib.Data.List.Perm.Subperm
import Lockstep.Flow.DominatorTree
import Lockstep.Proofs.Flow.Walk
import Lockstep.Proofs.Function.WellFormed

/-!
# The depth-first search finds every block

The search keeps its blocks in one order that only ever grows: the path from the entry inwards,
and behind it the finished blocks, the last one first. Finishing a block does not change this
order, and a new block is put right behind its predecessor on the path. When the path is empty,
the order is the result.

## Main results

* `Search.Invariant.step`: what a step keeps, and the weight that it lowers.
* `Function.WellFormed.reversePostorder_eq_ok`: on a well-formed function the search ends within
  its budget, and what it finds is a `Function.Order`.
-/

namespace Lockstep

/-- Every vertex of the list has an edge from one that stands before it, or that was `seen`
before. -/
def Grounded {α : Type} (E : α → α → Prop) : List α → List α → Prop
  | _, [] => True
  | seen, y :: ys => (∃ q ∈ seen, E q y) ∧ Grounded E (y :: seen) ys

namespace Grounded

variable {α : Type} {E : α → α → Prop} {seen seen' xs ys : List α} {x y : α}

/-- More may have been seen before. -/
theorem mono (h : Grounded E seen xs) (hsub : ∀ q ∈ seen, q ∈ seen') : Grounded E seen' xs := by
  induction xs generalizing seen seen' with
  | nil => trivial
  | cons y ys ih =>
      obtain ⟨⟨q, hq, hqy⟩, htail⟩ := h
      refine ⟨⟨q, hsub q hq, hqy⟩, ih htail fun z hz => ?_⟩
      rcases List.mem_cons.mp hz with rfl | hz
      · exact List.mem_cons_self
      · exact List.mem_cons_of_mem _ (hsub z hz)

/-- A vertex may be put behind one that leads to it. -/
theorem insert (h : Grounded E seen (xs ++ ys)) {q : α} (hq : q ∈ seen ∨ q ∈ xs)
    (hqx : E q x) : Grounded E seen (xs ++ x :: ys) := by
  induction xs generalizing seen with
  | nil =>
      have hq : q ∈ seen := hq.resolve_right List.not_mem_nil
      exact ⟨⟨q, hq, hqx⟩, h.mono fun z hz => List.mem_cons_of_mem _ hz⟩
  | cons y xs ih =>
      refine ⟨h.1, ih h.2 ?_⟩
      rcases hq with hq | hq
      · exact .inl (List.mem_cons_of_mem _ hq)
      · rcases List.mem_cons.mp hq with rfl | hq
        · exact .inl List.mem_cons_self
        · exact .inr hq

/-- The predecessor of a vertex of the list. -/
theorem exists_pred (h : Grounded E seen (xs ++ y :: ys)) :
    ∃ q, (q ∈ seen ∨ q ∈ xs) ∧ E q y := by
  induction xs generalizing seen with
  | nil =>
      obtain ⟨⟨q, hq, hqy⟩, -⟩ := h
      exact ⟨q, .inl hq, hqy⟩
  | cons x xs ih =>
      obtain ⟨q, hq, hqy⟩ := ih h.2
      refine ⟨q, ?_, hqy⟩
      rcases hq with hq | hq
      · rcases List.mem_cons.mp hq with rfl | hq
        · exact .inr List.mem_cons_self
        · exact .inl hq
      · exact .inr (List.mem_cons_of_mem _ hq)

end Grounded

/-- There are no more blocks than positions in the arena that holds them. -/
theorem length_le_of_index_lt {l : List BlockId} {n : Nat} (hnodup : l.Nodup)
    (hlt : ∀ a ∈ l, a.index < n) : l.length ≤ n := by
  have hmap : (l.map ArenaId.index).Nodup :=
    List.Pairwise.map _ (fun _ _ hne heq => hne (ArenaId.index_inj heq)) hnodup
  have hsub : l.map ArenaId.index ⊆ List.range n := by
    intro i hi
    obtain ⟨a, ha, rfl⟩ := List.mem_map.mp hi
    exact List.mem_range.mpr (hlt a ha)
  have hlen := (List.subperm_of_subset hmap hsub).length_le
  rwa [List.length_map, List.length_range] at hlen

namespace Search

variable {f : Function} {r : BlockId} {s : Search}

/-- The blocks seen so far: the path from the entry inwards, then the finished blocks. -/
def order (s : Search) : List BlockId :=
  (s.path.map Prod.fst).reverse ++ s.finished

/-- What holds of a search from `r` at every moment. -/
structure Invariant (f : Function) (r : BlockId) (s : Search) : Prop where
  /-- The entry comes first, and every other block behind one that leads to it. -/
  grounded : ∃ tail, s.order = r :: tail ∧ Grounded f.Edge [r] tail
  nodup : s.visited.Nodup
  perm : s.visited.Perm s.order
  reaches : ∀ b ∈ s.order, Reaches f.Edge r b
  /-- The successors that a block on the path is done with were seen. -/
  path : ∀ b rest, (b, rest) ∈ s.path → ∃ done, f.next b = done ++ rest ∧ ∀ c ∈ done, c ∈ s.order
  finished : ∀ b ∈ s.finished, ∀ c ∈ f.next b, c ∈ s.order

/-- The steps that the search can still make: one for each successor to be looked at, one to
finish a block, and three for a block that was not seen. -/
def weight (f : Function) (s : Search) : Nat :=
  (s.path.map fun entry => entry.2.length + 1).sum + 3 * (f.capacity - s.visited.length)

/-- A search can go on from every block of the body. -/
theorem enter_eq (h : f.WellFormed) {b : BlockId} (hb : b ∈ f.layout) :
    enter f s b = .ok { s with path := (b, f.next b) :: s.path, visited := b :: s.visited } := by
  rw [enter, h.successors_eq hb]
  rfl

/-- Everything that can be reached from a block of the body is in the body. -/
theorem mem_layout_of_reaches (h : f.WellFormed) (hr : r ∈ f.layout) {b : BlockId}
    (hb : Reaches f.Edge r b) : b ∈ f.layout := by
  obtain ⟨xs, hxs⟩ := hb
  exact hxs.forall_mem (S := (· ∈ f.layout)) hr (fun _ _ _ he => h.mem_of_edge he) b hxs.finish_mem

namespace Invariant

/-- The blocks that were visited are those in the order. -/
theorem mem_visited (hs : Invariant f r s) {b : BlockId} : b ∈ s.visited ↔ b ∈ s.order :=
  hs.perm.mem_iff

/-- A search from a block of the body stays in the body. -/
theorem mem_layout (hs : Invariant f r s) (h : f.WellFormed) (hr : r ∈ f.layout) {b : BlockId}
    (hb : b ∈ s.order) : b ∈ f.layout :=
  mem_layout_of_reaches h hr (hs.reaches b hb)

/-- No more blocks are visited than there are in the arena. -/
theorem length_visited_le (hs : Invariant f r s) (h : f.WellFormed) (hr : r ∈ f.layout) :
    s.visited.length ≤ f.capacity :=
  length_le_of_index_lt hs.nodup fun a ha =>
    h.index_lt a (hs.mem_layout h hr (hs.mem_visited.mp ha))

/-- A search that has seen the same blocks in the same order need only answer for the successors
that it is done with. -/
theorem of_order_eq {s' : Search} (hs : Invariant f r s) (horder : s'.order = s.order)
    (hvisited : s'.visited = s.visited)
    (hpath : ∀ b rest, (b, rest) ∈ s'.path →
      ∃ done, f.next b = done ++ rest ∧ ∀ c ∈ done, c ∈ s.order)
    (hfinished : ∀ b ∈ s'.finished, ∀ c ∈ f.next b, c ∈ s.order) : Invariant f r s' where
  grounded := horder ▸ hs.grounded
  nodup := hvisited ▸ hs.nodup
  perm := horder ▸ hvisited ▸ hs.perm
  reaches := horder ▸ hs.reaches
  path := horder ▸ hpath
  finished := horder ▸ hfinished

section Cases

variable {b next : BlockId} {rest done finished visited : List BlockId}
  {path : List (BlockId × List BlockId)}

/-- A block without further successors is finished. -/
theorem finish (hs : Invariant f r ⟨(b, []) :: path, visited, finished⟩) :
    Invariant f r ⟨path, visited, b :: finished⟩ := by
  obtain ⟨done, hdone, hseen⟩ := hs.path b [] List.mem_cons_self
  rw [List.append_nil] at hdone
  refine hs.of_order_eq (by simp [order]) rfl
    (fun c rest hc => hs.path c rest (List.mem_cons_of_mem _ hc)) fun c hc => ?_
  rcases List.mem_cons.mp hc with rfl | hc
  · exact hdone ▸ hseen
  · exact hs.finished c hc

/-- A successor that was seen before is passed over. -/
theorem pass (hs : Invariant f r ⟨(b, next :: rest) :: path, visited, finished⟩)
    (hold : next ∈ visited) : Invariant f r ⟨(b, rest) :: path, visited, finished⟩ := by
  obtain ⟨done, hdone, hseen⟩ := hs.path b (next :: rest) List.mem_cons_self
  refine hs.of_order_eq (by simp [order]) rfl (fun c rest' hc => ?_) hs.finished
  rcases List.mem_cons.mp hc with heq | hc
  · obtain ⟨rfl, rfl⟩ := Prod.mk.inj heq
    refine ⟨done ++ [next], by rw [hdone, List.append_assoc]; rfl, fun d hd => ?_⟩
    rcases List.mem_append.mp hd with hd | hd
    · exact hseen d hd
    · rw [List.mem_singleton.mp hd]
      exact hs.mem_visited.mp hold
  · exact hs.path c rest' (List.mem_cons_of_mem _ hc)

/-- A block that is new to the search goes right behind the one that leads to it. -/
theorem enter_new
    (hs : Invariant f r ⟨(b, next :: rest) :: path, visited, finished⟩) (hnew : next ∉ visited)
    (hedge : f.Edge b next) (hdone : f.next b = done ++ next :: rest)
    (hseen : ∀ c ∈ done, c ∈ order ⟨(b, next :: rest) :: path, visited, finished⟩) :
    Invariant f r ⟨(next, f.next next) :: (b, rest) :: path, next :: visited, finished⟩ := by
  have horder : order ⟨(b, next :: rest) :: path, visited, finished⟩ =
      ((path.map Prod.fst).reverse ++ [b]) ++ finished := by
    simp [order]
  have horder' : order ⟨(next, f.next next) :: (b, rest) :: path, next :: visited, finished⟩ =
      ((path.map Prod.fst).reverse ++ [b]) ++ next :: finished := by
    simp [order]
  have hmem : ∀ c, c ∈ order ⟨(next, f.next next) :: (b, rest) :: path, next :: visited, finished⟩ ↔
      c = next ∨ c ∈ order ⟨(b, next :: rest) :: path, visited, finished⟩ := by
    intro c
    rw [horder, horder', List.mem_append, List.mem_cons, List.mem_append (t := finished)]
    exact or_left_comm
  constructor
  · obtain ⟨tail, htail, hgrounded⟩ := hs.grounded
    rw [horder] at htail
    rw [horder']
    obtain ⟨front, hfront⟩ : ∃ front, (path.map Prod.fst).reverse ++ [b] = r :: front := by
      cases hp : (path.map Prod.fst).reverse ++ [b] with
      | nil => simp at hp
      | cons x front =>
          rw [hp, List.cons_append, List.cons.injEq] at htail
          exact ⟨front, by rw [htail.1]⟩
    rw [hfront, List.cons_append, List.cons.injEq] at htail
    obtain ⟨-, rfl⟩ := htail
    rw [hfront]
    refine ⟨front ++ next :: finished, rfl, hgrounded.insert (q := b) ?_ hedge⟩
    have hb : b ∈ r :: front := by simp [← hfront]
    exact (List.mem_cons.mp hb).imp List.mem_singleton.mpr id
  · exact List.nodup_cons.mpr ⟨hnew, hs.nodup⟩
  · rw [horder']
    refine (List.Perm.cons next hs.perm).trans ?_
    rw [horder]
    exact List.perm_middle.symm
  · intro c hc
    rcases (hmem c).mp hc with rfl | hc
    · exact (hs.reaches b (by simp [order])).snoc hedge
    · exact hs.reaches c hc
  · intro c rest' hc
    rcases List.mem_cons.mp hc with heq | hc
    · obtain ⟨rfl, rfl⟩ := Prod.mk.inj heq
      exact ⟨[], rfl, fun d hd => absurd hd List.not_mem_nil⟩
    · rcases List.mem_cons.mp hc with heq | hc
      · obtain ⟨rfl, rfl⟩ := Prod.mk.inj heq
        refine ⟨done ++ [next], by rw [hdone, List.append_assoc]; rfl, fun d hd => (hmem d).mpr ?_⟩
        rcases List.mem_append.mp hd with hd | hd
        · exact .inr (hseen d hd)
        · exact .inl (List.mem_singleton.mp hd)
      · obtain ⟨done', hdone', hseen'⟩ := hs.path c rest' (List.mem_cons_of_mem _ hc)
        exact ⟨done', hdone', fun d hd => (hmem d).mpr (.inr (hseen' d hd))⟩
  · exact fun c hc d hd => (hmem d).mpr (.inr (hs.finished c hc d hd))

end Cases

/-- **One step.** A search that is not over can go on, and comes nearer to its end. -/
theorem step (hs : Invariant f r s) (h : f.WellFormed) (hr : r ∈ f.layout)
    (hpath : s.path ≠ []) :
    ∃ s', Search.step f s = .ok s' ∧ Invariant f r s' ∧ s'.weight f < s.weight f := by
  obtain ⟨path, visited, finished⟩ := s
  match path with
  | [] => exact absurd rfl hpath
  | (b, []) :: path =>
      exact ⟨⟨path, visited, b :: finished⟩, rfl, hs.finish, by simp [weight]⟩
  | (b, next :: rest) :: path =>
      obtain ⟨done, hdone, hseen⟩ := hs.path b (next :: rest) List.mem_cons_self
      by_cases hvisited : next ∈ visited
      · exact ⟨⟨(b, rest) :: path, visited, finished⟩, by simp [Search.step, hvisited]; rfl,
          hs.pass hvisited, by simp [weight]⟩
      · have hb : b ∈ order ⟨(b, next :: rest) :: path, visited, finished⟩ := by simp [order]
        have hnext : next ∈ f.next b := by simp [hdone]
        have hedge : f.Edge b next := ⟨hs.mem_layout h hr hb, hnext⟩
        refine ⟨_, (by simp only [Search.step, List.contains_eq_mem, hvisited, decide_false]
                       exact enter_eq h (h.mem_of_edge hedge)), ?_, ?_⟩
        · exact enter_new hs hvisited hedge hdone hseen
        · have hlen := (enter_new hs hvisited hedge hdone hseen).length_visited_le h hr
          have hnext := f.length_next_le next
          simp only [weight, List.map_cons, List.sum_cons, List.length_cons] at hlen ⊢
          omega

/-- The search from `r` before its first step. -/
theorem start (h : f.WellFormed) (hr : r ∈ f.layout) :
    ∃ s, Search.start f r = .ok s ∧ Invariant f r s ∧ s.weight f ≤ 3 * f.capacity := by
  refine ⟨_, enter_eq h hr, ?_, ?_⟩
  · constructor
    · exact ⟨[], rfl, trivial⟩
    · simp
    · exact List.Perm.refl _
    · intro b hb
      obtain rfl : b = r := by simpa [order] using hb
      exact Reaches.refl b
    · intro b rest hb
      obtain ⟨rfl, rfl⟩ : b = r ∧ rest = f.next r := by simpa using hb
      exact ⟨[], rfl, fun c hc => absurd hc List.not_mem_nil⟩
    · intro b hb
      exact absurd hb List.not_mem_nil
  · have hnext := f.length_next_le r
    have hlt := h.index_lt r hr
    simp only [weight, List.map_cons, List.map_nil, List.sum_cons, List.sum_nil, List.length_cons,
      List.length_nil]
    omega

/-- **The run.** With a budget for its weight the search ends, with nothing left on its path. -/
theorem run (h : f.WellFormed) (hr : r ∈ f.layout) {budget : Nat} (hs : Invariant f r s)
    (hbudget : s.weight f ≤ budget) :
    ∃ s', Search.run f budget s = .ok s' ∧ Invariant f r s' ∧ s'.path = [] := by
  induction budget generalizing s with
  | zero =>
      have hpath : s.path = [] := by
        by_contra hne
        obtain ⟨s', -, -, hlt⟩ := hs.step h hr hne
        omega
      exact ⟨s, by simp [Search.run, hpath], hs, hpath⟩
  | succ budget ih =>
      by_cases hpath : s.path = []
      · exact ⟨s, by simp [Search.run, hpath], hs, hpath⟩
      · obtain ⟨s', hstep, hs', hlt⟩ := hs.step h hr hpath
        obtain ⟨t, ht, hinv, hempty⟩ := ih hs' (by omega)
        refine ⟨t, ?_, hinv, hempty⟩
        rw [Search.run, if_neg (by simpa using hpath), hstep]
        exact ht

end Invariant

end Search

/-- A reverse postorder from `r`: the blocks that `r` reaches, each once and `r` first, and
every other one behind one of its predecessors. -/
structure Function.Order (f : Function) (r : BlockId) (tail : List BlockId) : Prop where
  nodup : (r :: tail).Nodup
  mem_iff : ∀ b, b ∈ r :: tail ↔ Reaches f.Edge r b
  grounded : Grounded f.Edge [r] tail

/-- **What the search finds.** On a well-formed function the reverse postorder from a block of
the body exists. -/
theorem Function.WellFormed.reversePostorder_eq_ok {f : Function} {r : BlockId}
    (h : f.WellFormed) (hr : r ∈ f.layout) :
    ∃ tail, f.reversePostorder r = .ok (r :: tail) ∧ f.Order r tail := by
  obtain ⟨s₀, hstart, hs₀, hweight⟩ := Search.Invariant.start h hr
  obtain ⟨s, hrun, hs, hpath⟩ := hs₀.run h hr hweight
  have horder : s.order = s.finished := by simp [Search.order, hpath]
  obtain ⟨tail, htail, hgrounded⟩ := hs.grounded
  rw [horder] at htail
  refine ⟨tail, ?_, ?_, fun b => ⟨fun hb => ?_, fun hb => ?_⟩, hgrounded⟩
  · rw [reversePostorder, hstart]
    simp only [bind, Except.bind, hrun, pure, Except.pure, htail]
  · rw [← htail, ← horder]
    exact hs.perm.nodup hs.nodup
  · exact hs.reaches b (by rw [horder, htail]; exact hb)
  · obtain ⟨xs, hxs⟩ := hb
    refine hxs.forall_mem (S := (· ∈ r :: tail)) List.mem_cons_self (fun x y hx hxy => ?_) b
      hxs.finish_mem
    rw [← htail, ← horder]
    exact hs.finished x (htail ▸ hx) y hxy.2

end Lockstep
