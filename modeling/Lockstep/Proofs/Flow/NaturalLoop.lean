import Lockstep.Proofs.Flow.Walk

/-!
# Natural loops of a graph

A latch of a header is a vertex with an edge to it that the header dominates. The loop of a
header consists of the header and of every vertex that reaches a latch around it. Nothing here
says how loops are found.

## Main results

* `InLoop.dominates`: the header dominates its loop.
* `InLoop.pred` and `InLoop.exists_succ`: a loop is entered at its header only, and no vertex of
  it has all its edges leave it.
* `InLoop.trans`, `InLoop.antisymm` and `InLoop.total`: loops nest. Two loops that share a
  vertex are one inside the other, and the inner one is the one whose header the other holds.
-/

namespace Lockstep

variable {α : Type} {E : α → α → Prop} {r h h' l x y : α}

/-- A vertex that can be reached, with an edge back to a dominator of it. -/
structure IsLatch (E : α → α → Prop) (r h l : α) : Prop where
  edge : E l h
  reaches : Reaches E r l
  dominates : Dominates E r h l

/-- A vertex that has a latch. -/
def IsHeader (E : α → α → Prop) (r h : α) : Prop :=
  ∃ l, IsLatch E r h l

/-- The vertex is in the loop of the header `h`. -/
def InLoop (E : α → α → Prop) (r h x : α) : Prop :=
  ∃ l, IsLatch E r h l ∧ (x = h ∨ Reaches E r x ∧ ∃ xs, Walk E x l xs ∧ h ∉ xs)

/-- A header can be reached through its latch. -/
theorem IsLatch.reaches_header (hl : IsLatch E r h l) : Reaches E r h :=
  hl.dominates.reaches hl.reaches

/-- A header can be reached. -/
theorem IsHeader.reaches (hh : IsHeader E r h) : Reaches E r h := by
  obtain ⟨l, hl⟩ := hh
  exact hl.reaches_header

/-- A header is in its loop. -/
theorem IsHeader.inLoop (hh : IsHeader E r h) : InLoop E r h h := by
  obtain ⟨l, hl⟩ := hh
  exact ⟨l, hl, .inl rfl⟩

/-- Where there is a block in a loop, there is the header. -/
theorem InLoop.isHeader (hx : InLoop E r h x) : IsHeader E r h := by
  obtain ⟨l, hl, -⟩ := hx
  exact ⟨l, hl⟩

/-- The blocks of a loop: the header, and what can be reached and leads to a latch around it. -/
theorem IsHeader.inLoop_iff (hh : IsHeader E r h) :
    InLoop E r h x ↔
      x = h ∨ Reaches E r x ∧ ∃ l, IsLatch E r h l ∧ ∃ xs, Walk E x l xs ∧ h ∉ xs := by
  constructor
  · rintro ⟨l, hl, heq | ⟨hreach, hwalk⟩⟩
    · exact .inl heq
    · exact .inr ⟨hreach, l, hl, hwalk⟩
  · rintro (rfl | ⟨hreach, l, hl, hwalk⟩)
    · exact hh.inLoop
    · exact ⟨l, hl, .inr ⟨hreach, hwalk⟩⟩

/-- A latch is in the loop. -/
theorem IsLatch.inLoop (hl : IsLatch E r h l) : InLoop E r h l := by
  by_cases heq : l = h
  · exact ⟨l, hl, .inl heq⟩
  · refine ⟨l, hl, .inr ⟨hl.reaches, [l], Walk.here l, ?_⟩⟩
    simpa using Ne.symm heq

namespace InLoop

/-- The blocks of a loop can be reached. -/
theorem reaches (hx : InLoop E r h x) : Reaches E r x := by
  obtain ⟨l, hl, rfl | ⟨hreach, -⟩⟩ := hx
  · exact hl.reaches_header
  · exact hreach

/-- The header dominates its loop: a walk to a vertex of the loop around the header would go on
to a latch around it. -/
theorem dominates (hx : InLoop E r h x) : Dominates E r h x := by
  obtain ⟨l, hl, rfl | ⟨-, xs, hxs, hnot⟩⟩ := hx
  · exact Dominates.refl x
  · intro ys hys
    obtain ⟨zs, hzs, hsub⟩ := hys.append hxs
    exact (hsub h (hl.dominates zs hzs)).resolve_right hnot

/-- A loop is entered at its header only. -/
theorem pred (hx : InLoop E r h x) (hne : x ≠ h) (hyx : E y x) (hy : Reaches E r y) :
    InLoop E r h y := by
  by_cases heq : y = h
  · exact heq ▸ hx.isHeader.inLoop
  · obtain ⟨l, hl, rfl | ⟨-, xs, hxs, hnot⟩⟩ := hx
    · exact absurd rfl hne
    · refine ⟨l, hl, .inr ⟨hy, y :: xs, Walk.step hyx hxs, ?_⟩⟩
      rw [List.mem_cons, not_or]
      exact ⟨Ne.symm heq, hnot⟩

/-- Inside a loop one can always go on. -/
theorem exists_succ (hx : InLoop E r h x) : ∃ y, E x y ∧ InLoop E r h y := by
  obtain ⟨l, hl, rfl | ⟨hreach, xs, hxs, hnot⟩⟩ := hx
  · by_cases heq : x = l
    · exact ⟨x, heq ▸ hl.edge, ⟨l, hl, .inl rfl⟩⟩
    · obtain ⟨ws, hws⟩ := hl.reaches
      obtain ⟨ys, hys, hnot, -⟩ := hws.fromLast (hl.dominates ws hws)
      obtain ⟨c, hxc, hc⟩ := hys.first_edge heq
      exact ⟨c, hxc, l, hl, .inr ⟨hl.reaches_header.snoc hxc, ys, hc, hnot⟩⟩
  · cases hxs with
    | here => exact ⟨h, hl.edge, _, hl, .inl rfl⟩
    | @step _ c _ xs hxc hc =>
        refine ⟨c, hxc, l, hl, .inr ⟨hreach.snoc hxc, xs, hc, fun hmem => ?_⟩⟩
        exact hnot (List.mem_cons_of_mem _ hmem)

/-- If there is only one way to go on, it stays in the loop. -/
theorem sole_succ (hx : InLoop E r h x) (hsole : ∀ z, E x z → z = y) : InLoop E r h y := by
  obtain ⟨z, hxz, hz⟩ := hx.exists_succ
  exact hsole z hxz ▸ hz

/-- What leads to the header from inside the loop is a latch. -/
theorem isLatch (hx : InLoop E r h x) (hxh : E x h) : IsLatch E r h x :=
  ⟨hxh, hx.reaches, hx.dominates⟩

/-! ### Nesting -/

/-- No two headers are in each other's loop. -/
theorem antisymm (hx : InLoop E r h h') (hx' : InLoop E r h' h) : h = h' :=
  hx.dominates.antisymm hx'.dominates hx'.reaches

/-- A loop whose header another loop holds is inside that loop. The walks that make up the inner
loop avoid the outer header, since that is not in the inner loop. -/
theorem trans (hh : InLoop E r h h') (hx : InLoop E r h' x) : InLoop E r h x := by
  by_cases heq : h' = h
  · exact heq ▸ hx
  obtain ⟨l', hl', hx⟩ := id hx
  rcases hx with rfl | ⟨hreach, xs, hxs, hnot⟩
  · exact hh
  have havoid : h ∉ xs := by
    intro hmem
    obtain ⟨ys, hys, -, hsub⟩ := hxs.fromLast hmem
    have hnot' : h' ∉ h :: ys := by
      rw [List.mem_cons, not_or]
      exact ⟨heq, fun hm => hnot (hsub h' hm)⟩
    have hin : InLoop E r h' h :=
      ⟨l', hl', .inr ⟨hh.isHeader.reaches, h :: ys, hys, hnot'⟩⟩
    exact heq (hh.antisymm hin).symm
  obtain ⟨l, hl, rfl | ⟨-, ws, hws, hnotw⟩⟩ := hh
  · exact absurd rfl heq
  obtain ⟨zs, hzs, hsub⟩ := (hxs.snoc hl'.edge).append hws
  refine ⟨l, hl, .inr ⟨hreach, zs, hzs, fun hmem => ?_⟩⟩
  rcases hsub h hmem with hmem | hmem
  · rcases List.mem_append.mp hmem with hmem | hmem
    · exact havoid hmem
    · exact heq (List.mem_singleton.mp hmem).symm
  · exact hnotw hmem

/-- Of two loops that share a vertex, the one whose header dominates the other's holds it. A walk
from the inner header to the vertex that does not come back to the inner header avoids the outer
one. -/
theorem of_dominates (hx : InLoop E r h x) (hx' : InLoop E r h' x)
    (hdom : Dominates E r h h') : InLoop E r h h' := by
  by_cases heq : h' = h
  · exact heq ▸ hx.isHeader.inLoop
  have hnot : ¬Dominates E r h' h := fun hd =>
    heq (hd.antisymm hdom hx'.isHeader.reaches)
  obtain ⟨ws, hws, hnotw⟩ := Dominates.exists_avoiding hnot
  obtain ⟨ps, hps⟩ := hx.reaches
  obtain ⟨ys, hys, hnoty, -⟩ := hps.fromLast (hx'.dominates ps hps)
  have havoid : h ∉ h' :: ys := by
    rw [List.mem_cons, not_or]
    refine ⟨Ne.symm heq, fun hmem => ?_⟩
    cases hys with
    | here => exact absurd hmem List.not_mem_nil
    | step _ htail =>
        obtain ⟨zs, hzs, -, hsub⟩ := htail.fromLast hmem
        obtain ⟨qs, hqs, hsub'⟩ := hws.append hzs
        rcases hsub' h' (hx'.dominates qs hqs) with hm | hm
        · exact hnotw hm
        · rcases List.mem_cons.mp hm with hm | hm
          · exact heq hm
          · exact hnoty (hsub h' hm)
  obtain ⟨l, hl, rfl | ⟨-, xs, hxs, hnotx⟩⟩ := hx
  · exact absurd hx'.dominates hnot
  · obtain ⟨zs, hzs, hsub⟩ := hys.append hxs
    exact ⟨l, hl, .inr ⟨hx'.isHeader.reaches, zs, hzs, fun hmem =>
      (hsub h hmem).elim havoid hnotx⟩⟩

/-- Loops that share a vertex are nested. -/
theorem total (hx : InLoop E r h x) (hx' : InLoop E r h' x) :
    InLoop E r h h' ∨ InLoop E r h' h :=
  (hx.dominates.total hx'.dominates hx.reaches).imp (hx.of_dominates hx') (hx'.of_dominates hx)

end InLoop

end Lockstep
