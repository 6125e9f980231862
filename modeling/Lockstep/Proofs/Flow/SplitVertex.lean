import Lockstep.Proofs.Flow.NaturalLoop

/-!
# Splitting a vertex

A new vertex is split off the end of an old one: it takes over the edges that lead away, and the
old one leads to it alone. Walks of the two graphs correspond, the new vertex standing right
behind the old one wherever a walk goes on from there. So dominance and loops between old
vertices are as before, and those of the new vertex are told by the old one.

## Main results

* `SplitsOff.dominates_iff`, `SplitsOff.new_dominates_iff`, `SplitsOff.dominates_new_iff`:
  dominance in the new graph.
* `SplitsOff.immediate_new`, `SplitsOff.immediate_moved`, `SplitsOff.immediate_kept`: the
  immediate dominators of the new graph.
* `SplitsOff.isHeader_iff`, `SplitsOff.inLoop_iff`, `SplitsOff.inLoop_new_iff`: the loops of the
  new graph.
-/

namespace Lockstep

variable {α : Type} {E E' : α → α → Prop} {r p n a b d h l q x y : α} {xs ys : List α}

/-- The graph `E'` is `E` with the new vertex `n` split off the end of `p`. -/
structure SplitsOff (E E' : α → α → Prop) (r p n : α) : Prop where
  ne_root : n ≠ r
  ne : n ≠ p
  no_edge_to : ∀ x, ¬E x n
  no_edge_from : ∀ y, ¬E n y
  edge_iff : ∀ x y, E' x y ↔ x = p ∧ y = n ∨ x = n ∧ E p y ∨ x ≠ p ∧ E x y

namespace SplitsOff

/-- The old vertex leads to the new one. -/
theorem edge_new (s : SplitsOff E E' r p n) : E' p n :=
  (s.edge_iff p n).mpr (.inl ⟨rfl, rfl⟩)

/-- The new vertex leads where the old one led. -/
theorem edge_moved (s : SplitsOff E E' r p n) (h : E p y) : E' n y :=
  (s.edge_iff n y).mpr (.inr (.inl ⟨rfl, h⟩))

/-- Other edges stay. -/
theorem edge_kept (s : SplitsOff E E' r p n) (hne : x ≠ p) (h : E x y) : E' x y :=
  (s.edge_iff x y).mpr (.inr (.inr ⟨hne, h⟩))

/-- The split vertex leads to the new one only. -/
theorem eq_of_edge_from (s : SplitsOff E E' r p n) (h : E' p y) : y = n := by
  rcases (s.edge_iff p y).mp h with ⟨-, rfl⟩ | ⟨hpn, -⟩ | ⟨hne, -⟩
  · rfl
  · exact absurd hpn.symm s.ne
  · exact absurd rfl hne

/-- Only the split vertex leads to the new one. -/
theorem eq_of_edge_to (s : SplitsOff E E' r p n) (h : E' x n) : x = p := by
  rcases (s.edge_iff x n).mp h with ⟨rfl, -⟩ | ⟨-, hpn⟩ | ⟨-, hxn⟩
  · rfl
  · exact absurd hpn (s.no_edge_to p)
  · exact absurd hxn (s.no_edge_to x)

/-- The new vertex leads where the split one led. -/
theorem edge_of_edge_new (s : SplitsOff E E' r p n) (h : E' n y) : E p y := by
  rcases (s.edge_iff n y).mp h with ⟨hnp, -⟩ | ⟨-, hpy⟩ | ⟨-, hny⟩
  · exact absurd hnp s.ne
  · exact hpy
  · exact absurd hny (s.no_edge_from y)

/-! ### Walks -/

/-- A walk becomes one of the new graph: it visits the new vertex at most where it visited the
split one. -/
theorem walk_lift (s : SplitsOff E E' r p n) (hw : Walk E a b xs) :
    ∃ ys, Walk E' a b ys ∧ ∀ z ∈ ys, z ∈ xs ∨ z = n ∧ p ∈ xs := by
  induction hw with
  | here a => exact ⟨[a], Walk.here a, fun z hz => .inl hz⟩
  | @step a b c xs hab _ ih =>
      obtain ⟨ys, hys, hsub⟩ := ih
      have hsub' : ∀ z ∈ ys, z ∈ a :: xs ∨ z = n ∧ p ∈ a :: xs := fun z hz =>
        (hsub z hz).imp (List.mem_cons_of_mem _) fun ⟨hz, hp⟩ => ⟨hz, List.mem_cons_of_mem _ hp⟩
      by_cases ha : a = p
      · subst ha
        refine ⟨a :: n :: ys, .step s.edge_new (.step (s.edge_moved hab) hys), fun z hz => ?_⟩
        rcases List.mem_cons.mp hz with rfl | hz
        · exact .inl List.mem_cons_self
        · rcases List.mem_cons.mp hz with rfl | hz
          · exact .inr ⟨rfl, List.mem_cons_self⟩
          · exact hsub' z hz
      · refine ⟨a :: ys, .step (s.edge_kept ha hab) hys, fun z hz => ?_⟩
        rcases List.mem_cons.mp hz with rfl | hz
        · exact .inl List.mem_cons_self
        · exact hsub' z hz

/-- A walk of the new graph between old vertices becomes one of the old graph by leaving out the new
vertex. A walk that starts at the new vertex stands for one that has just left the split one. -/
theorem walk_project (s : SplitsOff E E' r p n) (hw : Walk E' a b ys) (ha : a ≠ n)
    (hb : b ≠ n) : ∃ xs, Walk E a b xs ∧ ∀ z ∈ xs, z ∈ ys := by
  have key : (a ≠ n → ∃ xs, Walk E a b xs ∧ ∀ z ∈ xs, z ∈ ys) ∧
      (a = n → ∃ c xs, E p c ∧ Walk E c b xs ∧ ∀ z ∈ xs, z ∈ ys) := by
    clear ha
    induction hw with
    | here a => exact ⟨fun _ => ⟨[a], Walk.here a, fun z hz => hz⟩, fun h => absurd h hb⟩
    | @step a c _ ys hac _ ih =>
        obtain ⟨ihold, ihnew⟩ := ih hb
        rcases (s.edge_iff a c).mp hac with ⟨rfl, rfl⟩ | ⟨rfl, hpc⟩ | ⟨hap, hac⟩
        · refine ⟨fun _ => ?_, fun h => absurd h.symm s.ne⟩
          obtain ⟨c', xs, hc', hxs, hsub⟩ := ihnew rfl
          refine ⟨a :: xs, .step hc' hxs, fun z hz => ?_⟩
          rcases List.mem_cons.mp hz with rfl | hz
          · exact List.mem_cons_self
          · exact List.mem_cons_of_mem _ (hsub z hz)
        · refine ⟨fun h => absurd rfl h, fun _ => ?_⟩
          obtain ⟨xs, hxs, hsub⟩ := ihold fun h => s.no_edge_to p (h ▸ hpc)
          exact ⟨c, xs, hpc, hxs, fun z hz => List.mem_cons_of_mem _ (hsub z hz)⟩
        · refine ⟨fun _ => ?_, fun h => absurd hac (h ▸ s.no_edge_from c)⟩
          obtain ⟨xs, hxs, hsub⟩ := ihold fun h => s.no_edge_to a (h ▸ hac)
          refine ⟨a :: xs, .step hac hxs, fun z hz => ?_⟩
          rcases List.mem_cons.mp hz with rfl | hz
          · exact List.mem_cons_self
          · exact List.mem_cons_of_mem _ (hsub z hz)
  exact key.1 ha

/-- A walk to the new vertex comes from the split one. -/
theorem walk_to_new (s : SplitsOff E E' r p n) (hw : Walk E' a n ys) (ha : a ≠ n) :
    ∃ xs, Walk E' a p xs ∧ ys = xs ++ [n] := by
  rcases hw.last_edge with ⟨hna, -⟩ | ⟨c, xs, hxs, hcn, rfl⟩
  · exact absurd hna.symm ha
  · obtain rfl := s.eq_of_edge_to hcn
    exact ⟨xs, hxs, rfl⟩

/-- A walk that goes on from the split vertex goes on to the new one. -/
theorem new_mem_of_mem (s : SplitsOff E E' r p n) (hw : Walk E' a b ys) (hp : p ∈ ys)
    (hb : b ≠ p) : n ∈ ys := by
  obtain ⟨zs, hzs, -, hsub⟩ := hw.fromLast hp
  obtain ⟨c, hpc, hc⟩ := hzs.first_edge (Ne.symm hb)
  obtain rfl := s.eq_of_edge_from hpc
  exact hsub c hc.start_mem

/-! ### Reachability and dominance -/

/-- A split changes nothing about which old vertices can be reached. -/
theorem reaches_iff (s : SplitsOff E E' r p n) (hb : b ≠ n) : Reaches E' r b ↔ Reaches E r b := by
  constructor
  · rintro ⟨ys, hys⟩
    obtain ⟨xs, hxs, -⟩ := s.walk_project hys s.ne_root.symm hb
    exact ⟨xs, hxs⟩
  · rintro ⟨xs, hxs⟩
    obtain ⟨ys, hys, -⟩ := s.walk_lift hxs
    exact ⟨ys, hys⟩

/-- The new vertex can be reached when the old one can. -/
theorem reaches_new_iff (s : SplitsOff E E' r p n) : Reaches E' r n ↔ Reaches E r p := by
  rw [← s.reaches_iff s.ne.symm]
  constructor
  · rintro ⟨ys, hys⟩
    obtain ⟨xs, hxs, -⟩ := s.walk_to_new hys s.ne_root.symm
    exact ⟨xs, hxs⟩
  · exact fun h => h.snoc s.edge_new

/-- Between old vertices dominance is as before. -/
theorem dominates_iff (s : SplitsOff E E' r p n) (hx : x ≠ n) (hy : y ≠ n) :
    Dominates E' r x y ↔ Dominates E r x y := by
  constructor
  · intro h xs hxs
    obtain ⟨ys, hys, hsub⟩ := s.walk_lift hxs
    exact (hsub x (h ys hys)).resolve_right fun h => hx h.1
  · intro h ys hys
    obtain ⟨xs, hxs, hsub⟩ := s.walk_project hys s.ne_root.symm hy
    exact hsub x (h xs hxs)

/-- The new vertex dominates what the split one dominated strictly. No old walk visits the new
vertex, for no edge leads there. -/
theorem new_dominates_iff (s : SplitsOff E E' r p n) (hy : y ≠ n) (hyp : y ≠ p) :
    Dominates E' r n y ↔ Dominates E r p y := by
  constructor
  · intro h xs hxs
    obtain ⟨ys, hys, hsub⟩ := s.walk_lift hxs
    rcases hsub n (h ys hys) with hn | ⟨-, hp⟩
    · obtain ⟨zs, hzs, -⟩ := hxs.upTo hn
      rcases hzs.last_edge with ⟨hnr, -⟩ | ⟨c, -, -, hcn, -⟩
      · exact absurd hnr s.ne_root
      · exact absurd hcn (s.no_edge_to c)
    · exact hp
  · intro h ys hys
    have hp := (s.dominates_iff s.ne.symm hy).mpr h ys hys
    exact s.new_mem_of_mem hys hp hyp

/-- What dominates the new vertex, other than itself, is what dominated the split one. -/
theorem dominates_new_iff (s : SplitsOff E E' r p n) (hx : x ≠ n) :
    Dominates E' r x n ↔ Dominates E r x p := by
  rw [← s.dominates_iff hx s.ne.symm]
  constructor
  · exact fun h => h.pred hx s.edge_new
  · intro h ys hys
    obtain ⟨xs, hxs, rfl⟩ := s.walk_to_new hys s.ne_root.symm
    exact List.mem_append_left _ (h xs hxs)

/-- The new vertex does not dominate the split one, which comes before it. -/
theorem not_new_dominates (s : SplitsOff E E' r p n) (hp : Reaches E r p) :
    ¬Dominates E' r n p := by
  intro h
  have hpn : Dominates E' r p n := (s.dominates_new_iff s.ne.symm).mpr (Dominates.refl p)
  exact s.ne (h.antisymm hpn (s.reaches_new_iff.mpr hp))

/-! ### Immediate dominators -/

/-- The new vertex is dominated immediately by the old one. -/
theorem immediate_new (s : SplitsOff E E' r p n) (hp : Reaches E r p) :
    ImmediatelyDominates E' r p n where
  reaches := s.reaches_new_iff.mpr hp
  ne := s.ne.symm
  dominates := (s.dominates_new_iff s.ne.symm).mpr (Dominates.refl p)
  nearest _ hd h :=
    (s.dominates_iff hd s.ne.symm).mpr ((s.dominates_new_iff hd).mp h)

/-- A vertex of the old graph that can be reached is not the new one. -/
theorem ne_of_reaches (s : SplitsOff E E' r p n) (hb : Reaches E r b) : b ≠ n := by
  rintro rfl
  obtain ⟨xs, hxs⟩ := hb
  rcases hxs.last_edge with ⟨hbr, -⟩ | ⟨c, -, -, hcb, -⟩
  · exact s.ne_root hbr
  · exact s.no_edge_to c hcb

/-- What the old vertex dominated immediately is so dominated by the new one. -/
theorem immediate_moved (s : SplitsOff E E' r p n) (h : ImmediatelyDominates E r p b) :
    ImmediatelyDominates E' r n b := by
  have hb : b ≠ n := s.ne_of_reaches h.reaches
  have hbp : b ≠ p := h.ne.symm
  refine ⟨(s.reaches_iff hb).mpr h.reaches, hb.symm, (s.new_dominates_iff hb hbp).mpr h.dominates,
    fun d hd hdom => ?_⟩
  by_cases hdn : d = n
  · exact hdn ▸ Dominates.refl d
  · rw [s.dominates_new_iff hdn]
    exact h.nearest d hd ((s.dominates_iff hdn hb).mp hdom)

/-- What another vertex dominates immediately stays so dominated. -/
theorem immediate_kept (s : SplitsOff E E' r p n) (h : ImmediatelyDominates E r q b)
    (hqp : q ≠ p) : ImmediatelyDominates E' r q b := by
  have hb : b ≠ n := s.ne_of_reaches h.reaches
  have hqn : q ≠ n := s.ne_of_reaches (h.dominates.reaches h.reaches)
  refine ⟨(s.reaches_iff hb).mpr h.reaches, h.ne, (s.dominates_iff hqn hb).mpr h.dominates,
    fun d hd hdom => ?_⟩
  by_cases hdn : d = n
  · subst hdn
    have hbp : b ≠ p := by
      rintro rfl
      exact s.not_new_dominates h.reaches hdom
    have hpb := (s.new_dominates_iff hb hbp).mp hdom
    exact (s.new_dominates_iff hqn hqp).mpr (h.nearest p hbp.symm hpb)
  · exact (s.dominates_iff hdn hqn).mpr (h.nearest d hd ((s.dominates_iff hdn hb).mp hdom))

/-! ### Loops -/

/-- The split vertex is no latch any more. -/
theorem not_isLatch (s : SplitsOff E E' r p n) : ¬IsLatch E' r h p := by
  intro hl
  obtain rfl := s.eq_of_edge_from hl.edge
  exact s.not_new_dominates ((s.reaches_iff s.ne.symm).mp hl.reaches) hl.dominates

/-- The new vertex heads no loop. -/
theorem not_isHeader (s : SplitsOff E E' r p n) : ¬IsHeader E' r n := by
  rintro ⟨l, hl⟩
  obtain rfl := s.eq_of_edge_to hl.edge
  exact s.not_isLatch hl

/-- The new vertex is a latch where the old one was. -/
theorem isLatch_new_iff (s : SplitsOff E E' r p n) (hh : h ≠ n) :
    IsLatch E' r h n ↔ IsLatch E r h p := by
  constructor
  · exact fun hl => ⟨s.edge_of_edge_new hl.edge, s.reaches_new_iff.mp hl.reaches,
      (s.dominates_new_iff hh).mp hl.dominates⟩
  · exact fun hl => ⟨s.edge_moved hl.edge, s.reaches_new_iff.mpr hl.reaches,
      (s.dominates_new_iff hh).mpr hl.dominates⟩

/-- Other latches stay. -/
theorem isLatch_iff (s : SplitsOff E E' r p n) (hh : h ≠ n) (hl : l ≠ n) (hlp : l ≠ p) :
    IsLatch E' r h l ↔ IsLatch E r h l := by
  constructor
  · intro hlatch
    refine ⟨?_, (s.reaches_iff hl).mp hlatch.reaches, (s.dominates_iff hh hl).mp hlatch.dominates⟩
    rcases (s.edge_iff l h).mp hlatch.edge with ⟨h', -⟩ | ⟨h', -⟩ | ⟨-, h'⟩
    · exact absurd h' hlp
    · exact absurd h' hl
    · exact h'
  · exact fun hlatch => ⟨s.edge_kept hlp hlatch.edge, (s.reaches_iff hl).mpr hlatch.reaches,
      (s.dominates_iff hh hl).mpr hlatch.dominates⟩

/-- A latch of the old graph stays one, or hands that on to the new vertex. -/
theorem exists_latch (s : SplitsOff E E' r p n) (hlatch : IsLatch E r h l) :
    (l ≠ p ∧ IsLatch E' r h l) ∨ (l = p ∧ IsLatch E' r h n) := by
  have hh : h ≠ n := s.ne_of_reaches hlatch.reaches_header
  by_cases hlp : l = p
  · exact .inr ⟨hlp, (s.isLatch_new_iff hh).mpr (hlp ▸ hlatch)⟩
  · exact .inl ⟨hlp, (s.isLatch_iff hh (s.ne_of_reaches hlatch.reaches) hlp).mpr hlatch⟩

/-- The headers are as before. -/
theorem isHeader_iff (s : SplitsOff E E' r p n) : IsHeader E' r h ↔ IsHeader E r h := by
  constructor
  · intro hh'
    have hh : h ≠ n := by
      rintro rfl
      exact s.not_isHeader hh'
    obtain ⟨l, hl⟩ := hh'
    by_cases hln : l = n
    · exact ⟨p, (s.isLatch_new_iff hh).mp (hln ▸ hl)⟩
    · have hlp : l ≠ p := by
        rintro rfl
        exact s.not_isLatch hl
      exact ⟨l, (s.isLatch_iff hh hln hlp).mp hl⟩
  · rintro ⟨l, hl⟩
    rcases s.exists_latch hl with ⟨-, hl⟩ | ⟨-, hl⟩
    · exact ⟨l, hl⟩
    · exact ⟨n, hl⟩

/-- Old vertices are in the loops that they were in. -/
theorem inLoop_iff (s : SplitsOff E E' r p n) (hx : x ≠ n) :
    InLoop E' r h x ↔ InLoop E r h x := by
  constructor
  · intro hin
    have hheader : IsHeader E r h := s.isHeader_iff.mp hin.isHeader
    have hh : h ≠ n := s.ne_of_reaches hheader.reaches
    obtain ⟨l, hl, rfl | ⟨hreach, ys, hys, hnot⟩⟩ := hin
    · exact hheader.inLoop
    have hreach := (s.reaches_iff hx).mp hreach
    by_cases hln : l = n
    · subst hln
      obtain ⟨zs, hzs, rfl⟩ := s.walk_to_new hys hx
      obtain ⟨xs, hxs, hsub⟩ := s.walk_project hzs hx s.ne.symm
      exact ⟨p, (s.isLatch_new_iff hh).mp hl, .inr ⟨hreach, xs, hxs, fun hmem =>
        hnot (List.mem_append_left _ (hsub h hmem))⟩⟩
    · have hlp : l ≠ p := by
        rintro rfl
        exact s.not_isLatch hl
      obtain ⟨xs, hxs, hsub⟩ := s.walk_project hys hx hln
      exact ⟨l, (s.isLatch_iff hh hln hlp).mp hl, .inr ⟨hreach, xs, hxs, fun hmem =>
        hnot (hsub h hmem)⟩⟩
  · intro hin
    have hh : h ≠ n := s.ne_of_reaches hin.isHeader.reaches
    obtain ⟨l, hl, rfl | ⟨hreach, xs, hxs, hnot⟩⟩ := hin
    · exact (s.isHeader_iff.mpr ⟨l, hl⟩).inLoop
    have hreach := (s.reaches_iff hx).mpr hreach
    obtain ⟨ys, hys, hsub⟩ := s.walk_lift hxs
    have hnoty : h ∉ ys := fun hmem =>
      (hsub h hmem).elim hnot fun heq => hh heq.1
    rcases s.exists_latch hl with ⟨-, hl⟩ | ⟨rfl, hl⟩
    · exact ⟨l, hl, .inr ⟨hreach, ys, hys, hnoty⟩⟩
    · refine ⟨n, hl, .inr ⟨hreach, ys ++ [n], hys.snoc s.edge_new, fun hmem => ?_⟩⟩
      rcases List.mem_append.mp hmem with hmem | hmem
      · exact hnoty hmem
      · exact hh (List.mem_singleton.mp hmem)

/-- The new vertex is in the loops that the split one is in. -/
theorem inLoop_new_iff (s : SplitsOff E E' r p n) : InLoop E' r h n ↔ InLoop E r h p := by
  constructor
  · intro hin
    have hne : n ≠ h := by
      rintro rfl
      exact s.not_isHeader hin.isHeader
    have hp : Reaches E' r p := (s.reaches_iff s.ne.symm).mpr (s.reaches_new_iff.mp hin.reaches)
    exact (s.inLoop_iff s.ne.symm).mp (hin.pred hne s.edge_new hp)
  · intro hin
    obtain ⟨y, hpy, hy⟩ := hin.exists_succ
    by_cases heq : y = h
    · subst heq
      have hh : y ≠ n := s.ne_of_reaches hy.reaches
      exact ((s.isLatch_new_iff hh).mpr (hin.isLatch hpy)).inLoop
    · have hy' : InLoop E' r h y := (s.inLoop_iff (s.ne_of_reaches hy.reaches)).mpr hy
      exact hy'.pred heq (s.edge_moved hpy) (s.reaches_new_iff.mpr hin.reaches)

end SplitsOff

end Lockstep
