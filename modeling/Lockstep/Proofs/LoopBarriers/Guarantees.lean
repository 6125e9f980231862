import Lockstep.Proofs.LoopBarriers.Steps

/-!
# What holds of the loops at the end

The visit of a loop guards it or leaves its preheader without a barrier at the end. This module
says what is left of that when all loops have been visited. A loop that held a barrier from the
start is guarded for good. A loop that did not can be disturbed by a loop around it, in two ways:
that loop is left, or has a latch, inside the loop, or its header is the preheader of the loop and
holds nothing but phis.

## Main results

* `LoopBarriers.exists_mem_places_iff`: the blocks that are guarded at their ends.
* `LoopBarriers.Step.guarded` and `LoopBarriers.Steps.guarded`: guarded loops stay guarded.
* `LoopBarriers.Steps.holdsBarrier_iff`: when its turn comes, a loop holds a barrier exactly when
  it did from the start.
* `LoopBarriers.Steps.spills`: how a loop can get a barrier after its turn.
* `LoopBarriers.Steps.endsWithBarrier_preheader_iff`: how its preheader can.
-/

namespace Lockstep

/-- The preheader, the header, the exiting block and the latch of a loop have their barriers. -/
structure Guarded (f : Function) (r h : BlockId) : Prop where
  preheader : ∀ p, IsPreheader f r h p → (f.blockAt p).endsWithBarrier = true
  phis : (f.blockAt h).phisGuarded
  exiting : ∀ x, IsSoleExiting f r h x → (f.blockAt x).endsWithBarrier = true
  latch : ∀ x, IsSoleLatch f r h x → (f.blockAt x).endsWithBarrier = true

namespace LoopBarriers

variable {f f' : Function} {l : Loop} {d : BlockId → Bool} {r h h' o p q x : BlockId}
  {hs : List BlockId} {mark : String}

/-! ### The turn of a loop with a barrier -/

/-- The end of the only exiting block is one of the places. -/
theorem mem_places_of_isSoleExiting (hl : l.Describes f.Edge r)
    (hx : IsSoleExiting f r l.header x) : (x, .atEnd ".brexitbarrier") ∈ places f l d p := by
  have hsole := hl.soleExiting_eq_some.mpr hx
  simp [places, hsole]

/-- The only latch is guarded as such or as the exiting block. -/
theorem exists_mem_places_of_isSoleLatch (hf : f.WellFormed) (hl : l.Describes f.Edge r)
    (hx : IsSoleLatch f r l.header x) : ∃ mark, (x, .atEnd mark) ∈ places f l d p := by
  have hsole := (hl.sole?_latchList hf).mpr hx
  by_cases hexit : some x = l.soleExiting f
  · exact ⟨_, mem_places_of_isSoleExiting hl (hl.soleExiting_eq_some.mp hexit.symm)⟩
  · exact ⟨".latchbarrier", by simp [places, latchesToGuard, hsole, if_neg hexit]⟩

/-- Of several latches the dominated ones are guarded. -/
theorem exists_mem_places_of_isLatch (hf : f.WellFormed) (hl : l.Describes f.Edge r)
    (hx : IsLatch f.Edge r l.header x) (hdom : d x = true) :
    ∃ mark, (x, .atEnd mark) ∈ places f l d p := by
  cases hsole : sole? (l.latchList f) with
  | some y =>
      have hy := (hl.sole?_latchList hf).mp hsole
      obtain rfl := hy.2 x hx
      exact exists_mem_places_of_isSoleLatch hf hl hy
  | none =>
      have hmem := hl.mem_latchList.mpr hx
      exact ⟨".latchbarrier", by simp [places, latchesToGuard, hsole, hmem, hdom]⟩

/-- **What is guarded at its end.** -/
theorem exists_mem_places_iff (hf : f.WellFormed) (hl : l.Describes f.Edge r) :
    (∃ mark, (x, .atEnd mark) ∈ places f l d p) ↔ x = p ∨ IsSoleExiting f r l.header x ∨
      IsSoleLatch f r l.header x ∨ IsLatch f.Edge r l.header x ∧ d x = true := by
  constructor
  · rintro ⟨mark, hmem⟩
    simp only [places, List.mem_cons, List.mem_append, List.mem_map, Option.mem_toList,
      Prod.mk.injEq, reduceCtorEq, and_false, false_or] at hmem
    rcases hmem with ⟨rfl, -⟩ | ⟨y, hy, rfl, -⟩ | ⟨y, hy, rfl, -⟩
    · exact .inl rfl
    · exact .inr (.inl (hl.soleExiting_eq_some.mp hy))
    · exact .inr (.inr (of_mem_latchesToGuard hf hl hy))
  · rintro (rfl | hexit | hlatch | ⟨hlatch, hdom⟩)
    · exact ⟨_, List.mem_cons_self⟩
    · exact ⟨_, mem_places_of_isSoleExiting hl hexit⟩
    · exact exists_mem_places_of_isSoleLatch hf hl hlatch
    · exact exists_mem_places_of_isLatch hf hl hlatch hdom

/-- Only the header is guarded behind its phis. -/
theorem behindPhis_mem_places_iff : (x, .behindPhis) ∈ places f l d p ↔ x = l.header := by
  simp [places]

/-- What the tree answers is dominance. -/
theorem Sound.dominated_iff {w : Work DominatorTree} (hw : Sound w r) :
    dominated w.dominance q x = true ↔ Dominates w.function.Edge r q x := by
  obtain ⟨v, hv, hiff⟩ := hw.tree.dominates_eq_ok hw.wellFormed hw.entry q x
  rw [dominated, hv]
  exact hiff

namespace Step

variable (hready : Ready f r h p) (hstep : Step f r h p f')
include hready hstep

/-- **The turn of a loop with a barrier** guards it. -/
theorem guarded (hholds : HoldsBarrier f r h) : Guarded f' r h := by
  cases hstep with
  | @surround l d hl hh _ =>
      subst hh
      have hf := hready.wellFormed
      have hplaces := hready.places_mem (d := d) hl
      have hnext := hf.next_guardAll hplaces
      have hedge := hf.edge_guardAll hplaces
      have hstep : Step f r l.header p (f.guardAll (places f l d p)) := .surround hl rfl hholds
      refine ⟨fun q hq => ?_, ?_, fun x hx => ?_, fun x hx => ?_⟩
      · obtain rfl := hready.preheader.unique (isPreheader_congr hnext hedge hq)
        exact hready.endsWithBarrier_of_mem_places hl List.mem_cons_self
      · rw [hf.blockAt_guardAll hplaces]
        exact Block.phisGuarded_guardAll
          (hf.terminated _ (hready.mem_of_inLoop hready.header.inLoop))
          (mem_map_snd_filter.mpr (behindPhis_mem_places_iff.mpr rfl))
      · exact hready.endsWithBarrier_of_mem_places hl
          (mem_places_of_isSoleExiting hl ((hstep.sameLoops hready).isSoleExiting_iff.mp hx))
      · obtain ⟨mark, hmem⟩ := exists_mem_places_of_isSoleLatch (d := d) (p := p) hf hl
          ((hstep.sameLoops hready).isSoleLatch_iff.mp hx)
        exact hready.endsWithBarrier_of_mem_places hl hmem
  | isolate _ hnot _ => exact absurd hholds hnot
  | pass hnot _ => exact absurd hholds hnot

/-- A guarded loop stays guarded in the turns of others. -/
theorem guarded_other (ho : IsHeader f.Edge r o) (hne : o ≠ h) (hguarded : Guarded f r o) :
    Guarded f' r o where
  preheader q hq := by
    have hq' := (hstep.isPreheader_iff hready ho hne).mp hq
    exact hstep.endsWithBarrier hready hq'.edge.1 (hguarded.preheader q hq')
  phis := hstep.phisGuarded hready (hready.mem_of_inLoop ho.inLoop) hguarded.phis
  exiting x hx := by
    have hx' := (hstep.sameLoops hready).isSoleExiting_iff.mp hx
    exact hstep.endsWithBarrier hready (hready.mem_of_inLoop hx'.1.1) (hguarded.exiting x hx')
  latch x hx := by
    have hx' := (hstep.sameLoops hready).isSoleLatch_iff.mp hx
    exact hstep.endsWithBarrier hready hx'.1.edge.1 (hguarded.latch x hx')

/-- A loop that holds a barrier holds one after any visit. -/
theorem holdsBarrier (hholds : HoldsBarrier f r o) : HoldsBarrier f' r o := by
  obtain ⟨x, hx, hb⟩ := hholds
  have hxl := hready.mem_of_inLoop hx
  exact ⟨x, (hstep.inLoop_iff hready hxl).mpr hx, hstep.barrier_mem hready hxl hb⟩

/-- A block of a loop that is touched in the turn of another one: that one is inside the loop, or
around it and left or latched from the block. -/
theorem inLoop_or_spills (hx : InLoop f.Edge r o x)
    (hne : (f'.blockAt x).shape ≠ (f.blockAt x).shape) :
    HoldsBarrier f r h ∧ (InLoop f.Edge r o h ∨ InLoop f.Edge r h o ∧
      (IsSoleExiting f r h x ∨ IsLatch f.Edge r h x) ∧
        (f'.blockAt x).endsWithBarrier = true) := by
  obtain ⟨hholds, htouched⟩ := hstep.touched hready (hready.mem_of_inLoop hx) hne
  refine ⟨hholds, ?_⟩
  rcases htouched with rfl | rfl | ⟨hor, hends⟩
  · exact .inl (hready.preheader.inLoop_header hx)
  · exact .inl hx
  · have hin : InLoop f.Edge r h x := hor.elim (·.1.1) (·.inLoop)
    exact (hx.total hin).imp id fun hho => ⟨hho, hor, hends⟩

/-- A loop without a barrier that gets one in the turn of another: the other is around it. -/
theorem spills (hnot : ¬HoldsBarrier f r o) (hholds : HoldsBarrier f' r o) :
    HoldsBarrier f r h ∧ InLoop f.Edge r h o ∧ ∃ x, InLoop f.Edge r o x ∧
      (IsSoleExiting f r h x ∨ IsLatch f.Edge r h x) ∧ (f'.blockAt x).endsWithBarrier = true := by
  obtain ⟨x, hx, hb⟩ := hholds
  have hx' : x ∈ f'.layout := Search.mem_layout_of_reaches (hstep.wellFormed hready)
    (List.mem_of_head? (hstep.entry hready)) hx.reaches
  have hxl := hstep.mem_of_barrier hready hx' hb
  have hxo := (hstep.inLoop_iff hready hxl).mp hx
  have hne : (f'.blockAt x).shape ≠ (f.blockAt x).shape := by
    intro hshape
    refine hnot ⟨x, hxo, ?_⟩
    rwa [Block.barrier_mem_iff, ← hshape, ← Block.barrier_mem_iff]
  obtain ⟨⟨y, hy, hby⟩, hoh | ⟨hho, hor, hends⟩⟩ := hstep.inLoop_or_spills hready hxo hne
  · exact absurd ⟨y, hoh.trans hy, hby⟩ hnot
  · exact ⟨⟨y, hy, hby⟩, hho, x, hxo, hor, hends⟩

/-- In its own turn a loop neither gets its first barrier nor loses one. -/
theorem holdsBarrier_self_iff : HoldsBarrier f' r h ↔ HoldsBarrier f r h := by
  refine ⟨fun hholds => ?_, hstep.holdsBarrier hready⟩
  by_contra hnot
  exact hnot (hstep.spills hready hnot hholds).1

/-- The turn of a loop changes nothing for loops that are not inside it. -/
theorem holdsBarrier_iff (hnot : ¬InLoop f.Edge r h o) :
    HoldsBarrier f' r o ↔ HoldsBarrier f r o := by
  refine ⟨fun hholds => ?_, hstep.holdsBarrier hready⟩
  by_contra hno
  exact hnot (hstep.spills hready hno hholds).2.1

/-! ### The turn of a loop without a barrier -/

/-- A preheader keeps its shape in the turns of other loops, unless it is the header. -/
theorem shape_preheader (hq : IsPreheader f r o q) (hoh : o ≠ h) (hqh : q ≠ h) :
    (f'.blockAt q).shape = (f.blockAt q).shape := by
  by_contra hne
  rcases (hstep.touched hready hq.edge.1 hne).2 with rfl | heq | ⟨hexit | hlatch, -⟩
  · exact hoh (hq.header_eq hready.preheader)
  · exact hqh heq
  · exact hq.not_isExiting hexit.1
  · exact hq.not_isLatch hlatch

/-- **The turn of a loop without a barrier** leaves a preheader that does not end with one: the
one it had, or one that is no header. -/
theorem unguarded (hnot : ¬HoldsBarrier f r h) (hq : IsPreheader f' r h q) :
    (f'.blockAt q).endsWithBarrier = false ∧
      (q = p ∧ f' = f ∨ q ∉ f.layout ∧ ¬IsHeader f'.Edge r q) := by
  cases hstep with
  | surround _ _ hholds => exact absurd hholds hnot
  | isolate hroom _ _ =>
      have hs := hready.splitsOff hroom
      obtain rfl := hq.unique (isPreheader_nextBlock hready.wellFormed hroom hready.root_mem
        hready.preheader hready.header)
      refine ⟨?_, .inr ⟨hready.wellFormed.nextBlock_not_mem hroom, hs.not_isHeader⟩⟩
      rw [Bool.eq_false_iff]
      exact fun hends => barrier_not_mem_nextBlock hready hroom
        (Block.barrier_mem_of_endsWithBarrier hends)
  | pass _ hends =>
      obtain rfl := hq.unique hready.preheader
      exact ⟨hends, .inl ⟨rfl, rfl⟩⟩

end Step

/-- The turn of a loop with a barrier whose header is a preheader: the header gets a barrier
behind its phis and no other. -/
theorem Step.blockAt_header (hready : Ready f r h p) (hstep : Step f r h p f')
    (hholds : HoldsBarrier f r h) (hh : IsPreheader f r o h) :
    f'.blockAt h = Place.behindPhis.guard (f.blockAt h) := by
  cases hstep with
  | @surround l d hl heq _ =>
      subst heq
      have hne : p ≠ l.header := hready.preheader.ne_header hready.header
      have hexit : l.soleExiting f ≠ some l.header := fun hsole =>
        hh.not_isExiting (hl.soleExiting_eq_some.mp hsole).1
      have hlatch : l.header ∉ latchesToGuard f l d := fun hmem =>
        hh.not_isLatch (isLatch_of_mem_latchesToGuard hready.wellFormed hl hmem)
      have hplaces : (places f l d p).filter (·.1 = l.header) = [(l.header, .behindPhis)] := by
        rw [places, List.filter_cons_of_neg (by simpa using hne), List.filter_cons_of_pos (by simp),
          List.filter_eq_nil_iff.mpr]
        intro q hq hqh
        simp only [List.mem_append, List.mem_map, Option.mem_toList] at hq
        rcases hq with ⟨x, hx, rfl⟩ | ⟨x, hx, rfl⟩
        · exact hexit (of_decide_eq_true hqh ▸ hx)
        · exact hlatch (of_decide_eq_true hqh ▸ hx)
      rw [hready.wellFormed.blockAt_guardAll (hready.places_mem hl), hplaces]
      rfl
  | isolate _ hnot _ => exact absurd hholds hnot
  | pass hnot _ => exact absurd hholds hnot

namespace Steps

/-! ### All turns -/

/-- A guarded loop whose turn does not come stays guarded. -/
theorem guarded (hsteps : Steps r f hs f') (ho : IsHeader f.Edge r o) (hnot : o ∉ hs)
    (hguarded : Guarded f r o) : Guarded f' r o :=
  (hsteps.keeps (P := fun g => IsHeader g.Edge r o ∧ Guarded g r o)
    (fun hmem hready hstep ⟨ho, hg⟩ => ⟨(hstep.isHeader_iff hready).mpr ho,
      hstep.guarded_other hready ho (fun heq => hnot (heq ▸ hmem)) hg⟩) ⟨ho, hguarded⟩).2

/-- A loop that holds a barrier holds one at the end. -/
theorem holdsBarrier (hsteps : Steps r f hs f') (hholds : HoldsBarrier f r o) :
    HoldsBarrier f' r o :=
  hsteps.keeps (P := (HoldsBarrier · r o)) (fun _ hready hstep => hstep.holdsBarrier hready) hholds

/-- A block that ends with a barrier ends with one at the end. -/
theorem endsWithBarrier (hsteps : Steps r f hs f') (hx : x ∈ f.layout)
    (hends : (f.blockAt x).endsWithBarrier = true) : (f'.blockAt x).endsWithBarrier = true :=
  (hsteps.keeps (P := fun g => x ∈ g.layout ∧ (g.blockAt x).endsWithBarrier = true)
    (fun _ hready hstep ⟨hx, hends⟩ => ⟨hstep.mem_layout hx, hstep.endsWithBarrier hready hx hends⟩)
    ⟨hx, hends⟩).2

/-- Before its turn a loop neither gets nor loses barriers. -/
theorem holdsBarrier_iff (hsteps : Steps r f hs f') (ho : o ∈ f.layout)
    (hbefore : ∀ h ∈ hs, ¬InLoop f.Edge r h o) : HoldsBarrier f' r o ↔ HoldsBarrier f r o :=
  (hsteps.keeps (P := fun g => SameLoops f g r ∧ (HoldsBarrier g r o ↔ HoldsBarrier f r o))
    (fun {_ _ h _} hmem hready hstep ⟨hsame, hiff⟩ => ⟨hsame.trans (hstep.sameLoops hready),
      (hstep.holdsBarrier_iff hready fun hin =>
        hbefore h hmem ((hsame.inLoop_iff h o ho).mp hin)).trans hiff⟩)
    ⟨SameLoops.refl f r, Iff.rfl⟩).2

/-- A preheader keeps its shape as long as neither its loop nor itself has a turn. -/
theorem shape_preheader (hsteps : Steps r f hs f') (ho : IsHeader f.Edge r o)
    (hq : IsPreheader f r o q) (hnot : o ∉ hs) (hnot' : q ∉ hs) :
    (f'.blockAt q).shape = (f.blockAt q).shape :=
  (hsteps.keeps (P := fun g => IsHeader g.Edge r o ∧ IsPreheader g r o q ∧
      (g.blockAt q).shape = (f.blockAt q).shape)
    (fun {_ _ h _} hmem hready hstep ⟨ho, hq, hshape⟩ => by
      have hoh : o ≠ h := fun heq => hnot (heq ▸ hmem)
      refine ⟨(hstep.isHeader_iff hready).mpr ho, (hstep.isPreheader_iff hready ho hoh).mpr hq, ?_⟩
      rw [← hshape]
      exact hstep.shape_preheader hready hq hoh fun heq => hnot' (heq ▸ hmem))
    ⟨ho, hq, rfl⟩).2.2

/-- The turn in which something came about. -/
theorem exists_turn {Q : Function → Prop} (hsteps : Steps r f hs f') (hf : ¬Q f) (hf' : Q f') :
    ∃ hs₁ h hs₂ g g' p, hs = hs₁ ++ h :: hs₂ ∧ Steps r f hs₁ g ∧ Ready g r h p ∧ Step g r h p g' ∧
      Steps r g' hs₂ f' ∧ ¬Q g ∧ Q g' := by
  induction hsteps with
  | done => exact absurd hf' hf
  | @step f f₁ f' h p hs hready hstep hrest ih =>
      by_cases hQ : Q f₁
      · exact ⟨[], h, hs, f, f₁, p, rfl, .done hready.wellFormed hready.entry, hready, hstep, hrest,
          hf, hQ⟩
      · obtain ⟨hs₁, h', hs₂, g, g', p', rfl, hg, hready', hstep', hg', hnot, hQ'⟩ := ih hQ hf'
        exact ⟨h :: hs₁, h', hs₂, g, g', p', rfl, .step hready hstep hg, hready', hstep', hg', hnot,
          hQ'⟩

/-- The turn of a loop. -/
theorem exists_turn_of_mem (hsteps : Steps r f hs f') (ho : o ∈ hs) :
    ∃ hs₁ hs₂ g g' p, hs = hs₁ ++ o :: hs₂ ∧ Steps r f hs₁ g ∧ Ready g r o p ∧ Step g r o p g' ∧
      Steps r g' hs₂ f' := by
  obtain ⟨hs₁, hs₂, rfl⟩ := List.append_of_mem ho
  obtain ⟨g, hg, hrest⟩ := hsteps.split
  cases hrest with
  | step hready hstep hrest => exact ⟨hs₁, hs₂, g, _, _, rfl, hg, hready, hstep, hrest⟩

section Ordered

variable (hsteps : Steps r f hs f') (horder : hs.Pairwise fun h h' => ¬InLoop f.Edge r h h')
include hsteps horder

/-- **A loop with a barrier** is guarded at the end. -/
theorem guarded_of_holdsBarrier (ho : o ∈ hs) (hh : IsHeader f.Edge r o)
    (hholds : HoldsBarrier f r o) : HoldsBarrier f' r o ∧ Guarded f' r o := by
  obtain ⟨hs₁, hs₂, g, g', p, rfl, hg, hready, hstep, hg'⟩ := hsteps.exists_turn_of_mem ho
  have hnot : o ∉ hs₂ := fun hmem =>
    (List.pairwise_cons.mp (List.pairwise_append.mp horder).2.1).1 o hmem hh.inLoop
  refine ⟨hsteps.holdsBarrier hholds, hg'.guarded ?_ hnot
    (hstep.guarded hready (hg.holdsBarrier hholds))⟩
  exact (hstep.isHeader_iff hready).mpr hready.header

/-- **A loop without a barrier** has one at the end only if a loop around it that did hold one is
left or latched from inside it. At its turn that loop holds a barrier because it did from the
start. -/
theorem spills (hnot : ¬HoldsBarrier f r o) (hholds : HoldsBarrier f' r o) :
    ∃ h ∈ hs, h ≠ o ∧ HoldsBarrier f r h ∧ InLoop f'.Edge r h o ∧ ∃ x, InLoop f'.Edge r o x ∧
      (IsSoleExiting f' r h x ∨ IsLatch f'.Edge r h x) ∧ (f'.blockAt x).endsWithBarrier = true := by
  obtain ⟨hs₁, h, hs₂, g, g', p, rfl, hg, hready, hstep, hg', hno, hyes⟩ :=
    hsteps.exists_turn (Q := (HoldsBarrier · r o)) hnot hholds
  obtain ⟨hholds', hho, x, hx, hor, hends⟩ := hstep.spills hready hno hyes
  have hsame := (hstep.sameLoops hready).trans hg'.sameLoops
  have hxl := hready.mem_of_inLoop hx
  refine ⟨h, by simp, ?_, ?_, (hsame.inLoop_iff h o (hready.mem_of_inLoop hho)).mpr hho, x,
    (hsame.inLoop_iff o x hxl).mpr hx, ?_, hg'.endsWithBarrier (hstep.mem_layout hxl) hends⟩
  · rintro rfl
    exact hno hholds'
  · have hh := (hg.sameLoops.isHeader_iff h).mp hready.header
    exact (hg.holdsBarrier_iff (hsteps.mem_of_inLoop hh.inLoop) fun h' hmem =>
      (List.pairwise_append.mp horder).2.2 h' hmem h List.mem_cons_self).mp hholds'
  · rw [hsame.isSoleExiting_iff, hsame.isLatch_iff]
    exact hor

/-- A preheader that does not end with a barrier and has a turn as a header: it gets one behind its
phis if its loop holds one. Nothing happens to it before its turn, and nothing after it. -/
theorem endsWithBarrier_header_iff (ho : IsHeader f.Edge r o) (hnot : o ∉ hs)
    (hq : IsPreheader f r o q) (hends : (f.blockAt q).endsWithBarrier = false) (hmem : q ∈ hs) :
    (f'.blockAt q).endsWithBarrier = true ↔ HoldsBarrier f r q ∧ (f.blockAt q).PhisOnly := by
  obtain ⟨hs₁, hs₂, g, g', p, rfl, hg, hready, hstep, hg'⟩ := hsteps.exists_turn_of_mem hmem
  obtain ⟨-, horder₂, horder₁⟩ := List.pairwise_append.mp horder
  rw [List.pairwise_cons] at horder₂
  simp only [List.mem_append, List.mem_cons, not_or] at hnot
  obtain ⟨ho₁, hoq, ho₂⟩ := hnot
  have hqh : IsHeader f.Edge r q := (hg.sameLoops.isHeader_iff q).mp hready.header
  have hq₁ : q ∉ hs₁ := fun hmem => horder₁ q hmem q List.mem_cons_self hqh.inLoop
  have hq₂ : q ∉ hs₂ := fun hmem => horder₂.1 q hmem hqh.inLoop
  have hog : IsHeader g.Edge r o := (hg.sameLoops.isHeader_iff o).mpr ho
  have hqg : IsPreheader g r o q := (hg.isPreheader_iff ho ho₁).mpr hq
  have hqg' : IsPreheader g' r o q := (hstep.isPreheader_iff hready hog hoq).mpr hqg
  have hbefore := hg.shape_preheader ho hq ho₁ hq₁
  have hafter := hg'.shape_preheader ((hstep.isHeader_iff hready).mpr hog) hqg' ho₂ hq₂
  have hholds : HoldsBarrier g r q ↔ HoldsBarrier f r q :=
    hg.holdsBarrier_iff hq.edge.1 fun h hmem => horder₁ h hmem q List.mem_cons_self
  rw [Block.endsWithBarrier_eq_of_shape hafter, ← hholds, ← Block.phisOnly_iff_of_shape hbefore]
  rw [← Block.endsWithBarrier_eq_of_shape hbefore] at hends
  by_cases hb : HoldsBarrier g r q
  · rw [hstep.blockAt_header hready hb hqg,
      Block.endsWithBarrier_guard_behindPhis (hready.wellFormed.terminated q hqg.edge.1), hends]
    simp [hb]
  · have hshape : (g'.blockAt q).shape = (g.blockAt q).shape := by
      by_contra hne
      exact hb (hstep.touched hready hqg.edge.1 hne).1
    rw [Block.endsWithBarrier_eq_of_shape hshape, hends]
    simp [hb]

/-- **The preheader of a loop without a barrier** ends with one only if it is the header of a loop
with a barrier and holds nothing but phis. If it is a header, its loop is around this one, so its
turn is still to come. -/
theorem endsWithBarrier_preheader_iff (hall : ∀ h, h ∈ hs ↔ IsHeader f.Edge r h)
    (ho : IsHeader f.Edge r o) (hnot : ¬HoldsBarrier f r o) (hq : IsPreheader f' r o q) :
    (f'.blockAt q).endsWithBarrier = true ↔ HoldsBarrier f r q ∧ (f.blockAt q).PhisOnly := by
  obtain ⟨hs₁, hs₂, g, g', p, rfl, hg, hready, hstep, hg'⟩ :=
    hsteps.exists_turn_of_mem ((hall o).mpr ho)
  obtain ⟨-, horder₂, horder₁⟩ := List.pairwise_append.mp horder
  rw [List.pairwise_cons] at horder₂
  have ho₁ : o ∉ hs₁ := fun hmem => horder₁ o hmem o List.mem_cons_self ho.inLoop
  have ho₂ : o ∉ hs₂ := fun hmem => horder₂.1 o hmem ho.inLoop
  have hog' : IsHeader g'.Edge r o := (hstep.isHeader_iff hready).mpr hready.header
  have hqg' : IsPreheader g' r o q := (hg'.isPreheader_iff hog' ho₂).mp hq
  have hnotg : ¬HoldsBarrier g r o := by
    rwa [hg.holdsBarrier_iff (hsteps.mem_of_inLoop ho.inLoop) fun h hmem =>
      horder₁ h hmem o List.mem_cons_self]
  obtain ⟨hends, hcase⟩ := hstep.unguarded hready hnotg hqg'
  have hsame := hg.sameLoops.trans (hstep.sameLoops hready)
  by_cases hqh : IsHeader f.Edge r q
  · have hqf : q ∈ f.layout := hsteps.mem_of_inLoop hqh.inLoop
    obtain ⟨rfl, rfl⟩ : q = p ∧ g' = g :=
      hcase.resolve_right fun ⟨hout, _⟩ => hout (hg.sameLoops.mem_layout q hqf)
    have hin : InLoop f.Edge r q o := by
      have hqq := (hg.sameLoops.isHeader_iff q).mpr hqh
      exact (hg.sameLoops.inLoop_iff q o (hsteps.mem_of_inLoop ho.inLoop)).mp
        (hqg'.inLoop_header hqq.inLoop)
    have hq₁ : q ∉ hs₁ := fun hmem => horder₁ q hmem o List.mem_cons_self hin
    have hq₂ : q ∈ hs₂ := by
      have hmem := (hall q).mpr hqh
      simp only [List.mem_append, List.mem_cons, hq₁, false_or] at hmem
      exact hmem.resolve_left (hqg'.ne_header hog')
    have horder' : hs₂.Pairwise fun h h' => ¬InLoop g'.Edge r h h' := by
      refine horder₂.2.imp_of_mem fun {h h'} _ hmem hno hin => hno ?_
      have hh' := (hall h').mp (by simp [hmem])
      exact (hg.sameLoops.inLoop_iff h h' (hsteps.mem_of_inLoop hh'.inLoop)).mp hin
    have hqf' : IsPreheader f r o q := (hg.isPreheader_iff ho ho₁).mp hqg'
    rw [hg'.endsWithBarrier_header_iff horder' hog' ho₂ hqg' hends hq₂,
      hg.holdsBarrier_iff hqf fun h hmem => horder₁ h hmem q (List.mem_cons_of_mem _ hq₂),
      Block.phisOnly_iff_of_shape (hg.shape_preheader ho hqf' ho₁ hq₁)]
  · have hq₂ : q ∉ hs₂ := fun hmem => hqh ((hall q).mp (by simp [hmem]))
    rw [Block.endsWithBarrier_eq_of_shape (hg'.shape_preheader hog' hqg' ho₂ hq₂), hends]
    exact iff_of_false Bool.false_ne_true fun hand => hqh hand.1.isHeader

end Ordered

end Steps

end LoopBarriers

/-! ### The loops of the result -/

namespace Loop

/-- Some block of the loop that is in the body of the function holds a barrier there. -/
def HoldsBarrier (l : Loop) (f : Function) : Prop :=
  ∃ x ∈ l.blocks, x ∈ f.layout ∧ .barrier ∈ (f.blockAt x).instructions

instance (l : Loop) (f : Function) : Decidable (l.HoldsBarrier f) :=
  inferInstanceAs (Decidable (∃ x ∈ l.blocks, x ∈ f.layout ∧ .barrier ∈ (f.blockAt x).instructions))

/-- The preheader ends with a barrier, one stands behind the phis of the header, and the exiting
block and the latch end with one, if there is only one of them. -/
structure Guarded (l : Loop) (f : Function) : Prop where
  preheader : ∀ p, l.preheader? f = .ok (some p) → (f.blockAt p).endsWithBarrier = true
  phis : (f.blockAt l.header).phisGuarded
  exiting : ∀ x, l.exitingBlock? f = .ok (some x) → (f.blockAt x).endsWithBarrier = true
  latch : ∀ x, l.latch? f = .ok (some x) → (f.blockAt x).endsWithBarrier = true

/-- What the visit of a loop is to achieve: a loop with a barrier is guarded, and the preheader of
a loop without one does not end with a barrier. -/
def Settled (l : Loop) (f : Function) : Prop :=
  (l.HoldsBarrier f → l.Guarded f) ∧
    (¬l.HoldsBarrier f → ∀ p, l.preheader? f = .ok (some p) →
      (f.blockAt p).endsWithBarrier = false)

/-- A loop around this one that held a barrier in `f` is left, or has a latch, inside it, where
there is a barrier now. -/
def Spilled (l : Loop) (loops : List Loop) (f f' : Function) : Prop :=
  ∃ o ∈ loops, o.header ≠ l.header ∧ l.header ∈ o.blocks ∧ o.HoldsBarrier f ∧ ∃ x ∈ l.blocks,
    (o.exitingBlock? f' = .ok (some x) ∨ ∃ latches, o.latches f' = .ok latches ∧ x ∈ latches) ∧
      (f'.blockAt x).endsWithBarrier = true

/-- The preheader of this loop is the header of a loop that held a barrier in `f`, and held nothing
but phis there. -/
def EnteredFromPhis (l : Loop) (loops : List Loop) (f f' : Function) : Prop :=
  ∃ o ∈ loops, l.preheader? f' = .ok (some o.header) ∧ o.HoldsBarrier f ∧
    (f.blockAt o.header).PhisOnly

/-- Whether a loop is settled, from what is known of it. -/
theorem settled_iff {l : Loop} {loops : List Loop} {f f' : Function}
    (hheld : l.HoldsBarrier f → l.HoldsBarrier f' ∧ l.Guarded f')
    (hnot : ¬l.HoldsBarrier f → (l.HoldsBarrier f' ↔ l.Spilled loops f f') ∧
      ((∃ p, l.preheader? f' = .ok (some p) ∧ (f'.blockAt p).endsWithBarrier = true) ↔
        l.EnteredFromPhis loops f f')) :
    l.Settled f' ↔ l.HoldsBarrier f ∨ l.Spilled loops f f' ∧ l.Guarded f' ∨
      ¬l.Spilled loops f f' ∧ ¬l.EnteredFromPhis loops f f' := by
  by_cases hhad : l.HoldsBarrier f
  · obtain ⟨hholds, hguarded⟩ := hheld hhad
    exact iff_of_true ⟨fun _ => hguarded, fun hno => absurd hholds hno⟩ (.inl hhad)
  · obtain ⟨hspilled, hentered⟩ := hnot hhad
    rw [Settled, hspilled, ← hentered]
    by_cases hs : l.Spilled loops f f'
    · simp [hhad, hs]
    · simp [hhad, hs]

namespace Describes

variable {l : Loop} {f f' : Function} {r : BlockId}

/-- A loop found afterwards held a barrier before exactly when the loop of its header did. -/
theorem holdsBarrier_iff (hl : l.Describes f'.Edge r) (hsame : LoopBarriers.SameLoops f f' r)
    (hf : f.WellFormed) (hr : f.entry? = some r) :
    l.HoldsBarrier f ↔ Lockstep.HoldsBarrier f r l.header := by
  constructor
  · rintro ⟨x, hx, hxl, hb⟩
    exact ⟨x, (hsame.inLoop_iff _ x hxl).mp ((hl.mem_blocks x).mp hx), hb⟩
  · rintro ⟨x, hx, hb⟩
    have hxl := Search.mem_layout_of_reaches hf (List.mem_of_head? hr) hx.reaches
    exact ⟨x, (hl.mem_blocks x).mpr ((hsame.inLoop_iff _ x hxl).mpr hx), hxl, hb⟩

variable (hl : l.Describes f.Edge r) (hf : f.WellFormed) (hr : f.entry? = some r)
include hl hf

/-- The latch that is found is the only one. -/
theorem latch?_eq_some {x : BlockId} :
    l.latch? f = .ok (some x) ↔ IsSoleLatch f r l.header x := by
  rw [latch?_eq l hf, Except.ok.injEq, hl.sole?_latchList hf]

include hr

/-- The exiting block that is found is the only one. -/
theorem exitingBlock?_eq_some {x : BlockId} :
    l.exitingBlock? f = .ok (some x) ↔ IsSoleExiting f r l.header x := by
  rw [hl.exitingBlock?_eq hf hr, Except.ok.injEq, hl.soleExiting_eq_some]

/-- A loop that is found is guarded if the loop of its header is. -/
theorem guarded (h : Lockstep.Guarded f r l.header) : l.Guarded f where
  preheader p hp := h.preheader p ((hl.preheader?_eq_some hf).mp hp)
  phis := h.phis
  exiting x hx := h.exiting x ((hl.exitingBlock?_eq_some hf hr).mp hx)
  latch x hx := h.latch x ((hl.latch?_eq_some hf).mp hx)

end Describes

end Loop

namespace LoopBarriers

/-- What was known of a loop of the result from the start, and what became of it. -/
theorem Processed.settled {f f' : Function} {tree : DominatorTree} {forest : LoopForest} {l : Loop}
    (h : Processed f f') (htree : DominatorTree.compute f' = .ok tree)
    (hforest : LoopForest.compute f' tree = .ok forest) (hl : l ∈ forest.loops) :
    (l.HoldsBarrier f → l.HoldsBarrier f' ∧ l.Guarded f') ∧
    (¬l.HoldsBarrier f → (l.HoldsBarrier f' ↔ l.Spilled forest.loops f f') ∧
      ((∃ p, l.preheader? f' = .ok (some p) ∧ (f'.blockAt p).endsWithBarrier = true) ↔
        l.EnteredFromPhis forest.loops f f')) := by
  obtain ⟨r, hs, hr, hsteps, hall, horder⟩ := h.exists_steps
  have hf := hsteps.wellFormed
  obtain ⟨hf', hr'⟩ := hsteps.final
  have hsame := hsteps.sameLoops
  have hd := LoopForest.describes_of_compute hf' hr' htree hforest
  have hheld : ∀ o ∈ forest.loops, (o.HoldsBarrier f ↔ HoldsBarrier f r o.header) := fun o ho =>
    (hd.loop o ho).holdsBarrier_iff hsame hf hr
  have hdl := hd.loop l hl
  have hholds := hdl.holdsBarrier_iff (SameLoops.refl f' r) hf' hr'
  have hheader : IsHeader f.Edge r l.header := (hsame.isHeader_iff _).mp hdl.header
  have hstillThere : ∀ o, IsHeader f.Edge r o → ∃ k ∈ forest.loops, k.header = o := fun o ho =>
    hd.complete o ((hsame.isHeader_iff o).mpr ho)
  rw [hheld l hl, hholds]
  refine ⟨fun hhad => ?_, fun hhad => ⟨⟨fun hnow => ?_, ?_⟩, ⟨?_, ?_⟩⟩⟩
  · obtain ⟨hnow, hguarded⟩ := hsteps.guarded_of_holdsBarrier horder ((hall _).mpr hheader) hheader
      hhad
    exact ⟨hnow, hdl.guarded hf' hr' hguarded⟩
  · obtain ⟨o, ho, hne, hholds', hin, x, hx, hor, hends⟩ := hsteps.spills horder hhad hnow
    obtain ⟨k, hk, rfl⟩ := hstillThere o ((hall o).mp ho)
    have hdk := hd.loop k hk
    refine ⟨k, hk, hne, (hdk.mem_blocks _).mpr hin, (hheld k hk).mpr hholds', x,
      (hdl.mem_blocks x).mpr hx, hor.imp (hdk.exitingBlock?_eq_some hf' hr').mpr fun hlatch => ?_,
      hends⟩
    exact ⟨_, Loop.Describes.latches_eq k hf', hdk.mem_latchList.mpr hlatch⟩
  · rintro ⟨-, -, -, -, -, x, hx, -, hends⟩
    exact ⟨x, (hdl.mem_blocks x).mp hx, Block.barrier_mem_of_endsWithBarrier hends⟩
  · rintro ⟨p, hp, hends⟩
    have hp' := (hdl.preheader?_eq_some hf').mp hp
    obtain ⟨hhad', honly⟩ :=
      (hsteps.endsWithBarrier_preheader_iff horder hall hheader hhad hp').mp hends
    obtain ⟨k, hk, rfl⟩ := hstillThere p hhad'.isHeader
    exact ⟨k, hk, hp, (hheld k hk).mpr hhad', honly⟩
  · rintro ⟨k, hk, hp, hhad', honly⟩
    have hp' := (hdl.preheader?_eq_some hf').mp hp
    exact ⟨k.header, hp, (hsteps.endsWithBarrier_preheader_iff horder hall hheader hhad hp').mpr
      ⟨(hheld k hk).mp hhad', honly⟩⟩

end LoopBarriers

/-- **When all that the visits achieve lasts.** In what the pass leaves of a kernel, a loop is
settled if it held a barrier from the start. If it did not, it is settled when nothing disturbs
it, and otherwise only when it happens to be guarded; it holds a barrier exactly when a loop
around it has spilled one, and its preheader ends with one exactly when that was made up of phis
and is the header of a loop with a barrier. -/
theorem Pipeline.runLoopBarriers_settled_iff (options : Options) (detail : Detail) (m : Module)
    (hvalid : m.validate = .ok ()) (hslots : m.functions.length ≤ 2 ^ 32)
    (hfits : ((runLoopBarriers options).run detail m).state.Fits) (changed : Bool)
    (hok : ((runLoopBarriers options).run detail m).result = .ok changed)
    (id : FunctionId) (f : Function) (hacc : options.accepts m id = true)
    (hf : m.function? id = some f) :
    ∃ f' tree forest, ((runLoopBarriers options).run detail m).state.function? id = some f' ∧
      DominatorTree.compute f' = .ok tree ∧ LoopForest.compute f' tree = .ok forest ∧
      ∀ l ∈ forest.loops,
        (l.Settled f' ↔ l.HoldsBarrier f ∨ l.Spilled forest.loops f f' ∧ l.Guarded f' ∨
          ¬l.Spilled forest.loops f f' ∧ ¬l.EnteredFromPhis forest.loops f f') ∧
        (l.HoldsBarrier f → l.HoldsBarrier f' ∧ l.Guarded f') ∧
        (¬l.HoldsBarrier f → (l.HoldsBarrier f' ↔ l.Spilled forest.loops f f') ∧
          ((∃ p, l.preheader? f' = .ok (some p) ∧ (f'.blockAt p).endsWithBarrier = true) ↔
            l.EnteredFromPhis forest.loops f f')) := by
  obtain ⟨f', hf', hprocessed⟩ := exists_processed hvalid hslots hfits hok hacc hf
  obtain ⟨r, hs, -, hsteps, -⟩ := hprocessed.exists_steps
  obtain ⟨hwf', hr'⟩ := hsteps.final
  obtain ⟨tree, htree, ht, -⟩ := DominatorTree.compute_eq_ok hwf' hr'
  obtain ⟨loops, hforest, -⟩ := LoopForest.compute_eq_ok hwf' hr' ht
  refine ⟨f', tree, _, hf', htree, hforest, fun l hl => ?_⟩
  have hsettled := hprocessed.settled htree hforest hl
  exact ⟨Loop.settled_iff hsettled.1 hsettled.2, hsettled⟩

/-- What the pass leaves of the kernel with a loop inside a loop. -/
def nestedResult : Function where
  name := "nested"
  returnType := .void
  parameters := [{ name := "more", ty := .i1 }]
  blocks :=
    [{ id := ⟨0⟩, name := "entry.loopbarrier", instructions := [.barrier, .branch ⟨1⟩] },
      { id := ⟨1⟩, name := "outer.phibarrier"
        instructions :=
          [.phi 0 [(.constant 0, ⟨0⟩), (.constant 1, ⟨3⟩)] .i32, .barrier, .branch ⟨2⟩] },
      { id := ⟨2⟩, name := "inner", instructions := [.branchCond (.param 0) ⟨2⟩ ⟨3⟩] },
      { id := ⟨3⟩, name := "latch"
        instructions := [.barrier, .branchCond (.param 0) ⟨1⟩ ⟨4⟩] },
      { id := ⟨4⟩, name := "exit", instructions := [.ret none] }]
  layout := [⟨0⟩, ⟨1⟩, ⟨2⟩, ⟨3⟩, ⟨4⟩]

/-- The inner loop of that result. -/
def nestedInner : Loop where
  header := ⟨2⟩
  blocks := [⟨2⟩]
  members := [⟨2⟩]
  parent := some 1
  depth := 2

/-- The outer loop of that result. -/
def nestedOuter : Loop where
  header := ⟨1⟩
  blocks := [⟨1⟩, ⟨2⟩, ⟨3⟩]
  members := [⟨2⟩, ⟨3⟩, ⟨1⟩]
  children := [0]

/-- **Not all lasts.** In the kernel with a loop inside a loop, the preheader of the inner loop is
the header of the outer one, which gets a barrier behind its phis after the turn of the inner
loop. The inner loop holds no barrier, so its preheader should not end with one. -/
theorem Pipeline.runLoopBarriers_nested_not_settled :
    nestedModule.validate = .ok () ∧
    ((runLoopBarriers { kernel := some "nested" }).run none nestedModule).result = .ok true ∧
    ∃ f' tree forest, ((runLoopBarriers { kernel := some "nested" }).run none
        nestedModule).state.function? ⟨0⟩ = some f' ∧
      DominatorTree.compute f' = .ok tree ∧ LoopForest.compute f' tree = .ok forest ∧
      ∃ l ∈ forest.loops, ¬l.HoldsBarrier f' ∧ ¬l.Settled f' := by
  refine ⟨by decide +kernel, by decide +kernel, nestedResult,
    ⟨some ⟨0⟩, [some ⟨0⟩, some ⟨0⟩, some ⟨1⟩, some ⟨2⟩, some ⟨3⟩]⟩, ⟨[nestedInner, nestedOuter]⟩,
    by decide +kernel, by decide +kernel, by decide +kernel, nestedInner, List.mem_cons_self, ?_⟩
  have hnot : ¬nestedInner.HoldsBarrier nestedResult := by decide +kernel
  refine ⟨hnot, fun hsettled => ?_⟩
  have hends := hsettled.2 hnot ⟨1⟩ (by decide +kernel)
  revert hends
  decide +kernel

/-- What the run on the kernel with a loop inside a loop leaves, and when each of its loops is
settled. -/
theorem Pipeline.runLoopBarriers_settled_iff_nested :
    nestedModule.validate = .ok () ∧
    ((runLoopBarriers { kernel := some "nested" }).run none nestedModule).state.Fits ∧
    ((runLoopBarriers { kernel := some "nested" }).run none nestedModule).result = .ok true ∧
    ∃ f' tree forest, ((runLoopBarriers { kernel := some "nested" }).run none
        nestedModule).state.function? ⟨0⟩ = some f' ∧
      DominatorTree.compute f' = .ok tree ∧ LoopForest.compute f' tree = .ok forest ∧
      ∀ l ∈ forest.loops, (l.Settled f' ↔ l.HoldsBarrier nestedLoops ∨
        l.Spilled forest.loops nestedLoops f' ∧ l.Guarded f' ∨
          ¬l.Spilled forest.loops nestedLoops f' ∧
            ¬l.EnteredFromPhis forest.loops nestedLoops f') := by
  have hvalid : nestedModule.validate = .ok () := by decide +kernel
  have hfits : ((runLoopBarriers { kernel := some "nested" }).run none
      nestedModule).state.Fits := by decide +kernel
  have hok : ((runLoopBarriers { kernel := some "nested" }).run none nestedModule).result =
      .ok true := by decide +kernel
  obtain ⟨f', tree, forest, hf', htree, hforest, hall⟩ :=
    runLoopBarriers_settled_iff { kernel := some "nested" } none nestedModule hvalid (by decide)
      hfits true hok ⟨0⟩ nestedLoops (by decide +kernel) (by decide +kernel)
  exact ⟨hvalid, hfits, hok, f', tree, forest, hf', htree, hforest, fun l hl => (hall l hl).1⟩

end Lockstep
