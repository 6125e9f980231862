import Lockstep.Proofs.Flow.Nesting
import Lockstep.Proofs.LoopBarriers.Frame
import Lockstep.Proofs.LoopBarriers.Visit

/-!
# Visiting all loops of a kernel

A run over a kernel visits its loops one after the other. `LoopBarriers.Visits` is such a run as a
relation between what is known before and after; in every state on the way all that is known is
right. The pass follows it until it comes to a loop without a preheader. Visits neither give nor
take preheaders, so whether there is such a loop can be told from the start.

## Main results

* `LoopBarriers.enterable_visited_iff`: a loop has a preheader after a visit exactly when it had
  one before.
* `LoopBarriers.Visits.ends`: what visits leave is what the pass leaves.
* `LoopBarriers.runLoops_ends`: the pass visits loops, or fails at one without a preheader.
-/

namespace Lockstep

/-! ### Preheaders -/

/-- The loop of the header has a preheader. -/
def Enterable (f : Function) (r h : BlockId) : Prop :=
  ∃ p, IsPreheader f r h p

/-- Preheaders depend on the branches only. -/
theorem Enterable.congr {f f' : Function} {r h : BlockId} (hnext : f'.next = f.next)
    (hedge : f'.Edge = f.Edge) : Enterable f' r h ↔ Enterable f r h := by
  have hone : ∀ {g g' : Function}, g'.next = g.next → g'.Edge = g.Edge → Enterable g r h →
      Enterable g' r h := by
    rintro g g' hn he ⟨p, hp⟩
    exact ⟨p, he ▸ hp.edge, he ▸ hp.outside, he ▸ hp.only, hn ▸ hp.next_eq⟩
  exact ⟨hone hnext.symm hedge.symm, hone hnext hedge⟩

namespace LoopBarriers

variable {w w' : Work DominatorTree} {f : Function} {l : Loop} {r p q h h' : BlockId} {i : Nat}
  {detail : Detail}

section Isolate

variable (hf : f.WellFormed) (hroom : f.capacity < 2 ^ 32) (hr : r ∈ f.layout)
  (hp : IsPreheader f r h p)
include hf hroom hr hp

/-- The block that is split off a preheader takes its place. -/
theorem isPreheader_nextBlock (hh : IsHeader f.Edge r h) :
    IsPreheader (isolate f p) r h f.nextBlock := by
  have hs := splitsOff_isolate hf hroom hp.edge.1 hr
  refine ⟨hs.edge_moved hp.edge, fun hin => hp.outside (hs.inLoop_new_iff.mp hin),
    fun x hx hout => ?_, by rw [next_isolate hf hroom hp.edge.1, if_pos rfl, hp.next_eq]⟩
  rcases (hs.edge_iff x h).mp hx with ⟨-, heq⟩ | ⟨heq, -⟩ | ⟨hne, hedge⟩
  · exact absurd heq (hs.ne_of_reaches hh.reaches)
  · exact heq
  · refine absurd (hp.only x hedge fun hin => hout ?_) hne
    exact (hs.inLoop_iff fun hxn => hs.no_edge_from h (hxn ▸ hedge)).mpr hin

/-- Other preheaders stay what they are. -/
theorem isPreheader_isolate (hh' : IsHeader f.Edge r h') (hne : h' ≠ h)
    (hq : IsPreheader f r h' q) : IsPreheader (isolate f p) r h' q := by
  have hs := splitsOff_isolate hf hroom hp.edge.1 hr
  have hold : ∀ x y, f.Edge x y → x ≠ f.nextBlock := fun x y hxy hxn =>
    hs.no_edge_from y (hxn ▸ hxy)
  have hqn := hold q h' hq.edge
  have hqp : q ≠ p := by
    rintro rfl
    exact hne (List.singleton_inj.mp (hq.next_eq.symm.trans hp.next_eq))
  have hnext : (isolate f p).next q = f.next q := by
    rw [next_isolate hf hroom hp.edge.1, if_neg hqn, if_neg hqp]
  refine ⟨hs.edge_kept hqp hq.edge, fun hin => hq.outside ((hs.inLoop_iff hqn).mp hin),
    fun x hx hout => ?_, hnext.trans hq.next_eq⟩
  rcases (hs.edge_iff x h').mp hx with ⟨-, heq⟩ | ⟨-, hedge⟩ | ⟨-, hedge⟩
  · exact absurd heq (hs.ne_of_reaches hh'.reaches)
  · exact absurd (List.mem_singleton.mp (hp.next_eq ▸ hedge.2)) hne
  · exact hq.only x hedge fun hin => hout ((hs.inLoop_iff (hold x h' hedge)).mpr hin)

/-- No other preheaders appear. -/
theorem isPreheader_of_isolate (hh' : IsHeader f.Edge r h') (hne : h' ≠ h)
    (hq : IsPreheader (isolate f p) r h' q) : IsPreheader f r h' q := by
  have hs := splitsOff_isolate hf hroom hp.edge.1 hr
  have hbranch := hq.next_eq
  rw [next_isolate hf hroom hp.edge.1] at hbranch
  have hqn : q ≠ f.nextBlock := by
    intro hqn
    rw [if_pos hqn, hp.next_eq] at hbranch
    exact hne (List.singleton_inj.mp hbranch).symm
  rw [if_neg hqn] at hbranch
  have hqp : q ≠ p := by
    intro hqp
    rw [if_pos hqp] at hbranch
    exact hs.ne_of_reaches hh'.reaches (List.singleton_inj.mp hbranch).symm
  rw [if_neg hqp] at hbranch
  have hedge : f.Edge q h' := by
    rcases (hs.edge_iff q h').mp hq.edge with ⟨heq, -⟩ | ⟨heq, -⟩ | ⟨-, hedge⟩
    · exact absurd heq hqp
    · exact absurd heq hqn
    · exact hedge
  refine ⟨hedge, fun hin => hq.outside ((hs.inLoop_iff hqn).mpr hin), fun x hx hout => ?_, hbranch⟩
  have hxp : x ≠ p := by
    rintro rfl
    exact hne (List.mem_singleton.mp (hp.next_eq ▸ hx.2))
  have hxn : x ≠ f.nextBlock := fun hxn => hs.no_edge_from h' (hxn ▸ hx)
  exact hq.only x (hs.edge_kept hxp hx) fun hin => hout ((hs.inLoop_iff hxn).mp hin)

/-- Splitting the preheader of one loop neither gives nor takes another loop's preheader. -/
theorem enterable_isolate_iff (hh' : IsHeader f.Edge r h') :
    Enterable (isolate f p) r h' ↔ Enterable f r h' := by
  by_cases hne : h' = h
  · subst hne
    exact ⟨fun _ => ⟨p, hp⟩, fun _ => ⟨_, isPreheader_nextBlock hf hroom hr hp hh'⟩⟩
  · exact ⟨fun ⟨q, hq⟩ => ⟨q, isPreheader_of_isolate hf hroom hr hp hh' hne hq⟩,
      fun ⟨q, hq⟩ => ⟨q, isPreheader_isolate hf hroom hr hp hh' hne hq⟩⟩

end Isolate

/-- A loop has a preheader after a visit exactly when it had one before. -/
theorem enterable_visited_iff (hw : Sound w r) (hl : l ∈ w.loops.loops)
    (hp : l.soleEntry w.function = some p)
    (hfits : (visited w l p).function.capacity ≤ 2 ^ 32) (hh : IsHeader w.function.Edge r h) :
    Enterable (visited w l p).function r h ↔ Enterable w.function r h := by
  have hf := hw.wellFormed
  have hd := hw.forest.loop l hl
  have hpre := (hd.soleEntry_eq_some hf).mp hp
  rw [visited] at hfits ⊢
  split
  · rename_i barrier _
    have hplaces := mem_layout_of_mem_places hf hw.entry hd hpre.edge.1
      (dominated w.dominance barrier)
    exact Enterable.congr (hf.next_guardAll hplaces) (hf.edge_guardAll hplaces)
  · rename_i hnone
    simp only [hnone] at hfits
    split
    · rename_i hends
      rw [if_pos hends, capacity_isolate] at hfits
      exact enterable_isolate_iff hf hfits (List.mem_of_head? hw.entry) hpre hh
    · exact Iff.rfl

/-- A visit changes no header. -/
theorem map_header_visited (w : Work DominatorTree) (l : Loop) (p : BlockId) :
    (visited w l p).loops.loops.map Loop.header = w.loops.loops.map Loop.header := by
  rw [visited]
  split
  · rfl
  · split
    · simp [LoopForest.addBlockLike, Function.comp_def, LoopForest.header_insertAfter]
    · rfl

/-- The loops keep their places and their headers. -/
theorem exists_getElem?_visited {i : Nat} (l : Loop) (p : BlockId) {k : Loop}
    (hk : w.loops.loops[i]? = some k) :
    ∃ k', (visited w l p).loops.loops[i]? = some k' ∧ k'.header = k.header := by
  have hmap := congrArg (·[i]?) (map_header_visited w l p)
  simpa [hk] using hmap

/-- A visit leaves the headers as they are. -/
theorem isHeader_visited_iff (hw : Sound w r) (hl : l ∈ w.loops.loops)
    (hp : l.soleEntry w.function = some p)
    (hfits : (visited w l p).function.capacity ≤ 2 ^ 32) :
    IsHeader (visited w l p).function.Edge r h ↔ IsHeader w.function.Edge r h := by
  have hw' := hw.visited hl hp hfits
  have hiff : ∀ {v : Work DominatorTree}, Sound v r →
      (IsHeader v.function.Edge r h ↔ h ∈ v.loops.loops.map Loop.header) := by
    intro v hv
    rw [List.mem_map]
    refine ⟨hv.forest.complete h, ?_⟩
    rintro ⟨l, hl, rfl⟩
    exact (hv.forest.loop l hl).header
  rw [hiff hw', hiff hw, map_header_visited]

/-! ### Runs -/

/-- The loops with these indices are visited one after the other; each has a preheader when its
turn comes. -/
inductive Visits (r : BlockId) : Work DominatorTree → List Nat → Work DominatorTree → Prop
  | done {w : Work DominatorTree} : Sound w r → Visits r w [] w
  | visit {w w' : Work DominatorTree} {i : Nat} {is : List Nat} {l : Loop} {p : BlockId} :
      Sound w r → w.loops.get? i = some l → l.soleEntry w.function = some p →
      Visits r (visited w l p) is w' → Visits r w (i :: is) w'

/-- A visit extends the function. -/
theorem extends_visited (hw : Sound w r) (hi : w.loops.get? i = some l)
    (hp : l.soleEntry w.function = some p) : w.function.Extends (visited w l p).function := by
  obtain ⟨_, hends⟩ := processLoop_ends hw hi hp none
  exact hends.2 ▸ processLoop_keeps i none w

namespace Visits

variable {is : List Nat}

/-- The loops and their order determine what is left. -/
theorem unique {w'' : Work DominatorTree} (h : Visits r w is w') (h' : Visits r w is w'') :
    w' = w'' := by
  induction h with
  | done => cases h' with | done => rfl
  | visit _ hi hp _ ih =>
      cases h' with
      | visit _ hi' hp' hrest' =>
          obtain rfl := Option.some.inj (hi.symm.trans hi')
          obtain rfl := Option.some.inj (hp.symm.trans hp')
          exact ih hrest'

/-- The visits of a run extend the function. -/
theorem extended (h : Visits r w is w') : w.function.Extends w'.function := by
  induction h with
  | done => exact .refl _
  | visit hw hi hp _ ih => exact (extends_visited hw hi hp).trans ih

/-- The control flow is known before the visits. -/
theorem sound (h : Visits r w is w') : Sound w r := by
  cases h <;> assumption

/-- The control flow is known after the visits. -/
theorem sound_final (h : Visits r w is w') : Sound w' r := by
  induction h with
  | done hw => exact hw
  | visit _ _ _ _ ih => exact ih

/-- The visits of a run leave the headers as they are. -/
theorem isHeader_iff (h : Visits r w is w') :
    IsHeader w'.function.Edge r h' ↔ IsHeader w.function.Edge r h' := by
  induction h with
  | done => exact Iff.rfl
  | visit hw hi hp hrest ih =>
      exact ih.trans (isHeader_visited_iff hw (List.mem_of_getElem? hi) hp
        hrest.sound.wellFormed.fits)

/-- A run neither gives nor takes preheaders. -/
theorem enterable_iff (h : Visits r w is w') (hh : IsHeader w.function.Edge r h') :
    Enterable w'.function r h' ↔ Enterable w.function r h' := by
  induction h with
  | done => exact Iff.rfl
  | visit hw hi hp hrest ih =>
      have hl := List.mem_of_getElem? hi
      have hfits := hrest.sound.wellFormed.fits
      exact (ih ((isHeader_visited_iff hw hl hp hfits).mpr hh)).trans
        (enterable_visited_iff hw hl hp hfits hh)

/-- Every loop that is visited had a preheader from the start. -/
theorem enterable (h : Visits r w is w') {i : Nat} (hi : i ∈ is) {l : Loop}
    (hl : w.loops.loops[i]? = some l) : Enterable w.function r l.header := by
  induction h generalizing l with
  | done => cases hi
  | @visit w w' j is k p hw hj hp hrest ih =>
      have hk := List.mem_of_getElem? hj
      rcases List.mem_cons.mp hi with rfl | hi
      · obtain rfl : k = l := Option.some.inj (hj.symm.trans hl)
        exact ⟨p, ((hw.forest.loop k hk).soleEntry_eq_some hw.wellFormed).mp hp⟩
      · obtain ⟨l', hl', hheader⟩ := exists_getElem?_visited k p hl
        have henter := ih hi hl'
        rw [hheader] at henter
        exact (enterable_visited_iff hw hk hp hrest.sound.wellFormed.fits
          (hw.forest.loop l (List.mem_of_getElem? hl)).header).mp henter

end Visits

/-! ### The pass on one kernel -/

variable {selection : Kernel.Selection} {m : Module} {id : FunctionId}

/-- The module with what was reached in one of its functions. -/
def held (m : Module) (id : FunctionId) (w : Work DominatorTree) : ModuleWork DominatorTree :=
  { module := m.setFunction id w.function, loops := w.loops, dominance := w.dominance }

/-- A function of a module that is worked on, as far as the work has come. -/
structure Working (selection : Kernel.Selection) (m : Module) (id : FunctionId) (f : Function)
    (w : Work DominatorTree) : Prop where
  accepts : selection.accepts m id = true
  function? : m.function? id = some f
  extended : f.Extends w.function

namespace Working

/-- The function that is worked on is still selected. -/
theorem accepts_held (h : Working selection m id f w) :
    selection.accepts (held m id w).module id = true :=
  ((Module.Extends.setFunction h.accepts h.function? h.extended).accepts_eq id).trans h.accepts

/-- The module holds the function as far as the work has come. -/
theorem function?_held (h : Working selection m id f w) :
    (held m id w).module.function? id = some w.function :=
  Module.function?_setFunction h.function?

end Working

/-- A tree that is right is found so. -/
theorem verify_ends {σ : Type} {s : σ} (hw : Sound w r) :
    (verify w.dominance w.function : Pass σ Unit).Ends detail s (.ok ()) s :=
  .bind (.lift (hw.tree.mismatch?_eq hw.wellFormed hw.entry)) (.pure ())

/-- The visit of a loop, seen from the module. -/
theorem zoom_ends {result : Except Stop Bool} (hends : (processLoop i).Ends detail w result w') :
    (Pass.zoom
      (fun v => { function := w.function, loops := v.loops, dominance := v.dominance : Work _ })
      (fun done v => { module := v.module.setFunction id done.function, loops := done.loops,
                       dominance := done.dominance : ModuleWork _ })
      (processLoop i)).Ends detail (held m id w) result (held m id w') := by
  have hset : held m id w' =
      ⟨(held m id w).module.setFunction id w'.function, w'.loops, w'.dominance⟩ := by
    rw [held, held, Module.setFunction_setFunction]
  rw [hset]
  exact .zoom hends

/-- Whatever comes of the visit of a loop, the module gets the function that it leaves. -/
theorem runLoop_leaves (h : Working selection m id f w) {result : Except Stop Bool}
    (hends : (processLoop i).Ends detail w result w') :
    (runLoop selection.accepts id i).Leaves detail (held m id w) (· = held m id w') := by
  refine .get_bind ?_
  simp only [h.accepts_held, h.function?_held, Bool.not_true, Bool.false_eq_true, if_false]
  refine .bind (Q := (· = held m id w')) (zoom_ends hends).2 (fun _ heq => heq)
    fun changed v heq => ?_
  subst heq
  exact .get_bind (.bind (verify_keeps _ _ detail _) (fun _ heq => heq.symm) fun _ _ heq =>
    .pure heq.symm)

/-- A visit that is right is accepted. -/
theorem runLoop_ends (h : Working selection m id f w) (hw' : Sound w' r) {changed : Bool}
    (hends : (processLoop i).Ends detail w (.ok changed) w') :
    (runLoop selection.accepts id i).Ends detail (held m id w) (.ok changed) (held m id w') := by
  refine .bind .get ?_
  simp only [h.accepts_held, h.function?_held, Bool.not_true, Bool.false_eq_true, if_false]
  refine .bind (zoom_ends hends) (.bind .get (.bind (a := ()) ?_ (.pure changed)))
  have hheld : (held m id w').module.function? id = some w'.function :=
    Module.function?_setFunction h.function?
  rw [hheld]
  exact verify_ends hw'

/-- An error in the visit of a loop is the error of its turn. -/
theorem runLoop_ends_error (h : Working selection m id f w) {e : Stop}
    (hends : (processLoop i).Ends detail w (.error e) w') :
    (runLoop selection.accepts id i).Ends detail (held m id w) (.error e) (held m id w') := by
  refine .bind .get ?_
  simp only [h.accepts_held, h.function?_held, Bool.not_true, Bool.false_eq_true, if_false]
  exact .bind_error (zoom_ends hends)

/-- Every block of the function that the run leaves has an identifier. -/
def FitsAt (id : FunctionId) (m : Module) : Prop :=
  ∀ f, m.function? id = some f → f.capacity ≤ 2 ^ 32

/-- What was within the bound after the arenas have grown was so before. -/
theorem FitsAt.of_extends {m' : Module} (hfits : FitsAt id m') (hext : m.Extends selection m') :
    FitsAt id m := by
  intro f hf
  rcases hext.function? id with heq | ⟨-, g, g', hg, hg', hgg'⟩
  · exact hfits f (heq.trans hf)
  · obtain rfl := Option.some.inj (hf.symm.trans hg)
    exact Nat.le_trans hgg'.capacity_le (hfits g' hg')

/-- A run over some loops that ends within the bound was within it after its first visit. -/
theorem capacity_le_of_fits (h : Working selection m id f w) {is : List Nat} {changed : Bool}
    {result : Except Stop Bool} (hends : (processLoop i).Ends detail w result w')
    (hfits : (runLoops selection id (i :: is) changed).Leaves detail (held m id w)
      (FitsAt id ·.module)) :
    w'.function.capacity ≤ 2 ^ 32 := by
  rw [runLoops, List.foldlM_cons] at hfits
  have hback : ∀ v v' : ModuleWork DominatorTree, v.Extends selection v' → FitsAt id v'.module →
      FitsAt id v.module := fun _ _ hext h => h.of_extends hext
  have hfirst := (hfits.of_bind (fun changed => runLoops_keeps id is changed) hback).of_bind
    (fun _ _ _ => .pure (.refl _)) hback
  rw [Pass.Leaves, runLoop_leaves h hends] at hfirst
  exact hfirst w'.function (Module.function?_setFunction h.function?)

/-- A visit goes on with the work. -/
theorem Working.visited (h : Working selection m id f w) (hw : Sound w r)
    (hi : w.loops.get? i = some l) (hp : l.soleEntry w.function = some p) :
    Working selection m id f (visited w l p) :=
  ⟨h.accepts, h.function?, h.extended.trans (extends_visited hw hi hp)⟩

/-- One visit as a part of the run. -/
theorem runLoops_step_ends (h : Working selection m id f w) (hw : Sound w r)
    (hi : w.loops.get? i = some l) (hp : l.soleEntry w.function = some p)
    (hw' : Sound (visited w l p) r) (changed : Bool) :
    ∃ changed', (runLoop selection.accepts id i >>= fun a => pure (a || changed)).Ends detail
      (held m id w) (.ok changed') (held m id (visited w l p)) := by
  obtain ⟨stepped, hends⟩ := processLoop_ends hw hi hp detail
  exact ⟨stepped || changed, .bind (runLoop_ends h hw' hends) (.pure _)⟩

/-- **What the visits leave is what the pass leaves.** -/
theorem Visits.ends {is : List Nat} (hvisits : Visits r w is w') (h : Working selection m id f w)
    (changed : Bool) :
    ∃ changed', (runLoops selection id is changed).Ends detail (held m id w) (.ok changed')
      (held m id w') := by
  induction hvisits generalizing changed with
  | done => exact ⟨changed, .pure changed⟩
  | visit hw hi hp hrest ih =>
      obtain ⟨stepped, hstep⟩ := runLoops_step_ends h hw hi hp hrest.sound changed
      obtain ⟨changed', hends⟩ := ih (h.visited hw hi hp) stepped
      rw [runLoops, List.foldlM_cons]
      exact ⟨changed', .bind hstep hends⟩

/-- **The pass over the loops of a kernel.** Either every loop that is visited has a preheader, or
the run stops at a loop that has none, its records being right. -/
theorem runLoops_ends (h : Working selection m id f w) (hw : Sound w r) {is : List Nat}
    (his : ∀ i ∈ is, i < w.loops.loops.length) {changed : Bool}
    (hfits : (runLoops selection id is changed).Leaves detail (held m id w) (FitsAt id ·.module)) :
    (∃ w', Visits r w is w') ∨
    ∃ i ∈ is, ∃ l, w.loops.loops[i]? = some l ∧ ¬Enterable w.function r l.header ∧
      ∃ header w', Sound w' r ∧ (runLoops selection id is changed).Ends detail (held m id w)
        (.error (.error (.nonCanonicalLoop f.name header))) (held m id w') := by
  induction is generalizing w changed with
  | nil => exact .inl ⟨w, .done hw⟩
  | cons i is ih =>
      obtain ⟨l, hi⟩ : ∃ l, w.loops.loops[i]? = some l :=
        ⟨_, List.getElem?_eq_getElem (his i List.mem_cons_self)⟩
      rw [List.forall_mem_cons] at his
      have hl : l ∈ w.loops.loops := List.mem_of_getElem? hi
      have hd := hw.forest.loop l hl
      cases hp : l.soleEntry w.function with
      | none =>
          have hnone : ¬Enterable w.function r l.header := by
            rintro ⟨p, hpre⟩
            rw [(hd.soleEntry_eq_some hw.wellFormed).mpr hpre] at hp
            cases hp
          have hstep := runLoop_ends_error h (processLoop_ends_of_none hw hi hp detail)
          rw [h.extended.name] at hstep
          refine .inr ⟨i, List.mem_cons_self, l, hi, hnone, (w.function.blockAt l.header).name, w,
            hw, ?_⟩
          rw [runLoops, List.foldlM_cons]
          exact .bind_error (.bind_error hstep)
      | some p =>
          obtain ⟨_, hends⟩ := processLoop_ends hw hi hp detail
          have hcap := capacity_le_of_fits h hends hfits
          have hw' := hw.visited hl hp hcap
          obtain ⟨stepped, hstep⟩ := runLoops_step_ends h hw hi hp hw' changed
          rw [runLoops, List.foldlM_cons] at hfits ⊢
          have hlength : (visited w l p).loops.loops.length = w.loops.loops.length := by
            simpa using congrArg List.length (map_header_visited w l p)
          rcases ih (h.visited hw hi hp) hw' (hlength ▸ his.2) (hstep.leaves_bind hfits)
            with ⟨w', hvisits⟩ | ⟨j, hj, l', hl', hnot, header, w', hsound, hrest⟩
          · exact .inl ⟨w', .visit hw hi hp hvisits⟩
          · obtain ⟨l₀, hl₀⟩ : ∃ l₀, w.loops.loops[j]? = some l₀ :=
              ⟨_, List.getElem?_eq_getElem (his.2 j hj)⟩
            obtain ⟨k, hk, hheader⟩ := exists_getElem?_visited l p hl₀
            obtain rfl : l' = k := Option.some.inj (hl'.symm.trans hk)
            refine .inr ⟨j, List.mem_cons_of_mem _ hj, l₀, hl₀, fun henter => hnot ?_, header, w',
              hsound, .bind hstep hrest⟩
            rw [hheader]
            exact (enterable_visited_iff hw hl hp hcap
              (hw.forest.loop l₀ (List.mem_of_getElem? hl₀)).header).mpr henter

end LoopBarriers

end Lockstep
