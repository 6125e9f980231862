import Lockstep.Proofs.LoopBarriers.Guarantees

/-!
# Preheaders are split once

A visit splits the preheader of a loop when the loop holds no barrier and the preheader ends with
one. Afterwards the loop is entered from a block that holds nothing but its terminator, and since
that block is no header, later visits put no barrier there. They may put one into the loop, and then
its preheader is not split for another reason. So a loop whose preheader was split is marked for
good, and its preheader is not split again, however often the pass is run.

The traces in this module record which preheaders the visits of a run split. They follow the pass
from state to state, and count exactly the blocks that it adds.

## Main results

* `LoopBarriers.Step.isolated` and `LoopBarriers.Step.capacity_cases`: what a visit does to the mark
  of a loop, and when it adds a block.
* `LoopBarriers.Visits.marks` and `LoopBarriers.Treated.marks`: in a run over the loops of a kernel,
  and in one over the kernels of a module, no preheader is split twice.
-/

namespace Lockstep

/-! ### Events that leave marks -/

/-- Events between two states. Each happens once, where there is no mark for it, and leaves one, and
all marks stay. -/
structure Marks {σ ε : Type} (P : σ → ε → Prop) (s : σ) (events : List ε) (s' : σ) : Prop where
  nodup : events.Nodup
  fresh : ∀ e ∈ events, ¬P s e
  marked : ∀ e ∈ events, P s' e
  kept : ∀ e, P s e → P s' e

namespace Marks

variable {σ ε : Type} {P : σ → ε → Prop} {s s' s'' : σ} {events events' : List ε} {e : ε}

/-- Where nothing happens, all marks stay. -/
theorem nil (hkept : ∀ e, P s e → P s' e) : Marks P s [] s' :=
  ⟨List.nodup_nil, List.forall_mem_nil _, List.forall_mem_nil _, hkept⟩

/-- One event happens where there is no mark for it and leaves one. -/
theorem singleton (hfresh : ¬P s e) (hmarked : P s' e) (hkept : ∀ e, P s e → P s' e) :
    Marks P s [e] s' :=
  ⟨List.nodup_singleton e, by simpa using hfresh, by simpa using hmarked, hkept⟩

/-- What happens later has not happened before. -/
theorem append (h : Marks P s events s') (h' : Marks P s' events' s'') :
    Marks P s (events ++ events') s'' where
  nodup := List.nodup_append.mpr ⟨h.nodup, h'.nodup, fun e he e' he' heq =>
    h'.fresh e' he' (heq ▸ h.marked e he)⟩
  fresh e he := (List.mem_append.mp he).elim (h.fresh e) fun he' hs => h'.fresh e he' (h.kept e hs)
  marked e he := (List.mem_append.mp he).elim (fun he' => h'.kept e (h.marked e he')) (h'.marked e)
  kept e hs := h'.kept e (h.kept e hs)

end Marks

namespace LoopBarriers

variable {f f' : Function} {r h o p : BlockId} {w w' : Work DominatorTree} {is : List Nat}
  {detail : Detail} {selection : Kernel.Selection} {m m' : Module} {id : FunctionId}
  {ids : List FunctionId}

/-! ### Loops whose preheaders are not split -/

/-- The loop holds a barrier, or it is entered from a block that is no header and does not end with
a barrier. -/
def Isolated (f : Function) (r h : BlockId) : Prop :=
  IsHeader f.Edge r h ∧ (HoldsBarrier f r h ∨
    ∃ q, IsPreheader f r h q ∧ ¬IsHeader f.Edge r q ∧ (f.blockAt q).endsWithBarrier = false)

namespace Step

variable (hready : Ready f r h p) (hstep : Step f r h p f')
include hready hstep

/-- **A loop stays isolated** in all turns. A preheader that is no header is not touched in the turn
of another loop. -/
theorem isolated (ho : Isolated f r o) : Isolated f' r o := by
  obtain ⟨hheader, hcases⟩ := ho
  refine ⟨(hstep.isHeader_iff hready).mpr hheader, ?_⟩
  rcases hcases with hholds | ⟨q, hq, hnot, hends⟩
  · exact .inl (hstep.holdsBarrier hready hholds)
  by_cases hoh : o = h
  · subst hoh
    obtain rfl := hq.unique hready.preheader
    cases hstep with
    | surround hl heq hholds =>
        exact .inl (Step.holdsBarrier hready (.surround hl heq hholds) hholds)
    | isolate _ _ hends' =>
        rw [hends] at hends'
        cases hends'
    | pass => exact .inr ⟨q, hq, hnot, hends⟩
  · have hqh : q ≠ h := by
      rintro rfl
      exact hnot hready.header
    refine .inr ⟨q, (hstep.isPreheader_iff hready hheader hoh).mpr hq,
      mt (hstep.isHeader_iff hready).mp hnot, ?_⟩
    rw [Block.endsWithBarrier_eq_of_shape (hstep.shape_preheader hready hq hoh hqh), hends]

/-- **When a turn adds a block**: the loop was not isolated, and now it is. -/
theorem capacity_cases : f'.capacity = f.capacity ∨
    f'.capacity = f.capacity + 1 ∧ ¬Isolated f r h ∧ Isolated f' r h := by
  have hheader := (hstep.isHeader_iff hready).mpr hready.header
  cases hstep with
  | surround => exact .inl Function.capacity_guardAll
  | pass => exact .inl rfl
  | isolate hroom hnot hends =>
      have hstep : Step f r h p (LoopBarriers.isolate f p) := .isolate hroom hnot hends
      have hq := isPreheader_nextBlock hready.wellFormed hroom hready.root_mem hready.preheader
        hready.header
      obtain ⟨hends', ⟨-, heq⟩ | ⟨-, hnoHeader⟩⟩ := hstep.unguarded hready hnot hq
      · have hcapacity := congrArg Function.capacity heq
        rw [capacity_isolate] at hcapacity
        exact absurd hcapacity (Nat.succ_ne_self _)
      refine .inr ⟨capacity_isolate, ?_, hheader, .inr ⟨_, hq, hnoHeader, hends'⟩⟩
      rintro ⟨-, hholds | ⟨q, hq, -, hends'⟩⟩
      · exact hnot hholds
      · rw [hq.unique hready.preheader, hends] at hends'
        cases hends'

end Step

/-! ### The splits of a run -/

/-- The loops, by their headers, whose visits add a block to the function. -/
def splitTurns (detail : Detail) : Work DominatorTree → List Nat → List BlockId
  | _, [] => []
  | w, i :: is =>
      let w' := ((processLoop i).run detail w).state
      let rest := splitTurns detail w' is
      if w.function.capacity < w'.function.capacity then
        ((w.loops.get? i).map Loop.header).toList ++ rest
      else rest

/-- The loops of a kernel, by their headers, whose preheaders are split in its turn. -/
def splitHeaders (detail : Detail) (f : Function) : List BlockId :=
  match DominatorTree.compute f with
  | .error _ => []
  | .ok tree =>
      match LoopForest.compute f tree with
      | .error _ => []
      | .ok forest => splitTurns detail ⟨f, forest, tree⟩ forest.postorder

/-- **In a run over the loops of a kernel** no preheader is split twice. -/
theorem Visits.marks (hvisits : Visits r w is w') (detail : Detail) :
    Marks (Isolated · r) w.function (splitTurns detail w is) w'.function ∧
      w'.function.capacity = w.function.capacity + (splitTurns detail w is).length := by
  induction hvisits with
  | done => exact ⟨.nil fun _ => id, rfl⟩
  | @visit w w' i is l p hw hi hp hrest ih =>
      obtain ⟨hready, hstep⟩ := step_visited hw (List.mem_of_getElem? hi) hp
        hrest.sound.wellFormed.fits
      obtain ⟨_, hends⟩ := processLoop_ends hw hi hp detail
      have hkept : ∀ o, Isolated w.function r o → Isolated (visited w l p).function r o :=
        fun o => hstep.isolated hready
      rw [splitTurns, hends.2]
      rcases hstep.capacity_cases hready with hsame | ⟨hmore, hfresh, hmarked⟩
      · rw [if_neg (by omega), ← hsame]
        exact ⟨(Marks.nil hkept).append ih.1, ih.2⟩
      · have hfirst : Marks (Isolated · r) w.function [l.header] (visited w l p).function :=
          .singleton hfresh hmarked hkept
        rw [if_pos (by omega), hi]
        refine ⟨hfirst.append ih.1, ?_⟩
        rw [ih.2, hmore]
        simp only [Option.map_some, Option.toList_some, List.singleton_append, List.length_cons]
        omega

/-- The turn of a kernel splits the preheader of a loop once at most, and never that of an isolated
loop; every split isolates its loop for good and adds one block. -/
theorem Processed.marks (hprocessed : Processed f f') (detail : Detail) :
    ∃ r, f.entry? = some r ∧ f'.entry? = some r ∧
      Marks (Isolated · r) f (splitHeaders detail f) f' ∧
      f'.capacity = f.capacity + (splitHeaders detail f).length := by
  obtain ⟨htree, hforest, -, hvisits⟩ := hprocessed
  refine ⟨_, hvisits.sound.entry, hvisits.sound_final.entry, ?_⟩
  rw [splitHeaders, htree]
  simp only [hforest]
  exact hvisits.marks detail

/-! ### The splits in a module -/

/-- The loop of a function of the module is isolated. -/
def IsolatedIn (m : Module) (loop : FunctionId × BlockId) : Prop :=
  ∃ f r, m.function? loop.1 = some f ∧ f.entry? = some r ∧ Isolated f r loop.2

/-- The loops, by their functions and headers, whose preheaders are split in the turn of a
function. -/
def splitsAt (accepts : KernelPredicate) (detail : Detail) (m : Module) (id : FunctionId) :
    List (FunctionId × BlockId) :=
  if accepts m id then ((m.function? id).elim [] (splitHeaders detail)).map (id, ·) else []

/-- Those whose preheaders are split in the turns of some functions. -/
def splitsOver (accepts : KernelPredicate) (detail : Detail) :
    Module → List FunctionId → List (FunctionId × BlockId)
  | _, [] => []
  | m, id :: ids => splitsAt accepts detail m id ++
      splitsOver accepts detail ((runFunction accepts false id).run detail m).state ids

/-- The number of blocks in the arena of a function of the module. -/
def capacityAt (m : Module) (id : FunctionId) : Nat :=
  (m.function? id).elim 0 Function.capacity

/-- What the turn of a kernel marks in the module. -/
theorem Processed.marks_setFunction (hprocessed : Processed f f') (hf : m.function? id = some f)
    (detail : Detail) :
    Marks IsolatedIn m ((splitHeaders detail f).map (id, ·)) (m.setFunction id f') := by
  obtain ⟨r, hr, hr', hmarks, -⟩ := hprocessed.marks detail
  refine ⟨hmarks.nodup.map fun _ _ heq => (Prod.mk.inj heq).2, fun loop hloop => ?_,
    fun loop hloop => ?_, fun loop hloop => ?_⟩
  · obtain ⟨h, hh, rfl⟩ := List.mem_map.mp hloop
    rintro ⟨g, r', hg, hgr, hisolated⟩
    obtain rfl := Option.some.inj (hf.symm.trans hg)
    obtain rfl := Option.some.inj (hr.symm.trans hgr)
    exact hmarks.fresh h hh hisolated
  · obtain ⟨h, hh, rfl⟩ := List.mem_map.mp hloop
    exact ⟨f', r, Module.function?_setFunction hf, hr', hmarks.marked h hh⟩
  · obtain ⟨g, r', hg, hgr, hisolated⟩ := hloop
    by_cases heq : loop.1 = id
    · rw [heq] at hg
      obtain rfl := Option.some.inj (hf.symm.trans hg)
      obtain rfl := Option.some.inj (hr.symm.trans hgr)
      refine ⟨f', r, ?_, hr', hmarks.kept _ hisolated⟩
      rw [heq, Module.function?_setFunction hf]
    · exact ⟨g, r', (Module.function?_setFunction_ne heq).trans hg, hgr, hisolated⟩

/-- How many blocks the turn of a kernel adds. -/
theorem Processed.capacityAt_setFunction (hprocessed : Processed f f')
    (hf : m.function? id = some f) (detail : Detail) (id' : FunctionId) :
    capacityAt (m.setFunction id f') id' = capacityAt m id' +
      ((splitHeaders detail f).map (id, ·)).countP (·.1 = id') := by
  obtain ⟨-, -, -, -, hcapacity⟩ := hprocessed.marks detail
  by_cases heq : id' = id
  · subst heq
    have hall : ((splitHeaders detail f).map (id', ·)).countP (·.1 = id') =
        (splitHeaders detail f).length := by
      rw [List.countP_map, List.countP_eq_length]
      simp
    rw [capacityAt, capacityAt, Module.function?_setFunction hf, hf, hall]
    exact hcapacity
  · have hnone : ((splitHeaders detail f).map (id, ·)).countP (·.1 = id') = 0 := by
      rw [List.countP_map, List.countP_eq_zero]
      simp [Ne.symm heq]
    rw [capacityAt, Module.function?_setFunction_ne heq, hnone]
    rfl

/-- **In a run over the kernels of a module** no preheader is split twice, and every new block comes
from a split. -/
theorem Treated.marks (htreated : Treated selection m ids m') (detail : Detail) :
    Marks IsolatedIn m (splitsOver selection.accepts detail m ids) m' ∧
      ∀ id, capacityAt m' id =
        capacityAt m id + (splitsOver selection.accepts detail m ids).countP (·.1 = id) := by
  induction htreated with
  | done => exact ⟨.nil fun _ => id, fun _ => rfl⟩
  | @skip m m' id ids hnot _ ih =>
      rwa [splitsOver, (runFunction_ends_of_rejected hnot detail false).2, splitsAt,
        if_neg (by simp [hnot]), List.nil_append]
  | @work m m' id ids f f' hacc hf hprocessed _ ih =>
      obtain ⟨_, hends⟩ := hprocessed.ends hacc hf detail false
      rw [splitsOver, hends.2, splitsAt, if_pos hacc, hf, Option.elim_some]
      refine ⟨(hprocessed.marks_setFunction hf detail).append ih.1, fun id' => ?_⟩
      rw [List.countP_append, ih.2, hprocessed.capacityAt_setFunction hf detail, Nat.add_assoc]

end LoopBarriers

end Lockstep
