import Lockstep.Proofs.LoopBarriers.Changes
import Lockstep.Proofs.LoopBarriers.Splits
import Mathlib.Data.Finset.Card

/-!
# Repeated runs come to an end

The pass can be run on what it leaves. A run may make another one necessary: a barrier that it puts
into a block may end the preheader of a loop that was visited before. Still, every visit that
changes something takes from what is left to do. A visit that guards a loop gives a barrier to a
block that had none at its end or behind its phis. A visit that splits a preheader isolates a loop
for good, and adds a block without a barrier, which weighs less. So there is a run that changes
nothing, and all later runs change nothing either.

## Main results

* `LoopBarriers.Step.slack_lt`: a visit that changes something leaves less to do.
* `LoopBarriers.Treated.slack_lt`: so does a run.
* `Pipeline.runLoopBarriers_converges`: after some runs nothing changes any more, and no run ever
  splits a preheader that was split before.
-/

namespace Lockstep

/-! ### Counting blocks -/

namespace Function

variable {f f' : Function} {P P' : BlockId → Prop} {x n : BlockId}

open Classical in
/-- The number of blocks of the body that have some property. -/
noncomputable def tally (f : Function) (P : BlockId → Prop) : Nat :=
  (f.layout.toFinset.filter P).card

/-- A function in which no further block satisfies the condition has no larger tally. -/
theorem tally_le (h : ∀ x ∈ f'.layout, P' x → x ∈ f.layout ∧ P x) : f'.tally P' ≤ f.tally P := by
  refine Finset.card_le_card fun x hx => ?_
  simp only [Finset.mem_filter, List.mem_toFinset] at hx ⊢
  exact h x hx.1 hx.2

/-- Its tally is smaller if a block does not satisfy the condition any more. -/
theorem tally_lt (h : ∀ x ∈ f'.layout, P' x → x ∈ f.layout ∧ P x) (hx : x ∈ f.layout) (hP : P x)
    (hP' : ¬P' x) : f'.tally P' < f.tally P := by
  refine Finset.card_lt_card (Finset.ssubset_iff_of_subset ?_ |>.mpr ⟨x, ?_, ?_⟩)
  · intro y hy
    simp only [Finset.mem_filter, List.mem_toFinset] at hy ⊢
    exact h y hy.1 hy.2
  · simp only [Finset.mem_filter, List.mem_toFinset]
    exact ⟨hx, hP⟩
  · simp only [Finset.mem_filter, not_and]
    exact fun _ => hP'

/-- One block more. -/
theorem tally_le_succ (h : ∀ x ∈ f'.layout, P' x → x = n ∨ x ∈ f.layout ∧ P x) :
    f'.tally P' ≤ f.tally P + 1 := by
  refine le_trans (Finset.card_le_card fun x hx => ?_) (Finset.card_insert_le n _)
  simp only [Finset.mem_filter, Finset.mem_insert, List.mem_toFinset] at hx ⊢
  exact h x hx.1 hx.2

end Function

/-! ### What is left to do -/

namespace LoopBarriers

variable {f f' : Function} {r h p : BlockId} {hs : List BlockId}

/-- The preheader of the loop may still be split. -/
def Exposed (f : Function) (r h : BlockId) : Prop :=
  IsHeader f.Edge r h ∧ ¬Isolated f r h

/-- A bound on what the visits of a function can still do. A split counts twice, since it adds a
block that does not end with a barrier. -/
noncomputable def slack (f : Function) (r : BlockId) : Nat :=
  2 * f.tally (Exposed f r) + f.tally (fun x => (f.blockAt x).endsWithBarrier = false) +
    f.tally fun x => ¬(f.blockAt x).phisGuarded

namespace Step

variable (hready : Ready f r h p) (hstep : Step f r h p f')
include hready hstep

/-- A loop whose preheader may still be split was such a loop before the visit. -/
theorem exposed {o : BlockId} (ho : Exposed f' r o) : o ∈ f.layout ∧ Exposed f r o := by
  have hheader := (hstep.isHeader_iff hready).mp ho.1
  exact ⟨hready.mem_of_inLoop hheader.inLoop, hheader, mt (hstep.isolated hready) ho.2⟩

/-- A block of the old body that does not end with a barrier now did not end with one before. -/
theorem not_endsWithBarrier {x : BlockId} (hx : x ∈ f.layout)
    (hends : (f'.blockAt x).endsWithBarrier = false) : (f.blockAt x).endsWithBarrier = false := by
  rw [Bool.eq_false_iff] at hends ⊢
  exact mt (hstep.endsWithBarrier hready hx) hends

/-- A visit that guards a place of a block leaves less to do. -/
theorem slack_lt_of_gain (hlayout : f'.layout = f.layout) {x : BlockId} (hx : x ∈ f.layout)
    (hgain : (f.blockAt x).endsWithBarrier = false ∧ (f'.blockAt x).endsWithBarrier = true ∨
      ¬(f.blockAt x).phisGuarded ∧ (f'.blockAt x).phisGuarded) : slack f' r < slack f r := by
  have hexposed : f'.tally (Exposed f' r) ≤ f.tally (Exposed f r) :=
    Function.tally_le fun o _ => hstep.exposed hready
  have hends : ∀ y ∈ f'.layout, (f'.blockAt y).endsWithBarrier = false →
      y ∈ f.layout ∧ (f.blockAt y).endsWithBarrier = false := fun y hy hends =>
    ⟨hlayout ▸ hy, hstep.not_endsWithBarrier hready (hlayout ▸ hy) hends⟩
  have hphis : ∀ y ∈ f'.layout, ¬(f'.blockAt y).phisGuarded →
      y ∈ f.layout ∧ ¬(f.blockAt y).phisGuarded := fun y hy hphis =>
    ⟨hlayout ▸ hy, mt (hstep.phisGuarded hready (hlayout ▸ hy)) hphis⟩
  have hendsLe := Function.tally_le hends
  have hphisLe := Function.tally_le hphis
  rw [slack, slack]
  rcases hgain with ⟨hbefore, hafter⟩ | ⟨hbefore, hafter⟩
  · have hlt := Function.tally_lt hends hx hbefore (by simp [hafter])
    omega
  · have hlt := Function.tally_lt hphis hx hbefore (not_not_intro hafter)
    omega

end Step

/-- A visit that splits a preheader isolates the loop, and the block that it adds has no phis. -/
theorem slack_isolate_lt (hready : Ready f r h p) (hroom : f.capacity < 2 ^ 32)
    (hstep : Step f r h p (isolate f p)) : slack (isolate f p) r < slack f r := by
  obtain ⟨-, hnot, hisolated⟩ := (hstep.capacity_cases hready).resolve_left (by simp)
  have hexposed : (isolate f p).tally (Exposed (isolate f p) r) < f.tally (Exposed f r) :=
    Function.tally_lt (fun o _ => hstep.exposed hready)
      (hready.mem_of_inLoop hready.header.inLoop) ⟨hready.header, hnot⟩ fun hex => hex.2 hisolated
  have hmem : ∀ {x}, x ∈ (isolate f p).layout → x = f.nextBlock ∨ x ∈ f.layout := fun hx => by
    rwa [layout_isolate, mem_insertAfter] at hx
  have hends : (isolate f p).tally (fun x => ((isolate f p).blockAt x).endsWithBarrier = false) ≤
      f.tally (fun x => (f.blockAt x).endsWithBarrier = false) + 1 :=
    Function.tally_le_succ (n := f.nextBlock) fun x hx hends =>
      (hmem hx).imp_right fun hxf => ⟨hxf, hstep.not_endsWithBarrier hready hxf hends⟩
  have hphis : (isolate f p).tally (fun x => ¬((isolate f p).blockAt x).phisGuarded) ≤
      f.tally fun x => ¬(f.blockAt x).phisGuarded := by
    refine Function.tally_le fun x hx hphis => ?_
    rcases hmem hx with rfl | hxf
    · obtain ⟨init, t, hb, ht⟩ := Block.exists_eq_append
        (hready.wellFormed.terminated p hready.mem_layout)
      refine absurd ?_ hphis
      rw [hready.blockAt_isolate hroom hb, if_pos rfl]
      exact (Block.phisGuarded_of_append (List.nil_append _).symm (by simp)
        (by simp [Instruction.isPhi_of_isTerminator ht])).mpr (.inl rfl)
    · exact ⟨hxf, mt (hstep.phisGuarded hready hxf) hphis⟩
  rw [slack, slack]
  omega

/-- **A visit that changes something** leaves less to do. -/
theorem Step.slack_lt (hready : Ready f r h p) (hstep : Step f r h p f') (hne : f' ≠ f) :
    slack f' r < slack f r := by
  cases hstep with
  | pass => exact absurd rfl hne
  | isolate hroom hnot hends => exact slack_isolate_lt hready hroom (.isolate hroom hnot hends)
  | @surround l d hl hh hholds =>
      subst hh
      have hf := hready.wellFormed
      have hplaces := hready.places_mem (d := d) hl
      have hstep : Step f r l.header p (f.guardAll (places f l d p)) := .surround hl rfl hholds
      obtain ⟨⟨x, place⟩, hx, hguard⟩ : ∃ q ∈ places f l d p,
          q.2.guard (f.blockAt q.1) ≠ f.blockAt q.1 := by
        by_contra hnone
        refine hne (hf.guardAll_eq_self hplaces fun q hq => ?_)
        by_contra hguard
        exact hnone ⟨q, hq, hguard⟩
      refine hstep.slack_lt_of_gain hready Function.layout_guardAll (hplaces _ hx) ?_
      cases place with
      | atEnd mark =>
          refine .inl ⟨Bool.eq_false_iff.mpr fun hends => hguard ?_,
            hready.endsWithBarrier_of_mem_places hl hx⟩
          rw [Place.guard, if_pos hends]
      | behindPhis =>
          obtain rfl : x = l.header := by
            rcases of_mem_places hf hl hx with ⟨-, heq⟩ | ⟨heq, -⟩ | ⟨-, mark, heq⟩
            · cases heq
            · exact heq
            · cases heq
          refine .inr ⟨fun hphis => hguard ?_, (hstep.guarded hready hholds).phis⟩
          rw [Place.guard, if_pos hphis]

/-- What the visits of all loops leave to do. -/
theorem Steps.slack_lt (hsteps : Steps r f hs f') : f' = f ∨ slack f' r < slack f r := by
  induction hsteps with
  | done => exact .inl rfl
  | @step f f₁ f' h p hs hready hstep hrest ih =>
      by_cases hne : f₁ = f
      · subst hne
        exact ih
      · have hlt := hstep.slack_lt hready hne
        rcases ih with rfl | hlt'
        · exact .inr hlt
        · exact .inr (hlt'.trans hlt)

/-! ### Modules -/

/-- What there is to do in a slot of a module. -/
noncomputable def slotSlack (slot : Option Function) : Nat :=
  slot.elim 0 fun f => Option.elim f.entry? 0 (slack f)

/-- What there is to do in a module. -/
noncomputable def totalSlack (m : Module) : Nat :=
  (m.functions.map slotSlack).sum

/-- The turn of a kernel changes nothing, or it leaves less to do. -/
theorem Processed.slack_lt (hprocessed : Processed f f') :
    f' = f ∨ slotSlack (some f') < slotSlack (some f) := by
  obtain ⟨r, hs, hr, hsteps, -⟩ := hprocessed.exists_steps
  refine hsteps.slack_lt.imp_right fun hlt => ?_
  simpa only [slotSlack, Option.elim_some, hr, hsteps.final.2] using hlt

/-- **A run changes nothing**, or it leaves less to do. -/
theorem Treated.slack_lt {selection : Kernel.Selection} {m m' : Module} {ids : List FunctionId}
    (htreated : Treated selection m ids m') : m' = m ∨ totalSlack m' < totalSlack m := by
  induction htreated with
  | done => exact .inl rfl
  | skip _ _ ih => exact ih
  | @work m m' id ids f f' hacc hf hprocessed _ ih =>
      rcases hprocessed.slack_lt with rfl | hlt
      · rwa [Module.setFunction_self hf] at ih
      · have hsum : totalSlack (m.setFunction id f') + slotSlack (some f) =
            totalSlack m + slotSlack (some f') :=
          sum_map_modify (Module.function?_eq_some.mp hf)
        rcases ih with rfl | hlt'
        · exact .inr (by omega)
        · exact .inr (by omega)

end LoopBarriers

/-! ### Runs after runs -/

namespace Pipeline

variable {options : Options} {detail : Detail} {m : Module} {k n : Nat}

/-- What a number of runs leave, each being run on what the one before it left. -/
def rerun (options : Options) (detail : Detail) (m : Module) : Nat → Module
  | 0 => m
  | n + 1 => ((runLoopBarriers options).run detail (rerun options detail m n)).state

/-- The loops, by their functions and headers, whose preheaders are split in a number of runs. -/
def splitsDuring (options : Options) (detail : Detail) (m : Module) :
    Nat → List (FunctionId × BlockId)
  | 0 => []
  | n + 1 => splitsDuring options detail m n ++ LoopBarriers.splitsOver options.accepts detail
      (rerun options detail m n) (rerun options detail m n).functionIds

/-- Once a run leaves the module alone, all later ones do. -/
theorem rerun_eq_of_le (h : rerun options detail m (k + 1) = rerun options detail m k)
    (hkn : k ≤ n) : rerun options detail m n = rerun options detail m k := by
  induction n, hkn using Nat.le_induction with
  | base => rfl
  | succ n _ ih =>
      rw [rerun, ih]
      exact h

section

variable (hvalid : m.validate = .ok ()) (hcanonical : m.Canonical options.accepts)
include hvalid hcanonical

/-- A run on a module whose loops have preheaders treats all kernels. -/
theorem runLoopBarriers_ends_of_canonical
    (hfits : ((runLoopBarriers options).run detail m).state.Fits) :
    ∃ changed m', (runLoopBarriers options).Ends detail m (.ok changed) m' ∧
      LoopBarriers.Treated ⟨options.kernel⟩ m m.functionIds m' := by
  rcases runLoopBarriers_ends hvalid hfits with
    ⟨m', changed, htreated, hends⟩ | ⟨id, f, hacc, hf, hnot, -⟩
  · exact ⟨changed, m', hends, htreated⟩
  · exact absurd (hcanonical id f hacc hf) hnot

variable (hfits : ∀ n, (rerun options detail m n).Fits)
include hfits

/-- All runs start from modules like the first. -/
theorem rerun_canonical (n : Nat) : (rerun options detail m n).validate = .ok () ∧
    (rerun options detail m n).Canonical options.accepts := by
  induction n with
  | zero => exact ⟨hvalid, hcanonical⟩
  | succ n ih =>
      obtain ⟨_, m', hends, htreated⟩ := runLoopBarriers_ends_of_canonical ih.1 ih.2 (hfits (n + 1))
      rw [rerun, hends.2, Module.validate_eq_ok_iff]
      exact ⟨htreated.wellFormed (Module.validate_eq_ok_iff.mp ih.1), htreated.canonical_module⟩

/-- **One run among many.** -/
theorem rerun_ends (n : Nat) :
    ∃ changed, (runLoopBarriers options).Ends detail (rerun options detail m n) (.ok changed)
        (rerun options detail m (n + 1)) ∧
      LoopBarriers.Treated ⟨options.kernel⟩ (rerun options detail m n)
        (rerun options detail m n).functionIds (rerun options detail m (n + 1)) := by
  obtain ⟨hvalid', hcanonical'⟩ := rerun_canonical hvalid hcanonical hfits n
  obtain ⟨changed, m', hends, htreated⟩ :=
    runLoopBarriers_ends_of_canonical hvalid' hcanonical' (hfits (n + 1))
  obtain rfl : rerun options detail m (n + 1) = m' := hends.2
  exact ⟨changed, hends, htreated⟩

/-- **Some run leaves the module alone**, since there is less to do after every other one. -/
theorem exists_rerun_eq :
    ∃ k, rerun options detail m (k + 1) = rerun options detail m k := by
  by_contra hnone
  have hdecreases : ∀ n, LoopBarriers.totalSlack (rerun options detail m n) + n ≤
      LoopBarriers.totalSlack m := by
    intro n
    induction n with
    | zero => exact Nat.le_refl _
    | succ n ih =>
        obtain ⟨_, -, htreated⟩ := rerun_ends hvalid hcanonical hfits n
        have hlt := htreated.slack_lt.resolve_left fun heq => hnone ⟨n, heq⟩
        omega
  have hlast := hdecreases (LoopBarriers.totalSlack m + 1)
  omega

/-- No preheader is split twice in a number of runs, and every new block comes from a split. -/
theorem splitsDuring_marks (n : Nat) :
    Marks LoopBarriers.IsolatedIn m (splitsDuring options detail m n) (rerun options detail m n) ∧
      ∀ id, LoopBarriers.capacityAt (rerun options detail m n) id =
        LoopBarriers.capacityAt m id + (splitsDuring options detail m n).countP (·.1 = id) := by
  induction n with
  | zero => exact ⟨.nil fun _ => id, fun _ => rfl⟩
  | succ n ih =>
      obtain ⟨_, -, htreated⟩ := rerun_ends hvalid hcanonical hfits n
      obtain ⟨hmarks, hcapacity⟩ := htreated.marks detail
      refine ⟨ih.1.append hmarks, fun id => ?_⟩
      rw [hcapacity, ih.2, splitsDuring, List.countP_append, Nat.add_assoc]
      rfl

end

/-- **Repeated runs converge.** Take a module that passes the check and in which every loop of every
kernel has a preheader, with arenas that stay small enough for every block to have an identifier.
Some run reports that nothing changed, and from then on all runs leave the module as it is. During
any number of runs no loop has its preheader split twice, a loop being known by its function and its
header, and those splits account for all blocks that the runs add. -/
theorem runLoopBarriers_converges (options : Options) (detail : Detail) (m : Module)
    (hvalid : m.validate = .ok ()) (hcanonical : m.Canonical options.accepts)
    (hfits : ∀ n, (rerun options detail m n).Fits) :
    (∃ k, ((runLoopBarriers options).run detail (rerun options detail m k)).result = .ok false ∧
      ∀ n, k ≤ n → rerun options detail m n = rerun options detail m k) ∧
    ∀ n, (splitsDuring options detail m n).Nodup ∧
      ∀ id, LoopBarriers.capacityAt (rerun options detail m n) id =
        LoopBarriers.capacityAt m id + (splitsDuring options detail m n).countP (·.1 = id) := by
  refine ⟨?_, fun n => ?_⟩
  · obtain ⟨k, hk⟩ := exists_rerun_eq hvalid hcanonical hfits
    obtain ⟨changed, hends, -⟩ := rerun_ends hvalid hcanonical hfits k
    have hchanged := (runLoopBarriers_reports options detail _).iff_ne hends
    obtain rfl : changed = false := by
      rw [Bool.eq_false_iff]
      exact fun htrue => hchanged.mp htrue hk
    exact ⟨k, hends.1, fun n => rerun_eq_of_le hk⟩
  · obtain ⟨hmarks, hcapacity⟩ := splitsDuring_marks hvalid hcanonical hfits n
    exact ⟨hmarks.nodup, hcapacity⟩

/-- The first run puts a barrier at the end of the preheader of the inner loop, the second one
splits that preheader, and the third one finds nothing to do. -/
theorem runLoopBarriers_converges_nested :
    nestedModule.validate = .ok () ∧
    nestedModule.Canonical (Kernel.Selection.accepts { name := some "nested" }) ∧
    splitsDuring { kernel := some "nested" } none nestedModule 1 = [] ∧
    splitsDuring { kernel := some "nested" } none nestedModule 3 = [(⟨0⟩, ⟨2⟩)] ∧
    (splitsDuring { kernel := some "nested" } none nestedModule 3).Nodup ∧
    ∃ k, ((runLoopBarriers { kernel := some "nested" }).run none
        (rerun { kernel := some "nested" } none nestedModule k)).result = .ok false ∧
      ∀ n, k ≤ n → rerun { kernel := some "nested" } none nestedModule n =
        rerun { kernel := some "nested" } none nestedModule k := by
  have hvalid : nestedModule.validate = .ok () := by decide +kernel
  have hfixed : rerun { kernel := some "nested" } none nestedModule 3 =
      rerun { kernel := some "nested" } none nestedModule 2 := by decide +kernel
  have hfits : ∀ n, (rerun { kernel := some "nested" } none nestedModule n).Fits := by
    intro n
    match n with
    | 0 => decide +kernel
    | 1 => decide +kernel
    | n + 2 =>
        rw [rerun_eq_of_le hfixed (Nat.le_add_left 2 n)]
        decide +kernel
  have hcanonical : nestedModule.Canonical
      (Kernel.Selection.accepts { name := some "nested" }) := by
    have hok : ((runLoopBarriers { kernel := some "nested" }).run none nestedModule).result =
        .ok true := by decide +kernel
    have htreated := treated_of_ok hvalid (hfits 1) hok
    exact fun id f hacc hf => htreated.canonical (Module.mem_functionIds hf) hacc hf
  obtain ⟨hconverges, hsplits⟩ := runLoopBarriers_converges { kernel := some "nested" } none
    nestedModule hvalid hcanonical hfits
  exact ⟨hvalid, hcanonical, by decide +kernel, by decide +kernel, (hsplits 3).1, hconverges⟩

end Pipeline

end Lockstep
