import Lockstep.Proofs.Flow.Loops
import Lockstep.Proofs.Flow.Nesting

/-!
# Preheaders

The preheader of a loop is the one block outside the loop that leads to its header, provided that it
leads nowhere else. It is found among all predecessors of the header, those that cannot be reached
included; which paths it stands on is not looked at. This module says what that means for paths.

Follow a path from the entry until it first arrives at the header. The block it arrives from has
been reached around the header, so it is outside the loop, and the preheader is the only such block.
Hence a loop can only be entered through its preheader, with one exception: if the header is the
entry, every path starts there, and the preheader cannot be reached, or it would be a latch.

## Main results

* `IsPreheader.arrives`: the first arrival at the header is from the preheader.
* `IsPreheader.reaches_iff`: which preheaders can be reached.
* `IsPreheader.inLoop_iff`: the loops that hold a preheader.
* `LoopForest.preheader_guards`: preheaders, for the loops of valid functions.
-/

namespace Lockstep

namespace IsPreheader

variable {f : Function} {r h h' p q x : BlockId} {path : List BlockId}

/-- A preheader is no header of the loop that it leads to. -/
theorem ne_header (hp : IsPreheader f r h p) (hh : IsHeader f.Edge r h) : p ≠ h := by
  rintro rfl
  exact hp.outside hh.inLoop

/-- A block is the preheader of one loop at most. -/
theorem header_eq (hp : IsPreheader f r h p) (hp' : IsPreheader f r h' p) : h = h' :=
  List.singleton_inj.mp (hp.next_eq.symm.trans hp'.next_eq)

/-- A loop has one preheader at most. -/
theorem unique (hp : IsPreheader f r h p) (hq : IsPreheader f r h q) : p = q :=
  hq.only p hp.edge hp.outside

/-- A preheader leads to the header alone. -/
theorem eq_of_edge (hp : IsPreheader f r h p) (hpx : f.Edge p x) : x = h :=
  List.mem_singleton.mp (hp.next_eq ▸ hpx.2)

/-- A loop that holds a preheader holds what it leads to. -/
theorem inLoop_header (hp : IsPreheader f r h p) (hin : InLoop f.Edge r h' p) :
    InLoop f.Edge r h' h :=
  hin.sole_succ fun _ hz => hp.eq_of_edge hz

/-- A preheader is no latch. -/
theorem not_isLatch (hp : IsPreheader f r h p) : ¬IsLatch f.Edge r h' p := by
  intro hlatch
  obtain rfl := hp.eq_of_edge hlatch.edge
  exact hp.outside hlatch.inLoop

/-- No loop is left from a preheader. -/
theorem not_isExiting (hp : IsPreheader f r h p) : ¬IsExiting f r h' p := by
  rintro ⟨hin, y, hy, hout⟩
  obtain rfl := hp.eq_of_edge ⟨hp.edge.1, hy⟩
  exact hout (hp.inLoop_header hin)

/-! ### Paths -/

/-- **First arrival.** A path that comes to the header of a loop, and does not start there, first
comes to it from the preheader. The block before it was reached around the header, so the loop does
not hold that block. -/
theorem arrives (hp : IsPreheader f r h p) (hne : h ≠ r) (hw : Walk f.Edge r x path)
    (hmem : h ∈ path) :
    ∃ before after, path = before ++ h :: after ∧ h ∉ before ∧ Walk f.Edge r p before := by
  obtain ⟨y, z, before, after, hbefore, hyz, rfl, havoids, rfl⟩ :=
    hw.toFirst (P := (· = h)) hne.symm ⟨h, hmem, rfl⟩
  have hnot : z ∉ before := fun hz => havoids z hz rfl
  have hout : ¬InLoop f.Edge r z y := fun hin => hnot (hin.dominates before hbefore)
  obtain rfl := hp.only y hyz hout
  exact ⟨before, after, rfl, hnot, hbefore⟩

/-- Every way to the header of a loop, and into the loop, is by the preheader. -/
theorem dominates (hp : IsPreheader f r h p) (hne : h ≠ r) (hx : InLoop f.Edge r h x) :
    Dominates f.Edge r p x := by
  have hheader : Dominates f.Edge r p h := by
    intro path hw
    obtain ⟨before, after, rfl, -, hbefore⟩ := hp.arrives hne hw hw.finish_mem
    exact List.mem_append_left _ hbefore.finish_mem
  exact hheader.trans hx.dominates

/-- **Preheaders that can be reached.** Only that of a loop at the entry cannot. -/
theorem reaches_iff (hp : IsPreheader f r h p) (hh : IsHeader f.Edge r h) :
    Reaches f.Edge r p ↔ h ≠ r := by
  constructor
  · rintro hreach rfl
    exact hp.not_isLatch ⟨hp.edge, hreach, Dominates.root p⟩
  · intro hne
    exact (hp.dominates hne hh.inLoop).reaches hh.reaches

/-- **The loops that hold a preheader** are those around its own. -/
theorem inLoop_iff (hp : IsPreheader f r h p) (hreach : Reaches f.Edge r p) :
    InLoop f.Edge r h' p ↔ h' ≠ h ∧ InLoop f.Edge r h' h := by
  constructor
  · intro hin
    refine ⟨?_, hp.inLoop_header hin⟩
    rintro rfl
    exact hp.outside hin
  · rintro ⟨hne, hin⟩
    exact hin.pred hne.symm hp.edge hreach

end IsPreheader

/-- The preheader that is found is that of the graph. -/
theorem Loop.Describes.preheader?_eq_some {l : Loop} {f : Function} {r p : BlockId}
    (hl : l.Describes f.Edge r) (hf : f.WellFormed) :
    l.preheader? f = .ok (some p) ↔ IsPreheader f r l.header p := by
  rw [preheader?_eq l hf, Except.ok.injEq, hl.soleEntry_eq_some hf]

namespace LoopForest

/-- **What a preheader guards.** Let a loop of a valid function have a preheader. The loop does not
hold it, and it is the preheader of no other loop. If it can be reached, it is in exactly the other
loops that hold the header; otherwise it is in no loop. It cannot be reached only if the header is
the entry. In all other cases it strictly dominates every block of the loop, and every path from
the entry to the header goes through it. -/
theorem preheader_guards (f : Function) (hvalid : f.validate = .ok ()) :
    ∃ t forest, DominatorTree.compute f = .ok t ∧ compute f t = .ok forest ∧
      ∀ i l p, forest.get? i = some l → l.preheader? f = .ok (some p) →
        ∃ r, f.entry? = some r ∧ l.contains p = false ∧
          (∀ j l', forest.get? j = some l' → j ≠ i → l'.preheader? f ≠ .ok (some p)) ∧
          (Reaches f.Edge r p → ∀ j l', forest.get? j = some l' →
            (l'.contains p = true ↔ j ≠ i ∧ l'.contains l.header = true)) ∧
          (¬Reaches f.Edge r p → ∀ l' ∈ forest.loops, l'.contains p = false) ∧
          (l.header = r ∧ ¬Reaches f.Edge r p ∨
            Reaches f.Edge r p ∧
              (∀ x, l.contains x = true → p ≠ x ∧ Dominates f.Edge r p x) ∧
              ∀ path, Walk f.Edge r l.header path → p ∈ path) := by
  have hf := Function.validate_eq_ok_iff.mp hvalid
  obtain ⟨t, loops, -, ht, hforest, -, -⟩ := exists_compute_eq_ok hf
  refine ⟨t, ⟨nest loops⟩, ht, hforest, ?_⟩
  intro i l p hl hpre
  obtain ⟨r, hr, hd⟩ := exists_entry_of_compute hf ht hforest (List.mem_of_getElem? hl)
  have hdl := hd.loop l (List.mem_of_getElem? hl)
  have hp := (hdl.preheader?_eq_some hf).mp hpre
  have hsame : ∀ j l', (nest loops)[j]? = some l' → (j ≠ i ↔ l'.header ≠ l.header) := by
    intro j l' hl'
    refine not_congr ⟨?_, fun heq => eq_of_header_eq hd hl' hl heq⟩
    rintro rfl
    exact congrArg Loop.header (Option.some.inj (hl'.symm.trans hl))
  refine ⟨r, hr, ?_, ?_, ?_, ?_, ?_⟩
  · rw [← Bool.not_eq_true, hdl.contains_iff]
    exact hp.outside
  · intro j l' hl' hne hpre'
    have hdl' := hd.loop l' (List.mem_of_getElem? hl')
    exact (hsame j l' hl').mp hne (((hdl'.preheader?_eq_some hf).mp hpre').header_eq hp)
  · intro hreach j l' hl'
    have hdl' := hd.loop l' (List.mem_of_getElem? hl')
    rw [hdl'.contains_iff, hdl'.contains_iff, hp.inLoop_iff hreach, hsame j l' hl']
  · intro hreach l' hl'
    rw [← Bool.not_eq_true, (hd.loop l' hl').contains_iff]
    exact fun hin => hreach hin.reaches
  · by_cases hheader : l.header = r
    · exact .inl ⟨hheader, fun hreach => (hp.reaches_iff hdl.header).mp hreach hheader⟩
    · refine .inr ⟨(hp.reaches_iff hdl.header).mpr hheader, fun x hx => ⟨?_, ?_⟩, ?_⟩
      · rintro rfl
        exact hp.outside (hdl.contains_iff.mp hx)
      · exact hp.dominates hheader (hdl.contains_iff.mp hx)
      · exact hp.dominates hheader hdl.header.inLoop

/-- A loop that goes back to the entry, with another one inside. The last block leads to the entry,
and nothing leads to it. -/
def entered : Function where
  name := "entered"
  returnType := .void
  parameters := [⟨"more", .i1⟩]
  blocks := [
    ⟨⟨0⟩, "entry", [.branch ⟨1⟩]⟩,
    ⟨⟨1⟩, "between", [.branch ⟨2⟩]⟩,
    ⟨⟨2⟩, "inner", [.branchCond (.param 0) ⟨2⟩ ⟨3⟩]⟩,
    ⟨⟨3⟩, "latch", [.branchCond (.param 0) ⟨0⟩ ⟨4⟩]⟩,
    ⟨⟨4⟩, "exit", [.ret none]⟩,
    ⟨⟨5⟩, "stray", [.branch ⟨0⟩]⟩]
  layout := [⟨0⟩, ⟨1⟩, ⟨2⟩, ⟨3⟩, ⟨4⟩, ⟨5⟩]

/-- The dominator tree of `entered`. -/
def enteredTree : DominatorTree where
  entry := some ⟨0⟩
  parents := [some ⟨0⟩, some ⟨0⟩, some ⟨1⟩, some ⟨2⟩, some ⟨3⟩, none]

/-- The loops of `entered`. -/
def enteredLoops : LoopForest where
  loops := [
    { header := ⟨2⟩, blocks := [⟨2⟩], members := [⟨2⟩], parent := some 1, depth := 2 },
    { header := ⟨0⟩, blocks := [⟨0⟩, ⟨1⟩, ⟨2⟩, ⟨3⟩], members := [⟨1⟩, ⟨2⟩, ⟨3⟩, ⟨0⟩],
      children := [0] }]

/-- The inner loop is entered from a block of the outer one, which dominates it. The outer loop has
a preheader too, but no path from the entry comes there. -/
theorem preheader_guards_entered :
    entered.validate = .ok () ∧ DominatorTree.compute entered = .ok enteredTree ∧
    compute entered enteredTree = .ok enteredLoops ∧
    ∃ inner outer, enteredLoops.get? 0 = some inner ∧ enteredLoops.get? 1 = some outer ∧
      inner.preheader? entered = .ok (some ⟨1⟩) ∧ outer.contains ⟨1⟩ = true ∧
      (∀ path, Walk entered.Edge ⟨0⟩ ⟨2⟩ path → ⟨1⟩ ∈ path) ∧
      outer.preheader? entered = .ok (some ⟨5⟩) ∧ ¬Reaches entered.Edge ⟨0⟩ ⟨5⟩ := by
  have hvalid : entered.validate = .ok () := by decide +kernel
  have htree : DominatorTree.compute entered = .ok enteredTree := by decide +kernel
  have hloops : compute entered enteredTree = .ok enteredLoops := by decide +kernel
  obtain ⟨t, forest, ht, hforest, hall⟩ := preheader_guards entered hvalid
  obtain rfl := Except.ok.inj (htree.symm.trans ht)
  obtain rfl := Except.ok.inj (hloops.symm.trans hforest)
  obtain ⟨r, hr, -, -, -, -, hinner⟩ := hall 0 _ ⟨1⟩ rfl (by decide +kernel)
  obtain rfl : ⟨0⟩ = r := Option.some.inj hr
  obtain ⟨r, hr, -, -, -, -, houter⟩ := hall 1 _ ⟨5⟩ rfl (by decide +kernel)
  obtain rfl : ⟨0⟩ = r := Option.some.inj hr
  obtain ⟨heq, -⟩ | ⟨-, -, hthrough⟩ := hinner
  · cases heq
  obtain ⟨-, hnot⟩ | ⟨-, hmembers, -⟩ := houter
  · exact ⟨hvalid, htree, hloops, _, _, rfl, rfl, by decide +kernel, by decide, hthrough,
      by decide +kernel, hnot⟩
  · have hdom := (hmembers ⟨0⟩ (by decide)).2.eq_root
    cases hdom

end LoopForest

end Lockstep
