import Lockstep.Flow.LoopForest
import Lockstep.Proofs.Flow.DominatorTree
import Lockstep.Proofs.Flow.NaturalLoop
import Lockstep.Proofs.Sequence
import Mathlib.Tactic.Ring

/-!
# The loops that are found

A loop forest describes a graph when its loops are the natural loops of the graph, one for each
header, with their blocks listed once each. The forest that is computed for a well-formed function
describes it, and a forest that is told of a split describes the split graph. Questions to a loop
of such a forest never fault, and their answers are said here in terms of the graph.

## Main results

* `LoopForest.compute_eq_ok`: the computed forest exists and describes the function.
* `LoopForest.Describes.addBlockLike`: the update after a split keeps a description.
* `Loop.Describes.soleEntry_eq_some`, `Loop.Describes.soleExiting_eq_some` and
  `Loop.Describes.mem_latchList`: the preheader, the exiting block and the latches of a loop.
-/

namespace Lockstep

variable {f : Function} {t : DominatorTree} {r h x y p n : BlockId}
  {E E' : BlockId → BlockId → Prop}

/-- The loop is the natural loop of its header. -/
structure Loop.Describes (l : Loop) (E : BlockId → BlockId → Prop) (r : BlockId) : Prop where
  header : IsHeader E r l.header
  mem_members : ∀ x, x ∈ l.members ↔ InLoop E r l.header x
  mem_blocks : ∀ x, x ∈ l.blocks ↔ InLoop E r l.header x
  nodup : l.blocks.Nodup

/-- The loops are the natural loops of the graph, one for each header. -/
structure LoopForest.Describes (forest : LoopForest) (E : BlockId → BlockId → Prop)
    (r : BlockId) : Prop where
  loop : ∀ l ∈ forest.loops, l.Describes E r
  headers : (forest.loops.map Loop.header).Nodup
  complete : ∀ h, IsHeader E r h → ∃ l ∈ forest.loops, l.header = h

/-- The test for membership finds the blocks of the loop. -/
theorem Loop.Describes.contains_iff {l : Loop} (hl : l.Describes E r) :
    l.contains x = true ↔ InLoop E r l.header x := by
  rw [Loop.contains, List.contains_iff_mem, hl.mem_members]

namespace LoopForest

/-! ### Back edges -/

open Classical in
/-- The back edges that lead away from a block, each as header and latch. -/
noncomputable def backEdgesFrom (f : Function) (r b : BlockId) : List (BlockId × BlockId) :=
  ((f.next b).filter fun s => Reaches f.Edge r b ∧ Dominates f.Edge r s b).map (·, b)

/-- The back edges that are found, block by block. -/
theorem backEdges_eq (hf : f.WellFormed) (hr : f.entry? = some r) (ht : t.Correct f r) :
    backEdges f t = .ok (f.layout.flatMap (backEdgesFrom f r)) := by
  choose dom hdom hiff using fun a b => ht.dominates_eq_ok hf hr a b
  have hinner : ∀ b ∈ f.layout,
      (do if t.isReachable b then
            (← f.successors b).mapM fun s => return ((s, b), ← t.dominates s b)
          else return [] : Except Fault (List ((BlockId × BlockId) × Bool))) =
        .ok (if t.isReachable b then (f.next b).map fun s => ((s, b), dom s b) else []) := by
    intro b hb
    split
    · rw [hf.successors_eq hb]
      exact mapM_ok fun s _ => by rw [hdom]; rfl
    · rfl
  have hrow : ∀ b, ((if t.isReachable b then (f.next b).map fun s => ((s, b), dom s b)
      else []).filter Prod.snd).map Prod.fst = backEdgesFrom f r b := by
    intro b
    by_cases hreach : Reaches f.Edge r b
    · rw [if_pos (ht.isReachable_iff.mpr hreach), List.filter_map, List.map_map, backEdgesFrom]
      congr 1
      refine List.filter_congr fun s _ => ?_
      rw [Bool.eq_iff_iff]
      simpa only [decide_eq_true_eq, hreach, true_and, Function.comp_apply] using hiff s b
    · rw [if_neg (mt ht.isReachable_iff.mp hreach), backEdgesFrom]
      simp [hreach]
  rw [backEdges, mapM_ok hinner]
  simp only [bind, Except.bind, pure, Except.pure, List.filter_flatten, List.map_flatten,
    List.map_map, Function.comp_def, hrow]
  rfl

/-- The back edges that are found are those from latches to their headers. -/
theorem backEdges_eq_ok (hf : f.WellFormed) (hr : f.entry? = some r) (ht : t.Correct f r) :
    ∃ edges, backEdges f t = .ok edges ∧ ∀ h l, (h, l) ∈ edges ↔ IsLatch f.Edge r h l := by
  refine ⟨_, backEdges_eq hf hr ht, fun h l => ?_⟩
  simp only [backEdgesFrom, List.mem_flatMap, List.mem_map, List.mem_filter, decide_eq_true_eq,
    Prod.mk.injEq]
  constructor
  · rintro ⟨b, hb, s, ⟨hs, hreach, hdom⟩, rfl, rfl⟩
    exact ⟨⟨hb, hs⟩, hreach, hdom⟩
  · intro hl
    exact ⟨l, hl.edge.1, h, ⟨hl.edge.2, hl.reaches, hl.dominates⟩, rfl, rfl⟩

/-! ### The blocks of a loop -/

/-- How far the blocks of the loop with header `h` are collected: what is found and what is
waiting is in the loop, and what is still missing leads to a block that is waiting. -/
structure Collecting (E : BlockId → BlockId → Prop) (r h : BlockId)
    (pending members : List BlockId) : Prop where
  header : h ∈ members
  found : ∀ x ∈ members, InLoop E r h x
  waiting : ∀ x ∈ pending, InLoop E r h x
  latch : ∀ l, IsLatch E r h l → l ∈ members ∨ l ∈ pending
  closed : ∀ x ∈ members, x ≠ h → ∀ y, E y x → Reaches E r y → y ∈ members ∨ y ∈ pending

namespace Collecting

variable {pending members : List BlockId} {b : BlockId}

/-- The collection starts from the header, with the latches to come. -/
theorem start (hh : IsHeader E r h) {latches : List BlockId}
    (hlatches : ∀ l, l ∈ latches ↔ IsLatch E r h l) : Collecting E r h latches [h] where
  header := List.mem_singleton.mpr rfl
  found _ hx := List.mem_singleton.mp hx ▸ hh.inLoop
  waiting x hx := ((hlatches x).mp hx).inLoop
  latch l hl := .inr ((hlatches l).mpr hl)
  closed _ hx hne := absurd (List.mem_singleton.mp hx) hne

/-- A block that is found already is not looked at again. -/
theorem skip (hc : Collecting E r h (b :: pending) members) (hb : b ∈ members) :
    Collecting E r h pending members where
  header := hc.header
  found := hc.found
  waiting x hx := hc.waiting x (List.mem_cons_of_mem _ hx)
  latch l hl := by
    rcases hc.latch l hl with hmem | hmem
    · exact .inl hmem
    · exact (List.mem_cons.mp hmem).imp (fun heq : l = b => heq ▸ hb) id
  closed x hx hne y hyx hy := by
    rcases hc.closed x hx hne y hyx hy with hmem | hmem
    · exact .inl hmem
    · exact (List.mem_cons.mp hmem).imp (fun heq : y = b => heq ▸ hb) id

/-- **One block.** A new block is found, and what leads to it waits. -/
theorem enter (hc : Collecting E r h (b :: pending) members) (hb : b ∉ members)
    {preds : List BlockId}
    (hpreds : ∀ y, y ∈ preds ↔ E y b ∧ Reaches E r y ∧ y ∉ b :: members) :
    Collecting E r h (preds ++ pending) (b :: members) where
  header := List.mem_cons_of_mem _ hc.header
  found x hx := by
    rcases List.mem_cons.mp hx with rfl | hx
    · exact hc.waiting x List.mem_cons_self
    · exact hc.found x hx
  waiting x hx := by
    rcases List.mem_append.mp hx with hx | hx
    · obtain ⟨hxb, hreach, -⟩ := (hpreds x).mp hx
      have hne : b ≠ h := fun heq => hb (heq ▸ hc.header)
      exact (hc.waiting b List.mem_cons_self).pred hne hxb hreach
    · exact hc.waiting x (List.mem_cons_of_mem _ hx)
  latch l hl := by
    rcases hc.latch l hl with hmem | hmem
    · exact .inl (List.mem_cons_of_mem _ hmem)
    · rcases List.mem_cons.mp hmem with rfl | hmem
      · exact .inl List.mem_cons_self
      · exact .inr (List.mem_append_right _ hmem)
  closed x hx hne y hyx hy := by
    by_cases hyb : y ∈ b :: members
    · exact .inl hyb
    rcases List.mem_cons.mp hx with rfl | hx
    · exact .inr (List.mem_append_left _ ((hpreds y).mpr ⟨hyx, hy, hyb⟩))
    · rcases hc.closed x hx hne y hyx hy with hmem | hmem
      · exact absurd (List.mem_cons_of_mem _ hmem) hyb
      · rcases List.mem_cons.mp hmem with rfl | hmem
        · exact absurd List.mem_cons_self hyb
        · exact .inr (List.mem_append_right _ hmem)

/-- When nothing waits any more, the whole loop is found: by induction along a walk to a
latch. -/
theorem mem_iff (hc : Collecting E r h [] members) (x : BlockId) :
    x ∈ members ↔ InLoop E r h x := by
  refine ⟨hc.found x, ?_⟩
  rintro ⟨l, hl, rfl | ⟨hreach, xs, hxs, hnot⟩⟩
  · exact hc.header
  · induction hxs with
    | here a => exact (hc.latch a hl).resolve_right List.not_mem_nil
    | @step a b c xs hab hbc ih =>
        have hb := ih hl (hreach.snoc hab) fun hmem => hnot (List.mem_cons_of_mem _ hmem)
        have hne : b ≠ h := by
          rintro rfl
          exact hnot (List.mem_cons_of_mem _ hbc.start_mem)
        exact (hc.closed b hb hne a hab hreach).resolve_right List.not_mem_nil

end Collecting

/-- The blocks of the body that are not found yet. -/
def missing (f : Function) (members : List BlockId) : Nat :=
  (f.layout.filter fun b => !members.contains b).length

/-- A new member leaves less to be found. -/
theorem missing_lt {members : List BlockId} {b : BlockId} (hb : b ∈ f.layout)
    (hnot : b ∉ members) : missing f (b :: members) < missing f members := by
  have hsplit : (f.layout.filter fun x => !(b :: members).contains x) =
      (f.layout.filter fun x => !members.contains x).filter fun x => x ≠ b := by
    rw [List.filter_filter]
    refine List.filter_congr fun x _ => ?_
    simp
  rw [missing, missing, hsplit, List.length_filter_lt_length_iff_exists]
  exact ⟨b, List.mem_filter.mpr ⟨hb, by simpa using hnot⟩, by simp⟩

/-- **Collecting a loop.** With the budget that the search is given it finds exactly the blocks
of the loop. -/
theorem collect_eq_ok (hf : f.WellFormed) (hr : f.entry? = some r) (ht : t.Correct f r)
    {budget : Nat} {pending members : List BlockId} (hc : Collecting f.Edge r h pending members)
    (hbudget : pending.length + missing f members * (f.layout.length + 1) < budget) :
    ∃ result, collect f t budget pending members = .ok result ∧
      ∀ x, x ∈ result ↔ InLoop f.Edge r h x := by
  induction budget generalizing pending members with
  | zero => omega
  | succ budget ih =>
      cases pending with
      | nil => exact ⟨members, rfl, hc.mem_iff⟩
      | cons b pending =>
          rw [List.length_cons] at hbudget
          by_cases hb : b ∈ members
          · rw [collect, if_pos (List.contains_iff_mem.mpr hb)]
            exact ih (hc.skip hb) (by omega)
          · rw [collect, if_neg (by simpa using hb), hf.predecessors_eq]
            have hlayout : b ∈ f.layout := Search.mem_layout_of_reaches hf (List.mem_of_head? hr)
              (hc.waiting b List.mem_cons_self).reaches
            have hlt := Nat.mul_le_mul_right (f.layout.length + 1) (missing_lt hlayout hb)
            have hlen : ∀ q : BlockId → Bool,
                ((f.layout.filter fun a => (f.next a).contains b).filter q).length ≤
                  f.layout.length := fun q =>
              Nat.le_trans (List.length_filter_le _ _) (List.length_filter_le _ _)
            refine ih (hc.enter hb fun y => ?_) ?_
            · rw [List.mem_filter, Function.mem_filter_next]
              simp [ht.isReachable_iff]
            · rw [List.length_append]
              have := hlen fun p => t.isReachable p && !(b :: members).contains p
              rw [Nat.succ_mul] at hlt
              omega

/-- The natural loop of a header is what is made of it and its latches. -/
theorem naturalLoop_eq_ok (hf : f.WellFormed) (hr : f.entry? = some r) (ht : t.Correct f r)
    (hh : IsHeader f.Edge r h) {latches : List BlockId}
    (hlatches : ∀ l, l ∈ latches ↔ IsLatch f.Edge r h l) :
    ∃ l, naturalLoop f t h latches = .ok l ∧ l.header = h ∧ l.Describes f.Edge r := by
  have hmissing : missing f [h] ≤ f.layout.length := List.length_filter_le _ _
  have hbudget : latches.length + missing f [h] * (f.layout.length + 1) <
      (f.layout.length + 1) * (f.layout.length + latches.length + 1) := by
    have hle := Nat.mul_le_mul_right (f.layout.length + 1) hmissing
    have hexpand : (f.layout.length + 1) * (f.layout.length + latches.length + 1) =
        f.layout.length * (f.layout.length + 1) + f.layout.length * latches.length +
          f.layout.length + latches.length + 1 := by ring
    omega
  obtain ⟨members, hcollect, hmem⟩ := collect_eq_ok hf hr ht (Collecting.start hh hlatches) hbudget
  refine ⟨_, by rw [naturalLoop, hcollect]; rfl, rfl, hh, hmem, fun x => ?_, ?_⟩
  · have hlayout : InLoop f.Edge r h x → x ∈ f.layout := fun hx =>
      Search.mem_layout_of_reaches hf (List.mem_of_head? hr) hx.reaches
    rw [List.mem_cons, List.mem_filter]
    simp only [Bool.and_eq_true, bne_iff_ne, List.contains_iff_mem, hmem]
    constructor
    · rintro (rfl | ⟨-, -, hx⟩)
      · exact hh.inLoop
      · exact hx
    · intro hx
      by_cases hxh : x = h
      · exact .inl hxh
      · exact .inr ⟨hlayout hx, hxh, hx⟩
  · refine List.nodup_cons.mpr ⟨?_, hf.nodup.filter _⟩
    simp

/-! ### All loops -/

/-- The place of a loop in the forest is all that nesting adds. -/
theorem getElem?_nest (loops : List Loop) (i : Nat) :
    (nest loops)[i]? = loops[i]?.map fun l =>
      { l with
        parent := parentOf loops i l
        children := (List.range loops.length).filter fun j =>
          (loops[j]?.bind (parentOf loops j)) == some i
        depth := nesting (loops.zipIdx.map fun (l, i) => parentOf loops i l) loops.length
          (some i) } := by
  have hparent : ∀ j, (loops.zipIdx.map fun (l, i) => parentOf loops i l)[j]?.join =
      loops[j]?.bind (parentOf loops j) := by
    intro j
    rw [List.getElem?_map, List.getElem?_zipIdx]
    cases loops[j]? <;> simp
  rw [nest, List.getElem?_map, List.getElem?_zipIdx]
  simp only [hparent]
  cases hi : loops[i]? with
  | none => rfl
  | some l => simp [hi]

/-- Nesting keeps the headers of the loops. -/
theorem map_header_nest (loops : List Loop) :
    (nest loops).map Loop.header = loops.map Loop.header := by
  refine List.ext_getElem? fun i => ?_
  rw [List.getElem?_map, List.getElem?_map, getElem?_nest, Option.map_map]
  rfl

/-- Nesting keeps what is known of a loop by itself. -/
theorem exists_of_mem_nest {loops : List Loop} {l' : Loop} (h : l' ∈ nest loops) :
    ∃ l ∈ loops, l'.header = l.header ∧ l'.blocks = l.blocks ∧ l'.members = l.members := by
  obtain ⟨i, hi⟩ := List.mem_iff_getElem?.mp h
  rw [getElem?_nest] at hi
  obtain ⟨l, hl, rfl⟩ := Option.map_eq_some_iff.mp hi
  exact ⟨l, List.mem_of_getElem? hl, rfl, rfl, rfl⟩

/-- Nesting keeps the description of a graph. -/
theorem describes_nest {loops : List Loop} (h : (LoopForest.mk loops).Describes E r) :
    (LoopForest.mk (nest loops)).Describes E r where
  loop l' hl' := by
    obtain ⟨l, hl, hheader, hblocks, hmembers⟩ := exists_of_mem_nest hl'
    have hd := h.loop l hl
    refine ⟨hheader ▸ hd.header, ?_, ?_, hblocks ▸ hd.nodup⟩
    · rw [hheader, hmembers]
      exact hd.mem_members
    · rw [hheader, hblocks]
      exact hd.mem_blocks
  headers := (map_header_nest loops).symm ▸ h.headers
  complete x hx := by
    have hmem : x ∈ loops.map Loop.header := by
      obtain ⟨l, hl, rfl⟩ := h.complete x hx
      exact List.mem_map_of_mem hl
    rw [← map_header_nest] at hmem
    exact List.mem_map.mp hmem

/-- The latches of a header among the back edges. -/
theorem mem_latches_iff {edges : List (BlockId × BlockId)} {h l : BlockId}
    (hiff : ∀ h l, (h, l) ∈ edges ↔ IsLatch E r h l) :
    l ∈ ((edges.filter fun (header, _) => header = h).map Prod.snd).eraseDups ↔
      IsLatch E r h l := by
  simp [List.mem_eraseDups, hiff]

/-- **The computed forest.** For a well-formed function with a body it describes the graph. -/
theorem compute_eq_ok (hf : f.WellFormed) (hr : f.entry? = some r) (ht : t.Correct f r) :
    ∃ loops, compute f t = .ok ⟨nest loops⟩ ∧ (LoopForest.mk loops).Describes f.Edge r := by
  obtain ⟨edges, hedges, hiff⟩ := backEdges_eq_ok hf hr ht
  have hheaders : ∀ h, h ∈ (edges.map Prod.fst).eraseDups ↔ IsHeader f.Edge r h := by
    intro h
    simp [List.mem_eraseDups, hiff, IsHeader]
  obtain ⟨loops, hloops, hall⟩ := exists_mapM_ok fun h hh =>
    naturalLoop_eq_ok hf hr ht ((hheaders h).mp hh) fun _ => mem_latches_iff hiff
  have hmap : loops.map Loop.header = (edges.map Prod.fst).eraseDups ∧
      ∀ l ∈ loops, l.Describes f.Edge r := by
    clear hloops
    generalize (edges.map Prod.fst).eraseDups = headers at hall
    induction hall with
    | nil => simp
    | cons hab _ ih =>
        exact ⟨by rw [List.map_cons, hab.1, ih.1], List.forall_mem_cons.mpr ⟨hab.2, ih.2⟩⟩
  refine ⟨loops, by rw [compute, hedges]; simp only [bind, Except.bind, hloops]; rfl,
    hmap.2, hmap.1 ▸ nodup_eraseDups _, fun h hh => ?_⟩
  have hmem := (hheaders h).mpr hh
  rw [← hmap.1] at hmem
  exact List.mem_map.mp hmem

/-- Whatever tree and forest are computed describe the graph. -/
theorem describes_of_compute {forest : LoopForest} (hf : f.WellFormed) (hr : f.entry? = some r)
    (htree : DominatorTree.compute f = .ok t) (hforest : compute f t = .ok forest) :
    forest.Describes f.Edge r := by
  obtain ⟨t', htree', ht, -⟩ := DominatorTree.compute_eq_ok hf hr
  obtain rfl : t = t' := Except.ok.inj (htree.symm.trans htree')
  obtain ⟨loops, hforest', hd⟩ := compute_eq_ok hf hr ht
  obtain rfl := Except.ok.inj (hforest.symm.trans hforest')
  exact describes_nest hd

/-! ### Keeping the forest -/

/-- Told of a split, a loop describes the split graph. Apart from the new block, it has the blocks
that it had. -/
theorem describes_insertAfter {l : Loop} (hs : SplitsOff E E' r p n) (hl : l.Describes E r) :
    (if l.contains p then l.insertAfter p n else l).Describes E' r := by
  have hnot : ¬InLoop E r l.header n := fun hin => hs.ne_of_reaches hin.reaches rfl
  have hheader := hs.isHeader_iff.mpr hl.header
  have hold : ∀ x, x ≠ n → (InLoop E' r l.header x ↔ InLoop E r l.header x) := fun x hx =>
    hs.inLoop_iff hx
  split
  · rename_i hp
    have hnew : InLoop E' r l.header n := hs.inLoop_new_iff.mpr (hl.contains_iff.mp hp)
    have hmem : ∀ x, InLoop E' r l.header x ↔ x = n ∨ InLoop E r l.header x := by
      intro x
      by_cases hx : x = n
      · simp [hx, hnew]
      · simp [hx, hold x hx]
    rw [Loop.insertAfter, if_neg (fun hc => hnot (hl.contains_iff.mp hc))]
    refine ⟨hheader, fun x => ?_, fun x => ?_, ?_⟩
    · rw [List.mem_cons, hl.mem_members, hmem]
    · rw [mem_insertAfter, hl.mem_blocks, hmem]
    · exact nodup_insertAfter hl.nodup fun hin => hnot ((hl.mem_blocks n).mp hin)
  · rename_i hp
    have hnew : ¬InLoop E' r l.header n := fun hin =>
      hp (hl.contains_iff.mpr (hs.inLoop_new_iff.mp hin))
    have hmem : ∀ x, InLoop E' r l.header x ↔ InLoop E r l.header x := by
      intro x
      by_cases hx : x = n
      · simp [hx, hnew, hnot]
      · exact hold x hx
    exact ⟨hheader, fun x => by rw [hl.mem_members, hmem], fun x => by rw [hl.mem_blocks, hmem],
      hl.nodup⟩

/-- A new block changes no header. -/
theorem header_insertAfter (l : Loop) (p n : BlockId) :
    (if l.contains p then l.insertAfter p n else l).header = l.header := by
  split
  · rw [Loop.insertAfter]
    split <;> rfl
  · rfl

/-- **The update.** Told of a split, the forest describes the split graph. -/
theorem Describes.addBlockLike {forest : LoopForest} (hd : forest.Describes E r)
    (hs : SplitsOff E E' r p n) : (forest.addBlockLike p n).Describes E' r where
  loop l' hl' := by
    obtain ⟨l, hl, rfl⟩ := List.mem_map.mp hl'
    exact describes_insertAfter hs (hd.loop l hl)
  headers := by
    rw [LoopForest.addBlockLike, List.map_map]
    simpa [Function.comp_def, header_insertAfter] using hd.headers
  complete h hh := by
    obtain ⟨l, hl, rfl⟩ := hd.complete h (hs.isHeader_iff.mp hh)
    exact ⟨_, List.mem_map_of_mem hl, header_insertAfter l p n⟩

end LoopForest

/-! ### Looking at a loop -/

/-- The block outside the loop that leads to its header; no other does, and it leads nowhere
else. -/
structure IsPreheader (f : Function) (r h p : BlockId) : Prop where
  edge : f.Edge p h
  outside : ¬InLoop f.Edge r h p
  only : ∀ x, f.Edge x h → ¬InLoop f.Edge r h x → x = p
  next_eq : f.next p = [h]

/-- A block of the loop that also leads out of it. -/
def IsExiting (f : Function) (r h x : BlockId) : Prop :=
  InLoop f.Edge r h x ∧ ∃ y ∈ f.next x, ¬InLoop f.Edge r h y

/-- The only block of the loop that also leads out of it. -/
def IsSoleExiting (f : Function) (r h x : BlockId) : Prop :=
  IsExiting f r h x ∧ ∀ y, IsExiting f r h y → y = x

/-- The only latch of the loop. -/
def IsSoleLatch (f : Function) (r h x : BlockId) : Prop :=
  IsLatch f.Edge r h x ∧ ∀ y, IsLatch f.Edge r h y → y = x

namespace Loop

/-- The latches, in program order. -/
def latchList (l : Loop) (f : Function) : List BlockId :=
  (f.layout.filter fun a => (f.next a).contains l.header).filter l.contains

/-- The exiting block, if there is only one. -/
def soleExiting (l : Loop) (f : Function) : Option BlockId :=
  sole? (l.blocks.filter fun a => (f.next a).any fun s => !l.contains s)

/-- The preheader. -/
def soleEntry (l : Loop) (f : Function) : Option BlockId :=
  (sole? ((f.layout.filter fun a => (f.next a).contains l.header).filter
    fun a => !l.contains a)).filter fun a => f.next a = [l.header]

namespace Describes

variable {l : Loop}

/-- The blocks of a loop are in the body. -/
theorem mem_layout (hl : l.Describes f.Edge r) (hf : f.WellFormed) (hr : f.entry? = some r)
    (hx : x ∈ l.blocks) : x ∈ f.layout :=
  Search.mem_layout_of_reaches hf (List.mem_of_head? hr) ((hl.mem_blocks x).mp hx).reaches

/-- The header of a loop is in the body. -/
theorem header_mem_layout (hl : l.Describes f.Edge r) (hf : f.WellFormed)
    (hr : f.entry? = some r) : l.header ∈ f.layout :=
  Search.mem_layout_of_reaches hf (List.mem_of_head? hr) hl.header.reaches

/-! #### Latches -/

/-- The latches of a loop of a well-formed function can be found. -/
theorem latches_eq (l : Loop) (hf : f.WellFormed) : l.latches f = .ok (l.latchList f) := by
  rw [latches, hf.predecessors_eq]
  rfl

/-- The only latch of a loop of a well-formed function can be found. -/
theorem latch?_eq (l : Loop) (hf : f.WellFormed) : l.latch? f = .ok (sole? (l.latchList f)) := by
  rw [latch?, latches_eq l hf]
  rfl

/-- The latches that are found are those of the graph. -/
theorem mem_latchList (hl : l.Describes f.Edge r) :
    x ∈ l.latchList f ↔ IsLatch f.Edge r l.header x := by
  rw [latchList, List.mem_filter, Function.mem_filter_next, hl.contains_iff]
  exact ⟨fun ⟨hedge, hin⟩ => hin.isLatch hedge, fun hlatch => ⟨hlatch.edge, hlatch.inLoop⟩⟩

/-- The only latch. -/
theorem sole?_latchList (hl : l.Describes f.Edge r) (hf : f.WellFormed) :
    sole? (l.latchList f) = some x ↔ IsSoleLatch f r l.header x := by
  have hnodup : (l.latchList f).Nodup := (hf.nodup.filter _).filter _
  simp only [sole?_eq_some_iff_of_nodup hnodup, hl.mem_latchList, IsSoleLatch]

/-! #### Exiting blocks -/

/-- The only exiting block of a loop of a well-formed function can be found. -/
theorem exitingBlock?_eq (hl : l.Describes f.Edge r) (hf : f.WellFormed)
    (hr : f.entry? = some r) : l.exitingBlock? f = .ok (l.soleExiting f) := by
  have hnext : l.blocks.mapM (fun b => return (b, ← f.successors b)) =
      (.ok (l.blocks.map fun b => (b, f.next b)) : Except Fault _) := by
    refine mapM_ok fun b hb => ?_
    rw [hf.successors_eq (hl.mem_layout hf hr hb)]
    rfl
  have hexiting : l.exitingBlocks f =
      .ok (l.blocks.filter fun b => (f.next b).any fun s => !l.contains s) := by
    rw [exitingBlocks]
    simp only [bind, Except.bind] at hnext ⊢
    rw [hnext]
    simp [List.filter_map, Function.comp_def, pure, Except.pure]
  rw [exitingBlock?, hexiting]
  rfl

/-- The only exiting block. -/
theorem soleExiting_eq_some (hl : l.Describes f.Edge r) :
    l.soleExiting f = some x ↔ IsSoleExiting f r l.header x := by
  rw [soleExiting, sole?_eq_some_iff_of_nodup (hl.nodup.filter _)]
  simp only [List.mem_filter, hl.mem_blocks, List.any_eq_true, Bool.not_eq_true',
    ← Bool.not_eq_true, hl.contains_iff, IsSoleExiting, IsExiting]

/-! #### The preheader -/

/-- The preheader, as the graph has it. -/
theorem soleEntry_eq_some (hl : l.Describes f.Edge r) (hf : f.WellFormed) :
    l.soleEntry f = some p ↔ IsPreheader f r l.header p := by
  rw [soleEntry, Option.filter_eq_some_iff,
    sole?_eq_some_iff_of_nodup ((hf.nodup.filter _).filter _)]
  simp only [List.mem_filter, List.contains_iff_mem, Bool.not_eq_true', ← Bool.not_eq_true,
    hl.contains_iff, decide_eq_true_eq]
  constructor
  · rintro ⟨⟨⟨hedge, hout⟩, honly⟩, hnext⟩
    exact ⟨hedge, hout, fun x hx hxout => honly x ⟨hx, hxout⟩, hnext⟩
  · intro hp
    exact ⟨⟨⟨hp.edge, hp.outside⟩, fun y hy => hp.only y hy.1 hy.2⟩, hp.next_eq⟩

/-- The preheader of a loop of a well-formed function can be found. -/
theorem preheader?_eq (l : Loop) (hf : f.WellFormed) : l.preheader? f = .ok (l.soleEntry f) := by
  rw [preheader?, predecessor?, hf.predecessors_eq, soleEntry]
  simp only [bind, Except.bind, pure, Except.pure]
  cases hp : sole? ((f.layout.filter fun a => (f.next a).contains l.header).filter
      fun b => !l.contains b) with
  | none => rfl
  | some q =>
      have hq : q ∈ f.layout := by
        have hmem := List.mem_singleton.mpr (rfl : q = q)
        rw [← sole?_eq_some.mp hp] at hmem
        exact (List.mem_filter.mp (List.mem_filter.mp hmem).1).1
      simp only [hf.successors_eq hq, Option.filter_some, decide_eq_true_eq]

end Describes

end Loop

end Lockstep
