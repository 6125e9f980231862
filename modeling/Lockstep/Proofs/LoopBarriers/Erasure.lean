import Lockstep.Proofs.LoopBarriers.Steps

/-!
# Erasing what the pass adds

All that the pass adds to a kernel can be found in the result and taken out again. It adds
barriers, and blocks that were split off others: each stands right behind the block that it was
split off, holds the old terminator of that and nothing else, and is what that branches to now.
`LoopBarriers.Erases` says so of a function and its result, given which block was added behind
which.

## Main results

* `LoopBarriers.Erases.grow` and `LoopBarriers.Splittable.erases_isolate`: what the turns of loops
  add.
* `LoopBarriers.Processed.exists_erases`: what processing a kernel adds.
* `Pipeline.runLoopBarriers_erases`: what the pass does to a module.
-/

namespace Lockstep

/-! ### Inserted barriers -/

/-- The second list is the first with barriers inserted. -/
structure WithBarriers (xs ys : List Instruction) : Prop where
  sublist : xs.Sublist ys
  filter_eq : ys.filter (!·.isBarrier) = xs.filter (!·.isBarrier)

namespace WithBarriers

variable {xs ys zs : List Instruction}

/-- Nothing need be inserted. -/
theorem refl (xs : List Instruction) : WithBarriers xs xs :=
  ⟨List.Sublist.refl xs, rfl⟩

/-- Barriers may be inserted in two rounds. -/
theorem trans (h : WithBarriers xs ys) (h' : WithBarriers ys zs) : WithBarriers xs zs :=
  ⟨h.sublist.trans h'.sublist, h'.filter_eq.trans h.filter_eq⟩

/-- The lists may go on with the same instructions. -/
theorem append_right (h : WithBarriers xs ys) (zs : List Instruction) :
    WithBarriers (xs ++ zs) (ys ++ zs) :=
  ⟨h.sublist.append (List.Sublist.refl zs),
    by rw [List.filter_append, List.filter_append, h.filter_eq]⟩

/-- Barriers stay barriers under a map that makes and removes none. -/
theorem map (h : WithBarriers xs ys) {g : Instruction → Instruction}
    (hg : ∀ i, (g i).isBarrier = i.isBarrier) : WithBarriers (xs.map g) (ys.map g) := by
  refine ⟨h.sublist.map g, ?_⟩
  simp only [List.filter_map, Function.comp_def, hg, h.filter_eq]

end WithBarriers

namespace Block

variable {b b' : Block}

/-- A block that grows has barriers inserted. -/
theorem Grows.withBarriers (h : b.Grows b') : WithBarriers b.instructions b'.instructions :=
  ⟨h.sublist, h.filter_eq⟩

/-- No barrier is inserted behind the last instruction. -/
theorem Grows.withBarriers_dropLast (h : b.Grows b') :
    WithBarriers b.instructions.dropLast b'.instructions.dropLast := by
  refine h.keeps (P := fun c => WithBarriers b.instructions.dropLast c.instructions.dropLast)
    (fun hgain hc => hc.trans ?_) (.refl _)
  cases hgain with
  | nothing => exact .refl _
  | @barrier pre post mark happend hpost _ _ =>
      rw [happend, List.dropLast_append_of_ne_nil hpost,
        List.dropLast_append_of_ne_nil (List.cons_ne_nil _ _), List.dropLast_cons_of_ne_nil hpost]
      exact ⟨(List.Sublist.refl pre).append (List.sublist_cons_self _ _),
        by rw [List.filter_append, List.filter_append, List.filter_cons_of_neg (by decide)]⟩

end Block

/-! ### Labels of phis -/

namespace Instruction

variable {i : Instruction} {g g' : BlockId → BlockId} {old new : BlockId}

/-- The instruction with the labels of a phi replaced by their images. -/
def mapLabels (g : BlockId → BlockId) : Instruction → Instruction
  | .phi result incoming ty => .phi result (incoming.map fun (v, a) => (v, g a)) ty
  | i => i

/-- Renamed labels make no barrier. -/
theorem isBarrier_mapLabels : (i.mapLabels g).isBarrier = i.isBarrier := by
  cases i <;> rfl

/-- Only the image of the labels matters. -/
theorem mapLabels_congr (h : ∀ a ∈ i.phiLabels, g a = g' a) : i.mapLabels g = i.mapLabels g' := by
  cases i with
  | phi result incoming ty =>
      simp only [mapLabels, phiLabels, List.mem_map, forall_exists_index, and_imp,
        forall_apply_eq_imp_iff₂] at h ⊢
      congr 1
      exact List.map_congr_left fun q hq => by rw [h q hq]
  | _ => rfl

/-- Nothing changes when labels are their own images. -/
theorem mapLabels_id : i.mapLabels id = i := by
  cases i with
  | phi result incoming ty => simp [mapLabels]
  | _ => rfl

/-- Renaming one label and then all of them is renaming all of them once. -/
theorem mapLabels_renameIncoming :
    (i.renameIncoming old new).mapLabels g =
      i.mapLabels fun a => g (if a = old then new else a) := by
  cases i with
  | phi result incoming ty => simp [mapLabels, renameIncoming, Function.comp_def]
  | _ => rfl

end Instruction

namespace LoopBarriers

variable {f g g' : Function} {added : BlockId → Option BlockId} {r h p a b n x : BlockId}
  {hs : List BlockId}

/-! ### What is added -/

/-- The block that an added block was split off; other blocks come from nowhere else. -/
def origin (f : Function) (added : BlockId → Option BlockId) (x : BlockId) : BlockId :=
  (f.layout.find? fun a => added a = some x).getD x

/-- The instructions of a block, with phis that choose by the blocks they chose by before. -/
def withOldLabels (f f' : Function) (added : BlockId → Option BlockId) (x : BlockId) :
    List Instruction :=
  (f'.blockAt x).instructions.map (Instruction.mapLabels (origin f added))

/-- The instructions of a block, with the terminator back that was split off it. -/
def restored (f f' : Function) (added : BlockId → Option BlockId) (a : BlockId) :
    List Instruction :=
  match added a with
  | none => withOldLabels f f' added a
  | some n => (withOldLabels f f' added a).dropLast ++ withOldLabels f f' added n

/-- The second function is the first with barriers inserted, and with blocks split off as `added`
says. -/
structure Erases (f f' : Function) (added : BlockId → Option BlockId) : Prop where
  /-- The blocks stand in the old order, each followed by what was split off it. -/
  layout : f'.layout = f.layout.flatMap fun a => a :: (added a).toList
  /-- Blocks are split off blocks of the body. -/
  mem_layout : ∀ {a n}, added a = some n → a ∈ f.layout
  /-- What is split off is new. -/
  fresh : ∀ {a n}, added a = some n → f.capacity ≤ n.index
  injective : ∀ {a b n}, added a = some n → added b = some n → a = b
  capacity_le : f.capacity ≤ f'.capacity
  /-- No other blocks are new. -/
  arena : ∀ {x : BlockId}, x.index < f'.capacity → x.index < f.capacity ∨ ∃ a, added a = some x
  /-- Blocks outside the body are what they were. -/
  outside : ∀ {x : BlockId}, x.index < f.capacity → x ∉ f.layout → f'.blockAt x = f.blockAt x
  /-- What was split off a block is its old terminator, and the block branches to it. -/
  moved : ∀ {a n}, added a = some n → ∃ t, (f.blockAt a).terminator? = some t ∧
    (f'.blockAt n).instructions = [t] ∧ (f'.blockAt a).terminator? = some (.branch n)
  /-- Other blocks of the body keep their terminators. -/
  terminator : ∀ {a}, a ∈ f.layout → added a = none →
    (f'.blockAt a).terminator? = (f.blockAt a).terminator?
  /-- Nothing but barriers was inserted, and nothing is lost or out of order. -/
  restored : ∀ {a}, a ∈ f.layout →
    WithBarriers (f.blockAt a).instructions (restored f f' added a)
  /-- No two barriers come to stand side by side. -/
  apart : ∀ {x}, Block.Apart (f.blockAt x).instructions → Block.Apart (f'.blockAt x).instructions

/-- A block that was not added is its own origin. -/
theorem origin_eq_self (hnot : ∀ a, added a ≠ some x) : origin f added x = x := by
  rw [origin, List.find?_eq_none.mpr fun a _ => by simpa using hnot a, Option.getD_none]

namespace Erases

/-- Nothing is added at first. -/
theorem refl (f : Function) : Erases f f fun _ => none where
  layout := by simp
  mem_layout := nofun
  fresh := nofun
  injective := nofun
  capacity_le := Nat.le_refl _
  arena := .inl
  outside _ _ := rfl
  moved := nofun
  terminator _ _ := rfl
  restored _ := by
    have horigin : origin f (fun _ => none) = id := funext fun x => origin_eq_self nofun
    have hid : Instruction.mapLabels id = id := funext fun _ => Instruction.mapLabels_id
    rw [LoopBarriers.restored, withOldLabels, horigin, hid, List.map_id]
    exact .refl _
  apart := id

variable (he : Erases f g added)
include he

/-- The blocks of the result are old ones and added ones. -/
theorem mem_iff : x ∈ g.layout ↔ x ∈ f.layout ∨ ∃ a, added a = some x := by
  simp only [he.layout, List.mem_flatMap, List.mem_cons, Option.mem_toList]
  constructor
  · rintro ⟨a, ha, rfl | hx⟩
    · exact .inl ha
    · exact .inr ⟨a, hx⟩
  · rintro (hx | ⟨a, hx⟩)
    · exact ⟨x, hx, .inl rfl⟩
    · exact ⟨a, he.mem_layout hx, .inr hx⟩

/-- An added block is in the new body. -/
theorem added_mem (hn : added a = some n) : n ∈ g.layout :=
  he.mem_iff.mpr (.inr ⟨a, hn⟩)

/-- An old block is no added one. -/
theorem added_ne (hf : f.WellFormed) (hx : x ∈ f.layout) : added a ≠ some x := fun hadded =>
  Nat.not_lt.mpr (he.fresh hadded) (hf.index_lt x hx)

/-- Barriers in the old blocks, the added ones being left alone. -/
theorem grow (hlayout : g'.layout = g.layout) (hcapacity : g'.capacity = g.capacity)
    (hgrows : ∀ x ∈ g.layout, (g.blockAt x).Grows (g'.blockAt x))
    (hsame : ∀ x, x ∉ g.layout → g'.blockAt x = g.blockAt x)
    (hadded : ∀ a n, added a = some n → g'.blockAt n = g.blockAt n) : Erases f g' added where
  layout := hlayout.trans he.layout
  mem_layout := he.mem_layout
  fresh := he.fresh
  injective := he.injective
  capacity_le := hcapacity ▸ he.capacity_le
  arena hx := he.arena (hcapacity ▸ hx)
  outside {x} hx hnot := by
    have hnot' : x ∉ g.layout := by
      rw [he.mem_iff]
      rintro (hmem | ⟨a, ha⟩)
      · exact hnot hmem
      · exact Nat.not_lt.mpr (he.fresh ha) hx
    rw [hsame x hnot', he.outside hx hnot]
  moved {a n} hn := by
    obtain ⟨t, ht, hinstructions, hbranch⟩ := he.moved hn
    have hterm := (hgrows a (he.mem_iff.mpr (.inl (he.mem_layout hn)))).terminator?_eq
    exact ⟨t, ht, by rw [hadded a n hn, hinstructions], hterm.trans hbranch⟩
  terminator ha hnone :=
    (hgrows _ (he.mem_iff.mpr (.inl ha))).terminator?_eq.trans (he.terminator ha hnone)
  restored {a} ha := by
    have hgrow := hgrows a (he.mem_iff.mpr (.inl ha))
    refine (he.restored ha).trans ?_
    rw [LoopBarriers.restored, LoopBarriers.restored]
    cases hn : added a with
    | none => exact hgrow.withBarriers.map fun _ => Instruction.isBarrier_mapLabels
    | some n =>
        simp only [withOldLabels, hadded a n hn, ← List.map_dropLast]
        refine WithBarriers.append_right ?_ _
        exact hgrow.withBarriers_dropLast.map fun _ => Instruction.isBarrier_mapLabels
  apart {x} hx := by
    by_cases hmem : x ∈ g.layout
    · exact (hgrows x hmem).apart (he.apart hx)
    · rw [hsame x hmem]
      exact he.apart hx

end Erases

/-! ### Splitting a preheader -/

/-- What is known when the preheader of a loop is about to be split. -/
structure Splittable (f g : Function) (added : BlockId → Option BlockId) (r h p : BlockId) :
    Prop where
  old : f.WellFormed
  erases : Erases f g added
  ready : Ready g r h p
  room : g.capacity < 2 ^ 32
  header_mem : h ∈ f.layout
  preheader_mem : p ∈ f.layout
  unsplit : added p = none

/-- What is added when a preheader was split. -/
def addedTo (g : Function) (p : BlockId) (added : BlockId → Option BlockId) :
    BlockId → Option BlockId :=
  Function.update added p (some g.nextBlock)

namespace Splittable

variable (hsplit : Splittable f g added r h p)
include hsplit

/-- The preheader has a terminator, which comes last. -/
theorem exists_eq_append : ∃ init t, (g.blockAt p).instructions = init ++ [t] ∧
    t.isTerminator = true :=
  Block.exists_eq_append (hsplit.ready.wellFormed.terminated p hsplit.ready.mem_layout)

omit hsplit in
/-- The new block is the one that is split off the preheader. -/
theorem addedTo_self : addedTo g p added p = some g.nextBlock :=
  Function.update_self ..

omit hsplit in
/-- What other blocks were split into stays. -/
theorem addedTo_of_ne (ha : a ≠ p) : addedTo g p added a = added a :=
  Function.update_of_ne ha ..

/-- No block that was added before has the next identifier. -/
theorem added_ne_nextBlock : added a ≠ some g.nextBlock := fun ha =>
  hsplit.ready.ne_nextBlock hsplit.room (hsplit.erases.added_mem ha) rfl

/-- The added blocks are those that were there and the new one. -/
theorem addedTo_eq_some : addedTo g p added a = some n ↔
    a = p ∧ n = g.nextBlock ∨ added a = some n := by
  by_cases ha : a = p
  · subst ha
    rw [addedTo_self, hsplit.unsplit, Option.some.injEq]
    simp [eq_comm]
  · rw [addedTo_of_ne ha]
    simp [ha]

/-- Where blocks come from after the split. -/
theorem origin_addedTo : origin f (addedTo g p added) x =
    if x = g.nextBlock then p else origin f added x := by
  by_cases hx : x = g.nextBlock
  · have hfind : f.layout.find? (fun a => addedTo g p added a = some x) = some p := by
      rw [List.find?_eq_some_iff_append]
      obtain ⟨pre, post, hlayout⟩ := List.append_of_mem hsplit.preheader_mem
      refine ⟨by simp [hx, addedTo_self], pre, post, hlayout, fun a ha => ?_⟩
      have hne : a ≠ p := by
        rintro rfl
        have hnodup := hsplit.old.nodup
        rw [hlayout, List.nodup_append] at hnodup
        exact hnodup.2.2 a ha a List.mem_cons_self rfl
      rw [addedTo_of_ne hne, hx]
      simpa using hsplit.added_ne_nextBlock
    rw [if_pos hx, origin, hfind, Option.getD_some]
  · rw [if_neg hx, origin, origin]
    congr 2
    funext a
    rw [decide_eq_decide, hsplit.addedTo_eq_some]
    simp [hx]

/-- The preheader was in the function from the start. -/
theorem origin_preheader : origin f added p = p :=
  origin_eq_self fun _ => hsplit.erases.added_ne hsplit.old hsplit.preheader_mem

/-- A label of a phi, renamed and read back, is what it was. -/
theorem origin_renamed (hx : x ∈ g.layout) :
    origin f (addedTo g p added) (if x = p then g.nextBlock else x) = origin f added x := by
  rw [hsplit.origin_addedTo]
  split
  · rename_i hxp
    rw [if_pos rfl, hxp, hsplit.origin_preheader]
  · rw [if_neg (hsplit.ready.ne_nextBlock hsplit.room hx)]

/-- The blocks of the body keep their origins when one is added. -/
theorem origin_kept (hx : x ∈ g.layout) : origin f (addedTo g p added) x = origin f added x := by
  rw [hsplit.origin_addedTo, if_neg (hsplit.ready.ne_nextBlock hsplit.room hx)]

/-- The instructions of blocks of the body read as before. -/
theorem mapLabels_kept (hx : x ∈ g.layout) {i : Instruction}
    (hi : i ∈ (g.blockAt x).instructions) :
    i.mapLabels (origin f (addedTo g p added)) = i.mapLabels (origin f added) :=
  Instruction.mapLabels_congr fun _ ha =>
    hsplit.origin_kept (hsplit.ready.wellFormed.label_mem x hx i hi _ ha)

/-- The blocks of the body, apart from the preheader, read as before. -/
theorem withOldLabels_isolate (hx : x ∈ g.layout) (hne : x ≠ p) :
    withOldLabels f (isolate g p) (addedTo g p added) x = withOldLabels f g added x := by
  obtain ⟨init, t, hb, -⟩ := hsplit.exists_eq_append
  rw [withOldLabels, withOldLabels, hsplit.ready.blockAt_isolate hsplit.room hb,
    if_neg (hsplit.ready.ne_nextBlock hsplit.room hx), if_neg hne]
  split
  · rename_i hxh
    subst hxh
    rw [Block.relabel, List.map_map]
    refine List.map_congr_left fun i hi => ?_
    rw [Function.comp_apply, Instruction.mapLabels_renameIncoming]
    exact Instruction.mapLabels_congr fun a ha =>
      hsplit.origin_renamed (hsplit.ready.wellFormed.label_mem x hx i hi a ha)
  · exact List.map_congr_left fun i hi => hsplit.mapLabels_kept hx hi

/-- The instructions of every block are restored as before. -/
theorem restored_isolate (ha : a ∈ f.layout) :
    restored f (isolate g p) (addedTo g p added) a = restored f g added a := by
  have hag : a ∈ g.layout := hsplit.erases.mem_iff.mpr (.inl ha)
  by_cases hap : a = p
  · subst hap
    obtain ⟨init, t, hb, -⟩ := hsplit.exists_eq_append
    have hne := (hsplit.ready.ne_nextBlock hsplit.room hag)
    have hkept := List.map_congr_left fun i hi => hsplit.mapLabels_kept hag (i := i) hi
    rw [restored, restored, addedTo_self, hsplit.unsplit]
    simp only [withOldLabels, hsplit.ready.blockAt_isolate hsplit.room hb, if_true, if_neg hne]
    rw [← hkept, hb, List.map_append, List.map_append, List.map_singleton, List.map_singleton,
      List.dropLast_concat]
  · rw [restored, restored, addedTo_of_ne hap]
    cases hn : added a with
    | none => exact hsplit.withOldLabels_isolate hag hap
    | some n =>
        have hnp : n ≠ p := by
          rintro rfl
          exact hsplit.erases.added_ne hsplit.old hsplit.preheader_mem hn
        simp only [hsplit.withOldLabels_isolate hag hap,
          hsplit.withOldLabels_isolate (hsplit.erases.added_mem hn) hnp]

/-- Splitting keeps the terminators of other blocks. -/
theorem terminator?_isolate (hx : x ∈ g.layout) (hne : x ≠ p) :
    ((isolate g p).blockAt x).terminator? = (g.blockAt x).terminator? := by
  obtain ⟨init, t, hb, -⟩ := hsplit.exists_eq_append
  rw [hsplit.ready.blockAt_isolate hsplit.room hb,
    if_neg (hsplit.ready.ne_nextBlock hsplit.room hx), if_neg hne]
  split
  · rename_i hxh
    rw [Block.terminator?_relabel, hxh]
  · rfl

/-- Blocks that were not in the body at first are left alone, apart from the new one. -/
theorem blockAt_isolate_of_notMem (hx : x ∉ f.layout) (hne : x ≠ g.nextBlock) :
    (isolate g p).blockAt x = g.blockAt x :=
  hsplit.ready.blockAt_isolate_of_ne hsplit.room hne (fun heq => hx (heq ▸ hsplit.preheader_mem))
    fun heq => hx (heq ▸ hsplit.header_mem)

/-- Blocks that were added before are left alone. -/
theorem blockAt_added (hn : added a = some n) : (isolate g p).blockAt n = g.blockAt n :=
  hsplit.blockAt_isolate_of_notMem (fun hmem => hsplit.erases.added_ne hsplit.old hmem hn)
    (hsplit.ready.ne_nextBlock hsplit.room (hsplit.erases.added_mem hn))

/-- The new block holds the old terminator of the preheader, which ends with a branch to it. -/
theorem moved_isolate : ∃ t, (f.blockAt p).terminator? = some t ∧
    ((isolate g p).blockAt g.nextBlock).instructions = [t] ∧
    ((isolate g p).blockAt p).terminator? = some (.branch g.nextBlock) := by
  obtain ⟨init, t, hb, ht⟩ := hsplit.exists_eq_append
  have hne := hsplit.ready.ne_nextBlock hsplit.room hsplit.ready.mem_layout
  refine ⟨t, ?_, ?_, ?_⟩
  · rw [← hsplit.erases.terminator hsplit.preheader_mem hsplit.unsplit]
    exact Block.terminator?_of_append hb ht
  · rw [hsplit.ready.blockAt_isolate hsplit.room hb, if_pos rfl]
  · rw [hsplit.ready.blockAt_isolate hsplit.room hb, if_neg hne, if_pos rfl]
    exact Block.terminator?_of_append rfl rfl

/-- **What splitting a preheader adds** is a block behind it. -/
theorem erases_isolate : Erases f (isolate g p) (addedTo g p added) where
  layout := by
    rw [layout_isolate, hsplit.erases.layout]
    exact insertAfter_flatMap hsplit.preheader_mem hsplit.old.nodup hsplit.unsplit fun a _ =>
      hsplit.erases.added_ne hsplit.old hsplit.preheader_mem
  mem_layout ha := by
    rcases hsplit.addedTo_eq_some.mp ha with ⟨rfl, -⟩ | ha
    · exact hsplit.preheader_mem
    · exact hsplit.erases.mem_layout ha
  fresh ha := by
    rcases hsplit.addedTo_eq_some.mp ha with ⟨-, rfl⟩ | ha
    · rw [Function.WellFormed.index_nextBlock hsplit.room]
      exact hsplit.erases.capacity_le
    · exact hsplit.erases.fresh ha
  injective ha hb := by
    rcases hsplit.addedTo_eq_some.mp ha with ⟨rfl, rfl⟩ | ha' <;>
      rcases hsplit.addedTo_eq_some.mp hb with ⟨rfl, hn⟩ | hb'
    · rfl
    · exact absurd hb' hsplit.added_ne_nextBlock
    · exact absurd (hn ▸ ha') hsplit.added_ne_nextBlock
    · exact hsplit.erases.injective ha' hb'
  capacity_le := by
    rw [capacity_isolate]
    exact Nat.le_succ_of_le hsplit.erases.capacity_le
  arena {x} hx := by
    rw [capacity_isolate] at hx
    by_cases hlt : x.index < g.capacity
    · exact (hsplit.erases.arena hlt).imp_right fun ⟨a, ha⟩ =>
        ⟨a, hsplit.addedTo_eq_some.mpr (.inr ha)⟩
    · have hindex : x.index = g.nextBlock.index := by
        rw [Function.WellFormed.index_nextBlock hsplit.room]
        omega
      exact .inr ⟨p, hsplit.addedTo_eq_some.mpr (.inl ⟨rfl, ArenaId.index_inj hindex⟩)⟩
  outside {x} hx hnot := by
    have hne : x ≠ g.nextBlock := by
      rintro rfl
      rw [Function.WellFormed.index_nextBlock hsplit.room] at hx
      exact Nat.not_lt.mpr hsplit.erases.capacity_le hx
    rw [hsplit.blockAt_isolate_of_notMem hnot hne, hsplit.erases.outside hx hnot]
  moved {a n} ha := by
    rcases hsplit.addedTo_eq_some.mp ha with ⟨rfl, rfl⟩ | ha'
    · exact hsplit.moved_isolate
    · obtain ⟨t, ht, hinstructions, hbranch⟩ := hsplit.erases.moved ha'
      have hap : a ≠ p := by
        rintro rfl
        rw [hsplit.unsplit] at ha'
        cases ha'
      have hag : a ∈ g.layout := hsplit.erases.mem_iff.mpr (.inl (hsplit.erases.mem_layout ha'))
      refine ⟨t, ht, ?_, (hsplit.terminator?_isolate hag hap).trans hbranch⟩
      rw [hsplit.blockAt_added ha', hinstructions]
  terminator {a} ha hnone := by
    have hap : a ≠ p := by
      rintro rfl
      rw [addedTo_self] at hnone
      cases hnone
    rw [addedTo_of_ne hap] at hnone
    rw [hsplit.terminator?_isolate (hsplit.erases.mem_iff.mpr (.inl ha)) hap]
    exact hsplit.erases.terminator ha hnone
  restored ha := by
    rw [hsplit.restored_isolate ha]
    exact hsplit.erases.restored ha
  apart {x} hx := by
    have hg := hsplit.erases.apart hx
    by_cases hmem : x ∈ g.layout
    · rwa [Block.apart_iff, Step.shape_isolate hsplit.ready hsplit.room hmem, ← Block.apart_iff]
    · by_cases hne : x = g.nextBlock
      · obtain ⟨t, -, hinstructions, -⟩ := hsplit.moved_isolate
        rw [hne, hinstructions]
        exact List.isChain_singleton _
      · have hnot : x ∉ f.layout := fun hold => hmem (hsplit.erases.mem_iff.mpr (.inl hold))
        rwa [hsplit.blockAt_isolate_of_notMem hnot hne]

end Splittable

/-! ### Runs -/

/-- A function in the middle of a run that has not come to the headers `hs` yet. What was added
so far are preheaders of loops that had their turns. -/
structure Erasing (f g : Function) (r : BlockId) (hs : List BlockId)
    (added : BlockId → Option BlockId) : Prop where
  old : f.WellFormed
  erases : Erases f g added
  root_mem : r ∈ f.layout
  sameLoops : SameLoops f g r
  preheader : ∀ {a n}, added a = some n →
    ∃ o, IsHeader f.Edge r o ∧ o ∉ hs ∧ IsPreheader g r o n

namespace Erasing

variable (he : Erasing f g r (h :: hs) added) (hready : Ready g r h p)
include he hready

/-- The header of a loop whose turn comes was in the function from the start. -/
theorem header_mem : h ∈ f.layout :=
  Search.mem_layout_of_reaches he.old he.root_mem
    ((he.sameLoops.isHeader_iff h).mp hready.header).reaches

/-- The preheader of a loop whose turn it is was not added. -/
theorem added_ne_preheader : added a ≠ some p := fun ha => by
  obtain ⟨o, -, ho, hpre⟩ := he.preheader ha
  exact ho (hpre.header_eq hready.preheader ▸ List.mem_cons_self)

/-- So was its preheader. -/
theorem preheader_mem : p ∈ f.layout :=
  (he.erases.mem_iff.mp hready.mem_layout).resolve_right fun ⟨_, ha⟩ =>
    he.added_ne_preheader hready ha

/-- Nothing was split off that preheader: it leads to the header, which is no added block. -/
theorem preheader_unsplit : added p = none := by
  cases hn : added p with
  | none => rfl
  | some n =>
      obtain ⟨t, -, -, hbranch⟩ := he.erases.moved hn
      have hnext : g.next p = [n] := by
        rw [Function.next, Block.successors, hbranch]
        rfl
      obtain rfl : n = h := List.singleton_inj.mp (hnext.symm.trans hready.preheader.next_eq)
      exact absurd hn (he.erases.added_ne he.old (he.header_mem hready))

/-- The preheader of a loop whose turn comes has not been split and can be. -/
theorem splittable (hroom : g.capacity < 2 ^ 32) : Splittable f g added r h p where
  old := he.old
  erases := he.erases
  ready := hready
  room := hroom
  header_mem := he.header_mem hready
  preheader_mem := he.preheader_mem hready
  unsplit := he.preheader_unsplit hready

/-- Added blocks are no places of other loops. -/
theorem not_mem_places {l : Loop} {d : BlockId → Bool} (hl : l.Describes g.Edge r)
    (hh : l.header = h) (hn : added a = some n) {place : Place} : (n, place) ∉ places g l d p := by
  subst hh
  obtain ⟨o, -, -, hpre⟩ := he.preheader hn
  intro hmem
  rcases of_mem_places hready.wellFormed hl hmem with ⟨rfl, -⟩ | ⟨rfl, -⟩ | ⟨hexit | hlatch, -⟩
  · exact he.added_ne_preheader hready hn
  · exact he.erases.added_ne he.old (he.header_mem hready) hn
  · exact hpre.not_isExiting hexit.1
  · exact hpre.not_isLatch hlatch

variable (hstep : Step g r h p g')
include hstep

/-- What one turn adds. -/
theorem exists_erases_step : ∃ added', Erases f g' added' ∧ ∀ {a n}, added' a = some n →
    added a = some n ∨ IsPreheader g' r h n := by
  cases hstep with
  | @surround l d hl hh hholds =>
      have hplaces := hready.places_mem (d := d) hl
      have hblock := fun x => hready.wellFormed.blockAt_guardAll (x := x) hplaces
      have hsame : ∀ x, (∀ place, (x, place) ∉ places g l d p) →
          (g.guardAll (places g l d p)).blockAt x = g.blockAt x := by
        intro x hx
        rw [hblock, List.filter_eq_nil_iff.mpr fun q hq hqx => hx q.2 (of_decide_eq_true hqx ▸ hq)]
        rfl
      refine ⟨added, he.erases.grow Function.layout_guardAll Function.capacity_guardAll
        (fun x hx => ?_) (fun x hx => hsame x fun place hmem => hx (hplaces _ hmem))
        (fun a n hn => hsame n fun place => he.not_mem_places hready hl hh hn), .inl⟩
      rw [hblock]
      exact Block.grows_guardAll (hready.wellFormed.terminated x hx) _
  | isolate hroom _ _ =>
      have hsplit := he.splittable hready hroom
      refine ⟨addedTo g p added, hsplit.erases_isolate, fun hn => ?_⟩
      rcases hsplit.addedTo_eq_some.mp hn with ⟨-, rfl⟩ | hn
      · exact .inr (isPreheader_nextBlock hready.wellFormed hroom hready.root_mem hready.preheader
          hready.header)
      · exact .inl hn
  | pass => exact ⟨added, he.erases, .inl⟩

/-- **One turn**, and the run goes on. -/
theorem exists_step (hnot : h ∉ hs) : ∃ added', Erasing f g' r hs added' := by
  obtain ⟨added', herases, hadded⟩ := he.exists_erases_step hready hstep
  refine ⟨added', he.old, herases, he.root_mem, he.sameLoops.trans (hstep.sameLoops hready),
    fun hn => ?_⟩
  rcases hadded hn with hn | hpre
  · obtain ⟨o, ho, hnot', hpre⟩ := he.preheader hn
    have ho' := (he.sameLoops.isHeader_iff o).mpr ho
    exact ⟨o, ho, List.not_mem_of_not_mem_cons hnot',
      (hstep.isPreheader_iff hready ho' (List.ne_of_not_mem_cons hnot')).mpr hpre⟩
  · exact ⟨h, (he.sameLoops.isHeader_iff h).mp hready.header, hnot, hpre⟩

end Erasing

/-- What the rest of a run adds. -/
theorem Steps.exists_erases_of_erasing (hsteps : Steps r g hs g') (hs' : hs.Nodup)
    (he : Erasing f g r hs added) : ∃ added', Erases f g' added' := by
  induction hsteps generalizing added with
  | done => exact ⟨added, he.erases⟩
  | step hready hstep _ ih =>
      obtain ⟨hnot, hrest⟩ := List.nodup_cons.mp hs'
      obtain ⟨added', he'⟩ := he.exists_step hready hstep hnot
      exact ih hrest he'

/-- **What processing a kernel adds** are barriers and blocks that were split off others. -/
theorem Processed.exists_erases (hprocessed : Processed f g) : ∃ added, Erases f g added := by
  obtain ⟨r, hs, hr, hsteps, hheaders, horder⟩ := hprocessed.exists_steps
  have hnodup : hs.Nodup := by
    refine horder.imp_of_mem fun {h h'} hh _ hnot heq => hnot ?_
    rw [← heq]
    exact ((hheaders h).mp hh).inLoop
  exact hsteps.exists_erases_of_erasing hnodup
    ⟨hsteps.wellFormed, .refl f, List.mem_of_head? hr, .refl f r, nofun⟩

end LoopBarriers

/-! ### The pass -/

/-- **Erasing what the pass adds.** When the pass succeeds, nothing of the module has changed but
the bodies of kernels, and all that a body has gained are barriers and blocks split off others,
each behind the one it was split off. -/
theorem Pipeline.runLoopBarriers_erases (options : Options) (detail : Detail) (m : Module)
    (hvalid : m.validate = .ok ()) (hslots : m.functions.length ≤ 2 ^ 32)
    (hfits : ((runLoopBarriers options).run detail m).state.Fits)
    {changed : Bool} (hok : ((runLoopBarriers options).run detail m).result = .ok changed) :
    ((runLoopBarriers options).run detail m).state.name = m.name ∧
    ((runLoopBarriers options).run detail m).state.globals = m.globals ∧
    ((runLoopBarriers options).run detail m).state.metadata = m.metadata ∧
    ((runLoopBarriers options).run detail m).state.functions.length = m.functions.length ∧
    (∀ id, options.accepts m id = false →
      ((runLoopBarriers options).run detail m).state.functions[id.index]? =
        m.functions[id.index]?) ∧
    ∀ id f, options.accepts m id = true → m.function? id = some f →
      ∃ f' added, ((runLoopBarriers options).run detail m).state.function? id = some f' ∧
        f.Extends f' ∧ LoopBarriers.Erases f f' added := by
  have hext := runLoopBarriers_keeps options detail m
  refine ⟨hext.name, hext.globals, hext.metadata, hext.length, fun id hrejected => ?_,
    fun id f hacc hf => ?_⟩
  · rcases hext.slot id.index with heq | ⟨id', -, -, hid, hacc, -⟩
    · exact heq
    · rw [ArenaId.index_inj hid] at hacc
      cases hacc.symm.trans hrejected
  · obtain ⟨f', hf', hprocessed⟩ := exists_processed hvalid hslots hfits hok hacc hf
    obtain ⟨added, herases⟩ := hprocessed.exists_erases
    exact ⟨f', added, hf', hprocessed.extended, herases⟩

/-- A kernel with a loop of one block, where a phi chooses by the block before it. That has a
barrier which the loop has not. -/
def waitingLoop : Function where
  name := "waiting"
  returnType := .void
  parameters := [{ name := "more", ty := .i1 }]
  blocks :=
    [{ id := ⟨0⟩, name := "entry", instructions := [.barrier, .branch ⟨1⟩] },
      { id := ⟨1⟩, name := "loop"
        instructions := [.phi 0 [(.constant 0, ⟨0⟩), (.constant 1, ⟨1⟩)] .i32,
          .branchCond (.param 0) ⟨1⟩ ⟨2⟩] },
      { id := ⟨2⟩, name := "exit", instructions := [.ret none] }]
  layout := [⟨0⟩, ⟨1⟩, ⟨2⟩]

/-- A module whose only function is that kernel. -/
def waitingModule : Module where
  name := "module"
  functions := [some waitingLoop]

/-- In the run on the waiting kernel a block is split off the first one, and taking it and the
barriers out again gives the kernel back. -/
theorem Pipeline.runLoopBarriers_erases_waiting :
    waitingModule.validate = .ok () ∧ waitingModule.functions.length ≤ 2 ^ 32 ∧
    ((runLoopBarriers { kernel := some "waiting" }).run none waitingModule).state.Fits ∧
    ((runLoopBarriers { kernel := some "waiting" }).run none waitingModule).result = .ok true ∧
    ∃ f' added, ((runLoopBarriers { kernel := some "waiting" }).run none
        waitingModule).state.function? ⟨0⟩ = some f' ∧
      f'.layout = [⟨0⟩, ⟨3⟩, ⟨1⟩, ⟨2⟩] ∧ waitingLoop.Extends f' ∧
      LoopBarriers.Erases waitingLoop f' added := by
  have hvalid : waitingModule.validate = .ok () := by decide +kernel
  have hslots : waitingModule.functions.length ≤ 2 ^ 32 := by decide
  have hfits : ((runLoopBarriers { kernel := some "waiting" }).run none
      waitingModule).state.Fits := by decide +kernel
  have hok : ((runLoopBarriers { kernel := some "waiting" }).run none waitingModule).result =
      .ok true := by decide +kernel
  have hlayout : (((runLoopBarriers { kernel := some "waiting" }).run none
      waitingModule).state.function? ⟨0⟩).map Function.layout = some [⟨0⟩, ⟨3⟩, ⟨1⟩, ⟨2⟩] := by
    decide +kernel
  obtain ⟨-, -, -, -, -, hkernels⟩ := runLoopBarriers_erases { kernel := some "waiting" } none
    waitingModule hvalid hslots hfits hok
  obtain ⟨f', added, hf', hext, herases⟩ := hkernels ⟨0⟩ waitingLoop (by decide) rfl
  rw [hf', Option.map_some, Option.some.injEq] at hlayout
  exact ⟨hvalid, hslots, hfits, hok, f', added, hf', hlayout, hext, herases⟩

end Lockstep
