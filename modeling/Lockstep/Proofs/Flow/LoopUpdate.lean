import Lockstep.Proofs.Flow.Postorder

/-!
# Loops of split functions

When a block is split, the forest of the function is told of it: the new block joins every loop that
holds the old one. Here the forest that was told is held against the forest that is computed afresh.

A split moves branches to the new block, so it changes latches and makes loops larger, and both
matter to the computation. Loops are found in the order of their latches; but the new block stands
right behind the old one and takes over all its branches in their order, so the headers are met in
the same order, and every loop keeps its index. Parents are found by comparing numbers of blocks;
but they can be told by headers alone, and a split changes nothing between headers.

One thing can differ. In the loop that the split block heads, the new block comes right behind the
header when the forest is told, and in program order when it is computed.

## Main results

* `LoopForest.outer?_eq_some_iff`: parents, told by headers alone.
* `LoopForest.map_header_split`: a split keeps the order in which loops are found.
* `LoopForest.addBlockLike_agrees`: the forest that was told and the one that is computed afresh.
-/

namespace Lockstep

variable {E E' : BlockId → BlockId → Prop} {r h o p n : BlockId}

/-- The loop of the header `o` is the innermost one around the loop of the header `h`. -/
def InnermostAround (E : BlockId → BlockId → Prop) (r h o : BlockId) : Prop :=
  o ≠ h ∧ InLoop E r o h ∧ ∀ q, q ≠ h → InLoop E r q h → InLoop E r q o

/-- A split keeps the nesting of the loops. -/
theorem SplitsOff.innermostAround_iff (hs : SplitsOff E E' r p n) (hh : h ≠ n) (ho : o ≠ n) :
    InnermostAround E' r h o ↔ InnermostAround E r h o := by
  simp only [InnermostAround, hs.inLoop_iff hh, hs.inLoop_iff ho]

/-- Two loops of a graph with the same header have the same blocks. -/
theorem Loop.Describes.agrees {l l' : Loop} (hl : l.Describes E r) (hl' : l'.Describes E r)
    (hheader : l.header = l'.header) :
    (∀ x, l.contains x = l'.contains x) ∧ l.blocks.Perm l'.blocks := by
  constructor
  · intro x
    rw [Bool.eq_iff_iff, hl.contains_iff, hl'.contains_iff, hheader]
  · refine (List.perm_ext_iff_of_nodup hl.nodup hl'.nodup).mpr fun x => ?_
    rw [hl.mem_blocks, hl'.mem_blocks, hheader]

namespace LoopForest

variable {loops loops' : List Loop} {forest forest' : LoopForest} {f : Function}
  {t t' : DominatorTree} {b : BlockId} {i j k : Nat} {l l' li : Loop}

/-! ### Parents -/

/-- **Parents, told by headers.** The smallest loop around a loop is the innermost one. Of two loops
around it, which share its header, the one is inside the other. -/
theorem outer?_eq_some_iff (hd : (LoopForest.mk loops).Describes E r)
    (hi : loops[i]? = some li) :
    outer? loops i = some j ↔
      ∃ lj, loops[j]? = some lj ∧ InnermostAround E r li.header lj.header := by
  have hdi := hd.loop li (List.mem_of_getElem? hi)
  rw [(outer?_iff_isSmallest hd hi).1]
  constructor
  · rintro ⟨lj, hj, hin, hmin⟩
    have hdj := hd.loop lj (List.mem_of_getElem? hj)
    obtain ⟨hne, hholds⟩ := (hdi.inside_iff hdj).mp hin
    refine ⟨lj, hj, hne.symm, hholds, ?_⟩
    intro q hq hqi
    obtain ⟨lq, hlq, rfl⟩ := hd.complete q hqi.isHeader
    have hdq := hd.loop lq hlq
    obtain ⟨k, hk⟩ := List.mem_iff_getElem?.mp hlq
    have hle := hmin k lq hk ((hdi.inside_iff hdq).mpr ⟨hq.symm, hqi⟩)
    rcases hqi.total hholds with hqj | hjq
    · exact hqj
    · by_cases heq : lq.header = lj.header
      · exact heq ▸ hdq.header.inLoop
      · have hlt := hdq.length_lt hdj heq hjq
        omega
  · rintro ⟨lj, hj, hne, hholds, hinner⟩
    have hdj := hd.loop lj (List.mem_of_getElem? hj)
    refine ⟨lj, hj, (hdi.inside_iff hdj).mpr ⟨hne.symm, hholds⟩, ?_⟩
    intro k lk hk hin
    have hdk := hd.loop lk (List.mem_of_getElem? hk)
    obtain ⟨hne', hholds'⟩ := (hdi.inside_iff hdk).mp hin
    have hkj := hinner lk.header hne'.symm hholds'
    by_cases heq : lj.header = lk.header
    · obtain rfl := eq_of_header_eq hd hj hk heq
      obtain rfl := Option.some.inj (hj.symm.trans hk)
      exact Nat.le_refl _
    · exact Nat.le_of_lt (hdj.length_lt hdk heq hkj)

/-- Loops with the same headers, index by index. -/
theorem exists_of_map_header (hheaders : loops'.map Loop.header = loops.map Loop.header)
    (hi : loops[i]? = some l) : ∃ l', loops'[i]? = some l' ∧ l'.header = l.header := by
  have hget := congrArg (·[i]?) hheaders
  simp only [List.getElem?_map, hi, Option.map_some] at hget
  exact Option.map_eq_some_iff.mp hget

/-- Loops with the same headers, of graphs with the same loops around loops, have the same
parents. -/
theorem outer?_congr (hd : (LoopForest.mk loops).Describes E r)
    (hd' : (LoopForest.mk loops').Describes E' r)
    (hheaders : loops'.map Loop.header = loops.map Loop.header)
    (haround : ∀ h o, IsHeader E r h → IsHeader E r o →
      (InnermostAround E' r h o ↔ InnermostAround E r h o)) : outer? loops' = outer? loops := by
  funext i
  cases hi : loops[i]? with
  | none =>
      have hi' : loops'[i]? = none := by
        have hlength := congrArg List.length hheaders
        rw [List.getElem?_eq_none_iff] at hi ⊢
        simp only [List.length_map] at hlength
        omega
      rw [outer?, outer?, hi, hi']
      rfl
  | some li =>
      obtain ⟨li', hi', hheader⟩ := exists_of_map_header hheaders hi
      have hhi := (hd.loop li (List.mem_of_getElem? hi)).header
      refine Option.ext fun j => ?_
      rw [outer?_eq_some_iff hd' hi', outer?_eq_some_iff hd hi, hheader]
      constructor
      · rintro ⟨lj', hj', hparent⟩
        obtain ⟨lj, hj, hheader'⟩ := exists_of_map_header hheaders.symm hj'
        have hhj := (hd.loop lj (List.mem_of_getElem? hj)).header
        rw [← hheader'] at hparent
        exact ⟨lj, hj, (haround _ _ hhi hhj).mp hparent⟩
      · rintro ⟨lj, hj, hparent⟩
        obtain ⟨lj', hj', hheader'⟩ := exists_of_map_header hheaders hj
        have hhj := (hd.loop lj (List.mem_of_getElem? hj)).header
        refine ⟨lj', hj', ?_⟩
        rw [hheader']
        exact (haround _ _ hhi hhj).mpr hparent

/-- The parents that are computed for all loops are those of each of them. -/
theorem map_parentOf_eq (loops : List Loop) :
    (loops.zipIdx.map fun (l, i) => parentOf loops i l) =
      (List.range loops.length).map (outer? loops) := by
  refine List.ext_getElem? fun i => ?_
  rw [List.getElem?_map, List.getElem?_zipIdx, List.getElem?_map]
  cases hi : loops[i]? with
  | none => simpa using hi
  | some l =>
      have houter : outer? loops i = parentOf loops i l := by
        rw [outer?, hi]
        rfl
      rw [List.getElem?_range (List.getElem?_eq_some_iff.mp hi).1]
      simp [houter]

/-- The places of loops depend on their parents only. -/
theorem place_nest_congr (hlength : loops'.length = loops.length)
    (houter : outer? loops' = outer? loops) (hl : (nest loops)[i]? = some l)
    (hl' : (nest loops')[i]? = some l') :
    l.parent = l'.parent ∧ l.children = l'.children ∧ l.depth = l'.depth := by
  rw [getElem?_nest, map_parentOf_eq] at hl hl'
  obtain ⟨li, hi, rfl⟩ := Option.map_eq_some_iff.mp hl
  obtain ⟨li', hi', rfl⟩ := Option.map_eq_some_iff.mp hl'
  have hparent : parentOf loops i li = parentOf loops' i li' := by
    have hat := congrFun houter i
    rw [outer?, outer?, hi, hi'] at hat
    exact hat.symm
  refine ⟨hparent, ?_, ?_⟩
  · have hchildren : ∀ j, (loops[j]?.bind (parentOf loops j)) =
        loops'[j]?.bind (parentOf loops' j) := fun j => (congrFun houter j).symm
    simp only [hlength, hchildren]
  · simp only [hlength, houter]

/-! ### The order of the loops -/

/-- The headers that a block leads back to are the successors that dominate it. -/
theorem map_fst_backEdgesFrom (f : Function) (r b : BlockId) :
    (backEdgesFrom f r b).map Prod.fst =
      open Classical in
      (f.next b).filter fun s => Reaches f.Edge r b ∧ Dominates f.Edge r s b := by
  simp [backEdgesFrom, Function.comp_def]

section Split

variable (hf : f.WellFormed) (hroom : f.capacity < 2 ^ 32) (hb : b ∈ f.layout)
  (hk : k < (f.blockAt b).instructions.length) (hr : f.entry? = some r)
include hf hroom hb hk hr

/-- **Headers are met in the same order.** The split block has no back edge any more, and the new
one, right behind it, has those that it had. -/
theorem map_fst_backEdges_split :
    ((f.split b k).layout.flatMap (backEdgesFrom (f.split b k) r)).map Prod.fst =
      (f.layout.flatMap (backEdgesFrom f r)).map Prod.fst := by
  have hs := hf.splitsOff hroom hb hk (List.mem_of_head? hr)
  have hne : ∀ a ∈ f.layout, a ≠ f.nextBlock := fun a ha heq =>
    hf.nextBlock_not_mem hroom (heq ▸ ha)
  have hsucc : ∀ a ∈ f.layout, ∀ s ∈ f.next a, s ≠ f.nextBlock := fun a ha s hsa =>
    hne s (hf.next_mem a ha s hsa)
  have hnext := fun a => hf.next_split hroom hb hk (x := a)
  rw [List.map_flatMap, List.map_flatMap, Function.layout_split]
  refine flatMap_insertAfter hb hf.nodup ?_ ?_
  · have hold : (backEdgesFrom (f.split b k) r b).map Prod.fst = [] := by
      rw [map_fst_backEdgesFrom, hnext, if_neg (hne b hb), if_pos rfl, List.filter_eq_nil_iff]
      intro s hsn hback
      rw [List.mem_singleton.mp hsn] at hback
      simp only [decide_eq_true_eq] at hback
      obtain ⟨hreach, hdom⟩ := hback
      exact hs.not_new_dominates ((hs.reaches_iff (hne b hb)).mp hreach) hdom
    rw [hold, List.nil_append, map_fst_backEdgesFrom, map_fst_backEdgesFrom, hnext, if_pos rfl]
    refine List.filter_congr fun s hsb => ?_
    rw [hs.reaches_new_iff, hs.dominates_new_iff (hsucc b hb s hsb)]
  · intro a ha hab
    rw [map_fst_backEdgesFrom, map_fst_backEdgesFrom, hnext, if_neg (hne a ha), if_neg hab]
    refine List.filter_congr fun s hsa => ?_
    rw [hs.reaches_iff (hne a ha), hs.dominates_iff (hsucc a ha s hsa) (hne a ha)]

/-- A split keeps the order in which loops are found. -/
theorem map_header_split (ht : t.Correct f r) (ht' : t'.Correct (f.split b k) r)
    (hforest : compute f t = .ok forest) (hforest' : compute (f.split b k) t' = .ok forest') :
    forest'.loops.map Loop.header = forest.loops.map Loop.header := by
  obtain ⟨edges, loops, hedges, rfl, hheaders, -⟩ := exists_of_compute hforest
  obtain ⟨edges', loops', hedges', rfl, hheaders', -⟩ := exists_of_compute hforest'
  rw [backEdges_eq hf hr ht] at hedges
  rw [backEdges_eq (hf.split hroom hb hk) ((Function.entry?_split hb).trans hr) ht'] at hedges'
  obtain rfl := Except.ok.inj hedges
  obtain rfl := Except.ok.inj hedges'
  rw [map_header_nest, map_header_nest, hheaders, hheaders',
    map_fst_backEdges_split hf hroom hb hk hr]

/-- A split keeps the places of loops. -/
theorem place_split (ht : t.Correct f r) (ht' : t'.Correct (f.split b k) r)
    (hforest : compute f t = .ok forest) (hforest' : compute (f.split b k) t' = .ok forest')
    (hl : forest.get? i = some l) (hl' : forest'.get? i = some l') :
    l.parent = l'.parent ∧ l.children = l'.children ∧ l.depth = l'.depth := by
  have hheaders := map_header_split hf hroom hb hk hr ht ht' hforest hforest'
  have hs := hf.splitsOff hroom hb hk (List.mem_of_head? hr)
  obtain ⟨loops, hloops, hd⟩ := compute_eq_ok hf hr ht
  obtain ⟨loops', hloops', hd'⟩ := compute_eq_ok (hf.split hroom hb hk)
    ((Function.entry?_split hb).trans hr) ht'
  obtain rfl := Except.ok.inj (hloops.symm.trans hforest)
  obtain rfl := Except.ok.inj (hloops'.symm.trans hforest')
  rw [map_header_nest, map_header_nest] at hheaders
  have hlength := congrArg List.length hheaders
  rw [List.length_map, List.length_map] at hlength
  refine place_nest_congr hlength (outer?_congr hd hd' hheaders fun h o hh ho => ?_) hl hl'
  exact hs.innermostAround_iff (hs.ne_of_reaches hh.inLoop.reaches)
    (hs.ne_of_reaches ho.inLoop.reaches)

/-- **Program order.** In a loop that the split block does not head, the new block comes right
behind the split one in both lists. Of the blocks that were there before, both loops hold the
same. -/
theorem blocks_split (hforest : compute f t = .ok forest)
    (hforest' : compute (f.split b k) t' = .ok forest') (hl : l ∈ forest.loops)
    (hl' : l' ∈ forest'.loops) (hd : l.Describes f.Edge r) (hne : l.header ≠ b)
    (hheader : l.header = l'.header)
    (hcontains : ∀ x, (if l.contains b then l.insertAfter b f.nextBlock else l).contains x =
      l'.contains x) :
    (if l.contains b then l.insertAfter b f.nextBlock else l).blocks = l'.blocks := by
  have hs := hf.splitsOff hroom hb hk (List.mem_of_head? hr)
  have hnot : l.contains f.nextBlock = false := by
    rw [← Bool.not_eq_true, hd.contains_iff]
    exact fun hin => hs.ne_of_reaches hin.reaches rfl
  have hcontains' : ∀ x, l'.contains x = true ↔
      l.contains x = true ∨ x = f.nextBlock ∧ l.contains b = true := fun x => by
    rw [← hcontains, contains_added]
  have hsame : (f.layout.filter fun x => x != l.header && l'.contains x) =
      f.layout.filter fun x => x != l.header && l.contains x := by
    refine List.filter_congr fun x hx => ?_
    have hxn : x ≠ f.nextBlock := fun heq => hf.nextBlock_not_mem hroom (heq ▸ hx)
    have heq : l'.contains x = l.contains x := by
      rw [Bool.eq_iff_iff, hcontains', or_iff_left fun h => hxn h.1]
    rw [heq]
  rw [blocks_of_compute hforest' l' hl', ← hheader, Function.layout_split]
  by_cases hold : l.contains b = true
  · have hold' : l'.contains b = true := (hcontains' _).mpr (.inl hold)
    have hnew : l'.contains f.nextBlock = true := (hcontains' _).mpr (.inr ⟨rfl, hold⟩)
    have hne' : f.nextBlock ≠ l.header := (hs.ne_of_reaches hd.header.inLoop.reaches).symm
    rw [if_pos hold, Loop.insertAfter, if_neg (by simp [hnot]),
      filter_insertAfter hb (by simp [hold', hne.symm]) (by simp [hnew, hne']), hsame]
    simp only [blocks_of_compute hforest l hl, insertAfter, if_neg hne]
  · have hnew : l'.contains f.nextBlock = false := by
      rw [← Bool.not_eq_true, hcontains']
      simp [hnot, hold]
    rw [if_neg hold, filter_insertAfter_of_not (by simp [hnew]), hsame]
    exact blocks_of_compute hforest l hl

end Split

/-- **The update agrees with the computation.** A split of a valid function can be told to its
forest, and the result is the forest of the split function: the same loops under the same indices,
with the same headers, blocks and places. The lists of blocks are the same up to their order, and
the same altogether for a loop that the split block does not head. -/
theorem addBlockLike_agrees (f : Function) (hvalid : f.validate = .ok ())
    (hroom : f.capacity < 2 ^ 32) (b : BlockId) (hb : b ∈ f.layout) (k : Nat)
    (hk : k < (f.blockAt b).instructions.length) :
    ∃ n f' t t' forest forest', f.splitBlock b k = .ok (n, f') ∧
      DominatorTree.compute f = .ok t ∧ compute f t = .ok forest ∧
      DominatorTree.compute f' = .ok t' ∧ compute f' t' = .ok forest' ∧
      (forest.addBlockLike b n).loops.length = forest'.loops.length ∧
      ∀ i l l', (forest.addBlockLike b n).get? i = some l → forest'.get? i = some l' →
        l.header = l'.header ∧ (∀ x, l.contains x = l'.contains x) ∧
        l.parent = l'.parent ∧ l.children = l'.children ∧ l.depth = l'.depth ∧
        l.blocks.Perm l'.blocks ∧ (l.header ≠ b → l.blocks = l'.blocks) := by
  have hf := Function.validate_eq_ok_iff.mp hvalid
  obtain ⟨r, hr⟩ := Function.exists_entry hb
  have hf' := hf.split hroom hb hk
  have hr' : Function.entry? (f.split b k) = some r := (Function.entry?_split hb).trans hr
  have hs := hf.splitsOff hroom hb hk (List.mem_of_head? hr)
  obtain ⟨t, ht, hcorrect, -⟩ := DominatorTree.compute_eq_ok hf hr
  obtain ⟨t', ht', hcorrect', -⟩ := DominatorTree.compute_eq_ok hf' hr'
  obtain ⟨loops, hforest, -⟩ := compute_eq_ok hf hr hcorrect
  obtain ⟨loops', hforest', -⟩ := compute_eq_ok hf' hr' hcorrect'
  have hd := describes_of_compute hf hr ht hforest
  have hd' := describes_of_compute hf' hr' ht' hforest'
  have hheaders := map_header_split hf hroom hb hk hr hcorrect hcorrect' hforest hforest'
  refine ⟨f.nextBlock, f.split b k, t, t', _, _, hf.splitBlock_eq hb hk, ht, hforest, ht', hforest',
    ?_, ?_⟩
  · have hlength := congrArg List.length hheaders
    rw [List.length_map, List.length_map] at hlength
    rw [addBlockLike, List.length_map, hlength]
  · intro i added l' hadded hl'
    rw [get?_addBlockLike] at hadded
    obtain ⟨l, hl, rfl⟩ := Option.map_eq_some_iff.mp hadded
    obtain ⟨l'', hl'', hheader⟩ := exists_of_map_header hheaders hl
    obtain rfl := Option.some.inj (hl''.symm.trans hl')
    have hmem : l ∈ nest loops := List.mem_of_getElem? hl
    have hmem' : l'' ∈ nest loops' := List.mem_of_getElem? hl''
    have hheader' : (if l.contains b then l.insertAfter b f.nextBlock else l).header =
        l''.header := (header_insertAfter l b _).trans hheader.symm
    obtain ⟨hcontains, hperm⟩ :=
      (describes_insertAfter hs (hd.loop l hmem)).agrees (hd'.loop l'' hmem') hheader'
    obtain ⟨hparent, hchildren, hdepth⟩ :=
      place_split hf hroom hb hk hr hcorrect hcorrect' hforest hforest' hl hl''
    obtain ⟨hparent', hchildren', hdepth'⟩ := place_added l b f.nextBlock
    refine ⟨hheader', hcontains, hparent'.trans hparent, hchildren'.trans hchildren,
      hdepth'.trans hdepth, hperm, ?_⟩
    rw [header_insertAfter]
    intro hne
    exact blocks_split hf hroom hb hk hr hforest hforest' hmem hmem' (hd.loop l hmem) hne
      hheader.symm hcontains

/-- The header of a loop between two others is split. It stands behind the blocks of its loop, so
there, and only there, the two forests list the blocks in different orders. -/
theorem addBlockLike_agrees_grove :
    grove.validate = .ok () ∧ grove.splitBlock ⟨2⟩ 0 = .ok (⟨8⟩, grove.split ⟨2⟩ 0) ∧
    compute grove groveTree = .ok groveLoops ∧
    ∃ t' forest', DominatorTree.compute (grove.split ⟨2⟩ 0) = .ok t' ∧
      compute (grove.split ⟨2⟩ 0) t' = .ok forest' ∧
      ((groveLoops.addBlockLike ⟨2⟩ ⟨8⟩).get? 3).map Loop.blocks = some [⟨2⟩, ⟨8⟩, ⟨4⟩, ⟨3⟩] ∧
      (forest'.get? 3).map Loop.blocks = some [⟨2⟩, ⟨4⟩, ⟨3⟩, ⟨8⟩] ∧
      ∀ i l l', (groveLoops.addBlockLike ⟨2⟩ ⟨8⟩).get? i = some l → forest'.get? i = some l' →
        l.header = l'.header ∧ l.children = l'.children ∧ l.blocks.Perm l'.blocks ∧
        (l.header ≠ ⟨2⟩ → l.blocks = l'.blocks) := by
  have hvalid : grove.validate = .ok () := by decide +kernel
  have htree : DominatorTree.compute grove = .ok groveTree := by decide +kernel
  have hloops : compute grove groveTree = .ok groveLoops := by decide +kernel
  have hsplit : grove.splitBlock ⟨2⟩ 0 = .ok (⟨8⟩, grove.split ⟨2⟩ 0) := by decide +kernel
  have hblocks : (DominatorTree.compute (grove.split ⟨2⟩ 0) >>= fun t' => do
      return ((← compute (grove.split ⟨2⟩ 0) t').get? 3).map Loop.blocks) =
        .ok (some [⟨2⟩, ⟨4⟩, ⟨3⟩, ⟨8⟩]) := by decide +kernel
  obtain ⟨n, f', t, t', forest, forest', hsplit', ht, hforest, ht', hforest', -, hall⟩ :=
    addBlockLike_agrees grove hvalid (by decide) ⟨2⟩ (by decide) 0 (by decide)
  obtain ⟨rfl, rfl⟩ := Prod.mk.inj (Except.ok.inj (hsplit.symm.trans hsplit'))
  obtain rfl := Except.ok.inj (htree.symm.trans ht)
  obtain rfl := Except.ok.inj (hloops.symm.trans hforest)
  rw [ht'] at hblocks
  simp only [bind, Except.bind, hforest'] at hblocks
  refine ⟨hvalid, hsplit, hloops, t', forest', ht', hforest', by decide,
    Except.ok.inj hblocks, ?_⟩
  intro i l l' hl hl'
  obtain ⟨hheader, -, -, hchildren, -, hperm, hsame⟩ := hall i l l' hl hl'
  exact ⟨hheader, hchildren, hperm, hsame⟩

end LoopForest

end Lockstep
